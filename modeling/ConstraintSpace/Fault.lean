import ConstraintSpace.Double

/-!
# Failures, refusals and breaches

Three things may go wrong.  An `Inconsistency` is an answer: the space has no
solution.  A `SpaceError` refuses an operation and leaves the space as it was.
A `Breach` is a violated precondition of the library, such as a view of a
variable that was never created; nothing is promised after it.
-/

namespace ConstraintSpace

inductive Inconsistency where
  | emptyDomain
  | conflict
deriving DecidableEq, Repr

namespace Inconsistency

def name : Inconsistency → String
  | emptyDomain => "EmptyDomain"
  | conflict => "Conflict"

def message : Inconsistency → String
  | emptyDomain => "a domain became empty"
  | conflict => "a propagator detected a conflict"

end Inconsistency

inductive Breach where
  | missingVariable
  | notANumber
  | overflow
  | nothingToSelect
  | silentView
  | unknownWatch
  | scriptEnded
  | replayDiffers
  | emptyRange
  | outOfRange
deriving DecidableEq, Repr

/-- Why an operation is illegal. -/
inductive Illegality where
  | lowerSetOutsideUpper
  | floatForDiscrete
  | integerForFloat
  | foreignPosition
  | rejected (reason : String)
deriving DecidableEq, Repr

namespace Illegality

def message : Illegality → String
  | lowerSetOutsideUpper =>
    "the lower bound of a set variable must be a subset of its upper bound"
  | floatForDiscrete => "a float value cannot be committed to an integer or set variable"
  | integerForFloat => "an integer value cannot be committed to a float variable"
  | foreignPosition => "the choice refers to a variable the brancher does not have"
  | rejected reason => reason

end Illegality

inductive SpaceError where
  | boundsOrder (lower upper : Double)
  | outOfLimits
  | spaceFailed
  | notStable
  | noBrancher
  | illegalAlternative (alternative alternatives : Nat)
  | unknownBrancher
  | illegalOperation (reason : Illegality)
  | tooFewArguments
  | zeroScale
deriving DecidableEq, Repr

namespace SpaceError

def name : SpaceError → String
  | boundsOrder _ _ => "BoundsOrder"
  | outOfLimits => "OutOfLimits"
  | spaceFailed => "SpaceFailed"
  | notStable => "NotStable"
  | noBrancher => "NoBrancher"
  | illegalAlternative _ _ => "IllegalAlternative"
  | unknownBrancher => "UnknownBrancher"
  | illegalOperation _ => "IllegalOperation"
  | tooFewArguments => "TooFewArguments"
  | zeroScale => "ZeroScale"

/-- The errors that carry nothing. -/
def ofName? (text : String) : Option SpaceError :=
  [outOfLimits, spaceFailed, notStable, noBrancher, unknownBrancher, tooFewArguments,
    zeroScale].find? (·.name = text)

def message : SpaceError → String
  | boundsOrder lower upper =>
    "The lower bound " ++ lower.text ++ " is larger than the upper bound " ++ upper.text
  | outOfLimits => "A value falls outside of the representable limits of its domain"
  | spaceFailed => "The operation was applied to a failed space"
  | notStable => "A choice was requested while propagators are still scheduled"
  | noBrancher => "A choice was requested but no brancher has alternatives left"
  | illegalAlternative alternative alternatives =>
    "Alternative " ++ toString alternative ++ " was committed but the choice has " ++
      toString alternatives ++ " alternatives"
  | unknownBrancher => "The choice refers to a brancher which does not exist in this space"
  | illegalOperation reason => "Illegal operation: " ++ reason.message
  | tooFewArguments => "The operation requires at least one argument"
  | zeroScale => "A view cannot scale its variable by zero"

end SpaceError

/-- How an operation on a space ends when it gives no value. -/
inductive Fault where
  | refused (error : SpaceError)
  | breached (breach : Breach)
deriving DecidableEq, Repr

/-- How a narrowing ends when it narrows nothing: it would empty a domain. -/
inductive Misstep where
  | emptied
  | breached (breach : Breach)
deriving DecidableEq, Repr

end ConstraintSpace
