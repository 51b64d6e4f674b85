import ConstraintSpace.Fault

/-!
# Choices

A choice names the brancher that made it, the position of the branched view, a
value, and the number of alternatives to commit to.
-/

namespace ConstraintSpace

inductive BranchValue where
  | int (value : Int)
  | float (value : Double)
deriving DecidableEq, Repr

namespace BranchValue

/-- Equality as of numbers: both zeros are equal, and what is not a number is
unequal to itself. -/
def agrees : BranchValue → BranchValue → Bool
  | int x, int y => x = y
  | float x, float y => x.eqv y
  | _, _ => false

def int? : BranchValue → Except SpaceError Int
  | int value => .ok value
  | float _ => .error (.illegalOperation .floatForDiscrete)

def float? : BranchValue → Except SpaceError Double
  | float value => .ok value
  | int _ => .error (.illegalOperation .integerForFloat)

def text : BranchValue → String
  | int value => toString value
  | float value => value.text

end BranchValue

structure Choice where
  brancher : Nat
  alternatives : Nat
  position : Nat
  value : BranchValue
deriving DecidableEq, Repr

namespace Choice

def agrees (x y : Choice) : Bool :=
  x.brancher = y.brancher && x.alternatives = y.alternatives && x.position = y.position &&
    x.value.agrees y.value

def text (choice : Choice) : String :=
  "[" ++ toString choice.position ++ "] " ++ choice.value.text

end Choice

end ConstraintSpace
