import ConstraintSpace.Branching.Choice
import ConstraintSpace.Branching.Strategy
import ConstraintSpace.Event
import ConstraintSpace.Shared

/-!
# Journal

What happens inside a space, in order: who was registered, notified, run,
copied and disposed, what it narrowed, and what is worth a message.  Actors are
propagators and branchers; an actor that notices is told when its space is
copied and when it is disposed.
-/

namespace ConstraintSpace

inductive Actor where
  | propagator (id : Nat) (name : String)
  | brancher (id : Nat) (label : Option String)
deriving DecidableEq, Repr

/-- What an observer saw: nothing, a position, or a list of values. -/
inductive Finding where
  | nothing
  | position (index : Nat)
  | values (values : List BranchValue)
deriving DecidableEq, Repr

inductive Happening where
  | registered (name : String) (position : Nat) (fixed : Bool)
  | notified (propagator localId : Nat) (event : Event)
  | heard (name : String) (localId : Nat) (event : Event) (fixed : Bool)
  | propagating (propagator : Nat) (name : String)
  | stepped (name : String) (run : Nat)
  | narrowed (name : String) (change : Change)
  | subsumed (propagator : Nat) (name : String)
  | failed (reason : Inconsistency)
  | copied (actor : Actor) (mode : CopyMode)
  | disposed (actor : Actor)
  | inspected (finding : Finding)
  | unsupplied (selector : Selector)
  | recomputing (depth ancestor edges : Nat)
deriving DecidableEq, Repr

inductive Level where
  | trace
  | debug
  | warn
deriving DecidableEq, Repr

def Level.name : Level → String
  | trace => "TRACE"
  | debug => "DEBUG"
  | warn => "WARN"

/-- The text of the number of a propagator. -/
def propagatorText (id : Nat) : String := "PropagatorId(" ++ toString id ++ ")"

namespace Happening

/-- The level of the message that a happening is worth. -/
def level? : Happening → Option Level
  | propagating _ _ => some .trace
  | subsumed _ _ => some .debug
  | failed _ => some .debug
  | recomputing _ _ _ => some .debug
  | unsupplied _ => some .warn
  | _ => none

/-- The text of the message that a happening is worth. -/
def text : Happening → String
  | propagating id name => "Propagating with " ++ name ++ " (" ++ propagatorText id ++ ")"
  | subsumed id name => name ++ " (" ++ propagatorText id ++ ") is subsumed"
  | failed reason => "Space failed: " ++ reason.message
  | recomputing depth ancestor edges =>
    "Recomputing depth " ++ toString depth ++ " from depth " ++ toString ancestor ++
      " over " ++ toString edges ++ " edges"
  | unsupplied .inputOrder =>
    "The InputOrder variable selector was not provided with any variables"
  | unsupplied _ => "A variable selector was not provided with any variables"
  | _ => ""

end Happening

end ConstraintSpace
