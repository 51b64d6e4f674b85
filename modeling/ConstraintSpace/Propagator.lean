import ConstraintSpace.Propagator.Arithmetic
import ConstraintSpace.Propagator.Scripted
import ConstraintSpace.Propagator.Subset

/-!
# Propagators

A propagator watches views, is notified of their events, and narrows domains
when it runs.  The library has four of its own; any other one is scripted.
-/

namespace ConstraintSpace

inductive Propagator where
  | notEqual (a b : IntView)
  | lessOrEqual (a b : IntView)
  | floatLessOrEqual (a b : FloatView)
  | subset (a b : Nat) (counts : SubsetCounts)
  | scripted (script : Scripted)

/-- What a run of a propagator leaves behind. -/
structure Run where
  verdict : Verdict
  propagator : Propagator
  store : Store
  notes : List Happening

namespace Propagator

def name : Propagator → String
  | notEqual _ _ => "BinaryNotEq"
  | lessOrEqual _ _ => "BinaryLessOrEqual"
  | floatLessOrEqual _ _ => "FloatLessOrEqual"
  | subset _ _ _ => "SetSubset"
  | scripted p => p.name

def priority : Propagator → Priority
  | notEqual _ _ => .high
  | lessOrEqual _ _ => .high
  | floatLessOrEqual _ _ => .medium
  | subset _ _ _ => .low
  | scripted p => p.priority

/-- Whether the propagator is told of copies and of its disposal. -/
def notices : Propagator → Bool
  | scripted p => p.notices
  | _ => false

/-- The views to watch, each for the events that can change what a run does. -/
def watches : Propagator → List Watch
  | notEqual a b => [⟨.int a, .onAssign, 0⟩, ⟨.int b, .onAssign, 1⟩]
  | lessOrEqual a b => [⟨.int a, .onLowerBound, 0⟩, ⟨.int b, .onUpperBound, 1⟩]
  | floatLessOrEqual a b => [⟨.float a, .onLowerBound, 0⟩, ⟨.float b, .onUpperBound, 1⟩]
  | subset a b _ => [⟨.set a, .any, 0⟩, ⟨.set b, .any, 1⟩]
  | scripted p => p.watches

def known (s : Store) (p : Propagator) : Bool := p.watches.all (·.view.known s)

/-- The run of a propagator that has no state. -/
def stateless (p : Propagator) (pass : Narrow Status) (s : Store) : Run :=
  if p.known s then
    match pass s with
    | .ok status s => { verdict := .ended status, propagator := p, store := s, notes := [] }
    | .error misstep s =>
      { verdict := misstep.verdict, propagator := p, store := s, notes := [] }
  else
    { verdict := .breached .missingVariable, propagator := p, store := s, notes := [] }

def run (p : Propagator) (s : Store) : Run :=
  match p with
  | notEqual a b => p.stateless (NotEqual.propagate a b) s
  | lessOrEqual a b => p.stateless (LessOrEqual.propagate a b) s
  | floatLessOrEqual a b => p.stateless (FloatLessOrEqual.propagate a b) s
  | subset a b counts =>
    if p.known s then
      match Subset.propagate a b (s, counts) with
      | .ok status (s, counts) =>
        { verdict := .ended status, propagator := .subset a b counts, store := s, notes := [] }
      | .error misstep (s, counts) =>
        { verdict := misstep.verdict, propagator := .subset a b counts, store := s, notes := [] }
    else
      { verdict := .breached .missingVariable, propagator := p, store := s, notes := [] }
  | scripted script =>
    let (verdict, script, store, notes) := script.propagate s
    { verdict, propagator := .scripted script, store, notes }

/-- Whether a notification is to be followed by a run; only a script may veto. -/
def notify (p : Propagator) (s : Store) (localId : Nat) (event : Event) :
    Except Breach (Bool × List Happening) :=
  match p with
  | scripted script => script.notify s localId event
  | _ => .ok (true, [])

/-- Passes the shared data of a copied propagator through the copy. -/
def onCopy (p : Propagator) (context : CopyContext) : Propagator × CopyContext :=
  match p with
  | scripted script =>
    let (shared, context) := context.copyAll script.shared
    (.scripted { script with shared }, context)
  | p => (p, context)

/-- The type of a propagator: its constraint and how its views are built. -/
inductive Kind where
  | notEqual (a b : IntView.Shape)
  | lessOrEqual (a b : IntView.Shape)
  | floatLessOrEqual (a b : Nat)
  | subset
  | scripted
deriving DecidableEq, Repr

def kind : Propagator → Kind
  | notEqual a b => .notEqual a.shape b.shape
  | lessOrEqual a b => .lessOrEqual a.shape b.shape
  | floatLessOrEqual a b => .floatLessOrEqual a.depth b.depth
  | subset _ _ _ => .subset
  | scripted _ => .scripted

end Propagator

end ConstraintSpace
