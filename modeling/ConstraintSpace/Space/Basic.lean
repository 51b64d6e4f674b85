import ConstraintSpace.Branching.Brancher
import ConstraintSpace.Propagator
import ConstraintSpace.WatchList

/-!
# Spaces

A space is a model together with the state of its search: variables,
propagators with what they watch, the queue of those that have to run, and
branchers.  Propagators and branchers are numbered in the order they were added;
a propagator that is no longer needed leaves an empty slot.  The journal holds
what happened, the latest first.
-/

namespace ConstraintSpace

/-- The place of a propagator, and the variables it subscribed to. -/
structure Slot where
  propagator : Option Propagator
  subscribed : List Variable

/-- An actor that is to be told of copies and of its disposal. -/
inductive Noticed where
  | propagator (id : Nat)
  | brancher (id : Nat)
deriving DecidableEq, Repr

structure SpaceCounts where
  propagations : Nat
  failures : Nat
  subsumptions : Nat
  commits : Nat
deriving DecidableEq, Repr

def SpaceCounts.zero : SpaceCounts :=
  { propagations := 0, failures := 0, subsumptions := 0, commits := 0 }

structure Space where
  store : Store
  watches : WatchList
  slots : Array Slot
  queue : Queue
  branchers : Array Brancher
  active : Nat
  noticed : List Noticed
  failure : Option Inconsistency
  counts : SpaceCounts
  journal : List Happening

/-- An operation on a space: it gives a value, or is refused, or breaches a
precondition. -/
abbrev Operation := EStateM Fault Space

namespace Space

def new : Space :=
  { store := .empty, watches := .empty, slots := #[], queue := .empty, branchers := #[]
    active := 0, noticed := [], failure := none, counts := .zero, journal := [] }

def isFailed (s : Space) : Bool := s.failure.isSome

def propagator? (s : Space) (id : Nat) : Option Propagator :=
  match s.slots[id]? with
  | some slot => slot.propagator
  | none => none

/-- The propagator of a number, where it is of the given kind. -/
def find? (s : Space) (id : Nat) (kind : Propagator.Kind) : Option Propagator :=
  (s.propagator? id).filter fun p => p.kind = kind

def findScripted? (s : Space) (id : Nat) : Option Scripted :=
  match s.find? id .scripted with
  | some (.scripted p) => some p
  | _ => none

/-- The brancher of a number, where it is of the given kind. -/
def findBrancher? (s : Space) (id : Nat) (kind : ViewBrancher.Kind) : Option ViewBrancher :=
  match s.branchers[id]? with
  | some (.viewValue b) => if b.kind = kind then some b else none
  | _ => none

def livePropagators (s : Space) : Nat :=
  s.slots.foldl (fun n slot => if slot.propagator.isSome then n + 1 else n) 0

def note (s : Space) (happening : Happening) : Space :=
  { s with journal := happening :: s.journal }

def noteAll (s : Space) (happenings : List Happening) : Space :=
  { s with journal := happenings.reverse ++ s.journal }

/-- What happened since the journal was last read, in order. -/
def readJournal (s : Space) : List Happening × Space :=
  (s.journal.reverse, { s with journal := [] })

def setPropagator (s : Space) (id : Nat) (p : Propagator) : Space :=
  { s with slots := s.slots.modify id fun slot => { slot with propagator := some p } }

/-- Refuses every operation on a failed space. -/
def checkNotFailed : Operation Unit := fun s =>
  if s.isFailed then .error (.refused .spaceFailed) s else .ok () s

def permit {α : Type} (result : Except SpaceError α) : Operation α := fun s =>
  match result with
  | .ok x => .ok x s
  | .error error => .error (.refused error) s

/-- Gives a new script to a scripted propagator and sets its runs to zero; says
whether there is one. -/
def rescript (id : Nat) (script : Nat → Store → Step) (s : Space) : Bool × Space :=
  match s.propagator? id with
  | some (.scripted p) => (true, s.setPropagator id (.scripted { p with script, runs := 0 }))
  | _ => (false, s)

end Space

end ConstraintSpace
