import ConstraintSpace.Domain.Float
import ConstraintSpace.Domain.Integer
import ConstraintSpace.Domain.Set
import ConstraintSpace.Fault

/-!
# The variables of a space

A store holds the domains of all variables, numbered by kind in order of
creation, and the events that no propagator has heard of yet.  An event of a
variable is pending at most once, in the order of its first occurrence.  Every
change of a domain goes through the narrowings of this module; one that would
empty a domain changes nothing.
-/

namespace ConstraintSpace

inductive Variable where
  | int (id : Nat)
  | float (id : Nat)
  | set (id : Nat)
deriving DecidableEq, Repr

structure Store where
  ints : Array IntDomain
  floats : Array FloatDomain
  sets : Array SetDomain
  pending : Array (Event × Variable)
deriving DecidableEq, Repr

/-- A computation that narrows domains; it stops at the first misstep and keeps
what was narrowed before. -/
abbrev Narrow := EStateM Misstep Store

namespace Store

def empty : Store := { ints := #[], floats := #[], sets := #[], pending := #[] }

def knows (s : Store) : Variable → Bool
  | .int id => id < s.ints.size
  | .float id => id < s.floats.size
  | .set id => id < s.sets.size

/-- The domain of an integer variable.  A variable that was never created reads
as an open domain; whoever acts on a reading asks `knows` first. -/
def int (s : Store) (id : Nat) : IntDomain := s.ints[id]?.getD (.interval 0 1)

def float (s : Store) (id : Nat) : FloatDomain :=
  s.floats[id]?.getD { lower := .ofNat 0, upper := .ofNat 1 }

def set (s : Store) (id : Nat) : SetDomain :=
  s.sets[id]?.getD { glb := [], lub := [0], cardLower := 0, cardUpper := 1 }

def addInt (d : IntDomain) (s : Store) : Nat × Store :=
  (s.ints.size, { s with ints := s.ints.push d })

def addFloat (d : FloatDomain) (s : Store) : Nat × Store :=
  (s.floats.size, { s with floats := s.floats.push d })

def addSet (d : SetDomain) (s : Store) : Nat × Store :=
  (s.sets.size, { s with sets := s.sets.push d })

/-- Makes an event of a variable pending unless it is. -/
def raise (v : Variable) (pending : Array (Event × Variable)) (event : Event) :
    Array (Event × Variable) :=
  if pending.contains (event, v) then pending else pending.push (event, v)

def record (s : Store) (v : Variable) (events : EventSet) : Store :=
  { s with pending := events.toList.foldl (raise v) s.pending }

def isQuiet (s : Store) : Bool := s.pending.isEmpty

def silence (s : Store) : Store := { s with pending := #[] }

/-- Drops with every narrowing that changes a domain. -/
def measure (s : Store) : Nat :=
  (s.ints.foldl (fun n d => n + d.size) 0) + (s.floats.foldl (fun n d => n + d.measure) 0) +
    (s.sets.foldl (fun n d => n + d.measure) 0)

def narrowInt (id : Nat) (op : IntDomain → Option (IntDomain × EventSet)) : Narrow Change :=
  fun s =>
    match s.ints[id]? with
    | none => .error (.breached .missingVariable) s
    | some d =>
      match op d with
      | none => .error .emptied s
      | some (d, events) =>
        .ok (.ofEvents events)
          ({ s with ints := s.ints.setIfInBounds id d }.record (.int id) events)

def narrowFloat (id : Nat) (op : FloatDomain → Option (FloatDomain × EventSet)) :
    Narrow Change :=
  fun s =>
    match s.floats[id]? with
    | none => .error (.breached .missingVariable) s
    | some d =>
      match op d with
      | none => .error .emptied s
      | some (d, events) =>
        .ok (.ofEvents events)
          ({ s with floats := s.floats.setIfInBounds id d }.record (.float id) events)

def narrowSet (id : Nat) (op : SetDomain → Option (SetDomain × EventSet)) : Narrow Change :=
  fun s =>
    match s.sets[id]? with
    | none => .error (.breached .missingVariable) s
    | some d =>
      match op d with
      | none => .error .emptied s
      | some (d, events) =>
        .ok (.ofEvents events)
          ({ s with sets := s.sets.setIfInBounds id d }.record (.set id) events)

/-- A bound of a float variable is a number. -/
def narrowFloatBound (id : Nat) (side : Side) (value : Double) : Narrow Change :=
  fun s =>
    if s.knows (.float id) && value.isNaN then .error (.breached .notANumber) s
    else
      match side with
      | .lower => narrowFloat id (FloatDomain.setLower value) s
      | .upper => narrowFloat id (FloatDomain.setUpper value) s

end Store

end ConstraintSpace
