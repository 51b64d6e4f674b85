/-!
# Events of a domain

A narrowing raises a set of events: the domain became a single value, its lower
bound rose, its upper bound fell, or a value was removed.  A propagator watches
some of them, and what a narrowing did is summed up by the strongest of them.
-/

namespace ConstraintSpace

inductive Event where
  | assign
  | lowerBound
  | upperBound
  | removal
deriving DecidableEq, Repr

namespace Event

def name : Event → String
  | assign => "Assign"
  | lowerBound => "LowerBound"
  | upperBound => "UpperBound"
  | removal => "Removal"

def text : Event → String
  | assign => "[Event:Assign]"
  | lowerBound => "[Event:LB]"
  | upperBound => "[Event:UB]"
  | removal => "[Event:Remove]"

/-- Exchanges the two bounds, as a negation does. -/
def flip : Event → Event
  | lowerBound => upperBound
  | upperBound => lowerBound
  | assign => assign
  | removal => removal

def all : List Event := [assign, lowerBound, upperBound, removal]

def ofName? (name : String) : Option Event := all.find? (·.name = name)

end Event

structure EventSet where
  assign : Bool
  lowerBound : Bool
  upperBound : Bool
  removal : Bool
deriving DecidableEq, Repr

namespace EventSet

def empty : EventSet := ⟨false, false, false, false⟩

def any : EventSet := ⟨true, true, true, true⟩

def onAssign : EventSet := ⟨true, false, false, false⟩

def onLowerBound : EventSet := ⟨false, true, false, false⟩

def onUpperBound : EventSet := ⟨false, false, true, false⟩

def onBounds : EventSet := ⟨false, true, true, false⟩

/-- The sets that have a name. -/
def ofName? : String → Option EventSet
  | "ASSIGN" => some onAssign
  | "BOUNDS" => some onBounds
  | "LOWER_BOUND" => some onLowerBound
  | "UPPER_BOUND" => some onUpperBound
  | "ANY" => some any
  | _ => none

def contains (events : EventSet) : Event → Bool
  | .assign => events.assign
  | .lowerBound => events.lowerBound
  | .upperBound => events.upperBound
  | .removal => events.removal

def insert (events : EventSet) : Event → EventSet
  | .assign => { events with assign := true }
  | .lowerBound => { events with lowerBound := true }
  | .upperBound => { events with upperBound := true }
  | .removal => { events with removal := true }

def ofList (events : List Event) : EventSet := events.foldl insert empty

/-- The members in the order in which events are declared. -/
def toList (events : EventSet) : List Event := Event.all.filter events.contains

def isEmpty (events : EventSet) : Bool := events = empty

/-- The set seen through a negation. -/
def flip (events : EventSet) : EventSet :=
  { events with lowerBound := events.upperBound, upperBound := events.lowerBound }

theorem contains_flip (events : EventSet) (event : Event) :
    events.flip.contains event = events.contains event.flip := by
  cases event <;> rfl

end EventSet

/-- What a narrowing did to its domain, from nothing to fixing it. -/
inductive Change where
  | none
  | domain
  | bounds
  | assigned
deriving DecidableEq, Repr

namespace Change

def ofEvents (events : EventSet) : Change :=
  if events.assign then assigned
  else if events.lowerBound || events.upperBound then bounds
  else if events.removal then domain
  else none

def rank : Change → Nat
  | none => 0
  | domain => 1
  | bounds => 2
  | assigned => 3

def name : Change → String
  | none => "None"
  | domain => "Domain"
  | bounds => "Bounds"
  | assigned => "Assigned"

end Change

end ConstraintSpace
