import ConstraintSpace.Fault

/-!
# Arrays with keys

A sequence that hands out a key for every element pushed to it; keys count up
from zero and stay valid.
-/

namespace ConstraintSpace

structure KeyedArray (α : Type) where
  elements : Array α
deriving DecidableEq, Repr

namespace KeyedArray

variable {α : Type}

def empty : KeyedArray α := { elements := #[] }

def ofList (xs : List α) : KeyedArray α := { elements := xs.toArray }

def size (a : KeyedArray α) : Nat := a.elements.size

def isEmpty (a : KeyedArray α) : Bool := a.elements.isEmpty

def toList (a : KeyedArray α) : List α := a.elements.toList

def push (a : KeyedArray α) (x : α) : Nat × KeyedArray α :=
  (a.elements.size, { elements := a.elements.push x })

def get? (a : KeyedArray α) (key : Nat) : Option α := a.elements[key]?

/-- Replaces an element and gives the old one; an unknown key changes nothing. -/
def replace (a : KeyedArray α) (key : Nat) (x : α) : Option α × KeyedArray α :=
  (a.elements[key]?, { elements := a.elements.setIfInBounds key x })

/-- The element of a key that has to be known. -/
def index (a : KeyedArray α) (key : Nat) : Except Breach α :=
  match a.elements[key]? with
  | some x => .ok x
  | none => .error .outOfRange

/-- Replaces the element of a key that has to be known. -/
def set (a : KeyedArray α) (key : Nat) (x : α) : Except Breach (KeyedArray α) :=
  if key < a.elements.size then .ok { elements := a.elements.setIfInBounds key x }
  else .error .outOfRange

@[simp]
theorem toList_push (a : KeyedArray α) (x : α) : (a.push x).2.toList = a.toList ++ [x] := by
  simp [push, toList]

theorem get?_push (a : KeyedArray α) (x : α) : (a.push x).2.get? (a.push x).1 = some x := by
  simp [push, get?]

end KeyedArray

end ConstraintSpace
