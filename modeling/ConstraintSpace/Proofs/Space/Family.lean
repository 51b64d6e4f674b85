import ConstraintSpace.Proofs.Space.Acts

/-!
# Families of spaces

A copy lives on beside the space that it was made of, may be copied itself, and goes when
it is dropped.  A family is all the spaces that came about so, in the order in which they
did, together with the next number that no shared instance has: all copies of a family take
the numbers of their instances from the same source.
-/

namespace ConstraintSpace

/-- The place of a space stays empty once the space is dropped. -/
structure Family where
  spaces : List (Option Space)
  next : Nat

/-- What can happen to a family. -/
inductive Move where
  | create
  | issue
  | ask (place : Nat) (act : Space.Act)
  | copy (place : Nat) (mode : CopyMode)
  | drop (place : Nat)

/-- The act leaves another space in place of the one that it is asked of. -/
def Space.Act.replaces : Space.Act → Bool
  | .copy _ _ => true
  | _ => false

namespace Family

def empty : Family := { spaces := [], next := 0 }

/-- The space at a place, unless it was dropped. -/
def space? (f : Family) (place : Nat) : Option Space := f.spaces[place]?.join

/-- A new space, a new number for a shared instance, an operation on a space, a copy of
one, or the end of one.  Nothing can be asked of a space that is not there, and a family
goes on only where the operation does. -/
def move (f : Family) : Move → Option Family
  | .create => some { f with spaces := f.spaces ++ [some .new] }
  | .issue => some { f with next := f.next + 1 }
  | .ask place act =>
    match f.space? place with
    | none => none
    | some s =>
      if act.replaces then none
      else (act.perform s).map fun s => { f with spaces := f.spaces.set place (some s) }
  | .copy place mode =>
    match f.space? place with
    | none => none
    | some s =>
      let (t, next) := s.copy mode f.next
      some { spaces := f.spaces ++ [some t], next }
  | .drop place =>
    match f.space? place with
    | none => none
    | some _ => some { f with spaces := f.spaces.set place none }

variable {f g : Family} {place : Nat} {s t : Space} {act : Space.Act} {mode : CopyMode}

theorem space?_eq_some : f.space? place = some s ↔ f.spaces[place]? = some (some s) := by
  unfold space?
  cases f.spaces[place]? with
  | none => simp
  | some entry => simp

theorem space?_push (entry : Option Space) (next : Nat) :
    space? { spaces := f.spaces ++ [entry], next } place =
      if place = f.spaces.length then entry else f.space? place := by
  unfold space?
  by_cases heq : place = f.spaces.length
  · subst heq
    simp
  · rw [if_neg heq]
    by_cases hlt : place < f.spaces.length
    · rw [List.getElem?_append_left hlt]
    · have hge : f.spaces.length + 1 ≤ place := by omega
      rw [List.getElem?_eq_none (by simpa using hge), List.getElem?_eq_none (by omega)]

theorem space?_set (hs : f.space? place = some s) (entry : Option Space) (other : Nat) :
    space? { f with spaces := f.spaces.set place entry } other =
      if other = place then entry else f.space? other := by
  have hlt : place < f.spaces.length := by
    by_contra hge
    rw [space?_eq_some, List.getElem?_eq_none (not_lt.mp hge)] at hs
    simp at hs
  unfold space?
  by_cases heq : other = place
  · subst heq
    simp [hlt]
  · rw [if_neg heq, List.getElem?_set_ne (Ne.symm heq)]

theorem move_ask (hs : f.space? place = some s) (hkeeps : act.replaces = false) :
    f.move (.ask place act) =
      (act.perform s).map fun t => { f with spaces := f.spaces.set place (some t) } := by
  simp only [move, hs, hkeeps, Bool.false_eq_true, if_false]

theorem move_copy (hs : f.space? place = some s) :
    f.move (.copy place mode) =
      some { spaces := f.spaces ++ [some (s.copy mode f.next).1],
             next := (s.copy mode f.next).2 } := by
  simp only [move, hs]

end Family

end ConstraintSpace
