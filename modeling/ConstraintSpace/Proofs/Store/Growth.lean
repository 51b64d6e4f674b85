import ConstraintSpace.Proofs.Domain.Creation
import ConstraintSpace.Proofs.Store.Assignment

/-!
# New variables

A store grows by a variable of one of its kinds.  The variables that it had keep
their domains and their pending events, so a grown store refines the old one, and
it admits an assignment when the old one does and the new variable has its value
in its domain.
-/

namespace ConstraintSpace

namespace Store

variable {s s' : Store}

theorem getD_push {α : Type} (xs : Array α) (x default : α) (id : Nat) :
    (xs.push x)[id]?.getD default =
      if id = xs.size then x else xs[id]?.getD default := by
  rw [Array.getElem?_push]
  split <;> rfl

theorem int_addInt (d : IntDomain) (s : Store) (id : Nat) :
    (s.addInt d).2.int id = if id = s.ints.size then d else s.int id :=
  getD_push s.ints d _ id

theorem float_addFloat (d : FloatDomain) (s : Store) (id : Nat) :
    (s.addFloat d).2.float id = if id = s.floats.size then d else s.float id :=
  getD_push s.floats d _ id

theorem set_addSet (d : SetDomain) (s : Store) (id : Nat) :
    (s.addSet d).2.set id = if id = s.sets.size then d else s.set id :=
  getD_push s.sets d _ id

/-- The store has all variables of the other one, each with its domain, and the
same pending events. -/
structure Grows (s s' : Store) : Prop where
  valid : s.Valid → s'.Valid
  knows : ∀ v, s.knows v = true → s'.knows v = true
  int_eq : ∀ id < s.ints.size, s'.int id = s.int id
  float_eq : ∀ id < s.floats.size, s'.float id = s.float id
  set_eq : ∀ id < s.sets.size, s'.set id = s.set id
  pending : s'.pending = s.pending

theorem grows_addInt {d : IntDomain} (hd : d.Valid) (hlimits : d.InLimits)
    (s : Store) : s.Grows (s.addInt d).2 where
  valid := fun hvalid => ⟨fun id => by
      rw [int_addInt]
      split
      · exact hd
      · exact hvalid.int id,
    fun id => by
      rw [int_addInt]
      split
      · exact hlimits
      · exact hvalid.limits id,
    hvalid.float, hvalid.set⟩
  knows := fun v hv => by
    cases v with
    | int id =>
        simp only [Store.knows, addInt, Array.size_push, decide_eq_true_eq] at hv ⊢
        omega
    | float id => exact hv
    | set id => exact hv
  int_eq := fun id hid => by rw [int_addInt, if_neg (Nat.ne_of_lt hid)]
  float_eq := fun _ _ => rfl
  set_eq := fun _ _ => rfl
  pending := rfl

theorem grows_addFloat {d : FloatDomain} (hd : d.Valid) (s : Store) :
    s.Grows (s.addFloat d).2 where
  valid := fun hvalid => ⟨hvalid.int, hvalid.limits, fun id => by
      rw [float_addFloat]
      split
      · exact hd
      · exact hvalid.float id,
    hvalid.set⟩
  knows := fun v hv => by
    cases v with
    | int id => exact hv
    | float id =>
        simp only [Store.knows, addFloat, Array.size_push, decide_eq_true_eq] at hv ⊢
        omega
    | set id => exact hv
  int_eq := fun _ _ => rfl
  float_eq := fun id hid => by rw [float_addFloat, if_neg (Nat.ne_of_lt hid)]
  set_eq := fun _ _ => rfl
  pending := rfl

theorem grows_addSet {d : SetDomain} (hd : d.Valid) (s : Store) :
    s.Grows (s.addSet d).2 where
  valid := fun hvalid => ⟨hvalid.int, hvalid.limits, hvalid.float, fun id => by
      rw [set_addSet]
      split
      · exact hd
      · exact hvalid.set id⟩
  knows := fun v hv => by
    cases v with
    | int id => exact hv
    | float id => exact hv
    | set id =>
        simp only [Store.knows, addSet, Array.size_push, decide_eq_true_eq] at hv ⊢
        omega
  int_eq := fun _ _ => rfl
  float_eq := fun _ _ => rfl
  set_eq := fun id hid => by rw [set_addSet, if_neg (Nat.ne_of_lt hid)]
  pending := rfl

theorem Grows.refines (hgrows : s.Grows s') : s.Refines s' where
  ints_size := by
    by_contra hless
    have := hgrows.knows (.int s'.ints.size) (by simpa [Store.knows] using hless)
    simp [Store.knows] at this
  sets_size := by
    by_contra hless
    have := hgrows.knows (.set s'.sets.size) (by simpa [Store.knows] using hless)
    simp [Store.knows] at this
  int_subset := fun id hid x hx => by rwa [hgrows.int_eq id hid] at hx
  set_shrinks := fun id hid => by
    rw [hgrows.set_eq id hid]
    exact SetDomain.Shrinks.refl _

/-- A variable that the store knew did not change. -/
theorem Grows.eventsTo (hgrows : s.Grows s') (hvalid : s.Valid) {v : Variable}
    (hknown : s.knows v = true) : s.eventsTo s' v = .empty := by
  cases v with
  | int id =>
      have hid : id < s.ints.size := by simpa [Store.knows] using hknown
      simp only [Store.eventsTo, hgrows.int_eq id hid]
      exact IntDomain.eventsTo_self _
  | float id =>
      have hid : id < s.floats.size := by simpa [Store.knows] using hknown
      simp only [Store.eventsTo, hgrows.float_eq id hid]
      exact (hvalid.float id).eventsTo_self
  | set id =>
      have hid : id < s.sets.size := by simpa [Store.knows] using hknown
      simp only [Store.eventsTo, hgrows.set_eq id hid]
      exact SetDomain.eventsTo_self _

end Store

end ConstraintSpace
