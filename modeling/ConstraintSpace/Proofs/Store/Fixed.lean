import ConstraintSpace.Proofs.Store.Assignment

/-!
# Stores whose variables are fixed

An assignment of a store gives every variable a value of its domain and names no other
variables.  A store whose variables are all fixed has one assignment, which is read off
the domains.
-/

namespace ConstraintSpace

namespace Store

/-- The assignment gives values to the variables of the store and to no others, all of
them admitted. -/
structure Assigns (s : Store) (a : Assignment) : Prop extends s.Admits a where
  ints_length : a.ints.length = s.ints.size
  sets_length : a.sets.length = s.sets.size

/-- Every variable is fixed. -/
def Fixed (s : Store) : Prop :=
  (∀ id < s.ints.size, (s.int id).isFixed = true) ∧
    ∀ id < s.sets.size, (s.set id).isFixed = true

/-- The values of variables that are fixed. -/
def assignment (s : Store) : Assignment where
  ints := (List.range s.ints.size).map fun id => (s.int id).lower
  sets := (List.range s.sets.size).map fun id => (s.set id).glb.toFinset

variable {s s' : Store} {a : Assignment}

/-- What narrowing keeps to is an assignment as before. -/
theorem Assigns.of_sizes (ha : s.Assigns a) (hints : s'.ints.size = s.ints.size)
    (hsets : s'.sets.size = s.sets.size) (hadmits : s'.Admits a) : s'.Assigns a :=
  ⟨hadmits, ha.ints_length.trans hints.symm, ha.sets_length.trans hsets.symm⟩

theorem assigns_iff_of_sizes (hints : s'.ints.size = s.ints.size)
    (hsets : s'.sets.size = s.sets.size) {keep : Prop}
    (hadmits : s'.Admits a ↔ s.Admits a ∧ keep) : s'.Assigns a ↔ s.Assigns a ∧ keep := by
  constructor
  · intro ha
    obtain ⟨hold, hkeep⟩ := hadmits.mp ha.toAdmits
    exact ⟨ha.of_sizes hints.symm hsets.symm hold, hkeep⟩
  · rintro ⟨ha, hkeep⟩
    exact ha.of_sizes hints hsets (hadmits.mpr ⟨ha.toAdmits, hkeep⟩)

/-- Where every variable is fixed there is one assignment. -/
theorem Fixed.assigns_iff (hfixed : s.Fixed) (hvalid : s.Valid) :
    s.Assigns a ↔ a = s.assignment := by
  constructor
  · intro ha
    have hints : a.ints = s.assignment.ints := by
      apply List.ext_getElem
      · simp [assignment, ha.ints_length]
      intro id hid hid'
      have hsize : id < s.ints.size := ha.ints_length ▸ hid
      have hmem := ha.int id hsize
      rw [Assignment.int, List.getElem?_eq_getElem hid, Option.getD_some] at hmem
      simpa [assignment] using IntDomain.eq_lower_of_isFixed (hfixed.1 id hsize) hmem
    have hsets : a.sets = s.assignment.sets := by
      apply List.ext_getElem
      · simp [assignment, ha.sets_length]
      intro id hid hid'
      have hsize : id < s.sets.size := ha.sets_length ▸ hid
      have hmem := ha.set id hsize
      rw [Assignment.set, List.getElem?_eq_getElem hid, Option.getD_some] at hmem
      simpa [assignment] using
        ((hvalid.set id).mem_iff_of_isFixed (hfixed.2 id hsize)).mp hmem
    obtain ⟨ints, sets⟩ := a
    cases hints
    cases hsets
    rfl
  · rintro rfl
    refine ⟨⟨fun id hid => ?_, fun id hid => ?_⟩, by simp [assignment], by simp [assignment]⟩
    · have hvalue : s.assignment.int id = (s.int id).lower := by
        simp [Assignment.int, assignment, hid]
      rw [hvalue]
      exact (hvalid.int id).lower_mem
    · have hvalue : s.assignment.set id = (s.set id).glb.toFinset := by
        simp [Assignment.set, assignment, hid]
      rw [hvalue]
      exact ((hvalid.set id).mem_iff_of_isFixed (hfixed.2 id hid)).mpr rfl

end Store

end ConstraintSpace
