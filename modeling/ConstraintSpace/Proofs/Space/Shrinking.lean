import ConstraintSpace.Proofs.Space.Runs

/-!
# Domains only shrink

Whatever is asked of a space, no domain gains a value and none becomes empty, also
where the operation ends in failure after some of its narrowings were done.  The
domain of an integer variable stays in normal form: its bounds are members, its holes
lie strictly between them, ascend and leave a member between each other, and the
number of removed values is that of the values in the holes.
-/

namespace ConstraintSpace

namespace Hole

/-- Holes that are spread out leave a value between any two of them. -/
theorem Spread.pairwise {below above : Int} {holes : List Hole}
    (hspread : Spread below above holes) :
    holes.Pairwise fun hole later => hole.last + 1 < later.first := by
  induction holes generalizing below with
  | nil => exact .nil
  | cons hole rest ih =>
      obtain ⟨-, -, -, hrest⟩ := hspread
      exact .cons (fun later hlater => (hrest.below_lt later hlater).1) (ih hrest)

theorem total_eq_sum (holes : List Hole) : total holes = (holes.map size).sum := by
  induction holes with
  | nil => rfl
  | cons hole rest ih => rw [total, ih, List.map_cons, List.sum_cons]

end Hole

/-- The normal form of an integer domain. -/
structure IntDomain.Normal (d : IntDomain) : Prop where
  lower_mem : d.lower ∈ d
  upper_mem : d.upper ∈ d
  inside : ∀ hole ∈ d.holes,
    d.lower < hole.first ∧ hole.first ≤ hole.last ∧ hole.last < d.upper
  apart : d.holes.Pairwise fun hole later => hole.last + 1 < later.first
  removed_eq : d.removed = (d.holes.map Hole.size).sum

theorem IntDomain.Valid.normal {d : IntDomain} (hvalid : d.Valid) : d.Normal where
  lower_mem := hvalid.lower_mem
  upper_mem := hvalid.upper_mem
  inside := hvalid.spread.below_lt
  apart := hvalid.spread.pairwise
  removed_eq := hvalid.removed_eq.trans (Hole.total_eq_sum d.holes)

namespace Store

variable {s s' : Store}

/-- No variable has an empty domain, and the domains of integers are in normal form. -/
structure Healthy (s : Store) : Prop where
  ints : ∀ id < s.ints.size, (∃ x, x ∈ s.int id) ∧ (s.int id).Normal
  sets : ∀ id < s.sets.size, ∃ elements : Finset Int, elements ∈ s.set id

theorem Valid.healthy (hvalid : s.Valid) : s.Healthy where
  ints := fun id _ => ⟨⟨_, (hvalid.int id).lower_mem⟩, (hvalid.int id).normal⟩
  sets := fun id _ => (hvalid.set id).exists_mem

/-- The variables of the first store are there in the second one, and none of them
has a value in its domain there that it does not have in the first. -/
structure Encloses (s s' : Store) : Prop where
  ints_size : s.ints.size ≤ s'.ints.size
  sets_size : s.sets.size ≤ s'.sets.size
  ints : ∀ id < s.ints.size, ∀ x, x ∈ s'.int id → x ∈ s.int id
  sets : ∀ id < s.sets.size, ∀ elements : Finset Int,
    elements ∈ s'.set id → elements ∈ s.set id

theorem Refines.encloses (hrefines : s.Refines s') : s.Encloses s' where
  ints_size := hrefines.ints_size
  sets_size := hrefines.sets_size
  ints := hrefines.int_subset
  sets := fun id hid _ => (hrefines.set_shrinks id hid).mem

end Store

namespace Space

variable {s s' : Space}

/-- After any operations, one more of them only takes values out of the domains, and
leaves all domains healthy. -/
theorem domains_shrink (hreaches : new.Reaches s) {act : Act}
    (hperform : act.perform s = some s') :
    s.store.Encloses s'.store ∧ s'.store.Healthy := by
  have hsound := (hreaches.keeps sound_new).sound
  have hkeeps := act.keeps hsound hperform
  exact ⟨hkeeps.refines.encloses, hkeeps.sound.store.healthy⟩

/-- A post that fails at its fourth narrowing has done the first three. -/
theorem failed_post_shrinks :
    let act : Act := .post false [.lower (.var 0) 3, .remove (.var 0) 5, .require 0 2,
      .fix (.var 1) 7, .remove (.var 0) 8]
    ∃ s s', performAll [.newInt 0 9, .newInt 0 5, .newSet [] [1, 2, 3] (0, 2)] new = some s ∧
      new.Reaches s ∧ act.perform s = some s' ∧ s'.failure = some .emptyDomain ∧
      s'.store.ints = #[⟨3, 9, [⟨5, 5⟩], 1⟩, ⟨0, 5, [], 0⟩] ∧
      s'.store.sets = #[⟨[2], [1, 2, 3], 1, 2⟩] ∧
      s.store.Encloses s'.store ∧ s'.store.Healthy := by
  intro act
  have hrun : ((performAll [.newInt 0 9, .newInt 0 5, .newSet [] [1, 2, 3] (0, 2)] new).bind
      fun s => (act.perform s).map fun s' => (s'.failure, s'.store.ints, s'.store.sets)) =
        some (some .emptyDomain, #[⟨3, 9, [⟨5, 5⟩], 1⟩, ⟨0, 5, [], 0⟩],
          #[⟨[2], [1, 2, 3], 1, 2⟩]) := by
    decide +kernel
  obtain ⟨s, hbefore, hrun⟩ := Option.bind_eq_some_iff.mp hrun
  obtain ⟨s', hperform, hs'⟩ := Option.map_eq_some_iff.mp hrun
  simp only [Prod.mk.injEq] at hs'
  have hreaches := reaches_of_performAll hbefore
  obtain ⟨hencloses, hhealthy⟩ := domains_shrink hreaches hperform
  exact ⟨s, s', hbefore, hreaches, hperform, hs'.1, hs'.2.1, hs'.2.2, hencloses, hhealthy⟩

end Space

end ConstraintSpace
