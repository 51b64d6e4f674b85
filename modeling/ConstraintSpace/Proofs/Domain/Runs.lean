import ConstraintSpace.Event
import Mathlib

/-!
# Runs of narrowings

A kind of domain stands for finite sets of members, and every kind of narrowing keeps the
members that satisfy a condition.  Where one narrowing does to a domain what it does to its
members, so does any sequence of them.
-/

namespace ConstraintSpace

section

variable {D X M : Type}

/-- The domain after narrowings; one that finds no domain leaves it as it is. -/
def narrowed (apply : M → D → Option (D × EventSet)) (moves : List M) (d : D) : D :=
  moves.foldl (fun d move => ((apply move d).map Prod.fst).getD d) d

/-- The members that narrowings leave of a set; one that would leave none keeps all. -/
def kept (keeps : M → X → Prop) [∀ move, DecidablePred (keeps move)] (moves : List M)
    (members : Finset X) : Finset X :=
  moves.foldl
    (fun members move =>
      if (members.filter (keeps move)).Nonempty then members.filter (keeps move) else members)
    members

variable {apply : M → D → Option (D × EventSet)} {keeps : M → X → Prop}
variable [∀ move, DecidablePred (keeps move)] {Holds : D → Finset X → Prop}

/-- A narrowing finds no domain exactly where it would keep no member of the domain, and
leaves just the members that it keeps. -/
def InStep (apply : M → D → Option (D × EventSet)) (keeps : M → X → Prop)
    [∀ move, DecidablePred (keeps move)] (Holds : D → Finset X → Prop) : Prop :=
  ∀ move d members, Holds d members →
    (apply move d = none ∧ members.filter (keeps move) = ∅) ∨
      ∃ d' events, apply move d = some (d', events) ∧
        (members.filter (keeps move)).Nonempty ∧ Holds d' (members.filter (keeps move))

variable {d d' : D} {members : Finset X} {events : EventSet} {move : M}

theorem InStep.eq_none_iff (hstep : InStep apply keeps Holds) (hholds : Holds d members) :
    apply move d = none ↔ members.filter (keeps move) = ∅ := by
  rcases hstep move d members hholds with ⟨hnone, hempty⟩ | ⟨d', events, hsome, hkept, -⟩
  · exact iff_of_true hnone hempty
  · exact iff_of_false (by simp [hsome]) hkept.ne_empty

theorem InStep.of_eq_some (hstep : InStep apply keeps Holds) (hholds : Holds d members)
    (hsome : apply move d = some (d', events)) : Holds d' (members.filter (keeps move)) := by
  rcases hstep move d members hholds with ⟨hnone, -⟩ | ⟨d'', events', hsome', -, hholds'⟩
  · simp [hnone] at hsome
  · obtain ⟨rfl, -⟩ := Prod.mk.inj (Option.some.inj (hsome'.symm.trans hsome))
    exact hholds'

/-- What a sequence of narrowings does to a domain it does to the members. -/
theorem InStep.run (hstep : InStep apply keeps Holds) (hholds : Holds d members)
    (moves : List M) : Holds (narrowed apply moves d) (kept keeps moves members) := by
  induction moves generalizing d members with
  | nil => exact hholds
  | cons move rest ih =>
      simp only [narrowed, kept, List.foldl_cons]
      rcases hstep move d members hholds with
        ⟨hnone, hempty⟩ | ⟨d', events, hsome, hkept, hholds'⟩
      · rw [hnone, hempty, if_neg Finset.not_nonempty_empty]
        exact ih hholds
      · rw [hsome, if_pos hkept]
        exact ih hholds'

end

end ConstraintSpace
