import ConstraintSpace.Proofs.Search.Enumeration
import ConstraintSpace.Proofs.Space.Kernel
import ConstraintSpace.Proofs.Space.Recomputation

/-!
# Backtracking

The stack of a search tracks a path down the tree of choices: every frame stands for
the choice of one node, and the alternatives that it has not taken are nodes that are
left to explore.  Whatever copies the frames keep, replaying the edges from the nearest
one gives the space of the deepest node, alike to the space of the plain enumeration.
-/

namespace ConstraintSpace

namespace Space

variable {s s' t u v : Space} {chosen : Choice}

/-- Of a kernel space that is branching a choice is offered. -/
theorem Kernel.offers (hkernel : s.Kernel) (hstatus : Space.status s = .ok .branching t)
    (hchoice : Space.choice t = .ok chosen u) : t.Ready ∧ u.Offers chosen := by
  obtain ⟨answer, t', hstatus', -, -, hanswered⟩ := hkernel.status
  obtain ⟨rfl, rfl⟩ := EStateM.Result.ok.inj (hstatus.symm.trans hstatus')
  have hready : t.Ready := hanswered
  obtain ⟨chosen', u', hchoice', hoffers, -⟩ := hready.choice
  obtain ⟨rfl, rfl⟩ := EStateM.Result.ok.inj (hchoice.symm.trans hchoice')
  exact ⟨hready, hoffers⟩

theorem Offers.clone (hoffers : s.Offers chosen) : s.clone.Offers chosen :=
  (alike_clone hoffers.ok).offers hoffers

theorem Offers.agrees_self (hoffers : s.Offers chosen) : chosen.agrees chosen = true := by
  obtain ⟨b, -, hapt⟩ := hoffers.apt
  obtain ⟨x, hvalue⟩ : ∃ x, chosen.value = .int x := by
    cases hb : b.branching with
    | int views selection commit =>
        rw [hb] at hapt
        obtain ⟨-, x, -, hvalue, -⟩ := hapt
        exact ⟨x, hvalue⟩
    | float views commit =>
        rw [hb] at hapt
        exact hapt.elim
    | set views selection commit =>
        rw [hb] at hapt
        obtain ⟨-, x, -, hvalue, -⟩ := hapt
        exact ⟨x, hvalue⟩
  exact Choice.agrees_self hvalue

/-- The first of the alternatives that are left, and those after it. -/
theorem Offers.alternatives_eq (hoffers : s.Offers chosen) (depth : Nat) {next : Nat}
    (hnext : next < 2) :
    ∃ v, Space.commit chosen next s.clone = .ok () v ∧
      Node.alternatives depth chosen s next =
        ⟨depth, v⟩ :: Node.alternatives depth chosen s (next + 1) := by
  obtain ⟨v, -, hcommit, -⟩ := hoffers.clone.commit hnext
  have hcount : chosen.alternatives - next = chosen.alternatives - (next + 1) + 1 := by
    rw [hoffers.alternatives]
    omega
  refine ⟨v, hcommit, ?_⟩
  simp only [Node.alternatives]
  rw [hcount, List.range'_succ, List.filterMap_cons]
  simp only [hcommit]

/-- Replaying one edge repeats the choice and its commit. -/
theorem Kernel.replay_edge (hkernel : s.Kernel) {alternative : Nat}
    (hstatus : Space.status s = .ok .branching t) (hchoice : Space.choice t = .ok chosen u)
    (hcommit : Space.commit chosen alternative u.clone = .ok () v) :
    ∃ v', Path.replay [(chosen, alternative)] s = .ok () v' ∧ v.Alike v' := by
  obtain ⟨-, hoffers⟩ := hkernel.offers hstatus hchoice
  obtain ⟨v', hcommit', halike⟩ :=
    (oblivious_commit chosen alternative).of_ok (alike_clone hoffers.ok).symm hcommit
  refine ⟨v', ?_, halike⟩
  simp only [Path.replay, bind, EStateM.bind, hstatus, hchoice, hoffers.agrees_self, if_true,
    hcommit']
  rfl

end Space

namespace Search

variable {root v w : Space} {stack : List Frame} {rest : List Node}

/-- The stack leads from the root to a space, namely that of the alternative which the
deepest frame has come to, and leaves some nodes to explore afterwards. -/
inductive Tracks (root : Space) : List Frame → Space → List Node → Prop where
  | root : Tracks root [] root []
  | frame {frame : Frame} {above : List Frame} {w t u v : Space} {rest : List Node}
      (habove : Tracks root above w rest) (hstatus : Space.status w = .ok .branching t)
      (hchoice : Space.choice t = .ok frame.choice u)
      (hcopy : ∀ copy, frame.copy = some copy → t.Alike copy)
      (hbottom : above = [] → frame.copy ≠ none) (hnext : frame.next - 1 < 2)
      (hcommit : Space.commit frame.choice (frame.next - 1) u.clone = .ok () v) :
      Tracks root (frame :: above) v
        (Node.alternatives (above.length + 1) frame.choice u frame.next ++ rest)

theorem Tracks.kernel (htracks : Tracks root stack v rest) (hroot : root.Kernel) :
    v.Kernel := by
  induction htracks with
  | root => exact hroot
  | frame _ hstatus hchoice _ _ hnext hcommit ih =>
      obtain ⟨-, hoffers⟩ := ih.offers hstatus hchoice
      obtain ⟨v', -, hcommit', hkernel, -⟩ := hoffers.clone.commit hnext
      obtain ⟨-, rfl⟩ := EStateM.Result.ok.inj (hcommit.symm.trans hcommit')
      exact hkernel

/-- From the nearest copy the edges lead to the space of the deepest frame. -/
theorem Tracks.recompute (htracks : Tracks root stack v rest) (hroot : root.Kernel)
    (hstack : stack ≠ []) :
    ∃ copy edges v', lineage stack = some (copy, edges) ∧
      Path.recompute { edges } copy = .ok () v' ∧ v.Alike v' := by
  induction htracks with
  | root => exact absurd rfl hstack
  | @frame frame above w t u v rest habove hstatus hchoice hcopy hbottom hnext hcommit ih =>
      have hkernel := habove.kernel hroot
      cases hkept : frame.copy with
      | some copy =>
          obtain ⟨hready, hoffers⟩ := hkernel.offers hstatus hchoice
          obtain ⟨v', hreplay, halike⟩ :=
            hready.kernel.replay_edge hready.status hchoice hcommit
          have hclone : t.Alike copy.clone := (hcopy copy hkept).trans
            (Space.alike_clone ((hcopy copy hkept).failure.trans hready.ok))
          obtain ⟨v'', hreplay', halike'⟩ := (Space.oblivious_replay _).of_ok hclone hreplay
          exact ⟨copy, _, v'', by simp only [lineage, hkept], hreplay', halike.trans halike'⟩
      | none =>
          obtain ⟨copy, edges, w', hlineage, hrecompute, halike⟩ :=
            ih fun hempty => hbottom hempty hkept
          obtain ⟨v', hreplay, halike'⟩ := hkernel.replay_edge hstatus hchoice hcommit
          obtain ⟨v'', hreplay', halike''⟩ := (Space.oblivious_replay _).of_ok halike hreplay
          refine ⟨copy, edges ++ [(frame.choice, frame.next - 1)], v'', ?_, ?_,
            halike'.trans halike''⟩
          · simp only [lineage, hkept, hlineage, Option.map_some]
          · have hedges : Path.replay edges copy.clone = .ok () w' := hrecompute
            simp only [Path.recompute, Space.replay_append, bind, EStateM.bind, hedges, hreplay']

/-- Backtracking comes to the next node that is left, where there is one. -/
theorem Tracks.backtrack (htracks : Tracks root stack v rest) (hroot : root.Kernel) :
    (rest = [] ∧ stack.dropWhile (fun frame => frame.choice.alternatives ≤ frame.next) = []) ∨
      ∃ frame above w rest',
        stack.dropWhile (fun frame => frame.choice.alternatives ≤ frame.next) =
          frame :: above ∧
        rest = ⟨above.length + 1, w⟩ :: rest' ∧
          Tracks root ({ frame with next := frame.next + 1 } :: above) w rest' := by
  induction htracks with
  | root => exact Or.inl ⟨rfl, rfl⟩
  | @frame frame above w t u v rest habove hstatus hchoice hcopy hbottom hnext hcommit ih =>
      by_cases hspent : frame.choice.alternatives ≤ frame.next
      · have hnone : Node.alternatives (above.length + 1) frame.choice u frame.next = [] := by
          rw [Node.alternatives, Nat.sub_eq_zero_of_le hspent]
          rfl
        rw [hnone, List.nil_append, List.dropWhile_cons_of_pos (by simpa using hspent)]
        exact ih
      · obtain ⟨-, hoffers⟩ := (habove.kernel hroot).offers hstatus hchoice
        have hless : frame.next < 2 := by
          rw [hoffers.alternatives] at hspent
          omega
        obtain ⟨w', hcommit', hsome⟩ := hoffers.alternatives_eq (above.length + 1) hless
        rw [hsome, List.cons_append, List.dropWhile_cons_of_neg (by simpa using hspent)]
        refine Or.inr ⟨frame, above, w', _, rfl, rfl, ?_⟩
        exact .frame habove hstatus hchoice hcopy hbottom hless hcommit'

end Search

end ConstraintSpace
