import ConstraintSpace.Proofs.Search.Descent

/-!
# The solutions in the tree of choices

Below a posed node the tree is finite: every edge lowers the measure of the store, so
there are fewer nodes than two to the power of the measure plus one.  The solutions
among them list what the node allows, each assignment once.  This goes by induction over
the levels of the enumeration: a branching node parts what it allows between the two
nodes below it.
-/

namespace ConstraintSpace

variable {posted : List (Nat × Propagator)}

/-- The solutions have all variables fixed, and their assignments are what the space
allows, each of them once. -/
structure Space.Lists (posted : List (Nat × Propagator)) (s : Space) (solutions : List Space) :
    Prop where
  fixed : ∀ x ∈ solutions, x.store.Fixed
  nodup : (solutions.map fun x => x.store.assignment).Nodup
  mem : ∀ a, a ∈ (solutions.map fun x => x.store.assignment) ↔ s.Allows posted a

/-- Solutions of two spaces that part what a space allows. -/
theorem Space.Lists.append {s v w : Space} {first second : List Space} {keep : Assignment → Prop}
    (hfirst : v.Lists posted first) (hsecond : w.Lists posted second)
    (hv : ∀ a, v.Allows posted a ↔ s.Allows posted a ∧ keep a)
    (hw : ∀ a, w.Allows posted a ↔ s.Allows posted a ∧ ¬keep a) :
    s.Lists posted (first ++ second) where
  fixed := by
    intro x hx
    rcases List.mem_append.mp hx with hx | hx
    · exact hfirst.fixed x hx
    · exact hsecond.fixed x hx
  nodup := by
    rw [List.map_append, List.nodup_append]
    refine ⟨hfirst.nodup, hsecond.nodup, ?_⟩
    rintro a ha _ hb rfl
    exact ((hw a).mp ((hsecond.mem a).mp hb)).2 ((hv a).mp ((hfirst.mem a).mp ha)).2
  mem := by
    intro a
    rw [List.map_append, List.mem_append, hfirst.mem, hsecond.mem, hv, hw, ← and_or_left]
    exact and_iff_left (em (keep a))

namespace Node

variable {node : Node}

/-- A posed node has no solution and no children, or is a solution, or parts what it
allows between two smaller nodes. -/
theorem cases_of_posed (hposed : node.space.Posed posted) :
    (node.children = [] ∧ node.solution? = none ∧ ∀ a, ¬node.space.Allows posted a) ∨
      (∃ t, node.children = [] ∧ node.solution? = some t ∧ t.store.Fixed ∧
        ∀ a, node.space.Allows posted a ↔ a = t.store.assignment) ∨
      ∃ (first second : Node) (keep : Assignment → Prop),
        node.children = [first, second] ∧ node.solution? = none ∧
          (∀ child ∈ [first, second], child.space.Posed posted ∧
            child.space.store.measure < node.space.store.measure) ∧
          (∀ a, first.space.Allows posted a ↔ node.space.Allows posted a ∧ keep a) ∧
          ∀ a, second.space.Allows posted a ↔ node.space.Allows posted a ∧ ¬keep a := by
  rcases hposed.status_cases with
    ⟨t, hstatus, hnone⟩ | ⟨t, hstatus, hfixed, hone⟩ |
    ⟨t, hstatus, hposed', hready, hmeasure, hallows⟩
  · exact Or.inl ⟨by simp only [children, hstatus], by simp only [solution?, hstatus], hnone⟩
  · exact Or.inr (Or.inl ⟨t, by simp only [children, hstatus], by simp only [solution?, hstatus],
      hfixed, hone⟩)
  · obtain ⟨chosen, u, hchoice, hnumber, keep, hbranch⟩ := hposed'.branch hready
    obtain ⟨v, hcommit, hv, hv_less, hv_allows⟩ := hbranch 0 Nat.zero_lt_two
    obtain ⟨w, hcommit', hw, hw_less, hw_allows⟩ := hbranch 1 Nat.one_lt_two
    refine Or.inr (Or.inr ⟨⟨node.depth + 1, v⟩, ⟨node.depth + 1, w⟩, keep, ?_, ?_, ?_, ?_, ?_⟩)
    · have hrange : List.range' 0 (chosen.alternatives - 0) = [0, 1] := by
        rw [hnumber]
        rfl
      simp only [children, hstatus, hchoice, alternatives, hrange, List.filterMap_cons, hcommit,
        hcommit', List.filterMap_nil]
    · simp only [solution?, hstatus]
    · simp only [List.mem_cons, List.not_mem_nil, or_false, forall_eq_or_imp, forall_eq]
      exact ⟨⟨hv, hv_less.trans_le hmeasure⟩, hw, hw_less.trans_le hmeasure⟩
    · intro a
      simpa [hallows a] using hv_allows a
    · intro a
      simpa [hallows a] using hw_allows a

/-- With more levels than the measure of a posed node, the enumeration from it is finite
and has the solutions that the node allows. -/
theorem enumerate_lists {levels : Nat} (hposed : node.space.Posed posted)
    (hlevels : node.space.store.measure < levels) :
    node.space.Lists posted ((enumerate levels node).filterMap solution?) ∧
      (enumerate levels node).length < 2 ^ (node.space.store.measure + 1) := by
  induction levels generalizing node with
  | zero => exact absurd hlevels (Nat.not_lt_zero _)
  | succ levels ih =>
      have hone : 1 < 2 ^ (node.space.store.measure + 1) := Nat.one_lt_two_pow (Nat.succ_ne_zero _)
      rcases cases_of_posed hposed with
        ⟨hchildren, hnone, hallows⟩ | ⟨t, hchildren, hsome, hfixed, hallows⟩ |
        ⟨first, second, keep, hchildren, hnone, hbelow, hfirst, hsecond⟩
      · rw [enumerate, hchildren, List.flatMap_nil, List.filterMap_cons_none hnone]
        exact ⟨⟨by simp, List.nodup_nil, fun a => by simp [hallows a]⟩, hone⟩
      · rw [enumerate, hchildren, List.flatMap_nil, List.filterMap_cons_some hsome]
        exact ⟨⟨by simpa using hfixed, by simp, fun a => by simp [hallows a]⟩, hone⟩
      · obtain ⟨hposed₁, hless₁⟩ := hbelow first (by simp)
        obtain ⟨hposed₂, hless₂⟩ := hbelow second (by simp)
        obtain ⟨hlists₁, hlength₁⟩ := ih hposed₁ (by omega)
        obtain ⟨hlists₂, hlength₂⟩ := ih hposed₂ (by omega)
        have hflat : node.children.flatMap (enumerate levels) =
            enumerate levels first ++ enumerate levels second := by
          simp [hchildren]
        rw [enumerate, hflat, List.filterMap_cons_none hnone, List.filterMap_append]
        refine ⟨hlists₁.append hlists₂ hfirst hsecond, ?_⟩
        have hpow₁ := Nat.pow_le_pow_right Nat.zero_lt_two hless₁
        have hpow₂ := Nat.pow_le_pow_right Nat.zero_lt_two hless₂
        rw [List.length_cons, List.length_append, Nat.pow_succ]
        omega

/-- A survey of the nodes below a posed root ends, with the solutions that it allows. -/
theorem survey_lists {root : Space} (hposed : root.Posed posted) {n : Nat}
    (hn : 2 ^ (root.store.measure + 1) ≤ n) :
    root.Lists posted ((survey n [⟨0, root⟩]).filterMap solution?) ∧
      (survey n [⟨0, root⟩]).length < n := by
  have hlevels : root.store.measure < n := by
    have hpow : root.store.measure + 1 < 2 ^ (root.store.measure + 1) := Nat.lt_two_pow_self
    omega
  have hnode : (⟨0, root⟩ : Node).space.Posed posted := hposed
  obtain ⟨hlists, hlength⟩ := enumerate_lists hnode hlevels
  have hless := hlength.trans_le hn
  rw [survey_root, firstNodes, List.take_of_length_le hless.le]
  exact ⟨hlists, hless⟩

end Node

end ConstraintSpace
