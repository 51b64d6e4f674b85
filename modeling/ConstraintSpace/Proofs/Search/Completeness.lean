import ConstraintSpace.Proofs.Search.Exploration
import ConstraintSpace.Proofs.Search.Solutions
import ConstraintSpace.Proofs.Space.Comparisons

/-!
# Completeness of the search

A call for the next solution explores what is left up to the first solution in it, and
is exhausted where there is none.  Since the tree below a posed space is finite, calls one
after the other return all its solutions and then find the search exhausted.  So a search
without limits returns every assignment that all posted propagators accept, once, and no
other.  What a propagator accepts is its constraint, but for comparisons that are blind.
-/

namespace ConstraintSpace

/-! ## Constraints -/

namespace Propagator

/-- Over these domains the propagator accepts nothing but its constraint. -/
def Sighted (s : Store) : Propagator → Prop
  | lessOrEqual a b => ¬LessOrEqual.Blind a b s
  | _ => True

theorem Sighted.accepts_iff {p : Propagator} {s : Store} {a : Assignment} (hsighted : p.Sighted s)
    (hfit : p.Fit s) (ha : s.Admits a) : p.Accepts a ↔ p.Holds a := by
  refine ⟨fun haccepts => ?_, holds_accepts⟩
  cases p with
  | lessOrEqual x y =>
      rcases haccepts with hle | ⟨hlax, hlax'⟩
      · exact hle
      · show x.value a ≤ y.value a
        by_contra hgt
        exact hsighted ⟨x.point a, hfit.1.point_mem ha, y.point a, hfit.2.point_mem ha,
          IntView.point_eq_of_base?, hlax, hlax', not_le.mp hgt⟩
  | notEqual x y => exact haccepts
  | subset x y _ => exact haccepts
  | floatLessOrEqual x y => exact haccepts
  | scripted _ => exact haccepts

end Propagator

/-- The stores of solutions are what makes them solutions. -/
theorem Space.Lists.of_stores {posted : List (Nat × Propagator)} {s : Space}
    {first second : List Space} (hlists : s.Lists posted first)
    (hstores : second.map Space.store = first.map Space.store) : s.Lists posted second := by
  have hassignments : (second.map fun x => x.store.assignment) =
      first.map fun x => x.store.assignment := by
    have hmap := congrArg (List.map Store.assignment) hstores
    rwa [List.map_map, List.map_map] at hmap
  refine ⟨fun y hy => ?_, hassignments ▸ hlists.nodup, hassignments ▸ hlists.mem⟩
  have hmem : y.store ∈ first.map Space.store := hstores ▸ List.mem_map_of_mem hy
  obtain ⟨x, hx, hstore⟩ := List.mem_map.mp hmem
  exact hstore ▸ hlists.fixed x hx

theorem Node.answer?_eq_solved (node : Node) :
    node.answer? = some .solved ↔ node.solution?.isSome = true := by
  unfold Node.answer? Node.solution?
  cases Space.status node.space with
  | error fault t => simp
  | ok answer t => cases answer <;> simp

namespace Search

variable {root : Space} {s t : Search} {work : List Node} {posted : List (Nat × Propagator)}

/-! ## One call -/

theorem Step.solutions {node seen : Node} {rest : List Node} {found : Option Space}
    (hstep : s.Step root node rest seen found t) :
    t.counts.solutions = s.counts.solutions + if node.solution?.isSome then 1 else 0 := by
  rw [hstep.counted.solutions, List.countP_singleton]
  simp only [Node.answer?_eq_solved, decide_eq_true_eq]

/-- A call that explores at most `n` nodes returns a solution, after which the search has
the rest of the solutions left. -/
structure Returns (root : Space) (s : Search) (n : Nat) (solution : Space) (t : Search)
    (m : Nat) (left : List Node) : Prop where
  run : ∀ fuel ≥ n, exploreFor fuel s = .ok (.solution solution) t
  pending : Pending root t left
  options : t.options = s.options
  solutions : t.counts.solutions = s.counts.solutions + 1
  less : m < n
  finite : (Node.survey m left).length < m

theorem Pending.returns (hpending : Pending root s work) (hroot : root.Kernel)
    (hfree : s.options.nodeLimit = none) {n : Nat} (hn : (Node.survey n work).length < n) :
    ((Node.survey n work).filterMap Node.solution? = [] ∧
        ∃ t, ∀ fuel ≥ n, exploreFor fuel s = .ok .exhausted t) ∨
      ∃ x solution t m left, (Node.survey n work).filterMap Node.solution? =
          x :: (Node.survey m left).filterMap Node.solution? ∧
        x.Alike solution ∧ s.Returns root n solution t m left := by
  induction n generalizing s work with
  | zero => exact absurd hn (Nat.not_lt_zero _)
  | succ n ih =>
      have hfuel : ∀ fuel ≥ n + 1, ∃ less, n ≤ less ∧ fuel = less + 1 := fun fuel hle =>
        ⟨fuel - 1, by omega, by omega⟩
      rcases hpending.step hroot hfree with
        ⟨rfl, t, hexhausted⟩ | ⟨node, rest, seen, found, t, rfl, hstep⟩
      · refine Or.inl ⟨rfl, t, fun fuel hle => ?_⟩
        obtain ⟨less, -, rfl⟩ := hfuel fuel hle
        exact hexhausted less
      · have hless : (Node.survey n (node.children ++ rest)).length < n :=
          Nat.lt_of_succ_lt_succ hn
        rw [Node.survey]
        cases found with
        | none =>
            rw [List.filterMap_cons_none hstep.solution?_eq_none]
            rcases ih hstep.pending (hstep.options ▸ hfree) hless with
              ⟨hnil, u, hexhausted⟩ | ⟨x, solution, u, m, left, hcons, halike, hreturns⟩
            · refine Or.inl ⟨hnil, u, fun fuel hle => ?_⟩
              obtain ⟨less, hle', rfl⟩ := hfuel fuel hle
              exact (hstep.run less).trans (hexhausted less hle')
            · refine Or.inr ⟨x, solution, u, m, left, hcons, halike, fun fuel hle => ?_,
                hreturns.pending, hreturns.options.trans hstep.options,
                hreturns.solutions.trans ?_, hreturns.less.trans (Nat.lt_succ_self n),
                hreturns.finite⟩
              · obtain ⟨less, hle', rfl⟩ := hfuel fuel hle
                exact (hstep.run less).trans (hreturns.run less hle')
              · rw [hstep.solutions, hstep.solution?_eq_none]
                rfl
        | some solution =>
            obtain ⟨x, hsome, halike⟩ := hstep.exists_solution
            rw [List.filterMap_cons_some hsome]
            refine Or.inr ⟨x, solution, t, n, _, rfl, halike, fun fuel hle => ?_, hstep.pending,
              hstep.options, ?_, Nat.lt_succ_self n, hless⟩
            · obtain ⟨less, -, rfl⟩ := hfuel fuel hle
              exact hstep.run less
            · rw [hstep.solutions, hsome]
              rfl

/-! ## Calls one after the other -/

/-- Calls for the next solution, each with enough fuel, return the solutions and then find
the search exhausted. -/
inductive Answers (fuel : Nat) : Search → List Space → Prop where
  | exhausted {s t : Search} (hrun : nextSolution fuel s = .ok .exhausted t) : Answers fuel s []
  | solution {s t : Search} {solution : Space} {solutions : List Space}
      (hrun : nextSolution fuel s = .ok (.solution solution) t)
      (hrest : Answers fuel t solutions) : Answers fuel s (solution :: solutions)

theorem Pending.answers (hpending : Pending root s work) (hroot : root.Kernel)
    (hfree : s.options.Unlimited) {n : Nat} (hn : (Node.survey n work).length < n) :
    ∃ solutions, (∀ fuel ≥ n, Answers fuel s solutions) ∧
      List.Forall₂ Space.Alike ((Node.survey n work).filterMap Node.solution?) solutions := by
  induction n using Nat.strong_induction_on generalizing s work with
  | _ n ih =>
      rcases hpending.returns hroot hfree.1 hn with
        ⟨hnil, t, hexhausted⟩ | ⟨x, solution, t, m, left, hcons, halike, hreturns⟩
      · have hnone :
            List.Forall₂ Space.Alike ((Node.survey n work).filterMap Node.solution?) [] := by
          rw [hnil]
          exact .nil
        refine ⟨[], fun fuel hle => .exhausted (t := t) ?_, hnone⟩
        rw [nextSolution_eq hfree, hexhausted fuel hle]
      · obtain ⟨solutions, hanswers, hsolutions⟩ := ih m hreturns.less hreturns.pending
          (hreturns.options ▸ hfree) hreturns.finite
        refine ⟨solution :: solutions, fun fuel hle => .solution (t := t) ?_ ?_, ?_⟩
        · rw [nextSolution_eq hfree, hreturns.run fuel hle]
        · exact hanswers fuel (hreturns.less.le.trans hle)
        · rw [hcons]
          exact .cons halike hsolutions

/-- From a posed space, whatever copies it keeps, a search without limits returns finitely
many solutions and is then exhausted.  The solutions have all variables fixed, and their
assignments are those that all posted propagators accept, each of them once.  Where no
comparison is blind, these are the assignments that satisfy all posted constraints. -/
theorem search_finds_every_solution (hposed : root.Posed posted) {options : SearchOptions}
    (hdistance : 1 ≤ options.copyDistance) (hfree : options.Unlimited) :
    ∃ search solutions enough, create root options = .ok search ∧
      (∀ fuel ≥ enough, Answers fuel search solutions) ∧
      (∀ x ∈ solutions, x.store.Fixed) ∧
      (solutions.map fun x => x.store.assignment).Nodup ∧
      (∀ a, a ∈ (solutions.map fun x => x.store.assignment) ↔
        root.store.Assigns a ∧ ∀ e ∈ posted, e.2.Accepts a) ∧
      ((∀ e ∈ posted, e.2.Sighted root.store) →
        ∀ a, a ∈ (solutions.map fun x => x.store.assignment) ↔
          root.store.Assigns a ∧ ∀ e ∈ posted, e.2.Holds a) := by
  have hkernel := hposed.built.kernel
  obtain ⟨hlists, hfinite⟩ := Node.survey_lists hposed (le_refl _)
  obtain ⟨solutions, hanswers, halike⟩ :=
    (pending_start root options).answers hkernel hfree hfinite
  have hlists' := hlists.of_stores (map_store_eq halike)
  refine ⟨_, solutions, _, create_eq_start root hdistance, hanswers, hlists'.fixed, hlists'.nodup,
    hlists'.mem, ?_⟩
  intro hsighted a
  refine (hlists'.mem a).trans (and_congr_right fun ha => forall₂_congr fun e he => ?_)
  have hfit := (hposed.built.upholds e he (hposed.apart e he)).fit
  exact (hsighted e he).accepts_iff hfit ha.toAdmits

/-- Over x and y between 0 and 1 the search for x ≠ y returns the assignment of 0 and 1,
and not the one of 1 and 1. -/
theorem solutions_of_notEqual :
    ∃ posted root search solutions enough, root.Posed posted ∧
      create root ⟨2, none, none, fun _ => false⟩ = .ok search ∧
      (∀ fuel ≥ enough, Answers fuel search solutions) ∧
      ⟨[0, 1], []⟩ ∈ (solutions.map fun x => x.store.assignment) ∧
      ⟨[1, 1], []⟩ ∉ (solutions.map fun x => x.store.assignment) := by
  let modeled : Space :=
    { Space.new with store := { Store.empty with ints := #[.interval 0 1, .interval 0 1] } }
  let p : Propagator := .notEqual (.var 0) (.var 1)
  let b : ViewBrancher :=
    { start := 0, selector := .inputOrder
      branching := .int [.var 0, .var 1] .min .assignOrExclude
      label := none, selectionNotices := false, commitNotices := false }
  let root : Space := { modeled.register p with branchers := #[.viewValue b] }
  have hfits : ∀ v ∈ [IntView.var 0, .var 1], v.Fit modeled.store := by
    intro v hv
    simp only [List.mem_cons, List.not_mem_nil, or_false] at hv
    rcases hv with rfl | rfl <;> exact ⟨rfl, trivial⟩
  have hmodeled : Space.Built [] modeled :=
    (Space.Built.new.of_act (.newInt 0 1) trivial rfl rfl).of_act (.newInt 0 1) trivial rfl rfl
  have hregistered : Space.Built [(0, p)] (modeled.register p) :=
    .act (.addPropagator p none) hmodeled ⟨hfits _ (by simp), hfits _ (by simp)⟩ rfl
  have hbuilt : Space.Built [(0, p)] root := by
    refine hregistered.of_act (.addBrancher (.viewValue b)) ⟨⟨hfits, trivial, Or.inl rfl⟩, ?_⟩
      rfl rfl
    rintro v hv
    obtain rfl := Brancher.viewValue.inj hv
    rfl
  have honly : ∀ (j : Nat) (b' : ViewBrancher), root.branchers[j]? = some (.viewValue b') →
      b' = b := by
    intro j b' hb'
    cases j with
    | zero => exact (Brancher.viewValue.inj (Option.some.inj hb')).symm
    | succ j => simp [root] at hb'
  have hpair : ∀ id < root.store.ints.size, id = 0 ∨ id = 1 := fun id hid =>
    Nat.le_one_iff_eq_zero_or_eq_one.mp (Nat.lt_succ_iff.mp hid)
  have hposed : root.Posed [(0, p)] := by
    refine ⟨hbuilt, by simp [Propagator.Apart, Propagator.watches, AnyView.base?, IntView.base?, p],
      rfl, ?_, ⟨?_, fun id hid => absurd hid (Nat.not_lt_zero id)⟩⟩
    · intro j b' hb'
      rw [honly j b' hb']
      intro hsplit
      cases hsplit
    · intro id hid
      rcases hpair id hid with rfl | rfl
      · exact ⟨0, b, .var 0, rfl, by simp [b, Branching.views], rfl⟩
      · exact ⟨0, b, .var 1, rfl, by simp [b, Branching.views], rfl⟩
  have hdistance : 1 ≤ (⟨2, none, none, fun _ => false⟩ : SearchOptions).copyDistance := by decide
  obtain ⟨search, solutions, enough, hcreate, hanswers, -, -, hmem, -⟩ :=
    search_finds_every_solution hposed hdistance ⟨rfl, rfl⟩
  refine ⟨_, root, search, solutions, enough, hposed, hcreate, hanswers, (hmem _).mpr ?_,
    fun hin => ?_⟩
  · refine ⟨⟨⟨fun id hid => ?_, fun id hid => absurd hid (Nat.not_lt_zero id)⟩, rfl, rfl⟩, ?_⟩
    · rcases hpair id hid with rfl | rfl
      · exact IntDomain.mem_interval.mpr (by decide)
      · exact IntDomain.mem_interval.mpr (by decide)
    · simp [p, Propagator.Accepts, Propagator.Holds, IntView.value, IntView.point, IntView.base?,
        IntView.valueAt, Assignment.int]
  · have haccepts := ((hmem _).mp hin).2 (0, p) (List.mem_singleton_self _)
    simp [p, Propagator.Accepts, Propagator.Holds, IntView.value, IntView.point, IntView.base?,
      IntView.valueAt, Assignment.int] at haccepts

end Search

end ConstraintSpace
