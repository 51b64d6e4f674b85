import ConstraintSpace.CommandLine
import ConstraintSpace.Proofs.Queens.Modeling
import ConstraintSpace.Proofs.Search.Limits

/-!
# What the end of a search says

A search with a limit on its nodes tests the limit before it looks for what is left.  So it
is exhausted exactly if the tree has fewer nodes than the limit allows: with a limit equal
to their number it explores the whole tree, and says that the limit stopped it.
-/

namespace ConstraintSpace

namespace Search

variable {s t free : Search} {answers : List Answer} {size turns : Nat}

/-! ## The size of a tree -/

/-- The traversal comes to its end after visiting so many nodes. -/
def Sized (s : Search) (size : Nat) : Prop :=
  ∃ turns, (traverse turns s).2.Spent ∧ (visits turns s).length = size

theorem Sized.visits_le (hsized : s.Sized size) (turns : Nat) :
    (visits turns s).length ≤ size := by
  obtain ⟨all, hspent, rfl⟩ := hsized
  rcases Nat.le_total turns all with hle | hle
  · obtain ⟨more, rfl⟩ := Nat.exists_eq_add_of_le hle
    rw [visits_add, List.length_append]
    exact Nat.le_add_right _ _
  · obtain ⟨more, rfl⟩ := Nat.exists_eq_add_of_le hle
    rw [visits_add, hspent.visits, List.append_nil]

theorem Sized.unique {other : Nat} (hsized : s.Sized size) (hother : s.Sized other) :
    size = other := by
  have hle := hsized.visits_le
  have hge := hother.visits_le
  obtain ⟨all, -, rfl⟩ := hsized
  obtain ⟨whole, -, rfl⟩ := hother
  exact Nat.le_antisymm (hge all) (hle whole)

/-- A traversal goes beyond any number of nodes, or its tree has no more than these. -/
theorem exceeds_or_sized (s : Search) (limit : Nat) :
    (∃ turns, limit < (visits turns s).length) ∨ ∃ size ≤ limit, s.Sized size := by
  obtain ⟨turns, hmany | hspent⟩ := exists_visits_or_spent (limit + 1) s
  · exact Or.inl ⟨turns, hmany⟩
  · rcases Nat.lt_or_ge limit (visits turns s).length with hmany | hfew
    · exact Or.inl ⟨turns, hmany⟩
    · exact Or.inr ⟨_, hfew, turns, hspent, rfl⟩

theorem Sized.not_large {limit : Nat} (hsized : s.Sized size) (hless : size < limit) :
    ¬((∃ turns, limit < (visits turns s).length) ∨ s.Sized limit) := by
  rintro (⟨turns, hmany⟩ | hother)
  · have hle := hsized.visits_le turns
    omega
  · exact Nat.ne_of_lt hless (hsized.unique hother)

/-- Where no alternative is lost, every turn visits a node until nothing is left. -/
theorem length_visits_or_spent (hfaults : (traverse turns s).1.filterMap Turn.fault? = []) :
    (visits turns s).length = turns ∨ (traverse turns s).2.Spent := by
  induction turns generalizing s with
  | zero => exact Or.inl rfl
  | succ turns ih =>
      have hturns := turns_turn s
      rw [traverse_succ] at hfaults ⊢
      rw [visits_succ]
      obtain ⟨hfirst, hrest⟩ := List.filterMap_eq_nil_iff.mp hfaults |> List.forall_mem_cons.mp
      cases hturn : (turn s).1 with
      | exhausted =>
          have hspent : (turn s).2.Spent := hturns.spent (by rw [hturn]; rfl)
          rw [hspent.traverse]
          exact Or.inr hspent
      | lost path fault =>
          rw [hturn] at hfirst
          cases hfirst
      | visited visit =>
          refine (ih (List.filterMap_eq_nil_iff.mpr hrest)).imp_left fun hlength => ?_
          rw [List.length_append, hlength]
          exact Nat.add_comm 1 turns

/-- Over the roots that a model builds the size is that of the plain enumeration. -/
theorem sized_start_iff {posted : List (Nat × Propagator)} {root : Space}
    (hbuilt : Space.Built posted root) (options : SearchOptions) :
    (start root options).Sized size ↔ (Node.firstNodes (size + 1) root).length = size := by
  have hwalk : ∀ turns,
      (Node.firstNodes turns root).length = (visits turns (start root options)).length ∧
        (traverse turns (start root options)).1.filterMap Turn.fault? = [] := by
    intro turns
    obtain ⟨hnodes, hfaults⟩ := (pending_start root options).traverse hbuilt.kernel turns
    have hlength := hnodes.length_eq
    rw [Node.survey_root, List.length_map] at hlength
    exact ⟨hlength, hfaults⟩
  constructor
  · intro hsized
    have hle := hsized.visits_le
    obtain ⟨all, hspent, rfl⟩ := hsized
    rw [(hwalk _).1]
    refine Nat.le_antisymm (hle _) ?_
    rcases length_visits_or_spent (hwalk ((visits all (start root options)).length + 1)).2 with
      hlength | hended
    · omega
    · exact Sized.visits_le ⟨_, hended, rfl⟩ all
  · intro hlength
    obtain ⟨hsame, hfaults⟩ := hwalk (size + 1)
    rw [hlength] at hsame
    refine ⟨size + 1, (length_visits_or_spent hfaults).resolve_left ?_, hsame.symm⟩
    omega

/-! ## Verdicts -/

/-- What the answers of a search with a limit on its nodes say about the tree. -/
structure Verdicts (limit : Nat) (free : Search) (answers : List Answer) (t : Search) : Prop where
  limitReached : .ok .limitReached ∈ answers →
    t.counts.nodes = limit ∧ ((∃ turns, limit < (visits turns free).length) ∨ free.Sized limit)
  exhausted : .ok .exhausted ∈ answers → t.counts.nodes < limit ∧ free.Sized t.counts.nodes
  explored : free.Sized t.counts.nodes → ∀ fuel ≥ 1,
    (t.counts.nodes = limit → nextSolution fuel t = .ok .limitReached t) ∧
      (t.counts.nodes < limit → (outcome (nextSolution fuel t)).1 = .ok .exhausted ∨
        ∃ fault, (outcome (nextSolution fuel t)).1 = .error fault)

/-- Where all nodes are visited, a turn finds the end or loses an alternative. -/
theorem Sized.answer_turn (hsized : free.Sized (visits turns free).length) :
    (turn (traverse turns free).2).1.answer? = some (.ok .exhausted) ∨
      ∃ fault, (turn (traverse turns free).2).1.answer? = some (.error fault) := by
  cases hturn : (turn (traverse turns free).2).1 with
  | exhausted => exact Or.inl rfl
  | lost path fault => exact Or.inr ⟨fault, rfl⟩
  | visited visit =>
      have hle := hsized.visits_le (turns + 1)
      rw [visits_add, visits_succ, hturn, List.length_append, List.length_append] at hle
      simp only [Turn.visit?, Option.toList_some, List.length_singleton] at hle
      omega

theorem Advances.verdicts {options : SearchOptions} {limit : Nat}
    (hadvances : s.Advances answers turns t) (hcut : CutShort options free answers t turns)
    (hlimit : options.nodeLimit = some limit) (hsolutions : options.solutionLimit = none) :
    Verdicts limit free answers t := by
  have hstate := hcut.state
  have hnodes := hcut.nodes_eq
  have hle := hcut.nodes_le limit hlimit
  have hoptions : t.options.nodeLimit = some limit ∧ t.options.solutionLimit = none := by
    rw [hstate]
    exact ⟨hlimit, hsolutions⟩
  refine ⟨fun hmem => ?_, fun hmem => ?_,
    fun hsized fuel hfuel => ⟨fun hfull => ?_, fun hless => ?_⟩⟩
  · have hfull : t.counts.nodes = limit := by
      have hreached := hadvances.stopped hmem
      rw [Stopped, hoptions.1, hoptions.2] at hreached
      simp only [reached, decide_eq_true_eq, Bool.false_eq_true, or_false] at hreached
      exact Nat.le_antisymm hle hreached
    refine ⟨hfull, (exceeds_or_sized free limit).imp_right ?_⟩
    rintro ⟨size, hsize, hsized⟩
    have hmost := hsized.visits_le turns
    obtain rfl : size = limit := by omega
    exact hsized
  · obtain ⟨hspent, hopen⟩ := hadvances.exhausted hmem
    rw [hoptions.1] at hopen
    refine ⟨by simpa [reached] using hopen, turns, ?_, hnodes.symm⟩
    rw [hstate] at hspent
    exact hspent
  · obtain ⟨fuel, rfl⟩ := Nat.exists_eq_succ_of_ne_zero (Nat.ne_of_gt hfuel)
    have hrun := outcome_exploreFor_succ fuel t
    rw [if_pos (by simp [hoptions.1, reached, hfull])] at hrun
    rw [nextSolution_of_open (by simp [hoptions.2, reached])]
    exact eq_ok_of_outcome hrun
  · obtain ⟨fuel, rfl⟩ := Nat.exists_eq_succ_of_ne_zero (Nat.ne_of_gt hfuel)
    have hturn : (turn t).1 = (turn (traverse turns free).2).1 := by
      rw [hstate, turn_limited]
    rw [nextSolution_of_open (by simp [hoptions.2, reached]), outcome_exploreFor_succ,
      if_neg (by simpa [hoptions.1, reached] using hless), hturn]
    rcases (hnodes ▸ hsized).answer_turn with hanswer | ⟨fault, hanswer⟩
    · exact Or.inl (by rw [hanswer])
    · exact Or.inr ⟨fault, by rw [hanswer]⟩

/-- With a limit on the nodes, and none on the solutions, a search ends exhausted exactly if
its tree has fewer nodes than the limit.  Otherwise the limit stops it, be it beyond or at
the last node of the tree; so a tree without solutions is said to be unsatisfiable only
where it has fewer nodes than the limit. -/
theorem exhausted_iff_size_lt_limit (root : Space) {options : SearchOptions} {limit : Nat}
    (hdistance : 1 ≤ options.copyDistance) (hlimit : options.nodeLimit = some limit)
    (hsolutions : options.solutionLimit = none) :
    ∃ search free, create root options = .ok search ∧
      create root options.unlimited = .ok free ∧
      (∀ fuel count, Verdicts limit free (calls fuel count search).1 (calls fuel count search).2) ∧
      (∃ enough, ∀ fuel > limit, ∀ count ≥ enough, ∃ found,
        nextSolution fuel (calls fuel count search).2 = .ok found (calls fuel count search).2 ∧
          (found = .exhausted ↔ ∃ size < limit, free.Sized size) ∧
          (found = .limitReached ↔
            (∃ turns, limit < (visits turns free).length) ∨ free.Sized limit) ∧
          (CommandLine.ending found 0 = [CommandLine.unsatisfiable] ↔
            ∃ size < limit, free.Sized size)) ∧
      ∀ posted, Space.Built posted root → ∀ size,
        free.Sized size ↔ (Node.firstNodes (size + 1) root).length = size := by
  have hverdicts : ∀ fuel count, Verdicts limit (start root options.unlimited)
      (calls fuel count (start root options)).1 (calls fuel count (start root options)).2 := by
    intro fuel count
    obtain ⟨turns, hadvances, hcut⟩ := calls_cutShort root options fuel count
    exact hadvances.verdicts hcut hlimit hsolutions
  have hdistance' : 1 ≤ options.unlimited.copyDistance := hdistance
  refine ⟨_, _, create_eq_start root hdistance, create_eq_start root hdistance', hverdicts, ?_,
    fun posted hbuilt size => sized_start_iff hbuilt options.unlimited⟩
  obtain ⟨enough, hends⟩ := calls_end (s := start root options) hlimit (Nat.zero_le limit)
  refine ⟨enough, fun fuel hfuel count hcount => ?_⟩
  obtain ⟨turns, hadvances, -⟩ := calls_cutShort root options fuel count
  have hclosed := hadvances.closed (hends fuel hfuel count hcount)
  -- the answer of one more call is among those of the longer run
  have hlast : ∀ found, nextSolution fuel (calls fuel count (start root options)).2 =
      .ok found (calls fuel count (start root options)).2 →
      .ok found ∈ (calls fuel (count + 1) (start root options)).1 := by
    intro found hcall
    rw [calls_add]
    simp [calls, hcall, outcome]
  have hnext := hverdicts fuel (count + 1)
  rcases hclosed.nextSolution_eq (Nat.one_le_of_lt hfuel) with hcall | hcall
  · have hlarge := (hnext.limitReached (hlast _ hcall)).2
    have hsmall : ¬∃ size < limit, (start root options.unlimited).Sized size := by
      rintro ⟨size, hless, hsized⟩
      exact hsized.not_large hless hlarge
    exact ⟨_, hcall, iff_of_false (by simp) hsmall, iff_of_true rfl hlarge,
      iff_of_false (by decide) hsmall⟩
  · obtain ⟨hless, hsized⟩ := hnext.exhausted (hlast _ hcall)
    have hsmall : ∃ size < limit, (start root options.unlimited).Sized size :=
      ⟨_, hless, hsized⟩
    exact ⟨_, hcall, iff_of_true rfl hsmall, iff_of_false (by simp) (hsized.not_large hless),
      iff_of_true rfl hsmall⟩

/-- Two queens have no place on their board, as the three nodes of the tree show; a search
within three nodes explores them all and says that the limit is reached. -/
theorem limitReached_after_whole_tree :
    ∃ root search free, create root ⟨1, none, some 3, fun _ => false⟩ = .ok search ∧
      (calls 4 1 search).1.map (Except.map Found.name) = [.ok "LimitReached"] ∧
      (calls 4 1 search).2.counts.nodes = 3 ∧ free.Sized 3 ∧
      Verdicts 3 free (calls 4 1 search).1 (calls 4 1 search).2 := by
  let options : SearchOptions := ⟨1, none, some 3, fun _ => false⟩
  have hdistance : 1 ≤ options.copyDistance := by decide
  obtain ⟨posted, root, hqueens, hposed, -, -⟩ :=
    Queens.exists_create (n := 2) ⟨.firstFail, .standard, 42⟩ (by decide) (by decide)
  let run (q : Queens) := calls 4 1 (start q.space options)
  have hrun : (Queens.create 2 ⟨.firstFail, .standard, 42⟩).map
      (fun q => ((run q).1.map (Except.map Found.name), (run q).2.counts.nodes,
        (Node.firstNodes 4 q.space).length)) = .ok ([.ok "LimitReached"], 3, 3) := by
    decide +kernel
  rw [hqueens] at hrun
  obtain ⟨hnames, hcounts⟩ := Prod.mk.inj (Except.ok.inj hrun)
  obtain ⟨hnodes, hlength⟩ := Prod.mk.inj hcounts
  obtain ⟨search, free, hcreate, -, hverdicts, -, hsized⟩ :=
    exhausted_iff_size_lt_limit root hdistance rfl rfl
  obtain rfl : start root options = search :=
    Except.ok.inj ((create_eq_start root hdistance).symm.trans hcreate)
  exact ⟨root, _, free, hcreate, hnames, hnodes, (hsized posted hposed.built 3).mpr hlength,
    hverdicts 4 1⟩

end Search

end ConstraintSpace
