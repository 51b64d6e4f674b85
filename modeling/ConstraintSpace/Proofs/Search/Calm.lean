import ConstraintSpace.Proofs.Search.Reports
import ConstraintSpace.Proofs.Space.Calm

/-!
# Searches that have nothing to say

A search that keeps warnings only, over spaces without warnings, keeps nothing: whatever
it takes over from the journal of a space is dropped, and so is what it notes itself.  An
enumeration of such a search reports solutions and nothing in between.
-/

namespace ConstraintSpace

namespace Search

variable {α : Type} {s t : Search}

/-- The search keeps warnings only, and neither it nor its spaces have any. -/
structure Calm (s : Search) : Prop where
  keeps : ∀ h, s.options.keeps h = true → h.level? = some .warn
  journal : s.journal = []
  current : ∀ space, s.current = some space → space.Calm
  stack : ∀ frame ∈ s.stack, ∀ copy, frame.copy = some copy → copy.Calm

/-- The computation keeps the search calm, and the condition holds of what it gives. -/
abbrev Calming {β : Type} (Q : β → Prop) (m : Searching β) : Prop := Keeping Calm Q m

theorem calm_start {root : Space} (hroot : root.Calm) {options : SearchOptions}
    (hkeeps : ∀ h, options.keeps h = true → h.level? = some .warn) : (start root options).Calm where
  keeps := hkeeps
  journal := rfl
  current := by
    rintro space ⟨⟩
    exact hroot
  stack := by simp [start]

theorem Calm.absorb {space : Space} (hcalm : s.Calm) (hspace : space.Calm) :
    (Search.absorb space s).1.Calm ∧ (Search.absorb space s).2.Calm := by
  have hnone : space.readJournal.1.filter s.options.keeps = [] := by
    rw [List.filter_eq_nil_iff]
    intro h hh hkeeps
    exact hspace.journal h (List.mem_reverse.mp hh) (hcalm.keeps h hkeeps)
  refine ⟨⟨by simp [Search.absorb, Space.readJournal], hspace.branchers⟩, hcalm.keeps, ?_,
    hcalm.current, hcalm.stack⟩
  simp only [Search.absorb, hnone, hcalm.journal, List.reverse_nil, List.append_nil]

theorem calming_settle {result : EStateM.Result Fault Space α}
    (hresult : ∀ x space, result = .ok x space → space.Calm) :
    Calming (fun settled => settled.2.Calm) (settle result) := by
  intro s settled t hrun hcalm
  unfold settle at hrun
  split at hrun
  · cases hrun
    exact hcalm.absorb (hresult _ _ rfl)
  · simp at hrun

/-- What a calm space gives is settled calmly. -/
theorem calming_settle_of_calming {m : Operation α} (hm : Space.Calming m) {space : Space}
    (hspace : space.Calm) : Calming (fun settled => settled.2.Calm) (settle (m space)) :=
  calming_settle fun x next hrun => (hm space x next hrun hspace).2

theorem calming_keepCopy {space : Space} (hspace : space.Calm) :
    Calming (fun copy? => ∀ copy, copy? = some copy → copy.Calm) (keepCopy space) := by
  intro s copy? t hrun hcalm
  obtain ⟨hcopy, habsorbed⟩ := hcalm.absorb (Space.calm_clone hspace.branchers)
  unfold keepCopy at hrun
  split at hrun
  · cases hrun
    refine ⟨?_, habsorbed.keeps, habsorbed.journal, habsorbed.current, habsorbed.stack⟩
    rintro copy ⟨⟩
    exact hcopy
  · cases hrun
    exact ⟨by simp, hcalm⟩

theorem calming_descend {space : Space} (hspace : space.Calm) :
    Calming (fun _ => True) (descend space) := by
  refine (calming_keepCopy hspace).bind fun copy? hcopy => ?_
  refine (calming_settle_of_calming Space.calming_choice hspace).bind fun chosen hchosen => ?_
  refine (calming_settle_of_calming (Space.calming_commit _ _) hchosen).bind fun taken htaken => ?_
  refine Keeping.modify fun s hcalm => ⟨hcalm.keeps, hcalm.journal, ?_, ?_⟩
  · rintro next ⟨⟩
    exact htaken
  · intro frame hframe
    rcases List.mem_cons.mp hframe with rfl | hold
    · exact hcopy
    · exact hcalm.stack frame hold

theorem calming_count (count : Search → SearchCounts) :
    Calming (fun _ => True) (modify fun s => { s with counts := count s }) :=
  Keeping.modify fun _ hcalm => ⟨hcalm.keeps, hcalm.journal, hcalm.current, hcalm.stack⟩

theorem calming_visit {space : Space} (hspace : space.Calm) :
    Calming (fun _ => True) (visit space) := by
  refine (calming_count _).bind fun _ _ => ?_
  refine (calming_settle_of_calming Space.calming_status hspace).bind fun answer hanswer => ?_
  obtain ⟨answer, next⟩ := answer
  cases answer with
  | failed => exact (calming_count _).bind fun _ _ => .pure trivial
  | solved => exact (calming_count _).bind fun _ _ => .pure trivial
  | branching => exact (calming_descend hanswer).bind fun _ _ => .pure trivial

/-! ## Backtracking -/

theorem calm_of_lineage {stack : List Frame} {copy : Space} {edges : List (Choice × Nat)}
    (hstack : ∀ frame ∈ stack, ∀ copy, frame.copy = some copy → copy.Calm)
    (hlineage : lineage stack = some (copy, edges)) : copy.Calm := by
  induction stack generalizing copy edges with
  | nil => simp [lineage] at hlineage
  | cons frame above ih =>
      simp only [lineage] at hlineage
      split at hlineage
      next kept hkept =>
        cases hlineage
        exact hstack frame List.mem_cons_self _ hkept
      · obtain ⟨⟨ancestor, path⟩, hfound, heq⟩ := Option.map_eq_some_iff.mp hlineage
        cases heq
        exact ih (fun frame hframe => hstack frame (List.mem_cons_of_mem _ hframe)) hfound

theorem calming_restore : Calming Space.Calm restore := by
  intro s space t hrun hcalm
  unfold restore at hrun
  split at hrun
  · simp at hrun
  next copy edges hlineage =>
    have hcopy := calm_of_lineage hcalm.stack hlineage
    have hsettled : ∀ (u v : Search) settled, u.Calm →
        settle (Path.recompute { edges } copy) u = .ok settled v →
        settled.2.Calm ∧ v.Calm := by
      intro u v settled hu hsettle
      refine calming_settle (fun _ _ hreplay => ?_) u _ _ hsettle hu
      have hclone := Space.calm_clone hcopy.branchers
      exact (Space.calming_replay edges _ _ _ hreplay hclone).2
    split at hrun <;> simp only at hrun <;> split at hrun
    next x next v hsettle =>
      cases hrun
      refine hsettled _ _ _ ?_ hsettle
      exact ⟨hcalm.keeps, hcalm.journal, hcalm.current, hcalm.stack⟩
    next => simp at hrun
    next x next v hsettle =>
      cases hrun
      refine hsettled _ _ _ ?_ hsettle
      refine ⟨hcalm.keeps, ?_, hcalm.current, hcalm.stack⟩
      -- that it recomputes is worth a note, but not a warning
      split
      next hkeeps => exact absurd (hcalm.keeps _ hkeeps) (by simp [Happening.level?])
      next => exact hcalm.journal
    next => simp at hrun

theorem calming_backtrack : Calming (fun space? => ∀ space, space? = some space → space.Calm)
    backtrack := by
  intro s space? t hrun hcalm
  unfold backtrack at hrun
  split at hrun
  · cases hrun
    exact ⟨by simp, hcalm.keeps, hcalm.journal, hcalm.current, by simp⟩
  next frame above hopen =>
    have hkept : ∀ other ∈ frame :: above, other ∈ s.stack :=
      fun other hother => (List.dropWhile_sublist _).subset (hopen ▸ hother)
    have hmoved : Calm { s with stack := { frame with next := frame.next + 1 } :: above } := by
      refine ⟨hcalm.keeps, hcalm.journal, hcalm.current, fun other hother => ?_⟩
      rcases List.mem_cons.mp hother with rfl | habove
      · exact hcalm.stack frame (hkept frame List.mem_cons_self)
      · exact hcalm.stack other (hkept other (List.mem_cons_of_mem _ habove))
    split at hrun
    next space u hrestore =>
      cases hrun
      obtain ⟨hspace, hrestored⟩ := calming_restore _ space _ hrestore hmoved
      refine ⟨?_, hrestored⟩
      rintro next ⟨⟩
      exact hspace
    · simp at hrun

/-! ## Calls and enumerations -/

theorem calming_takeNode : Calming (fun space? => ∀ space, space? = some space → space.Calm)
    takeNode := by
  intro s space? t hrun hcalm
  unfold takeNode at hrun
  split at hrun
  next space hcurrent =>
    cases hrun
    refine ⟨?_, hcalm.keeps, hcalm.journal, by simp, hcalm.stack⟩
    rintro next ⟨⟩
    exact hcalm.current space hcurrent
  · exact calming_backtrack s space? t hrun hcalm

theorem calming_exploreFor (fuel : Nat) : Calming (fun _ => True) (exploreFor fuel) := by
  induction fuel with
  | zero => exact .pure trivial
  | succ fuel ih =>
      intro s found t hrun hcalm
      unfold exploreFor at hrun
      split at hrun
      · cases hrun
        exact ⟨trivial, hcalm⟩
      split at hrun
      · simp at hrun
      next u htake =>
        cases hrun
        exact ⟨trivial, (calming_takeNode s none _ htake hcalm).2⟩
      next space u htake =>
        obtain ⟨hspace, htaken⟩ := calming_takeNode s _ u htake hcalm
        split at hrun
        · simp at hrun
        next solution v hvisit =>
          cases hrun
          exact ⟨trivial, (calming_visit (hspace space rfl) u _ _ hvisit htaken).2⟩
        next v hvisit =>
          exact ih v found t hrun (calming_visit (hspace space rfl) u _ v hvisit htaken).2

theorem calming_nextSolution (fuel : Nat) : Calming (fun _ => True) (nextSolution fuel) := by
  intro s found t hrun hcalm
  unfold nextSolution at hrun
  split at hrun
  · cases hrun
    exact ⟨trivial, hcalm⟩
  · exact calming_exploreFor fuel s found t hrun hcalm

theorem Calm.readJournal (hcalm : s.Calm) : s.readJournal.1 = [] ∧ s.readJournal.2.Calm := by
  refine ⟨?_, hcalm.keeps, rfl, hcalm.current, hcalm.stack⟩
  simp only [Search.readJournal, hcalm.journal, List.reverse_nil]

/-- An enumeration in good order reports solutions only. -/
theorem Calm.enumerate (hcalm : s.Calm) {read : Space → α} {nodes more : Nat}
    {reports : List (Report α)} {found : Found}
    (hrun : Search.enumerate read nodes more s = (reports, .ok found, t)) :
    reports = (Report.solutions reports).map .solution := by
  induction more generalizing s reports with
  | zero =>
      cases hrun
      rfl
  | succ more ih =>
      cases hnext : nextSolution nodes s with
      | error fault u => simp [Search.enumerate, hnext] at hrun
      | ok answer u =>
          obtain ⟨-, hcalm'⟩ := calming_nextSolution nodes s answer u hnext hcalm
          obtain ⟨hjournal, hread⟩ := hcalm'.readJournal
          have hend : (∀ x, answer ≠ .solution x) →
              reports = (Report.solutions reports).map .solution := by
            intro hend
            rw [enumerate_of_end hnext hend, hjournal] at hrun
            cases hrun
            rfl
          cases answer with
          | solution x =>
              rw [enumerate_of_solution hnext, hjournal] at hrun
              cases hrest : Search.enumerate read nodes more u.readJournal.2 with
              | mk rest ending =>
                  rw [hrest] at hrun
                  cases hrun
                  rw [List.map_nil, List.nil_append, Report.solutions_cons, List.map_cons,
                    ← ih hread hrest]
          | _ => exact hend (by simp)

end Search

end ConstraintSpace
