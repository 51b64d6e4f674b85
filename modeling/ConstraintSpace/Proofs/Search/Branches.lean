import ConstraintSpace.Proofs.Branching.Progress
import ConstraintSpace.Proofs.Search.Descent
import ConstraintSpace.Proofs.Space.Confluence
import ConstraintSpace.Proofs.Space.Cursors
import ConstraintSpace.Proofs.Space.Splitting

/-!
# Branches that end

Any selection of a value may be combined with any commit, but not every combination makes
progress: an alternative that stalls leaves the domain of the branched view as it is, and
the same choice is made again below it.  All other alternatives fail or narrow the view, so
a branch of the search without alternatives that stall ends.
-/

namespace ConstraintSpace

namespace Space

variable {s t u w : Space} {c : Choice} {selection : IntSelection} {kind : IntCommit}
  {v : IntView} {x : Int} {alternative n : Nat}

/-! ## What a choice is made of -/

/-- A choice names an open view of a brancher and what was selected there. -/
theorem of_choice (hrun : choice s = .ok c t) :
    s.failure = none ∧ t.store = s.store ∧ t.slots = s.slots ∧ t.failure = none ∧
      ∃ b view start next, s.branchers[c.brancher]? = some (.viewValue b) ∧
        t.branchers[c.brancher]? = some (.viewValue { b with start, branching := next }) ∧
        b.branching.views[c.position]? = some view ∧ view.isFixed s.store = false ∧
        b.branching.selectValue s.store c.position = .ok (c.value, next) ∧
        c.alternatives = next.alternatives := by
  obtain ⟨hok, u, hadvance, hpropose⟩ := exists_propose_of_choice hrun
  have hadvances : s.Advances u := advances_of_advanceBy hadvance
  obtain ⟨journal, hrest⟩ := hadvances.rest
  obtain ⟨hactive, b, offset, next, hb, hselect, hposition, hvalue, hnumber, hstore, hslots,
    hfailure, hplace⟩ := of_propose hpropose
  obtain ⟨start, hb'⟩ := hadvances.viewBrancher.2 hb
  obtain ⟨view, hview, hopen⟩ := Selector.open_of_select hselect
  rw [List.getElem?_drop, ← hposition] at hview
  rw [← hposition] at hvalue
  rw [hadvances.store] at hopen hvalue hstore
  rw [hactive]
  refine ⟨hok, hstore, ?_, ?_, _, view, b.start, next, hb', hplace, hview, hopen, hvalue,
    hnumber⟩
  · rw [hslots, hrest]
  · rw [hfailure, hrest, hok]

/-- The choice was made at an integer view that fits, and takes a value there. -/
structure AtView (s : Space) (c : Choice) (selection : IntSelection) (kind : IntCommit)
    (v : IntView) (x : Int) : Prop where
  listed : ∃ b views, s.branchers[c.brancher]? = some (.viewValue b) ∧
    b.branching = .int views selection kind ∧ views[c.position]? = some v
  fit : v.Fit s.store
  value : c.value = .int x

/-- The value of a choice at such a view was selected there. -/
theorem AtView.selected (hat : s.AtView c selection kind v x) (hrun : choice s = .ok c t) :
    v.isFixed s.store = false ∧ (∃ next, selection.select s.store v = .ok (x, next)) ∧
      c.alternatives = kind.alternatives ∧ ∃ b, t.branchers[c.brancher]? = some b ∧
        ∀ alternative, b.commit c alternative = .ok (kind.commit alternative v x) := by
  obtain ⟨b, views, hb, hbranching, hv⟩ := hat.listed
  obtain ⟨-, -, -, -, b', view, start, next, hb', hplace, hview, hopen, hselect, hnumber⟩ :=
    of_choice hrun
  obtain rfl := Brancher.viewValue.inj (Option.some.inj (hb.symm.trans hb'))
  obtain rfl : view = .int v := by simpa [hbranching, Branching.views, hv] using hview.symm
  simp only [hbranching, Branching.selectValue, hv, hat.value] at hselect
  split at hselect
  next x' selection' hvalue =>
    cases hselect
    refine ⟨hopen, ⟨selection', hvalue⟩, hnumber, _, hplace, fun alternative => ?_⟩
    simp only [Brancher.commit, Branching.commit, hv, hat.value, BranchValue.int?, Except.map]
  · cases hselect

/-! ## Progress -/

/-- The space has failed, or the view has lost a number. -/
def Progresses (s u : Space) (v : IntView) : Prop :=
  u.failure ≠ none ∨ {y | y ∈ v.domain u.store} ⊂ {y | y ∈ v.domain s.store}

/-- To narrow to some numbers is progress where not all of them are kept. -/
theorem NarrowedTo.progresses_iff {keep : Int → Prop}
    (hnarrowed : s.NarrowedTo (fun a => keep (v.point a)) u) (hfit : v.Fit s.store)
    (hvalid : s.store.Valid) (hvalid' : u.store.Valid) :
    s.Progresses u v ↔ ∃ y ∈ v.domain s.store, ¬keep y := by
  cases hnarrowed with
  | failed hfailed hnone =>
      refine iff_of_true (Or.inl hfailed) ?_
      obtain ⟨a, ha⟩ := hvalid.exists_admits
      exact ⟨v.point a, hfit.point_mem ha, hnone a ha⟩
  | narrowed hok hnarrows hstore hadmits =>
      have hmem : ∀ y, y ∈ v.domain u.store ↔ y ∈ v.domain s.store ∧ keep y := by
        intro y
        constructor
        · intro hy
          obtain ⟨a, ha, rfl⟩ := IntView.exists_admits hvalid' hy
          have hbefore := (hadmits a).mp ha
          exact ⟨hfit.point_mem hbefore.1, hbefore.2⟩
        · rintro ⟨hy, hkept⟩
          obtain ⟨a, ha, rfl⟩ := IntView.exists_admits hvalid hy
          have hrefines : s.store.Refines u.store :=
            hstore ▸ hnarrows.refines.trans (Store.refines_silence _)
          exact (hfit.refines hrefines).point_mem ((hadmits a).mpr ⟨ha, hkept⟩)
      simp only [Progresses, hok, ne_eq, not_true_eq_false, false_or, Set.ssubset_iff_exists,
        Set.mem_ofPred_eq, Set.subset_def, hmem]
      constructor
      · rintro ⟨-, y, hy, hout⟩
        exact ⟨y, hy, fun hkept => hout ⟨hy, hkept⟩⟩
      · rintro ⟨y, hy, hout⟩
        exact ⟨fun z hz => hz.1, y, hy, fun hin => hout hin.2⟩

/-- A commit at such a view narrows to some numbers, all of them exactly where the
alternative stalls, or breaches a precondition there. -/
theorem AtView.commit_cases (hat : s.AtView c selection kind v x) (hvalid : s.store.Valid)
    (hchoice : choice s = .ok c t) (alternative : Nat) :
    (kind.Stalls s.store v x alternative ∧ ¬∃ u, commit c alternative t = .ok () u) ∨
      ∃ (b : Brancher) (keep : Int → Prop), t.branchers[c.brancher]? = some b ∧
        b.commit c alternative = .ok (kind.commit alternative v x) ∧
        Store.KeepsExactly (kind.commit alternative v x) (fun a => keep (v.point a)) t.store ∧
        ((∃ y ∈ v.domain s.store, ¬keep y) ↔ ¬kind.Stalls s.store v x alternative) := by
  obtain ⟨-, hstore, -, hok, -⟩ := of_choice hchoice
  obtain ⟨hopen, ⟨next, hselect⟩, -, b, hb, hcommit⟩ := hat.selected hchoice
  obtain ⟨hlower, hupper⟩ := IntSelection.between_of_select hat.fit hvalid hopen hselect
  rcases kind.commit_cases alternative hat.fit hvalid hopen hlower hupper with
    ⟨hstalls, hbreach⟩ | ⟨keep, hkeeps, hprogress⟩
  · refine Or.inl ⟨hstalls, ?_⟩
    rintro ⟨u, hrun⟩
    simp only [Space.commit, isFailed, hok, Option.isSome_none, Bool.false_eq_true, if_false,
      hb, hcommit, hbreach] at hrun
    split at hrun <;> cases hrun
  · exact Or.inr ⟨b, keep, hb, hcommit alternative, hstore ▸ hkeeps, hprogress⟩

/-- A commit that gives a space does so for a legal alternative. -/
theorem lt_alternatives_of_commit (hok : t.failure = none)
    (hrun : commit c alternative t = .ok () u) : alternative < c.alternatives := by
  simp only [Space.commit, isFailed, hok, Option.isSome_none, Bool.false_eq_true, if_false]
    at hrun
  split at hrun
  · cases hrun
  next hlegal => exact not_le.mp hlegal

/-! ## Branches of a search -/

/-- Down a branch of the search with this many choices, all of them at integer views and
with alternatives that do not stall; each is committed on some copy. -/
inductive Descends (s : Space) : Nat → Space → Prop where
  | start : s.Descends 0 s
  | step {n : Nat} {t u w w' : Space} {c : Choice} {selection : IntSelection}
      {kind : IntCommit} {v : IntView} {x : Int} {alternative : Nat}
      (hdescends : s.Descends n t) (hstatus : status t = .ok .branching u)
      (hchoice : choice u = .ok c w) (hat : u.AtView c selection kind v x)
      (hmoves : ¬kind.Stalls u.store v x alternative) (mode : CopyMode) (next : Nat)
      (hcommit : commit c alternative (w.copy mode next).1 = .ok () w') : s.Descends (n + 1) w'

/-- A commit to an alternative that does not stall lowers the measure, unless the space
fails. -/
theorem AtView.measure_lt (hat : s.AtView c selection kind v x) (hsound : s.Sound)
    (hchoice : choice s = .ok c t) (hmoves : ¬kind.Stalls s.store v x alternative)
    (hcommit : commit c alternative t = .ok () u) (hok : u.failure = none) :
    u.store.measure < s.store.measure := by
  obtain ⟨-, hstore, -, hok', -⟩ := of_choice hchoice
  have hperform : Act.choice.perform s = some t := by rw [Act.perform, hchoice, resume]
  have hsound' : t.Sound := (Act.keeps hsound hperform).sound
  rcases hat.commit_cases hsound.store hchoice alternative with
    ⟨hstalls, -⟩ | ⟨b, keep, hb, hnarrowing, hkeeps, hprogress⟩
  · exact absurd hstalls hmoves
  · have hnarrowed := narrowedTo_of_commit hsound' hok'
      (lt_alternatives_of_commit hok' hcommit) hb hnarrowing hkeeps hcommit
    obtain ⟨y, hy, hout⟩ := hprogress.mpr hmoves
    obtain ⟨a, ha, rfl⟩ := IntView.exists_admits hsound.store hy
    rw [← hstore] at ha ⊢
    exact hnarrowed.measure_lt hok ⟨a, ha, hout⟩

/-- A status revives no failed space and does not raise the measure. -/
theorem Sound.measure_le_of_status (hsound : s.Sound) {answer : SpaceStatus}
    (hstatus : status s = .ok answer t) :
    (t.failure = none → s.failure = none) ∧ t.store.measure ≤ s.store.measure := by
  obtain ⟨reason, u, hpropagate, hkin⟩ := exists_propagate_of_status hstatus
  rw [hkin.failure, hkin.store]
  exact ⟨(hsound.propagate hpropagate).frame.failure, hsound.measure_le_of_propagate hpropagate⟩

/-- Every choice but the last one has lowered the measure, and the last one too unless the
space has failed. -/
theorem Descends.measure (hdescends : s.Descends n t) (hreaches : new.Reaches s) :
    new.Reaches t ∧ (t.failure = none → t.store.measure + n ≤ s.store.measure) := by
  induction hdescends with
  | start => exact ⟨hreaches, fun _ => le_refl _⟩
  | @step n t u w w' c selection kind v x alternative hdescends hstatus hchoice hat hmoves mode
      next hcommit ih =>
      obtain ⟨hreachest, hmeasure⟩ := ih
      have hreachesu : new.Reaches u :=
        .act .status hreachest (by rw [Act.perform, hstatus, resume])
      have hreachesw : new.Reaches w :=
        .act .choice hreachesu (by rw [Act.perform, hchoice, resume])
      have hreachesw' : new.Reaches w' :=
        .act (.commit c alternative) (.act (.copy mode next) hreachesw rfl)
          (by rw [Act.perform, hcommit, resume])
      refine ⟨hreachesw', fun hok => ?_⟩
      obtain ⟨hoku, -, -, hokw, -⟩ := of_choice hchoice
      -- the commit on the copy does what it would have done on the space that was copied
      obtain ⟨w'', hcommit', htwin⟩ := (twin_copy hokw mode next).symm.of_ok
        (impartial_commit c alternative) (oblivious_commit c alternative) hcommit
      have hless := hat.measure_lt (hreachesu.tidy tidy_new).sound hchoice hmoves hcommit'
        (htwin.failure.trans hok)
      rw [htwin.store] at hless
      obtain ⟨hrevives, hle⟩ := (hreachest.tidy tidy_new).sound.measure_le_of_status hstatus
      have hbefore := hmeasure (hrevives hoku)
      omega

/-- No branch has more choices than the measure of the space that it starts from, up to the
one that fails. -/
theorem Descends.le_measure (hdescends : s.Descends n t) (hreaches : new.Reaches s) :
    n ≤ s.store.measure + 1 := by
  cases hdescends with
  | start => exact Nat.zero_le _
  | step hdescends hstatus hchoice =>
      obtain ⟨hreachest, hmeasure⟩ := hdescends.measure hreaches
      obtain ⟨hrevives, -⟩ := (hreachest.tidy tidy_new).sound.measure_le_of_status hstatus
      have hbefore := hmeasure (hrevives (of_choice hchoice).1)
      omega

/-- Whatever selection is combined with whatever commit, an alternative of a choice at an
integer view fails the space or narrows the view exactly where it does not stall; the
combinations that move on have none that stalls; and branches without such alternatives
end. -/
theorem progress_unless_stalled (hreaches : new.Reaches s) :
    (∀ c t selection kind v x, s.Orderly → choice s = .ok c t →
      s.AtView c selection kind v x →
        (∀ alternative < c.alternatives,
          (∃ u, commit c alternative t = .ok () u ∧ s.Progresses u v) ↔
            ¬kind.Stalls s.store v x alternative) ∧
        (kind.MovesOn selection → ∀ alternative, ¬kind.Stalls s.store v x alternative)) ∧
      ∀ n t, s.Descends n t → n ≤ s.store.measure + 1 := by
  have hsound : s.Sound := (hreaches.tidy tidy_new).sound
  refine ⟨?_, fun n t hdescends => hdescends.le_measure hreaches⟩
  intro c t selection kind v x horderly hchoice hat
  constructor
  · intro alternative hlegal
    obtain ⟨-, hstore, hslots, hok, -⟩ := of_choice hchoice
    have htidy : t.Tidy := Reaches.tidy
      (.act .choice hreaches (by rw [Act.perform, hchoice, resume])) tidy_new
    have horderly' : t.Orderly := horderly.of_slots (hstore ▸ .refl s.store) hslots
    rcases hat.commit_cases hsound.store hchoice alternative with
      ⟨hstalls, hnone⟩ | ⟨b, keep, hb, hnarrowing, hkeeps, hprogress⟩
    · refine iff_of_false ?_ (not_not_intro hstalls)
      rintro ⟨u, hrun, -⟩
      exact hnone ⟨u, hrun⟩
    · obtain ⟨u, hrun, hnarrowed⟩ := commit_narrows htidy.sound hok hlegal hb hnarrowing hkeeps
        (horderly'.hear htidy)
      have hperform : (Act.commit c alternative).perform t = some u := by
        rw [Act.perform, hrun, resume]
      have hkeeps' : t.Keeps u := Act.keeps htidy.sound hperform
      have hiff := hnarrowed.progresses_iff (hstore ▸ hat.fit) htidy.sound.store
        hkeeps'.sound.store
      rw [hstore, hprogress] at hiff
      simp only [Progresses, hstore] at hiff ⊢
      rw [← hiff]
      constructor
      · rintro ⟨u', hrun', hprogresses⟩
        obtain ⟨-, rfl⟩ := EStateM.Result.ok.inj (hrun.symm.trans hrun')
        exact hprogresses
      · exact fun hprogresses => ⟨u, hrun, hprogresses⟩
  · intro hmoves alternative
    obtain ⟨hopen, ⟨next, hselect⟩, -⟩ := hat.selected hchoice
    exact hmoves.not_stalls hat.fit hsound.store hopen hselect alternative

/-- The middle between two neighbours is the lower one, and the part from there on is all of
the domain. -/
theorem middle_of_neighbours_stalls :
    let b : ViewBrancher :=
      { start := 0, selector := .inputOrder, branching := .int [.var 0] .split .splitUpper
        label := none, selectionNotices := false, commitNotices := false }
    let acts : List Act := [.newInt 0 1, .addBrancher (.viewValue b), .status]
    ∃ s, performAll acts new = some s ∧ ∃ c t, choice s = .ok c t ∧ c.value = .int 0 ∧
      (¬∃ u, commit c 0 t = .ok () u ∧ s.Progresses u (.var 0)) ∧
      (∃ u, commit c 1 t = .ok () u ∧ s.Progresses u (.var 0)) ∧
      (∃ u, s.Descends 1 u) ∧ ∀ n u, s.Descends n u → n ≤ s.store.measure + 1 := by
  intro b acts
  let d : IntDomain := { lower := 0, upper := 1, holes := [], removed := 0 }
  let s : Space :=
    { new with store := { Store.empty with ints := #[d] }, branchers := #[.viewValue b] }
  have hperform : performAll acts new = some s := rfl
  have hchoice : choice s = .ok ⟨0, 2, 0, .int 0⟩ s := rfl
  have hfit : IntView.Fit s.store (.var 0) := ⟨rfl, trivial⟩
  have horderly : s.Orderly := fun j p hp => by simp [propagator?, s, new] at hp
  have hat : s.AtView ⟨0, 2, 0, .int 0⟩ .split .splitUpper (.var 0) 0 :=
    ⟨⟨b, [.var 0], rfl, rfl, rfl⟩, hfit, rfl⟩
  obtain ⟨hprogress, hdescends⟩ := progress_unless_stalled (reaches_of_performAll hperform)
  obtain ⟨hiff, -⟩ := hprogress _ _ _ _ _ _ horderly hchoice hat
  have hfirst : IntCommit.splitUpper.Stalls s.store (.var 0) 0 0 := Or.inl ⟨rfl, le_refl _⟩
  have hsecond : ¬IntCommit.splitUpper.Stalls s.store (.var 0) 0 1 := by
    simp [IntCommit.Stalls, lowest32]
  obtain ⟨u, hcommit, hprogresses⟩ := (hiff 1 (by decide)).mpr hsecond
  obtain ⟨w, hcopied, -⟩ := commit_copy rfl .sharing 0 hcommit
  exact ⟨s, hperform, _, s, hchoice, rfl, fun hsome => (hiff 0 (by decide)).mp hsome hfirst,
    ⟨u, hcommit, hprogresses⟩, ⟨w, .step .start rfl hchoice hat hsecond .sharing 0 hcopied⟩,
    hdescends⟩

end Space

end ConstraintSpace
