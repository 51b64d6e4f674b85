import ConstraintSpace.Proofs.Search.Enumeration
import ConstraintSpace.Proofs.Space.Posting
import ConstraintSpace.Proofs.Store.Fixed

/-!
# From a node to the nodes below it

A posed space was built by plain acts, has not failed, has branchers that make progress
and cover every variable, and its propagators have views of their own variables.  What it
allows are the assignments that all posted propagators accept.  At a node that fails
nothing is allowed, and at a solution one assignment is.  A branching node hands what it
allows on to the two nodes below it, each assignment to one of them, and both of them are
posed and smaller.
-/

namespace ConstraintSpace

/-- All views of a propagator that fits are fixed where all variables are. -/
theorem Propagator.Fit.allFixed {p : Propagator} {s : Store} (hfit : p.Fit s)
    (hfixed : s.Fixed) : p.AllFixed s := by
  have hview : ∀ {v : IntView}, v.Fit s → v.isFixed s = true := by
    intro v hv
    cases hbase : v.base? with
    | none => simp only [IntView.isFixed, hbase]
    | some id =>
        simp only [IntView.isFixed, hbase]
        exact hfixed.1 id (IntView.known_of_base? hv.known hbase)
  cases p with
  | notEqual a b =>
      simp only [AllFixed, watches, List.mem_cons, List.not_mem_nil, or_false,
        forall_eq_or_imp, forall_eq, AnyView.isFixed]
      exact ⟨hview hfit.1, hview hfit.2⟩
  | lessOrEqual a b =>
      simp only [AllFixed, watches, List.mem_cons, List.not_mem_nil, or_false,
        forall_eq_or_imp, forall_eq, AnyView.isFixed]
      exact ⟨hview hfit.1, hview hfit.2⟩
  | subset a b _ =>
      simp only [AllFixed, watches, List.mem_cons, List.not_mem_nil, or_false,
        forall_eq_or_imp, forall_eq, AnyView.isFixed]
      exact ⟨hfixed.2 a hfit.1, hfixed.2 b hfit.2⟩
  | floatLessOrEqual a b => exact hfit.elim
  | scripted _ => exact hfit.elim

namespace Space

variable {s s' t u : Space} {posted : List (Nat × Propagator)} {a : Assignment}

/-- Every brancher makes progress with every alternative. -/
def Progressive (s : Space) : Prop :=
  ∀ (j : Nat) (b : ViewBrancher), s.branchers[j]? = some (.viewValue b) → b.branching.Progressive

/-- Every variable is under a view of some brancher. -/
structure Covers (s : Space) : Prop where
  int : ∀ id < s.store.ints.size, ∃ (j : Nat) (b : ViewBrancher) (v : IntView),
    s.branchers[j]? = some (.viewValue b) ∧ AnyView.int v ∈ b.branching.views ∧ v.base? = some id
  set : ∀ id < s.store.sets.size, ∃ (j : Nat) (b : ViewBrancher),
    s.branchers[j]? = some (.viewValue b) ∧ AnyView.set id ∈ b.branching.views

/-- A space that was built to be searched, from the propagators that were posted. -/
structure Posed (posted : List (Nat × Propagator)) (s : Space) : Prop where
  built : Built posted s
  apart : ∀ e ∈ posted, e.2.Apart
  ok : s.failure = none
  progressive : s.Progressive
  covers : s.Covers

/-- The assignment is one of the store, and all posted propagators accept it. -/
def Allows (posted : List (Nat × Propagator)) (s : Space) (a : Assignment) : Prop :=
  s.store.Assigns a ∧ ∀ e ∈ posted, e.2.Accepts a

theorem allows_iff_of_assigns {keep : Prop}
    (hassigns : s'.store.Assigns a ↔ s.store.Assigns a ∧ keep) :
    s'.Allows posted a ↔ s.Allows posted a ∧ keep := by
  unfold Allows
  rw [hassigns]
  tauto

/-- Branchers with the same views keep a space posed. -/
theorem Posed.of_retains (hposed : s.Posed posted) (hbuilt : Built posted t)
    (hok : t.failure = none) (hretains : s.Retains t)
    (hints : t.store.ints.size = s.store.ints.size)
    (hsets : t.store.sets.size = s.store.sets.size) : t.Posed posted where
  built := hbuilt
  apart := hposed.apart
  ok := hok
  progressive := by
    intro j b hb
    have hj : j < s.branchers.size := by
      rw [← hretains.size]
      exact (Array.getElem?_eq_some_iff.mp hb).1
    have hold := Array.getElem?_eq_getElem hj
    cases hbrancher : s.branchers[j] with
    | observer o =>
        exact (hposed.built.kernel.listed j _ (hold.trans (congrArg some hbrancher))).elim
    | viewValue first =>
        rw [hbrancher] at hold
        obtain ⟨b', hb', hakin⟩ := hretains.akin j first hold
        obtain rfl := Brancher.viewValue.inj (Option.some.inj (hb.symm.trans hb'))
        exact hakin.progressive (hposed.progressive j first hold)
  covers := by
    constructor
    · intro id hid
      obtain ⟨j, b, v, hb, hview, hbase⟩ := hposed.covers.int id (hints ▸ hid)
      obtain ⟨b', hb', hakin⟩ := hretains.akin j b hb
      exact ⟨j, b', v, hb', hakin.views_eq ▸ hview, hbase⟩
    · intro id hid
      obtain ⟨j, b, hb, hview⟩ := hposed.covers.set id (hsets ▸ hid)
      obtain ⟨b', hb', hakin⟩ := hretains.akin j b hb
      exact ⟨j, b', hb', hakin.views_eq ▸ hview⟩

/-! ## Status -/

/-- Propagation does not raise the measure. -/
theorem Sound.measure_le_of_propagate (hsound : s.Sound) {reason : Option Inconsistency}
    (hrun : Space.propagate s = .ok reason t) : t.store.measure ≤ s.store.measure := by
  rcases propagate_cases hrun with ⟨_, -, -, rfl⟩ | ⟨-, -, u, hschedule, hqueue⟩
  · exact le_refl _
  obtain ⟨hsound', hstore, -⟩ := hsound.schedule hschedule
  let P : Space → Prop := fun w =>
    w.Sound ∧ w.store.isQuiet = true ∧ w.store.measure ≤ s.store.measure
  have hstart : P u := by
    refine ⟨hsound', ?_, ?_⟩ <;> rw [hstore]
    · rfl
    · exact le_refl _
  refine (runQueue_induction (P := P) ?_ hstart hqueue).2.2
  rintro w w' id q ⟨hsound, hquiet, hle⟩ hpop hone
  have hran := (hsound.popped hpop).runOne hquiet hone
  refine ⟨hran.sound, hran.quiet, ?_⟩
  rcases hran.progress with hless | ⟨hsame, -⟩
  · exact hless.le.trans hle
  · exact hsame.le.trans hle

/-- A status is the result of propagation; asking the branchers leaves the rest alone. -/
theorem Kernel.exists_propagate (hkernel : s.Kernel) {answer : SpaceStatus}
    (hstatus : Space.status s = .ok answer t) :
    ∃ reason u, Space.propagate s = .ok reason u ∧ s.Lossless u ∧ u.Kin t ∧
      (answer = .failed ↔ reason ≠ none) := by
  obtain ⟨reason, u, hpropagate, -, hlossless⟩ := hkernel.propagate
  rw [status_eq, hpropagate] at hstatus
  refine ⟨reason, u, hpropagate, hlossless, ?_⟩
  cases reason with
  | some first =>
      simp only [EStateM.Result.ok.injEq] at hstatus
      obtain ⟨rfl, rfl⟩ := hstatus
      exact ⟨.refl u, by simp⟩
  | none =>
      cases hadvance : Space.advance u with
      | error fault v => simp [hadvance] at hstatus
      | ok found v =>
          simp only [hadvance, EStateM.Result.ok.injEq] at hstatus
          obtain ⟨rfl, rfl⟩ := hstatus
          refine ⟨kin_of_advanceBy hadvance, ?_⟩
          cases found <;> simp

/-- A space at rest whose branchers are past all views has every variable fixed. -/
theorem Covers.fixed (hcovers : s.Covers) (hdecided : s.Decided) : s.store.Fixed := by
  constructor
  · intro id hid
    obtain ⟨j, b, v, hb, hview, hbase⟩ := hcovers.int id hid
    simpa [AnyView.isFixed, IntView.isFixed, hbase] using hdecided j b hb _ hview
  · intro id hid
    obtain ⟨j, b, hb, hview⟩ := hcovers.set id hid
    exact hdecided j b hb _ hview

/-- What the status of a posed space tells: nothing is allowed, or one assignment, or the
same ones as before. -/
theorem Posed.status_cases (hposed : s.Posed posted) :
    (∃ t, status s = .ok .failed t ∧ ∀ a, ¬s.Allows posted a) ∨
      (∃ t, status s = .ok .solved t ∧ t.store.Fixed ∧
        ∀ a, s.Allows posted a ↔ a = t.store.assignment) ∨
      ∃ t, status s = .ok .branching t ∧ t.Posed posted ∧ t.Ready ∧
        t.store.measure ≤ s.store.measure ∧ ∀ a, s.Allows posted a ↔ t.Allows posted a := by
  have hkernel := hposed.built.kernel
  obtain ⟨answer, t, hstatus, hkernel', hretains, hanswered⟩ := hkernel.status
  have hbuilt : Built posted t :=
    hposed.built.of_act .status trivial rfl (by rw [Act.perform, hstatus, resume])
  obtain ⟨reason, u, hpropagate, hlossless, hkin, hfailed⟩ := hkernel.exists_propagate hstatus
  have hpropagated := hkernel.sound.propagate hpropagate
  have hints : t.store.ints.size = s.store.ints.size := by
    rw [hkin.store, hpropagated.frame.ints_size]
  have hsets : t.store.sets.size = s.store.sets.size := by
    rw [hkin.store, hpropagated.frame.sets_size]
  have hallows : ∀ a, s.Allows posted a → answer ≠ .failed ∧ t.Allows posted a := by
    intro a ha
    obtain ⟨hsolves, hok⟩ := hlossless a (hposed.built.solves ha.1.toAdmits ha.2)
    have hreason : reason = none := hpropagated.failure.symm.trans (hok hposed.ok)
    refine ⟨fun hanswer => hfailed.mp hanswer hreason, ?_, ha.2⟩
    exact ha.1.of_sizes hints hsets (hkin.store ▸ hsolves.admitted)
  have hback : ∀ a, t.Allows posted a → s.Allows posted a := by
    rintro a ⟨hassigns, haccepts⟩
    refine ⟨hassigns.of_sizes hints.symm hsets.symm ?_, haccepts⟩
    rw [hkin.store] at hassigns
    exact hpropagated.frame.refines.admits hassigns.toAdmits
  cases answer with
  | failed => exact Or.inl ⟨t, hstatus, fun a ha => (hallows a ha).1 rfl⟩
  | solved =>
      obtain ⟨hrests, hok, hdecided⟩ : t.Rests ∧ t.failure = none ∧ t.Decided := hanswered
      have hposed' := hposed.of_retains hbuilt hok hretains hints hsets
      have hfixed := hposed'.covers.fixed hdecided
      have hassigns := fun a => hfixed.assigns_iff hkernel'.sound.store (a := a)
      refine Or.inr (Or.inl ⟨t, hstatus, hfixed, fun a => ?_⟩)
      rw [← hassigns]
      refine ⟨fun ha => (hallows a ha).2.1, fun ha => hback a ⟨ha, fun e he => ?_⟩⟩
      have hupholds := hbuilt.upholds e he (hposed.apart e he)
      have hentailed := hupholds.entailed hkernel'.sound hrests hok
        (hupholds.fit.allFixed hfixed)
      exact hentailed a ha.toAdmits
  | branching =>
      have hready : t.Ready := hanswered
      have hmeasure : t.store.measure ≤ s.store.measure := by
        rw [hkin.store]
        exact hkernel.sound.measure_le_of_propagate hpropagate
      exact Or.inr (Or.inr ⟨t, hstatus, hposed.of_retains hbuilt hready.ok hretains hints hsets,
        hready, hmeasure, fun a => ⟨fun ha => (hallows a ha).2, hback a⟩⟩)

/-! ## Choice and commit -/

/-- A commit that gives up an assignment without failing lowers the measure. -/
theorem NarrowedTo.measure_lt {keep : Assignment → Prop} (hnarrowed : s.NarrowedTo keep t)
    (hok : t.failure = none) (hother : ∃ a, s.store.Admits a ∧ ¬keep a) :
    t.store.measure < s.store.measure := by
  cases hnarrowed with
  | failed hfailed => exact absurd hok hfailed
  | @narrowed store _ hnarrows hstore hadmits =>
      have hmeasure : t.store.measure = store.measure := by
        rw [hstore]
        rfl
      rw [hmeasure]
      refine hnarrows.progress.resolve_left fun hsame => ?_
      obtain ⟨a, ha, hnot⟩ := hother
      refine hnot ((hadmits a).mp ?_).2
      rw [hstore, hsame]
      exact Store.admits_silence.mpr ha

/-- A commit to a part of the assignments that is neither empty nor all of them narrows. -/
theorem NarrowedTo.narrows {keep : Assignment → Prop} (hnarrowed : s.NarrowedTo keep t)
    (hsome : ∃ a, s.store.Admits a ∧ keep a) (hother : ∃ a, s.store.Admits a ∧ ¬keep a) :
    t.failure = none ∧ t.store.ints.size = s.store.ints.size ∧
      t.store.sets.size = s.store.sets.size ∧ t.store.measure < s.store.measure ∧
        ∀ a, t.store.Assigns a ↔ s.store.Assigns a ∧ keep a := by
  cases hnarrowed with
  | failed _ hnone =>
      obtain ⟨a, ha, hkeep⟩ := hsome
      exact absurd hkeep (hnone a ha)
  | narrowed hok hnarrows hstore hadmits =>
      have hints : t.store.ints.size = s.store.ints.size := by
        rw [hstore, ← hnarrows.ints_size]
        rfl
      have hsets : t.store.sets.size = s.store.sets.size := by
        rw [hstore, ← hnarrows.sets_size]
        rfl
      have hless := NarrowedTo.measure_lt (.narrowed hok hnarrows hstore hadmits) hok hother
      exact ⟨hok, hints, hsets, hless, fun a =>
        Store.assigns_iff_of_sizes hints hsets (hadmits a)⟩

theorem Posed.clone (hposed : s.Posed posted) : s.clone.Posed posted := by
  have hbuilt : Built posted s.clone := hposed.built.of_act (.copy .sharing 0) rfl rfl rfl
  have halike := alike_clone hposed.ok
  have hbranchers : s.clone.branchers = s.branchers := by
    obtain ⟨counts, journal, hclone⟩ := halike
    rw [hclone]
  exact hposed.of_retains hbuilt (halike.failure.trans hposed.ok) (.of_eq hbranchers)
    (by rw [halike.store]) (by rw [halike.store])

/-- A posed space that is ready hands on what it allows to the two alternatives of its
choice, each assignment to one of them. -/
theorem Posed.branch (hposed : s.Posed posted) (hready : s.Ready) :
    ∃ chosen u, choice s = .ok chosen u ∧ chosen.alternatives = 2 ∧ ∃ keep : Assignment → Prop,
      ∀ alternative < 2, ∃ v, commit chosen alternative u.clone = .ok () v ∧ v.Posed posted ∧
        v.store.measure < s.store.measure ∧
          ∀ a, v.Allows posted a ↔ s.Allows posted a ∧ (alternative = 0 ↔ keep a) := by
  obtain ⟨chosen, u, hchoice, hoffers, hretains, hkin⟩ := hready.choice
  have hbuilt : Built posted u :=
    hposed.built.of_act .choice trivial rfl (by rw [Act.perform, hchoice, resume])
  have hposed' := hposed.of_retains hbuilt hoffers.ok hretains (by rw [hkin.store])
    (by rw [hkin.store])
  have hclone := hposed'.clone
  have hstore : u.clone.store = s.store := (alike_clone hoffers.ok).store.trans hkin.store
  have hoffered : u.clone.Offers chosen := (alike_clone hoffers.ok).offers hoffers
  obtain ⟨b, hb, hapt⟩ := hoffered.apt
  have hlisted : b.branching.Listed u.clone.store := hoffered.kernel.listed _ _ hb
  obtain ⟨hfirst, hsecond⟩ := hapt.exists_parts (hapt.suited hlisted)
    (hclone.progressive _ b hb) hoffered.kernel.sound.store
  refine ⟨chosen, u, hchoice, hoffers.alternatives, b.branching.First chosen, ?_⟩
  intro alternative halternative
  obtain ⟨v, b', hcommit, -, hbranchers, hb', -, hnarrowed⟩ := hoffered.commit halternative
  obtain rfl := Brancher.viewValue.inj (Option.some.inj (hb.symm.trans hb'))
  have hsides : (∃ a, u.clone.store.Admits a ∧ (alternative = 0 ↔ b.branching.First chosen a)) ∧
      ∃ a, u.clone.store.Admits a ∧ ¬(alternative = 0 ↔ b.branching.First chosen a) := by
    obtain rfl | rfl : alternative = 0 ∨ alternative = 1 := by omega
    · simpa using ⟨hfirst, hsecond⟩
    · simpa using ⟨hsecond, hfirst⟩
  obtain ⟨hok, hints, hsets, hmeasure, hassigns⟩ := hnarrowed.narrows hsides.1 hsides.2
  have hbuilt' : Built posted v := hclone.built.of_act (.commit chosen alternative) trivial rfl
    (by rw [Act.perform, hcommit, resume])
  refine ⟨v, hcommit, hclone.of_retains hbuilt' hok (.of_eq hbranchers) hints hsets,
    hstore ▸ hmeasure, fun a => allows_iff_of_assigns ?_⟩
  rw [hassigns, hstore]

end Space

end ConstraintSpace
