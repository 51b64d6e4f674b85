import ConstraintSpace.Proofs.Propagator.Closure
import ConstraintSpace.Proofs.Space.Posting
import ConstraintSpace.Proofs.Space.WakeUps

/-!
# Propagation is confluent

Take a space without propagators and add some that fit and whose views share no variable,
in any order, with requests for the status at any points in between.  Whatever the order,
the assignments that are left are those that last: they belong to a family that the domains
of the start admit and that is closed under all of the propagators.  The space has failed
exactly where none lasts.

One half is that a closed family bears every run, so that nothing of it is lost and no run
fails.  The other half is that every propagator with a slot waits or is closed under what is
left, so that at rest what is left is a closed family itself; a propagator that gave up its
slot is entailed, and therefore closed as well.
-/

namespace ConstraintSpace

namespace Propagator

variable {p q : Propagator} {s s' : Store}

theorem Apart.of_guise (hapart : p.Apart) (hguise : q.guise = p.guise) : q.Apart := by
  unfold Apart
  rw [watches_eq_of_guise hguise]
  exact hapart

theorem Fit.closed_iff_of_guise {K : Assignment → Prop} (hfit : p.Fit s)
    (hguise : q.guise = p.guise) : q.Closed K ↔ p.Closed K := by
  rw [← q.closed_core, hfit.core_eq_of_guise hguise, p.closed_core]

/-- Where nothing that is pending concerns the propagator, its watches heard nothing. -/
theorem silent_of_not_subscribes (hnarrows : s.Narrows s')
    (hnone : ∀ raised ∈ s'.pending, ¬p.Subscribes raised) :
    ∀ w ∈ p.watches, w.Silent s s' := by
  intro w hw v events hwatch event hevent
  by_contra hloud
  have hraised : (event, v) ∈ s'.pending := hnarrows.mem_pending (by simpa using hloud)
  exact hnone _ hraised ⟨w, hw, events, hwatch, hevent⟩

end Propagator

namespace Space

variable {s s' t : Space} {id j : Nat} {p q : Propagator} {K : Assignment → Prop}

/-! ## What is left is closed -/

/-- Every propagator with a slot fits, its views share no variable, and it waits or would
take nothing out of the domains. -/
structure Watchful (s : Space) : Prop extends Tidy s, Fitting s where
  apart : ∀ j p, s.propagator? j = some p → p.Apart
  alert : s.failure = none → ∀ j p, s.propagator? j = some p →
    j ∈ s.queue.ids ∨ p.Closed s.store.Admits

theorem admits_of_schedule {skip : Option Nat} (hsound : s.Sound)
    (hrun : Space.schedule skip s = .ok () s') : s'.store.Admits = s.store.Admits := by
  obtain ⟨-, hstore, -⟩ := hsound.schedule hrun
  funext v
  rw [hstore]
  exact propext Store.admits_silence

/-- When the events of a narrowing are passed on, a propagator that was closed waits or is
closed still. -/
theorem Watchful.waits_or_closed (hwatchful : s.Watchful)
    (hnarrows : s.store.Narrows t.store) (hattentive : t.Attentive) (hsound : t.Sound)
    (hp : s.propagator? j = some p) (hp' : t.propagator? j = some p) {skip : Option Nat}
    (hskip : skip ≠ some j) (hrun : Space.schedule skip t = .ok () s')
    (hbefore : j ∈ t.queue.ids ∨ p.Closed s.store.Admits) :
    j ∈ s'.queue.ids ∨ p.Closed s'.store.Admits := by
  have hfit := hwatchful.fit j p hp
  obtain ⟨-, -, -, -, -, -, -, hqueued⟩ := hsound.schedule hrun
  rcases hbefore with hwaits | hclosed
  · exact Or.inl (hqueued.old hsound.queue j hwaits)
  refine (hattentive.waits_or_spares hsound hskip hp' hfit.heedful hrun).imp_right ?_
  intro hnone
  rw [admits_of_schedule hsound hrun]
  exact hclosed.of_silent hfit hwatchful.sound.store hsound.store hnarrows.refines
    (Propagator.silent_of_not_subscribes hnarrows hnone)

/-- The propagator whose turn it is ends closed, and the others hear of what it changed. -/
theorem Watchful.alert_turn {rest : Queue} (hwatchful : s.Watchful)
    (hpop : s.queue.pop? = some (id, rest))
    (hrun : runOne id { s with queue := rest } = .ok () s') (hok' : s'.failure = none)
    (hp : s'.propagator? j = some p) : j ∈ s'.queue.ids ∨ p.Closed s'.store.Admits := by
  obtain ⟨-, hperm, -⟩ := hwatchful.sound.queue.pop? hpop
  obtain ⟨skip, t, hhandover, hschedule⟩ := hwatchful.toTidy.handover hpop hrun hok'
  obtain ⟨-, -, hslots, -⟩ := hhandover.sound.schedule hschedule
  have hp' : t.propagator? j = some p := by simpa only [propagator?, hslots] using hp
  by_cases hne : j = id
  · -- as its views share no variable, it ended at its fixpoint: what it left is closed
    subst hne
    obtain ⟨q, hq, rfl, hverdict⟩ := hhandover.own p hp'
    have hfit := hwatchful.fit j q hq
    have hstore : t.store = (q.run s.store).store := by
      rw [hhandover.store]
      simp only [turned, hq]
    cases q.run_outcome hfit hwatchful.sound.store with
    | fix hfix hcore =>
        refine Or.inr ?_
        rw [admits_of_schedule hhandover.sound hschedule, hstore, ← Propagator.closed_core,
          hcore, Propagator.closed_core]
        exact Propagator.closed_of_fix hfit (hwatchful.apart j q hq) hwatchful.sound.store hfix
    | failed hfailed => simp [hfailed] at hverdict
    | subsumed hsubsumed => simp [hsubsumed] at hverdict
  · obtain ⟨hskip, hsame⟩ := hhandover.others j hne
    have hq : s.propagator? j = some p := hsame ▸ hp'
    have hnarrows : s.store.Narrows t.store :=
      hhandover.store ▸ (turned_narrows hwatchful.sound id).2
    refine hwatchful.waits_or_closed hnarrows hhandover.attentive hhandover.sound hq hp' hskip
      hschedule ?_
    refine (hwatchful.alert (hwatchful.failure_of_pop? hpop) j p hq).imp_left fun hwaits => ?_
    rw [hhandover.queue]
    exact (List.mem_cons.mp (hperm.mem_iff.mp hwaits)).resolve_left hne

theorem Watchful.apart_of_inherits (hwatchful : s.Watchful) (hinherits : s.Inherits s')
    (hp : s'.propagator? j = some p) : p.Apart := by
  obtain ⟨q, hq, hguise⟩ := hinherits j p hp
  exact (hwatchful.apart j q hq).of_guise hguise

theorem Watchful.turn {rest : Queue} (hwatchful : s.Watchful)
    (hpop : s.queue.pop? = some (id, rest))
    (hrun : runOne id { s with queue := rest } = .ok () s') : s'.Watchful where
  toTidy := hwatchful.toTidy.turn hpop hrun
  fit := by
    obtain ⟨t, hrun', hfitting, -⟩ := (hwatchful.toFitting.popped hpop).runOne id
    obtain rfl : t = s' := by simpa [hrun'] using hrun
    exact hfitting.fit
  apart := fun _ _ => by
    have hpopped : s.Inherits { s with queue := rest } := .of_slots rfl
    exact hwatchful.apart_of_inherits (hpopped.trans (Carries.of_ok (inheriting_runOne id) hrun))
  alert := fun hok' _ _ => hwatchful.alert_turn hpop hrun hok'

theorem Watchful.kin (hwatchful : s.Watchful) (hkin : s.Kin s') : s'.Watchful where
  toTidy := (Effect.touch hkin).tidy hwatchful.toTidy
  fit := fun j p hp => by
    obtain ⟨q, hq, hguise⟩ := hkin.exists_of_some hp
    have hfit := hwatchful.fit j q hq
    rw [hkin.store, ← p.fit_core, hfit.core_eq_of_guise hguise, q.fit_core]
    exact hfit
  apart := fun _ _ => hwatchful.apart_of_inherits hkin.inherits
  alert := fun hok j p hp => by
    obtain ⟨q, hq, hguise⟩ := hkin.exists_of_some hp
    rw [hkin.queue, hkin.store, (hwatchful.fit j q hq).closed_iff_of_guise hguise]
    exact hwatchful.alert (hkin.failure ▸ hok) j q hq

theorem Watchful.register (hwatchful : s.Watchful) (hok : s.failure = none)
    (hfit : p.Fit s.store) (hapart : p.Apart) : (s.register p).Watchful where
  toTidy := (Effect.register hok p).tidy hwatchful.toTidy
  fit := fun j q hq => by
    rw [propagator?_register] at hq
    split at hq
    · exact Option.some.inj hq ▸ hfit
    · exact hwatchful.fit j q hq
  apart := fun j q hq => by
    rw [propagator?_register] at hq
    split at hq
    · exact Option.some.inj hq ▸ hapart
    · exact hwatchful.apart j q hq
  alert := fun _ j q hq => by
    have hmem := (hwatchful.sound.queue.enqueue s.slots.size p.priority).2
    rw [propagator?_register] at hq
    split at hq
    next heq => exact Or.inl ((hmem j).mpr (Or.inl heq))
    next =>
      exact (hwatchful.alert hok j q hq).imp_left fun hwaits => (hmem j).mpr (Or.inr hwaits)

/-! ## What is closed is left -/

/-- The space has not failed, and it admits the family, of which no propagator would take
anything. -/
structure Bears (s : Space) (K : Assignment → Prop) : Prop where
  inhabited : ∃ v, K v
  ok : s.failure = none
  admits : ∀ v, K v → s.store.Admits v
  closed : ∀ j p, s.propagator? j = some p → p.Closed K

theorem Fitting.closed_of_inherits (hfitting : s.Fitting) (hinherits : s.Inherits s')
    (hclosed : ∀ j p, s.propagator? j = some p → p.Closed K)
    (hp : s'.propagator? j = some p) : p.Closed K := by
  obtain ⟨q, hq, hguise⟩ := hinherits j p hp
  exact ((hfitting.fit j q hq).closed_iff_of_guise hguise).mpr (hclosed j q hq)

theorem Bears.runOne (hbears : s.Bears K) (hfitting : s.Fitting)
    (hrun : Space.runOne id s = .ok () s') : s'.Bears K := by
  have hleft : s'.failure = none ∧ ∀ v, K v → s'.store.Admits v := by
    cases hp : s.propagator? id with
    | none =>
        rw [runOne_of_gone hp] at hrun
        obtain rfl : s = s' := by simpa using hrun
        exact ⟨hbears.ok, hbears.admits⟩
    | some p =>
        have hspares := fun v hv => (hbears.closed id p hp).run_spares (hfitting.fit id p hp)
          hfitting.sound.store hbears.admits (v := v) hv
        have hpassed : ∀ {t : Space} {skip : Option Nat}, t.Sound → t.failure = s.failure →
            t.store = (p.run s.store).store → Space.schedule skip t = .ok () s' →
            s'.failure = none ∧ ∀ v, K v → s'.store.Admits v := by
          intro t skip hsound hsame hstore hschedule
          obtain ⟨-, -, -, -, hfailure, -⟩ := hsound.schedule hschedule
          refine ⟨hfailure.trans (hsame.trans hbears.ok), fun v hv => ?_⟩
          rw [admits_of_schedule hsound hschedule, hstore]
          exact (hspares v hv).2
        have hsound := hfitting.sound.afterRun id p
        have hsubsumed := subsume_subsumed (propagator?_afterRun_self hp)
        obtain ⟨v, hv⟩ := hbears.inhabited
        obtain ⟨⟨status, hverdict⟩, -⟩ := hspares v hv
        rw [runOne_eq hp, hverdict] at hrun
        cases status with
        | fix => exact hpassed hsound rfl rfl hrun
        | noFixpoint => exact hpassed hsound rfl rfl hrun
        | subsumed =>
            exact hpassed (hsound.of_subsumed hsubsumed) hsubsumed.failure hsubsumed.store hrun
  exact ⟨hbears.inhabited, hleft.1, hleft.2, fun _ _ =>
    hfitting.closed_of_inherits (Carries.of_ok (inheriting_runOne id) hrun) hbears.closed⟩

theorem Bears.kin (hbears : s.Bears K) (hfitting : s.Fitting) (hkin : s.Kin s') :
    s'.Bears K where
  inhabited := hbears.inhabited
  ok := hkin.failure.trans hbears.ok
  admits := hkin.store ▸ hbears.admits
  closed := fun _ _ => hfitting.closed_of_inherits hkin.inherits hbears.closed

theorem Bears.register (hbears : s.Bears K) (hclosed : p.Closed K) :
    (s.register p).Bears K where
  inhabited := hbears.inhabited
  ok := hbears.ok
  admits := hbears.admits
  closed := fun j q hq => by
    rw [propagator?_register] at hq
    split at hq
    · exact Option.some.inj hq ▸ hclosed
    · exact hbears.closed j q hq

/-! ## Propagation and status -/

/-- The second space is watchful and bears every family that the first one bears. -/
structure Sustains (s s' : Space) : Prop where
  watchful : s'.Watchful
  bears : ∀ K, s.Bears K → s'.Bears K

theorem Watchful.runQueue {fuel : Nat} (hwatchful : s.Watchful)
    (hrun : Space.runQueue fuel s = .ok () s') : s.Sustains s' := by
  refine runQueue_induction (P := s.Sustains) (fun t u id rest hsustains hpop hone => ?_)
    ⟨hwatchful, fun _ hbears => hbears⟩ hrun
  refine ⟨hsustains.watchful.turn hpop hone, fun K hbears => ?_⟩
  have hbefore := hsustains.bears K hbears
  have hpopped : Bears { t with queue := rest } K :=
    ⟨hbefore.inhabited, hbefore.ok, hbefore.admits, hbefore.closed⟩
  exact hpopped.runOne (hsustains.watchful.toFitting.popped hpop) hone

theorem Watchful.propagate {reason : Option Inconsistency} (hwatchful : s.Watchful)
    (hrun : Space.propagate s = .ok reason s') : s.Sustains s' := by
  rcases propagate_cases hrun with ⟨_, -, -, rfl⟩ | ⟨-, -, t, hschedule, hqueue⟩
  · exact ⟨hwatchful, fun _ hbears => hbears⟩
  · rw [schedule_of_isQuiet hwatchful.quiet] at hschedule
    obtain ⟨-, rfl⟩ := EStateM.Result.ok.inj hschedule
    exact hwatchful.runQueue hqueue

/-- A status is a propagation, after which only the branchers are asked. -/
theorem exists_propagate_of_status {answer : SpaceStatus}
    (hstatus : Space.status s = .ok answer s') :
    ∃ reason t, Space.propagate s = .ok reason t ∧ t.Kin s' := by
  rw [status_eq] at hstatus
  split at hstatus
  next reason t hpropagate =>
    simp only [EStateM.Result.ok.injEq] at hstatus
    exact ⟨_, t, hpropagate, hstatus.2 ▸ .refl t⟩
  next t hpropagate =>
    split at hstatus
    next found u hadvance =>
      simp only [EStateM.Result.ok.injEq] at hstatus
      exact ⟨_, t, hpropagate, hstatus.2 ▸ kin_of_advanceBy hadvance⟩
    next => simp at hstatus
  next => simp at hstatus

/-- What a status does to a watchful space. -/
theorem Watchful.status {answer : SpaceStatus} (hwatchful : s.Watchful)
    (hstatus : Space.status s = .ok answer s') :
    s.Sustains s' ∧ s'.store.ints.size = s.store.ints.size ∧
      s'.store.sets.size = s.store.sets.size ∧ (s'.failure = none → s.failure = none) := by
  obtain ⟨reason, t, hpropagate, hkin⟩ := exists_propagate_of_status hstatus
  have hsustains := hwatchful.propagate hpropagate
  have hframe := (hwatchful.sound.propagate hpropagate).frame
  refine ⟨⟨hsustains.watchful.kin hkin, fun K hbears =>
    (hsustains.bears K hbears).kin hsustains.watchful.toFitting hkin⟩, ?_, ?_, ?_⟩
  · rw [hkin.store, hframe.ints_size]
  · rw [hkin.store, hframe.sets_size]
  · rw [hkin.failure]
    exact hframe.failure

/-! ## Adding propagators -/

/-- The acts add the propagators one after the other and ask for the status in between. -/
inductive Adds : List Act → List Propagator → Prop where
  | nil : Adds [] []
  | add {acts : List Act} {ps : List Propagator} (p : Propagator) (hadds : Adds acts ps) :
      Adds (.addPropagator p none :: acts) (p :: ps)
  | status {acts : List Act} {ps : List Propagator} (hadds : Adds acts ps) :
      Adds (.status :: acts) ps

/-- What is there once the propagators were added. -/
structure Added (ps : List Propagator) (s t : Space) : Prop where
  kernel : t.Kernel
  watchful : t.Watchful
  refines : s.store.Refines t.store
  ints_size : t.store.ints.size = s.store.ints.size
  sets_size : t.store.sets.size = s.store.sets.size
  failure : t.failure = none → s.failure = none
  upholds : t.failure = none → ∀ p ∈ ps, ∃ j, t.Upholds j p
  bears : ∀ K, s.Bears K → (∀ p ∈ ps, p.Closed K) → t.Bears K

/-- Adding propagators that fit gives a space, in which each of them is upheld and which
bears every family that was borne and is closed under all of them. -/
theorem Adds.exists_added {acts : List Act} {ps : List Propagator} (hadds : Adds acts ps)
    (hkernel : s.Kernel) (hwatchful : s.Watchful) (hfit : ∀ p ∈ ps, p.Fit s.store)
    (hapart : ∀ p ∈ ps, p.Apart) : ∃ t, performAll acts s = some t ∧ Added ps s t := by
  induction hadds generalizing s with
  | nil =>
      exact ⟨s, rfl, hkernel, hwatchful, .refl _, rfl, rfl, fun h => h, by simp,
        fun _ hbears _ => hbears⟩
  | @add acts ps p hadds ih =>
      have hfitP := hfit p List.mem_cons_self
      have hfits := fun q hq => hfit q (List.mem_cons_of_mem p hq)
      have haparts := fun q hq => hapart q (List.mem_cons_of_mem p hq)
      have hperform : (Act.addPropagator p none).perform s =
          some (if s.isFailed then s else s.register p) := by
        simp only [Act.perform, addPropagator_eq hfitP]
        split <;> rfl
      by_cases hfailed : s.isFailed = true
      · -- a failed space refuses the propagator and stays failed
        obtain ⟨t, hrun, hadded⟩ := ih hkernel hwatchful hfits haparts
        have hnot : s.failure ≠ none := by
          simpa [isFailed, Option.isSome_iff_ne_none] using hfailed
        refine ⟨t, by simpa [performAll, hperform, hfailed] using hrun, { hadded with
          upholds := fun hok => absurd (hadded.failure hok) hnot
          bears := fun K hbears => absurd hbears.ok hnot }⟩
      · have hok : s.failure = none := by simpa [isFailed] using hfailed
        have hapartP := hapart p List.mem_cons_self
        have hsound := hkernel.sound.register p
        obtain ⟨t, hrun, hadded⟩ := ih (hkernel.register hfitP)
          (hwatchful.register hok hfitP hapartP) hfits haparts
        have hupheld := upholds_register hkernel.sound hfitP (hapartP.steady s.store)
        refine ⟨t, by simpa [performAll, hperform, hfailed] using hrun, { hadded with
          upholds := fun hok' q hq => ?_
          bears := fun K hbears hclosed => ?_ }⟩
        · rcases List.mem_cons.mp hq with rfl | hq
          · exact ⟨_, ((reaches_of_performAll hrun).keeps hsound).upholds _ _ hupheld⟩
          · exact hadded.upholds hok' q hq
        · exact hadded.bears K (hbears.register (hclosed p List.mem_cons_self))
            fun q hq => hclosed q (List.mem_cons_of_mem p hq)
  | @status acts ps hadds ih =>
      obtain ⟨answer, u, hstatus, hkernel', -⟩ := hkernel.status
      obtain ⟨hsustains, hints, hsets, hfailure⟩ := hwatchful.status hstatus
      have hrefines := (hkernel.sound.status_keeps hstatus).refines
      obtain ⟨t, hrun, hadded⟩ := ih hkernel' hsustains.watchful
        (fun p hp => (hfit p hp).refines hrefines) hapart
      have hperform : Act.status.perform s = some u := by
        simp only [Act.perform, hstatus, resume]
      exact ⟨t, by simpa [performAll, hperform] using hrun, hadded.kernel, hadded.watchful,
        hrefines.trans hadded.refines, hadded.ints_size.trans hints,
        hadded.sets_size.trans hsets, fun hok => hfailure (hadded.failure hok),
        hadded.upholds, fun K hbears => hadded.bears K (hsustains.bears K hbears)⟩

/-! ## The result -/

/-- The assignment belongs to a family that the store admits and that is closed under all
of the propagators. -/
def Lasts (s : Store) (ps : List Propagator) (v : Assignment) : Prop :=
  ∃ K : Assignment → Prop, K v ∧ (∀ w, K w → s.Admits w) ∧ ∀ p ∈ ps, p.Closed K

/-- At rest what is left is closed under a propagator that is upheld. -/
theorem Watchful.closed_of_upholds (hwatchful : s.Watchful) (hrests : s.Rests)
    (hok : s.failure = none) (hupholds : s.Upholds j p) : p.Closed s.store.Admits := by
  rcases hupholds.slot hok with ⟨-, hentailed⟩ | ⟨q, hq, hcore, -⟩
  · exact Propagator.closed_of_accepts hentailed
  · rw [← p.closed_core, ← hcore, q.closed_core]
    refine (hwatchful.alert hok j q hq).resolve_left ?_
    simp [hrests.queue]

theorem Built.tidy {posted : List (Nat × Propagator)} (hbuilt : Built posted s) : s.Tidy := by
  induction hbuilt with
  | new => exact tidy_new
  | act act hbuilt _ hperform ih => exact (act.unfolds hbuilt.kernel.sound hperform).tidy ih

/-- Acts that post nothing, wherever they are performed, keep to what was posted. -/
theorem Built.of_performAll {posted : List (Nat × Propagator)} {acts : List Act}
    (hbuilt : Built posted s) (hplain : ∀ act ∈ acts, ∀ s, act.Plain s ∧ act.posted s = [])
    (hperform : performAll acts s = some t) : Built posted t := by
  induction acts generalizing s with
  | nil =>
      obtain rfl := Option.some.inj hperform
      exact hbuilt
  | cons act rest ih =>
      obtain ⟨u, hact, hrest⟩ := Option.bind_eq_some_iff.mp hperform
      obtain ⟨hplain', hposted⟩ := hplain act List.mem_cons_self s
      exact ih (hbuilt.of_act act hplain' hposted hact)
        (fun act hmem => hplain act (List.mem_cons_of_mem _ hmem)) hrest

theorem Built.propagator?_eq_none (hbuilt : Built [] s) (j : Nat) : s.propagator? j = none := by
  by_contra hlive
  obtain ⟨q, hq⟩ := Option.ne_none_iff_exists'.mp hlive
  obtain ⟨p, hposted, -⟩ := hbuilt.exists_posted hq
  simp at hposted

/-- Once the propagators were added, the status tells whether any assignment lasts, and
those that do are what is left. -/
theorem Adds.exists_status {acts : List Act} {ps : List Propagator} (hadds : Adds acts ps)
    (hbuilt : Built [] s) (hfit : ∀ p ∈ ps, p.Fit s.store) (hapart : ∀ p ∈ ps, p.Apart) :
    ∃ t answer u, performAll acts s = some t ∧ Space.status t = .ok answer u ∧
      u.store.Valid ∧ u.store.ints.size = s.store.ints.size ∧
      u.store.sets.size = s.store.sets.size ∧
      (answer = .failed ↔ s.failure ≠ none ∨ ∀ v, ¬Lasts s.store ps v) ∧
      (answer ≠ .failed → ∀ v, u.store.Admits v ↔ Lasts s.store ps v) := by
  have hnone := hbuilt.propagator?_eq_none
  have hkernel := hbuilt.kernel
  have hwatchful : s.Watchful :=
    { hbuilt.tidy, hkernel.toFitting with
      apart := by simp [hnone]
      alert := by simp [hnone] }
  obtain ⟨t, hrun, hadded⟩ := hadds.exists_added hkernel hwatchful hfit hapart
  obtain ⟨answer, u, hstatus, hkernel', -, hanswered⟩ := hadded.kernel.status
  obtain ⟨hsustains, hints, hsets, hfailure⟩ := hadded.watchful.status hstatus
  have hkeeps := hadded.kernel.sound.status_keeps hstatus
  -- what lasts is left
  have hleft : s.failure = none → ∀ v, Lasts s.store ps v →
      u.failure = none ∧ u.store.Admits v := by
    rintro hok v ⟨K, hv, hK, hclosed⟩
    have hbears : s.Bears K := ⟨⟨v, hv⟩, hok, hK, by simp [hnone]⟩
    have hbears' := hsustains.bears K (hadded.bears K hbears hclosed)
    exact ⟨hbears'.ok, hbears'.admits v hv⟩
  -- what is left lasts
  have hlasts : answer ≠ .failed → s.failure = none ∧ u.failure = none ∧
      ∀ v, u.store.Admits v → Lasts s.store ps v := by
    intro hanswer
    obtain ⟨hrests, hok⟩ := hadded.kernel.sound.status_rests hstatus hanswer
    have hok' := hfailure hok
    refine ⟨hadded.failure hok', hok, fun v hv => ⟨u.store.Admits, hv, fun w hw => ?_,
      fun p hp => ?_⟩⟩
    · exact (hadded.refines.trans hkeeps.refines).admits hw
    · obtain ⟨j, hupholds⟩ := hadded.upholds hok' p hp
      exact hsustains.watchful.closed_of_upholds hrests hok (hkeeps.upholds j p hupholds)
  refine ⟨t, answer, u, hrun, hstatus, hkernel'.sound.store, hints.trans hadded.ints_size,
    hsets.trans hadded.sets_size, ⟨fun hanswer => ?_, fun hnothing => ?_⟩,
    fun hanswer v => ⟨(hlasts hanswer).2.2 v, fun hv => ?_⟩⟩
  · rw [hanswer] at hanswered
    rw [or_iff_not_imp_left, not_not]
    exact fun hok v hv => hanswered (hleft hok v hv).1
  · by_contra hanswer
    obtain ⟨hok, -, hall⟩ := hlasts hanswer
    obtain ⟨v, hv⟩ := hkernel'.sound.store.exists_admits
    exact (hnothing.resolve_left (not_not.mpr hok)) v (hall v hv)
  · exact (hleft (hlasts hanswer).1 v hv).2

theorem lasts_of_perm {ps qs : List Propagator} (hperm : ps.Perm qs) (s : Store) :
    Lasts s ps = Lasts s qs := by
  funext v
  simp only [Lasts, hperm.mem_iff]

/-- Whatever the order in which propagators are added to a space, and wherever its status is
asked for in between, the status at the end agrees on failure, and where there is none all
domains are equal. -/
theorem propagation_confluent {acts acts' : List Act} {ps qs : List Propagator}
    (hbuilt : Built [] s) (hfit : ∀ p ∈ ps, p.Fit s.store) (hapart : ∀ p ∈ ps, p.Apart)
    (hperm : ps.Perm qs) (hadds : Adds acts ps) (hadds' : Adds acts' qs) :
    ∃ t answer u t' answer' u',
      performAll acts s = some t ∧ Space.status t = .ok answer u ∧
      performAll acts' s = some t' ∧ Space.status t' = .ok answer' u' ∧
      (answer = .failed ↔ answer' = .failed) ∧
      (answer ≠ .failed →
        u.store.ints = u'.store.ints ∧ u.store.sets = u'.store.sets) := by
  obtain ⟨t, answer, u, hrun, hstatus, hvalid, hints, hsets, hfailed, hleft⟩ :=
    hadds.exists_status hbuilt hfit hapart
  obtain ⟨t', answer', u', hrun', hstatus', hvalid', hints', hsets', hfailed', hleft'⟩ :=
    hadds'.exists_status hbuilt (fun p hp => hfit p (hperm.mem_iff.mpr hp))
      fun p hp => hapart p (hperm.mem_iff.mpr hp)
  rw [← lasts_of_perm hperm] at hfailed' hleft'
  refine ⟨t, answer, u, t', answer', u', hrun, hstatus, hrun', hstatus',
    hfailed.trans hfailed'.symm, fun hanswer => ?_⟩
  have hanswer' : answer' ≠ .failed := fun heq => hanswer (hfailed.mpr (hfailed'.mp heq))
  exact Store.eq_of_admits_iff hvalid hvalid' (hints.trans hints'.symm)
    (hsets.trans hsets'.symm) fun v => (hleft hanswer v).trans (hleft' hanswer' v).symm

/-- With x + 1 ≤ y, y ≠ 1 and an inclusion it does not matter whether the value 1 of y is
first passed by its lower bound or first a hole. -/
theorem hole_or_bound_agree :
    let p : Propagator := .lessOrEqual (.affine (.var 0) 1 1) (.var 1)
    let q : Propagator := .notEqual (.var 1) (.const 1)
    let r : Propagator := .subset 0 1 ⟨0, 0⟩
    let acts : List Act := [.addPropagator p none, .status, .addPropagator q none,
      .addPropagator r none]
    let acts' : List Act := [.addPropagator r none, .addPropagator q none, .status, .status,
      .addPropagator p none]
    ∃ s, performAll [.newInt 0 3, .newInt 0 3, .newSet [1] [1, 2, 3] (0, 3),
        .newSet [] [1, 2] (0, 2)] new = some s ∧ Built [] s ∧
      ∃ t answer u t' answer' u',
        performAll acts s = some t ∧ Space.status t = .ok answer u ∧
        performAll acts' s = some t' ∧ Space.status t' = .ok answer' u' ∧
        answer = .solved ∧ answer' ≠ .failed ∧
        u.store.ints = #[⟨0, 2, [], 0⟩, ⟨2, 3, [], 0⟩] ∧
        u.store.ints = u'.store.ints ∧ u.store.sets = u'.store.sets := by
  intro p q r acts acts'
  let start : List Act := [.newInt 0 3, .newInt 0 3, .newSet [1] [1, 2, 3] (0, 3),
    .newSet [] [1, 2] (0, 2)]
  have hrun : ((performAll start new).bind fun s => (performAll acts s).bind fun t =>
      match Space.status t with
      | .ok answer u => some (s.store.ints, s.store.sets.size, answer, u.store.ints)
      | .error _ _ => none) =
        some (#[.interval 0 3, .interval 0 3], 2, .solved, #[⟨0, 2, [], 0⟩, ⟨2, 3, [], 0⟩]) := by
    decide +kernel
  obtain ⟨s, hstart, hrun⟩ := Option.bind_eq_some_iff.mp hrun
  obtain ⟨t, hacts, hrun⟩ := Option.bind_eq_some_iff.mp hrun
  cases hstatus : Space.status t with
  | error fault u => simp [hstatus] at hrun
  | ok answer u =>
      simp only [hstatus, Option.some.injEq, Prod.mk.injEq] at hrun
      obtain ⟨hints, hsets, hsolved, hleft⟩ := hrun
      have hbuilt : Built [] s :=
        Built.new.of_performAll (by simp [start, Act.Plain, Act.posted]) hstart
      have hfit : ∀ o ∈ [p, q, r], o.Fit s.store := by
        have hknown : ∀ id < 2, (IntView.var id).known s.store = true := fun id hid => by
          simpa [IntView.known, IntView.base?, Store.knows, hints] using hid
        have himage : ∀ x ∈ s.store.int 0, Fits32 (1 * x + 1) := fun x hx => by
          have hx' : 0 ≤ x ∧ x ≤ 3 := by
            simpa [Store.int, hints, IntDomain.mem_interval] using hx
          unfold Fits32 lowest32 highest32
          omega
        simp only [List.mem_cons, List.not_mem_nil, or_false, forall_eq_or_imp, forall_eq]
        refine ⟨⟨⟨hknown 0 (by decide), trivial, by decide, by decide, by decide, himage⟩,
          hknown 1 (by decide), trivial⟩,
          ⟨⟨hknown 1 (by decide), trivial⟩, rfl, (by decide : Fits32 1)⟩, ?_⟩
        simp [r, Propagator.Fit, hsets]
      have hapart : ∀ o ∈ [p, q, r], o.Apart := by
        simp [p, q, r, Propagator.Apart, Propagator.watches, AnyView.base?, IntView.base?]
      have hperm : [p, q, r].Perm [r, q, p] := (List.reverse_perm [r, q, p])
      obtain ⟨t₁, answer₁, u₁, t', answer', u', hacts₁, hstatus₁, hacts', hstatus', hfailed,
        hsame⟩ := propagation_confluent hbuilt hfit hapart hperm
          (.add p (.status (.add q (.add r .nil))))
          (.add r (.add q (.status (.status (.add p .nil)))))
      obtain rfl : t = t₁ := Option.some.inj (hacts.symm.trans hacts₁)
      obtain ⟨rfl, rfl⟩ := EStateM.Result.ok.inj (hstatus.symm.trans hstatus₁)
      have hok : answer ≠ .failed := by simp [hsolved]
      exact ⟨s, hstart, hbuilt, t, answer, u, t', answer', u', hacts, hstatus, hacts',
        hstatus', hsolved, fun heq => hok (hfailed.mpr heq), hleft, hsame hok⟩

end Space

end ConstraintSpace
