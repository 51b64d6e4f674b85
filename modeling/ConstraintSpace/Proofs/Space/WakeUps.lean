import ConstraintSpace.Proofs.Space.Attention

/-!
# No wake-up is lost

Take any operations on a new space and the log of their narrowings and runs.  While
the space has not failed, a propagator that has its slot and never vetoes either
waits, or the log has a last run of it.  After that run nothing raised an event that
it subscribed to, and the run itself did so only if it ended at its fixpoint.

The invariant speaks of one propagator at a time and is kept by every effect.  An
effect that raises such an event passes it on at once, so the propagator waits from
then on until it takes its turn.
-/

namespace ConstraintSpace

namespace Propagator

variable {p q : Propagator}

theorem Heedful.of_guise (hp : p.Heedful) (hguise : q.guise = p.guise) : q.Heedful := by
  have hsame : ∀ p : Propagator, p.guise.Heedful ↔ p.Heedful := fun p => by
    cases p <;> rfl
  rw [← hsame, hguise, hsame]
  exact hp

theorem subscribes_congr (hwatches : q.watches = p.watches) (raised : Event × Variable) :
    q.Subscribes raised ↔ p.Subscribes raised := by
  unfold Subscribes
  rw [hwatches]

end Propagator

namespace Space

variable {s s' : Space} {j : Nat} {p q : Propagator} {log entries : List Entry}

/-- The entry is no run of the propagator. -/
def Entry.NotOf (j : Nat) (entry : Entry) : Prop :=
  ∀ verdict raised, entry ≠ .ran j verdict raised

/-- The entry raised no event that the propagator subscribed to. -/
def Entry.Spares (p : Propagator) (entry : Entry) : Prop :=
  ∀ raised ∈ entry.raised, ¬p.Subscribes raised

/-- The propagator ran, and since its last run no narrowing raised an event that it
subscribed to, but for those of that run where it ended at its fixpoint. -/
def Undisturbed (j : Nat) (p : Propagator) (log : List Entry) : Prop :=
  ∃ before verdict raised after, log = before ++ .ran j verdict raised :: after ∧
    (∀ entry ∈ after, entry.NotOf j ∧ entry.Spares p) ∧
    (verdict = .ended .fix ∨ Entry.Spares p (.ran j verdict raised))

theorem Undisturbed.append (hundisturbed : Undisturbed j p log)
    (hspares : ∀ entry ∈ entries, entry.NotOf j ∧ entry.Spares p) :
    Undisturbed j p (log ++ entries) := by
  obtain ⟨before, verdict, raised, after, rfl, hafter, hlast⟩ := hundisturbed
  refine ⟨before, verdict, raised, after ++ entries, by simp, ?_, hlast⟩
  intro entry hentry
  rcases List.mem_append.mp hentry with hold | hnew
  · exact hafter entry hold
  · exact hspares entry hnew

theorem undisturbed_of_ran {verdict : Verdict} {raised : Array (Event × Variable)}
    (hlast : verdict = .ended .fix ∨ Entry.Spares p (.ran j verdict raised)) :
    Undisturbed j p (log ++ [.ran j verdict raised]) :=
  ⟨log, verdict, raised, [], rfl, by simp, hlast⟩

theorem Undisturbed.congr (hundisturbed : Undisturbed j p log)
    (hwatches : q.watches = p.watches) : Undisturbed j q log := by
  have hspares : ∀ entry : Entry, entry.Spares p → entry.Spares q := by
    intro entry hspares raised hraised hsubscribes
    exact hspares raised hraised ((Propagator.subscribes_congr hwatches raised).mp hsubscribes)
  obtain ⟨before, verdict, raised, after, hlog, hafter, hlast⟩ := hundisturbed
  refine ⟨before, verdict, raised, after, hlog, ?_, hlast.imp_right (hspares _)⟩
  intro entry hentry
  exact (hafter entry hentry).imp_right (hspares entry)

/-- Every heedful propagator with a slot waits or is undisturbed. -/
def Alert (s : Space) (log : List Entry) : Prop :=
  s.failure = none → ∀ j p, s.propagator? j = some p → p.Heedful →
    j ∈ s.queue.ids ∨ Undisturbed j p log

/-- Passing events on wakes the propagator, unless none of them concerns it. -/
theorem Attentive.waits_or_spares (hattentive : s.Attentive) (hsound : s.Sound)
    {skip : Option Nat} (hskip : skip ≠ some j) (hp : s.propagator? j = some p)
    (hheedful : p.Heedful) (hrun : Space.schedule skip s = .ok () s') :
    j ∈ s'.queue.ids ∨ ∀ raised ∈ s.store.pending, ¬p.Subscribes raised := by
  by_cases hnone : ∀ raised ∈ s.store.pending, ¬p.Subscribes raised
  · exact Or.inr hnone
  · push Not at hnone
    obtain ⟨raised, hraised, hsubscribes⟩ := hnone
    exact Or.inl (hattentive.waits hsound hskip hp hheedful hraised hsubscribes hrun)

/-- What waited or was undisturbed before a narrowing is so after its events were
passed on. -/
theorem Attentive.waits_or_undisturbed {entry : Entry} (hattentive : s.Attentive)
    (hsound : s.Sound) {skip : Option Nat} (hskip : skip ≠ some j)
    (hp : s.propagator? j = some p) (hheedful : p.Heedful)
    (hentry : entry.raised = s.store.pending) (hother : entry.NotOf j)
    (hrun : Space.schedule skip s = .ok () s')
    (hbefore : j ∈ s.queue.ids ∨ Undisturbed j p log) :
    j ∈ s'.queue.ids ∨ Undisturbed j p (log ++ [entry]) := by
  obtain ⟨-, -, -, -, -, -, -, hqueued⟩ := hsound.schedule hrun
  rcases hbefore with hwaits | hundisturbed
  · exact Or.inl (hqueued.old hsound.queue j hwaits)
  rcases hattentive.waits_or_spares hsound hskip hp hheedful hrun with hwaits | hspares
  · exact Or.inl hwaits
  · refine Or.inr (hundisturbed.append ?_)
    intro e he
    obtain rfl := List.mem_singleton.mp he
    refine ⟨hother, ?_⟩
    rw [Entry.Spares, hentry]
    exact hspares

/-! ## The turn of a propagator -/

/-- The store that the turn of a propagator leaves. -/
def turned (id : Nat) (s : Space) : Store :=
  match s.propagator? id with
  | none => s.store
  | some p => (p.run s.store).store

theorem turned_narrows (hsound : s.Sound) (id : Nat) :
    (turned id s).Valid ∧ s.store.Narrows (turned id s) := by
  unfold turned
  split
  · exact ⟨hsound.store, .refl hsound.store⟩
  next p _ => exact p.run_narrows hsound.store

theorem of_mem_turnLog {id : Nat} {entry : Entry} (hentry : entry ∈ turnLog id s) :
    entry.raised = (turned id s).pending ∧ ∀ j, j ≠ id → entry.NotOf j := by
  cases hp : s.propagator? id with
  | none => simp [turnLog, hp] at hentry
  | some p =>
      simp only [turnLog, hp, List.mem_singleton] at hentry
      subst hentry
      refine ⟨by simp only [Entry.raised, turned, hp], ?_⟩
      intro j hne verdict raised heq
      exact hne (Entry.ran.inj heq).1.symm

/-- The space whose events a turn passes on.  The propagator that ran is left out at its
fixpoint, and has no slot where it was subsumed. -/
structure Handover (s : Space) (id : Nat) (rest : Queue) (skip : Option Nat) (t : Space) :
    Prop where
  sound : t.Sound
  attentive : t.Attentive
  queue : t.queue = rest
  store : t.store = turned id s
  others : ∀ j, j ≠ id → skip ≠ some j ∧ t.propagator? j = s.propagator? j
  own : ∀ p, t.propagator? id = some p →
    ∃ q, s.propagator? id = some q ∧ p = (q.run s.store).propagator ∧
      (((q.run s.store).verdict = .ended .fix) ∨
        skip = none ∧ (q.run s.store).verdict = .ended .noFixpoint)

/-- Unless it fails the space, a turn ends with passing events on. -/
theorem Tidy.handover {id : Nat} {rest : Queue} (htidy : s.Tidy)
    (hpop : s.queue.pop? = some (id, rest))
    (hrun : runOne id { s with queue := rest } = .ok () s') (hok : s'.failure = none) :
    ∃ skip t, Handover s id rest skip t ∧ Space.schedule skip t = .ok () s' := by
  have hsound := htidy.sound.popped hpop
  have hpopped : Attentive { s with queue := rest } := htidy.attentive.of_slots rfl rfl
  cases hq : s.propagator? id with
  | none =>
      have hgone : propagator? { s with queue := rest } id = none := hq
      rw [runOne_of_gone hgone] at hrun
      obtain rfl : { s with queue := rest } = s' := by simpa using hrun
      refine ⟨none, { s with queue := rest },
        ⟨hsound, hpopped, rfl, by simp only [turned, hq], fun _ _ => ⟨by simp, rfl⟩, ?_⟩,
        schedule_of_isQuiet htidy.quiet⟩
      intro p hp
      simp [hgone] at hp
  | some q =>
      have hq' : propagator? { s with queue := rest } id = some q := hq
      have hid := lt_size_of_propagator? hq'
      let ran := afterRun { s with queue := rest } id q
      have hsound' : ran.Sound := hsound.afterRun id q
      have hattentive : ran.Attentive := hpopped.afterRun hq'
      have hstore : ran.store = turned id s := by simp only [turned, hq]; rfl
      have hlive : ran.propagator? id = some (q.run s.store).propagator :=
        propagator?_afterRun_self hq'
      have hothers : ∀ j, j ≠ id → ran.propagator? j = s.propagator? j := by
        intro j hne
        rw [propagator?_afterRun hid, if_neg hne]
        rfl
      rw [runOne_eq hq'] at hrun
      split at hrun
      next hverdict =>
        refine ⟨some id, ran, ⟨hsound', hattentive, rfl, hstore,
          fun j hne => ⟨by simpa using Ne.symm hne, hothers j hne⟩, ?_⟩, hrun⟩
        intro p hp
        exact ⟨q, hq, Option.some.inj (hp.symm.trans hlive), Or.inl hverdict⟩
      next hverdict =>
        refine ⟨none, ran, ⟨hsound', hattentive, rfl, hstore,
          fun j hne => ⟨by simp, hothers j hne⟩, ?_⟩, hrun⟩
        intro p hp
        exact ⟨q, hq, Option.some.inj (hp.symm.trans hlive), Or.inr ⟨rfl, hverdict⟩⟩
      next =>
        have hsubsumed : ran.Subsumed id (ran.subsume id) := subsume_subsumed hlive
        refine ⟨none, ran.subsume id, ⟨hsound'.of_subsumed hsubsumed,
          hattentive.of_subsumed hsubsumed, hsubsumed.queue, hsubsumed.store.trans hstore,
          fun j hne => ⟨by simp, ?_⟩, ?_⟩, hrun⟩
        · rw [hsubsumed.propagator?, if_neg hne, hothers j hne]
        · intro p hp
          simp [hsubsumed.propagator?] at hp
      next reason _ =>
        simp only [EStateM.Result.ok.injEq, true_and] at hrun
        subst hrun
        exact absurd hok (failure_failWith reason _)
      next => simp at hrun

/-! ## Each effect -/

theorem Alert.narrow {store : Store} {counts : SpaceCounts} (halert : s.Alert log)
    (htidy : s.Tidy) (hok : s.failure = none) (hvalid : store.Valid)
    (hrun : schedule none { s with store, counts } = .ok () s') :
    s'.Alert (log ++ [.narrowed store.pending]) := by
  have hsound : Sound { s with store, counts } :=
    ⟨hvalid, htidy.sound.queue, htidy.sound.waiting⟩
  have hattentive : Attentive { s with store, counts } := htidy.attentive.of_slots rfl rfl
  obtain ⟨-, -, hslots, -⟩ := hsound.schedule hrun
  intro _ j p hp hheedful
  have hp' : s.propagator? j = some p := by simpa only [propagator?, hslots] using hp
  exact hattentive.waits_or_undisturbed hsound (by simp) hp' hheedful rfl
    (fun _ _ => by simp) hrun (halert hok j p hp' hheedful)

/-- The propagator whose turn it is was run, and the others hear of it. -/
theorem Alert.turn {id : Nat} {rest : Queue} (halert : s.Alert log) (htidy : s.Tidy)
    (hpop : s.queue.pop? = some (id, rest))
    (hrun : runOne id { s with queue := rest } = .ok () s') :
    s'.Alert (log ++ turnLog id s) := by
  intro hok j p hp hheedful
  obtain ⟨-, hperm, -⟩ := htidy.sound.queue.pop? hpop
  obtain ⟨skip, t, hhandover, hschedule⟩ := htidy.handover hpop hrun hok
  obtain ⟨-, -, hslots, -, -, -, -, hqueued⟩ := hhandover.sound.schedule hschedule
  have hp' : t.propagator? j = some p := by simpa only [propagator?, hslots] using hp
  have hhears := fun hskip : skip ≠ some j =>
    hhandover.attentive.waits_or_spares hhandover.sound hskip hp' hheedful hschedule
  by_cases hne : j = id
  · -- it ended at its fixpoint, or it may narrow further and hears of its own events
    subst hne
    obtain ⟨q, hq, -, hfix | ⟨hskip, -⟩⟩ := hhandover.own p hp'
    · simp only [turnLog, hq]
      exact Or.inr (undisturbed_of_ran (Or.inl hfix))
    · refine (hhears (by simp [hskip])).imp_right fun hspares => ?_
      have hraised : (q.run s.store).store.pending = t.store.pending := by
        rw [hhandover.store]
        simp only [turned, hq]
      simp only [turnLog, hq]
      refine undisturbed_of_ran (Or.inr ?_)
      simp only [Entry.Spares, Entry.raised, hraised]
      exact hspares
  · obtain ⟨hskip, hsame⟩ := hhandover.others j hne
    have hbefore := halert (htidy.failure_of_pop? hpop) j p (hsame ▸ hp') hheedful
    rcases hbefore with hwaits | hundisturbed
    · have hrest := (List.mem_cons.mp (hperm.mem_iff.mp hwaits)).resolve_left hne
      exact Or.inl (hqueued.old hhandover.sound.queue j (hhandover.queue ▸ hrest))
    · refine (hhears hskip).imp_right fun hspares => hundisturbed.append ?_
      intro entry hentry
      obtain ⟨hraised, hnotOf⟩ := of_mem_turnLog hentry
      refine ⟨hnotOf j hne, ?_⟩
      rw [Entry.Spares, hraised, ← hhandover.store]
      exact hspares

theorem Alert.register (halert : s.Alert log) (htidy : s.Tidy) (hok : s.failure = none)
    (q : Propagator) : (s.register q).Alert log := by
  intro _ j p hp hheedful
  have hmem := (htidy.sound.queue.enqueue s.slots.size q.priority).2
  rw [propagator?_register] at hp
  split at hp
  next heq =>
    subst heq
    exact Or.inl ((hmem _).mpr (Or.inl rfl))
  next => exact (halert hok j p hp hheedful).imp_left fun hwaits => (hmem j).mpr (Or.inr hwaits)

/-- Every effect keeps the propagators alert. -/
theorem Effect.alert (heffect : s.Effect entries s') (htidy : s.Tidy) (halert : s.Alert log) :
    s'.Alert (log ++ entries) := by
  cases heffect with
  | touch hkin =>
      rw [List.append_nil]
      intro hok j p hp hheedful
      obtain ⟨q, hq, hguise⟩ := hkin.exists_of_some hp
      rw [hkin.queue]
      refine (halert (hkin.failure ▸ hok) j q hq (hheedful.of_guise hguise.symm)).imp_right ?_
      exact fun hundisturbed => hundisturbed.congr (Propagator.watches_eq_of_guise hguise)
  | grow _ =>
      rw [List.append_nil]
      exact fun hok j p hp hheedful => halert hok j p hp hheedful
  | drain _ hrun =>
      rw [schedule_of_isQuiet htidy.quiet] at hrun
      obtain rfl : s = s' := by simpa using hrun
      rw [List.append_nil]
      exact halert
  | narrow counts hok hvalid _ hrun => exact halert.narrow htidy hok hvalid hrun
  | fail counts _ reason _ _ => exact fun hok => absurd hok (failure_failWith reason _)
  | turn _ hpop hrun => exact halert.turn htidy hpop hrun
  | register hok p =>
      rw [List.append_nil]
      exact halert.register htidy hok p
  | discard _ => exact fun hok => absurd hok (by simp)

theorem Unfolds.alert (hunfolds : s.Unfolds entries s') (htidy : s.Tidy)
    (halert : s.Alert log) : s'.Alert (log ++ entries) := by
  induction hunfolds with
  | refl =>
      rw [List.append_nil]
      exact halert
  | tail hunfolds heffect ih =>
      rw [← List.append_assoc]
      exact heffect.alert (hunfolds.tidy htidy) ih

end Space

end ConstraintSpace
