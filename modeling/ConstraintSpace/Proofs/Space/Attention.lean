import ConstraintSpace.Proofs.Space.Acts

/-!
# Who is told of an event

Between two operations nothing is pending, a failed space has nobody waiting, and
the watch lists hold exactly the subscriptions of the propagators that have their
slot.  Every effect keeps it so.  A propagator that never vetoes therefore waits
whenever an event that it subscribed to has been passed on.
-/

namespace ConstraintSpace

namespace Space

variable {s s' t : Space} {id j : Nat} {p q : Propagator}

/-- The watch lists hold what the live propagators subscribed to. -/
structure Attentive (s : Space) : Prop where
  known : ∀ event v x, x ∈ s.watches.watchers event v → x.propagator < s.slots.size
  hears : ∀ j p, s.propagator? j = some p → s.watches.Hears j p
  told : ∀ j p, s.propagator? j = some p → s.watches.Told j p

theorem Attentive.of_watches (hattentive : s.Attentive) (hwatches : s'.watches = s.watches)
    (hsize : s'.slots.size = s.slots.size)
    (hpropagator : ∀ j p, s'.propagator? j = some p →
      ∃ q, s.propagator? j = some q ∧ p.watches = q.watches) : s'.Attentive := by
  constructor
  · rw [hwatches, hsize]
    exact hattentive.known
  · intro j p hp
    obtain ⟨q, hq, hsame⟩ := hpropagator j p hp
    rw [hwatches]
    exact (hattentive.hears j q hq).congr hsame
  · intro j p hp
    obtain ⟨q, hq, hsame⟩ := hpropagator j p hp
    rw [hwatches]
    exact (hattentive.told j q hq).congr hsame

theorem Attentive.of_slots (hattentive : s.Attentive) (hwatches : s'.watches = s.watches)
    (hslots : s'.slots = s.slots) : s'.Attentive := by
  apply hattentive.of_watches hwatches (by rw [hslots])
  intro j p hp
  refine ⟨p, ?_, rfl⟩
  simpa only [propagator?, hslots] using hp

theorem Kin.exists_of_some (hkin : s.Kin s') (hp : s'.propagator? j = some p) :
    ∃ q, s.propagator? j = some q ∧ p.guise = q.guise := by
  have hguise := hkin.guise j
  rw [hp, Option.map_some, eq_comm, Option.map_eq_some_iff] at hguise
  obtain ⟨q, hq, hsame⟩ := hguise
  exact ⟨q, hq, hsame.symm⟩

theorem Attentive.kin (hattentive : s.Attentive) (hkin : s.Kin s') : s'.Attentive := by
  apply hattentive.of_watches hkin.watches hkin.size_slots
  intro j p hp
  obtain ⟨q, hq, hguise⟩ := hkin.exists_of_some hp
  exact ⟨q, hq, Propagator.watches_eq_of_guise hguise⟩

theorem Attentive.afterRun (hattentive : s.Attentive) (hp : s.propagator? id = some p) :
    (s.afterRun id p).Attentive := by
  apply hattentive.of_watches watches_afterRun size_slots_afterRun
  intro j q hq
  rw [propagator?_afterRun (lt_size_of_propagator? hp)] at hq
  split at hq
  next heq =>
    obtain rfl := Option.some.inj hq
    exact ⟨p, heq ▸ hp, Propagator.watches_eq_of_guise (p.guise_run s.store)⟩
  next => exact ⟨q, hq, rfl⟩

theorem Attentive.of_subsumed (hattentive : s.Attentive) (hsubsumed : s.Subsumed id s') :
    s'.Attentive := by
  have hlive : ∀ {j p}, s'.propagator? j = some p → j ≠ id ∧ s.propagator? j = some p := by
    intro j p hp
    rw [hsubsumed.propagator?] at hp
    split at hp
    · simp at hp
    next hne => exact ⟨hne, hp⟩
  constructor
  · intro event v x hx
    rw [hsubsumed.size_slots]
    exact hattentive.known event v x (hsubsumed.watchers event v x hx)
  · intro j p hp
    obtain ⟨hne, hp'⟩ := hlive hp
    exact hsubsumed.hears j p hne (hattentive.hears j p hp')
  · intro j p hp event v x hx hid
    exact hattentive.told j p (hlive hp).2 event v x (hsubsumed.watchers event v x hx) hid

theorem Attentive.schedule {skip : Option Nat} (hattentive : s.Attentive) (hsound : s.Sound)
    (hrun : Space.schedule skip s = .ok () s') : s'.Attentive := by
  obtain ⟨-, -, hslots, hwatches, -⟩ := hsound.schedule hrun
  exact hattentive.of_slots hwatches hslots

theorem Attentive.runOne (hattentive : s.Attentive) (hsound : s.Sound)
    (hrun : Space.runOne id s = .ok () s') : s'.Attentive := by
  cases hp : s.propagator? id with
  | none =>
      rw [runOne_of_gone hp] at hrun
      obtain rfl : s = s' := by simpa using hrun
      exact hattentive
  | some p =>
      have hafter := hattentive.afterRun hp
      have hsound' := hsound.afterRun id p
      have hsubsumed := subsume_subsumed (propagator?_afterRun_self hp)
      rw [runOne_eq hp] at hrun
      split at hrun
      · exact hafter.schedule hsound' hrun
      · exact hafter.schedule hsound' hrun
      · exact (hafter.of_subsumed hsubsumed).schedule (hsound'.of_subsumed hsubsumed) hrun
      · simp only [EStateM.Result.ok.injEq, true_and] at hrun
        subst hrun
        exact hafter.of_slots (watches_failWith _ _) (slots_failWith _ _)
      · simp at hrun

theorem Attentive.register (hattentive : s.Attentive) (p : Propagator) :
    (s.register p).Attentive := by
  have hother : ∀ sub ∈ subscriptions s.slots.size p.watches,
      sub.watcher.propagator = s.slots.size :=
    fun sub hsub => WatchList.propagator_of_mem_subscriptions hsub
  have hnew : ∀ event v x, x ∈ s.watches.watchers event v → x.propagator ≠ s.slots.size :=
    fun event v x hx => Nat.ne_of_lt (hattentive.known event v x hx)
  have hlive : ∀ {j q}, (s.register p).propagator? j = some q →
      (j = s.slots.size ∧ q = p) ∨ (j ≠ s.slots.size ∧ s.propagator? j = some q) := by
    intro j q hq
    rw [propagator?_register] at hq
    split at hq
    next heq => exact Or.inl ⟨heq, (Option.some.inj hq).symm⟩
    next hne => exact Or.inr ⟨hne, hq⟩
  constructor
  · intro event v x hx
    simp only [Space.register, Array.size_push]
    rcases WatchList.mem_watchers_foldl_subscribe.mp hx with hold | ⟨sub, hsub, -, -, rfl⟩
    · exact (hattentive.known event v x hold).trans (Nat.lt_succ_self _)
    · rw [hother sub hsub]
      exact Nat.lt_succ_self _
  · intro j q hq
    rcases hlive hq with ⟨rfl, rfl⟩ | ⟨hne, hq'⟩
    · exact WatchList.hears_foldl_subscribe
    · exact (hattentive.hears j q hq').foldl_subscribe _
  · intro j q hq
    rcases hlive hq with ⟨rfl, rfl⟩ | ⟨hne, hq'⟩
    · exact WatchList.told_foldl_subscribe hnew
    · apply (hattentive.told j q hq').foldl_subscribe
      intro sub hsub heq
      exact hne (heq.symm.trans (hother sub hsub))

theorem attentive_of_no_slots (hslots : s.slots = #[]) (hwatches : s.watches = .empty) :
    s.Attentive := by
  have hgone : ∀ j, s.propagator? j = none := fun j => by simp [propagator?, hslots]
  refine ⟨fun event v x hx => ?_, fun j p hp => ?_, fun j p hp => ?_⟩
  · rw [hwatches] at hx
    cases v <;> cases event <;>
      simp [WatchList.empty, WatchList.watchers, WatchList.of, Watchers.of,
        Watchers.empty] at hx
  · simp [hgone j] at hp
  · simp [hgone j] at hp

/-! ## Tidy spaces -/

/-- How a space is found between two operations. -/
structure Tidy (s : Space) : Prop where
  sound : s.Sound
  attentive : s.Attentive
  quiet : s.store.isQuiet = true
  idle : s.failure ≠ none → s.queue.ids = []

theorem tidy_new : new.Tidy where
  sound := sound_new
  attentive := attentive_of_no_slots rfl rfl
  quiet := rfl
  idle := by simp [new]

/-- Nobody waits in a failed space, so a space whose turn it is has not failed. -/
theorem Tidy.failure_of_pop? (htidy : s.Tidy) {rest : Queue}
    (hpop : s.queue.pop? = some (id, rest)) : s.failure = none := by
  by_contra hfailed
  rw [Queue.pop?_eq_none htidy.sound.queue (htidy.idle hfailed)] at hpop
  simp at hpop

theorem failure_or_idle_of_runOne (hsound : s.Sound) (hok : s.failure = none)
    (hrun : runOne id s = .ok () s') : s'.failure ≠ none → s'.queue.ids = [] := by
  cases hp : s.propagator? id with
  | none =>
      rw [runOne_of_gone hp] at hrun
      obtain rfl : s = s' := by simpa using hrun
      exact fun hfailed => absurd hok hfailed
  | some p =>
      have hsubsumed := subsume_subsumed (propagator?_afterRun_self hp)
      have hafter := hsound.afterRun id p
      rw [runOne_eq hp] at hrun
      split at hrun
      · obtain ⟨-, -, -, -, hfailure, -⟩ := hafter.schedule hrun
        exact fun hfailed => absurd (hfailure.trans hok) hfailed
      · obtain ⟨-, -, -, -, hfailure, -⟩ := hafter.schedule hrun
        exact fun hfailed => absurd (hfailure.trans hok) hfailed
      · obtain ⟨-, -, -, -, hfailure, -⟩ := (hafter.of_subsumed hsubsumed).schedule hrun
        exact fun hfailed => absurd (hfailure.trans (hsubsumed.failure.trans hok)) hfailed
      · simp only [EStateM.Result.ok.injEq, true_and] at hrun
        subst hrun
        intro _
        rw [queue_failWith]
        exact hafter.queue.clear.2
      · simp at hrun

theorem Tidy.turn (htidy : s.Tidy) {rest : Queue} (hpop : s.queue.pop? = some (id, rest))
    (hrun : runOne id { s with queue := rest } = .ok () s') : s'.Tidy := by
  have hsound := htidy.sound.popped hpop
  have hran := hsound.runOne htidy.quiet hrun
  have hattentive : Attentive { s with queue := rest } :=
    htidy.attentive.of_slots rfl rfl
  exact ⟨hran.sound, hattentive.runOne hsound hrun, hran.quiet,
    failure_or_idle_of_runOne hsound (htidy.failure_of_pop? hpop) hrun⟩

theorem Tidy.schedule {skip : Option Nat} {store : Store} (htidy : s.Tidy)
    (counts : SpaceCounts) (hok : s.failure = none) (hvalid : store.Valid)
    (hrun : Space.schedule skip { s with store, counts } = .ok () s') : s'.Tidy := by
  have hsound : Sound { s with store, counts } :=
    ⟨hvalid, htidy.sound.queue, htidy.sound.waiting⟩
  have hattentive : Attentive { s with store, counts } :=
    htidy.attentive.of_slots rfl rfl
  obtain ⟨hsound', hstore, -, -, hfailure, -⟩ := hsound.schedule hrun
  refine ⟨hsound', hattentive.schedule hsound hrun, ?_, fun hfailed => ?_⟩
  · rw [hstore]
    rfl
  · exact absurd (hfailure.trans hok) hfailed

/-- Every effect leaves a tidy space. -/
theorem Effect.tidy {log : List Entry} (heffect : s.Effect log s') (htidy : s.Tidy) :
    s'.Tidy := by
  have hsound := heffect.sound htidy.sound
  cases heffect with
  | touch hkin =>
      refine ⟨hsound, htidy.attentive.kin hkin, hkin.store ▸ htidy.quiet, ?_⟩
      rw [hkin.failure, hkin.queue]
      exact htidy.idle
  | grow hgrows =>
      refine ⟨hsound, htidy.attentive.of_slots rfl rfl, ?_, htidy.idle⟩
      rw [Store.isQuiet_iff, hgrows.pending]
      exact Store.isQuiet_iff.mp htidy.quiet
  | drain hok hrun => exact htidy.schedule s.counts hok htidy.sound.store hrun
  | narrow counts hok hvalid _ hrun => exact htidy.schedule counts hok hvalid hrun
  | fail counts log reason hvalid _ =>
      refine ⟨hsound, htidy.attentive.of_slots (watches_failWith _ _) (slots_failWith _ _),
        ?_, fun _ => ?_⟩
      · rw [store_failWith]
        rfl
      · rw [queue_failWith]
        exact htidy.sound.queue.clear.2
  | turn _ hpop hrun => exact htidy.turn hpop hrun
  | register hok p =>
      exact ⟨hsound, htidy.attentive.register p, htidy.quiet,
        fun hfailed => absurd hok hfailed⟩
  | discard _ =>
      refine ⟨hsound, attentive_of_no_slots rfl rfl, htidy.quiet, fun _ => ?_⟩
      simp [new, Queue.ids, Queue.empty]

theorem Unfolds.tidy {log : List Entry} (hunfolds : s.Unfolds log s') (htidy : s.Tidy) :
    s'.Tidy := by
  induction hunfolds with
  | refl => exact htidy
  | tail _ heffect ih => exact heffect.tidy ih

theorem Reaches.tidy (hreaches : s.Reaches s') (htidy : s.Tidy) : s'.Tidy := by
  induction hreaches with
  | refl => exact htidy
  | act act _ hperform ih => exact (act.unfolds ih.sound hperform).tidy ih

/-- A propagator that never vetoes waits once an event that it subscribed to has
been passed on, unless it was left out. -/
theorem Attentive.waits (hattentive : s.Attentive) (hsound : s.Sound) {skip : Option Nat}
    (hskip : skip ≠ some j) (hp : s.propagator? j = some p) (hheedful : p.Heedful)
    {raised : Event × Variable} (hraised : raised ∈ s.store.pending)
    (hsubscribes : p.Subscribes raised) (hrun : Space.schedule skip s = .ok () s') :
    j ∈ s'.queue.ids := by
  obtain ⟨-, -, -, -, -, -, -, hqueued⟩ := hsound.schedule hrun
  obtain ⟨sub, hsub, htarget, hevent⟩ := WatchList.exists_subscription hsubscribes j
  have hname := WatchList.propagator_of_mem_subscriptions hsub
  have hnotified : (raised.1, sub.watcher) ∈ s.notifications skip := by
    apply mem_notifications.mpr
    refine ⟨raised.2, hraised, ?_, ?_⟩
    · rw [← htarget]
      exact hattentive.hears j p hp sub hsub raised.1 hevent
    · rw [hname]
      exact Ne.symm hskip
  have htold := hqueued.told hsound.queue _ hnotified p (by rw [hname, hp]) hheedful
  rwa [hname] at htold

end Space

end ConstraintSpace
