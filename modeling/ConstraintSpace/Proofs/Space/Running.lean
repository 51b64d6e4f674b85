import ConstraintSpace.Proofs.Space.Scheduling

/-!
# One run of a propagator

A run narrows the store and passes the events on; it may empty the slot of the
propagator or fail the space.  A posted propagator is upheld by a space when it
either left because it is entailed, or waits, or is told of a pending event, or
is settled.  One run keeps every posted propagator upheld: the one that ran by
what it guarantees, the others because each change that could unsettle them is
an event they are told of.
-/

namespace ConstraintSpace

namespace Space

variable {s s' : Space} {id j : Nat} {p q : Propagator}

/-! ## The parts of a run -/

theorem propagator?_setPropagator (hid : id < s.slots.size) (q : Propagator) (j : Nat) :
    (s.setPropagator id q).propagator? j =
      if j = id then some q else s.propagator? j := by
  unfold propagator? setPropagator
  simp only [Array.getElem?_modify]
  by_cases heq : id = j
  · subst heq
    simp [Array.getElem?_eq_getElem hid]
  · simp [heq, Ne.symm heq]

/-- The space after a propagator narrowed its store. -/
def afterRun (s : Space) (id : Nat) (p : Propagator) : Space :=
  ({ { s.note (.propagating id p.name) with
        counts := { s.counts with propagations := s.counts.propagations + 1 } } with
      store := (p.run s.store).store }.setPropagator id (p.run s.store).propagator).noteAll
    (p.run s.store).notes

theorem runOne_eq (hp : s.propagator? id = some p) :
    runOne id s =
      match (p.run s.store).verdict with
      | .ended .fix => schedule (some id) (s.afterRun id p)
      | .ended .noFixpoint => schedule none (s.afterRun id p)
      | .ended .subsumed => schedule none ((s.afterRun id p).subsume id)
      | .failed reason => .ok () ((s.afterRun id p).failWith reason)
      | .breached breach => .error (.breached breach) (s.afterRun id p) := by
  simp only [runOne, hp]
  rfl

theorem runOne_of_gone (hgone : s.propagator? id = none) : runOne id s = .ok () s := by
  simp only [runOne, hgone]

@[simp] theorem store_afterRun : (s.afterRun id p).store = (p.run s.store).store := rfl

@[simp] theorem queue_afterRun : (s.afterRun id p).queue = s.queue := rfl

@[simp] theorem watches_afterRun : (s.afterRun id p).watches = s.watches := rfl

@[simp] theorem failure_afterRun : (s.afterRun id p).failure = s.failure := rfl

@[simp] theorem branchers_afterRun : (s.afterRun id p).branchers = s.branchers := rfl

@[simp] theorem active_afterRun : (s.afterRun id p).active = s.active := rfl

@[simp] theorem noticed_afterRun : (s.afterRun id p).noticed = s.noticed := rfl

@[simp] theorem size_slots_afterRun :
    (s.afterRun id p).slots.size = s.slots.size := by
  simp [afterRun, setPropagator, noteAll, note]

theorem propagator?_afterRun (hid : id < s.slots.size) (p : Propagator) (j : Nat) :
    (s.afterRun id p).propagator? j =
      if j = id then some (p.run s.store).propagator else s.propagator? j :=
  propagator?_setPropagator (s := { s with store := (p.run s.store).store }) hid _ j

theorem propagator?_afterRun_self (hp : s.propagator? id = some p) :
    (s.afterRun id p).propagator? id = some (p.run s.store).propagator := by
  rw [propagator?_afterRun (lt_size_of_propagator? hp), if_pos rfl]

/-- Subsuming a registered propagator empties its slot and nothing else that
matters. -/
structure Subsumed (s : Space) (id : Nat) (s' : Space) : Prop where
  store : s'.store = s.store
  queue : s'.queue = s.queue
  failure : s'.failure = s.failure
  branchers : s'.branchers = s.branchers
  active : s'.active = s.active
  size_slots : s'.slots.size = s.slots.size
  propagator? : ∀ j, s'.propagator? j = if j = id then none else s.propagator? j
  hears : ∀ j p, j ≠ id → s.watches.Hears j p → s'.watches.Hears j p
  watchers : ∀ event v x, x ∈ s'.watches.watchers event v → x ∈ s.watches.watchers event v

theorem subsume_subsumed (hp : s.propagator? id = some p) :
    s.Subsumed id (s.subsume id) := by
  have hid := lt_size_of_propagator? hp
  unfold Space.propagator? at hp
  rw [Array.getElem?_eq_getElem hid] at hp
  simp only at hp
  have hslots : ∀ (w : WatchList) (slots : Array Slot),
      slots = s.slots.setIfInBounds id { propagator := none, subscribed := [] } →
      ∀ j, Space.propagator? { s with watches := w, slots := slots } j =
        if j = id then none else s.propagator? j := by
    rintro w slots rfl j
    unfold Space.propagator?
    simp only [Array.getElem?_setIfInBounds]
    by_cases heq : id = j
    · subst heq
      simp [hid]
    · simp [heq, Ne.symm heq]
  unfold subsume
  rw [Array.getElem?_eq_getElem hid]
  simp only [hp]
  split
  all_goals
    refine ⟨rfl, rfl, rfl, rfl, rfl, ?_, fun j => ?_, fun j p hne hhears => ?_,
      fun event v x hx => WatchList.mem_of_mem_foldl_unsubscribe hx⟩
    · simp [note]
    · exact hslots s.watches _ rfl j
    · exact hhears.foldl_unsubscribe hne _

@[simp] theorem store_failWith (reason : Inconsistency) (s : Space) :
    (s.failWith reason).store = s.store.silence := by
  unfold failWith
  split <;> rfl

@[simp] theorem queue_failWith (reason : Inconsistency) (s : Space) :
    (s.failWith reason).queue = s.queue.clear := by
  unfold failWith
  split <;> rfl

@[simp] theorem slots_failWith (reason : Inconsistency) (s : Space) :
    (s.failWith reason).slots = s.slots := by
  unfold failWith
  split <;> rfl

@[simp] theorem watches_failWith (reason : Inconsistency) (s : Space) :
    (s.failWith reason).watches = s.watches := by
  unfold failWith
  split <;> rfl

@[simp] theorem branchers_failWith (reason : Inconsistency) (s : Space) :
    (s.failWith reason).branchers = s.branchers := by
  unfold failWith
  split <;> rfl

@[simp] theorem active_failWith (reason : Inconsistency) (s : Space) :
    (s.failWith reason).active = s.active := by
  unfold failWith
  split <;> rfl

theorem failure_failWith (reason : Inconsistency) (s : Space) :
    (s.failWith reason).failure ≠ none := by
  unfold failWith
  cases hfailure : s.failure <;> simp [hfailure]

/-! ## A run keeps the space in order -/

theorem Sound.failWith (hsound : s.Sound) (reason : Inconsistency) :
    (s.failWith reason).Sound where
  store := by
    rw [store_failWith]
    exact hsound.store.silence
  queue := by
    rw [queue_failWith]
    exact hsound.queue.clear.1
  waiting := fun id hid => by
    rw [queue_failWith, hsound.queue.clear.2] at hid
    simp at hid

theorem Sound.schedule {skip : Option Nat} (hsound : s.Sound)
    (hrun : schedule skip s = .ok () s') :
    s'.Sound ∧ s'.store = s.store.silence ∧ s'.slots = s.slots ∧
      s'.watches = s.watches ∧ s'.failure = s.failure ∧
      s'.branchers = s.branchers ∧ s'.active = s.active ∧
      s.Queued (s.notifications skip) s'.queue := by
  rcases schedule_cases skip s with ⟨breach, s'', hrun', _⟩ | ⟨q, journal, hrun', hqueued⟩
  · rw [hrun] at hrun'
    simp at hrun'
  · rw [hrun] at hrun'
    simp only [EStateM.Result.ok.injEq, true_and] at hrun'
    subst hrun'
    refine ⟨⟨hsound.store.silence, hqueued.valid hsound.queue, fun id hid => ?_⟩,
      rfl, rfl, rfl, rfl, rfl, rfl, hqueued⟩
    rcases hqueued.new hsound.queue id hid with hold | ⟨p, hp⟩
    · exact hsound.waiting id hold
    · exact lt_size_of_propagator? hp

theorem Sound.afterRun (hsound : s.Sound) (id : Nat) (p : Propagator) :
    (s.afterRun id p).Sound where
  store := (p.run_narrows hsound.store).1
  queue := hsound.queue
  waiting := fun j hj => by
    rw [size_slots_afterRun]
    exact hsound.waiting j hj

theorem Sound.of_subsumed (hsound : s.Sound) (hsubsumed : s.Subsumed id s') :
    s'.Sound where
  store := hsubsumed.store ▸ hsound.store
  queue := hsubsumed.queue ▸ hsound.queue
  waiting := fun j hj => by
    rw [hsubsumed.size_slots]
    exact hsound.waiting j (hsubsumed.queue ▸ hj)

/-- What propagation leaves alone: the variables, the slots, the branchers and
a failure. -/
structure Frame (s s' : Space) : Prop where
  refines : s.store.Refines s'.store
  ints_size : s'.store.ints.size = s.store.ints.size
  sets_size : s'.store.sets.size = s.store.sets.size
  size_slots : s'.slots.size = s.slots.size
  branchers : s'.branchers = s.branchers
  active : s'.active = s.active
  failure : s'.failure = none → s.failure = none

theorem Frame.refl (s : Space) : s.Frame s :=
  ⟨Store.Refines.refl _, rfl, rfl, rfl, rfl, rfl, fun h => h⟩

theorem Frame.trans {t : Space} (hfirst : s.Frame s') (hsecond : s'.Frame t) :
    s.Frame t :=
  ⟨hfirst.refines.trans hsecond.refines, hsecond.ints_size.trans hfirst.ints_size,
    hsecond.sets_size.trans hfirst.sets_size,
    hsecond.size_slots.trans hfirst.size_slots,
    hsecond.branchers.trans hfirst.branchers, hsecond.active.trans hfirst.active,
    fun h => hfirst.failure (hsecond.failure h)⟩

theorem Frame.schedule {skip : Option Nat} (hsound : s.Sound)
    (hrun : schedule skip s = .ok () s') : s.Frame s' := by
  obtain ⟨_, hstore, hslots, _, hfailure, hbranchers, hactive, _⟩ := hsound.schedule hrun
  exact ⟨hstore ▸ s.store.refines_silence, by rw [hstore]; rfl, by rw [hstore]; rfl,
    by rw [hslots], hbranchers, hactive, fun h => hfailure ▸ h⟩

theorem Frame.afterRun (hsound : s.Sound) (id : Nat) (p : Propagator) :
    s.Frame (s.afterRun id p) := by
  have hnarrows := (p.run_narrows hsound.store).2
  exact ⟨hnarrows.refines, hnarrows.ints_size, hnarrows.sets_size,
    size_slots_afterRun, rfl, rfl, fun h => h⟩

theorem Frame.failWith (reason : Inconsistency) (s : Space) :
    s.Frame (s.failWith reason) := by
  have hstore := store_failWith reason s
  exact ⟨hstore ▸ s.store.refines_silence, by rw [hstore]; rfl, by rw [hstore]; rfl,
    by rw [slots_failWith], branchers_failWith _ _, active_failWith _ _,
    fun h => absurd h (failure_failWith reason s)⟩

theorem Frame.of_subsumed (hsubsumed : s.Subsumed id s') : s.Frame s' :=
  ⟨hsubsumed.store ▸ Store.Refines.refl _, by rw [hsubsumed.store],
    by rw [hsubsumed.store], hsubsumed.size_slots, hsubsumed.branchers,
    hsubsumed.active, fun h => hsubsumed.failure ▸ h⟩

/-- What a run that gives a result did to the space as a whole. -/
structure Ran (s s' : Space) : Prop extends Frame s s' where
  sound : s'.Sound
  quiet : s'.store.isQuiet = true
  progress : s'.store.measure < s.store.measure ∨
    s'.store.measure = s.store.measure ∧ s'.queue.count ≤ s.queue.count

theorem Ran.of_schedule {t : Space} {skip : Option Nat} (hquiet : s.store.isQuiet = true)
    (hsound : t.Sound) (hnarrows : s.store.Narrows t.store) (hqueue : t.queue = s.queue)
    (hframe : s.Frame t) (hrun : schedule skip t = .ok () s') : s.Ran s' := by
  obtain ⟨hsound', hstore, -, -, -, -, -, hqueued⟩ := hsound.schedule hrun
  have hmeasure : s'.store.measure = t.store.measure := by
    rw [hstore]
    rfl
  refine ⟨hframe.trans (.schedule hsound hrun), hsound', by rw [hstore]; rfl, ?_⟩
  rcases hnarrows.progress with hsame | hlt
  · right
    refine ⟨by rw [hmeasure, hsame], ?_⟩
    rw [hqueued.idle (notifications_of_isQuiet (by rw [hsame]; exact hquiet)), hqueue]
  · left
    rwa [hmeasure]

/-- A run that gives a result keeps the space in order and makes progress. -/
theorem Sound.runOne (hsound : s.Sound) (hquiet : s.store.isQuiet = true)
    (hrun : runOne id s = .ok () s') : s.Ran s' := by
  cases hp : s.propagator? id with
  | none =>
      rw [runOne_of_gone hp] at hrun
      obtain rfl : s = s' := by simpa using hrun
      exact ⟨.refl s, hsound, hquiet, Or.inr ⟨rfl, le_refl _⟩⟩
  | some p =>
      have hafter := hsound.afterRun id p
      have hframe := Frame.afterRun hsound id p
      have hnarrows : s.store.Narrows (s.afterRun id p).store :=
        (p.run_narrows hsound.store).2
      rw [runOne_eq hp] at hrun
      split at hrun
      · exact .of_schedule hquiet hafter hnarrows rfl hframe hrun
      · exact .of_schedule hquiet hafter hnarrows rfl hframe hrun
      · have hsubsumed := subsume_subsumed (propagator?_afterRun_self hp)
        exact .of_schedule hquiet (hafter.of_subsumed hsubsumed)
          (hsubsumed.store ▸ hnarrows) hsubsumed.queue
          (hframe.trans (.of_subsumed hsubsumed)) hrun
      · next reason hverdict =>
          simp only [EStateM.Result.ok.injEq, true_and] at hrun
          subst hrun
          refine ⟨hframe.trans (.failWith reason _), hafter.failWith reason,
            by rw [store_failWith]; rfl, ?_⟩
          rw [store_failWith, queue_failWith]
          rcases hnarrows.progress with hsame | hlt
          · refine Or.inr ⟨?_, Nat.zero_le _⟩
            have : (s.afterRun id p).store.silence.measure =
              (s.afterRun id p).store.measure := rfl
            rw [this, hsame]
          · exact Or.inl hlt
      · simp at hrun

/-! ## A run keeps posted propagators upheld -/

/-- The propagator was posted under the number: it still has its slot, where it
hears of its events, or it left because it is entailed. -/
structure Posted (s : Space) (j : Nat) (p : Propagator) : Prop where
  fit : p.Fit s.store
  steady : p.Steady s.store
  registered : s.failure = none → j < s.slots.size
  slot : s.failure = none →
    (s.propagator? j = none ∧ p.Entailed s.store) ∨
      ∃ q, s.propagator? j = some q ∧ q.core = p.core ∧ s.watches.Hears j p

/-- The propagator waits, or is told of a pending event, or is settled. -/
def Awake (s : Space) (j : Nat) (p : Propagator) : Prop :=
  j ∈ s.queue.ids ∨
    (∃ sub ∈ subscriptions j p.watches, ∃ event,
      sub.events.contains event = true ∧ (event, sub.target) ∈ s.store.pending) ∨
    p.Settled s.store

/-- A posted propagator with a slot is awake. -/
structure Upholds (s : Space) (j : Nat) (p : Propagator) : Prop extends
    Posted s j p where
  awake : s.failure = none → s.propagator? j = none ∨ s.Awake j p

theorem Posted.congr (hposted : s.Posted j p) (hrefines : s.store.Refines s'.store)
    (hfailure : s'.failure = none → s.failure = none)
    (hsize : s.slots.size ≤ s'.slots.size)
    (hpropagator : s'.propagator? j = s.propagator? j)
    (hhears : s.watches.Hears j p → s'.watches.Hears j p) : s'.Posted j p where
  fit := hposted.fit.refines hrefines
  steady := hposted.steady.refines hposted.fit hrefines
  registered := fun h => (hposted.registered (hfailure h)).trans_le hsize
  slot := fun h => by
    rw [hpropagator]
    rcases hposted.slot (hfailure h) with ⟨hgone, hentailed⟩ | ⟨q, hq, hcore, hears⟩
    · exact Or.inl ⟨hgone, hentailed.refines hrefines⟩
    · exact Or.inr ⟨q, hq, hcore, hhears hears⟩

theorem Posted.fail (hposted : s.Posted j p) (hrefines : s.store.Refines s'.store)
    (hfailure : s'.failure ≠ none) : s'.Posted j p :=
  ⟨hposted.fit.refines hrefines, hposted.steady.refines hposted.fit hrefines,
    fun h => absurd h hfailure, fun h => absurd h hfailure⟩

/-- A change of the store wakes the propagators that it could unsettle. -/
theorem Awake.narrow (hawake : s.Awake j p) (hfit : p.Fit s.store)
    (hvalid : s.store.Valid) (hvalid' : s'.store.Valid)
    (hnarrows : s.store.Narrows s'.store) (hqueue : s'.queue = s.queue) :
    s'.Awake j p := by
  rcases hawake with hwaits | ⟨sub, hsub, event, hevent, hpending⟩ | hsettled
  · exact Or.inl (hqueue ▸ hwaits)
  · exact Or.inr (Or.inl
      ⟨sub, hsub, event, hevent, hnarrows.pending_mono _ hpending⟩)
  · by_cases hsilent : ∀ w ∈ p.watches, w.Silent s.store s'.store
    · exact Or.inr (Or.inr
        (hsettled.of_silent hfit hvalid hvalid' hnarrows.refines hsilent))
    · push Not at hsilent
      obtain ⟨w, hw, hloud⟩ := hsilent
      exact Or.inr (Or.inl (WatchList.exists_pending_of_not_silent hnarrows hw hloud))

/-- Passing events on keeps a posted propagator upheld, unless the propagator is
left out and not settled. -/
theorem Upholds.schedule {skip : Option Nat} (hposted : s.Posted j p)
    (hawake : s.failure = none → s.propagator? j = none ∨
      (skip ≠ some j ∧ s.Awake j p) ∨ p.Settled s.store)
    (hsound : s.Sound) (hrun : schedule skip s = .ok () s') : s'.Upholds j p := by
  obtain ⟨_, hstore, hslots, hwatches, hfailure, _, _, hqueued⟩ := hsound.schedule hrun
  have hrefines : s.store.Refines s'.store := hstore ▸ s.store.refines_silence
  have hpropagator : s'.propagator? j = s.propagator? j := by
    simp only [propagator?, hslots]
  refine ⟨hposted.congr hrefines (fun h => hfailure ▸ h) (by rw [hslots]) hpropagator
    (fun h => hwatches ▸ h), fun hok => ?_⟩
  rw [hfailure] at hok
  rw [hpropagator]
  have hsettle : p.Settled s.store → s'.Awake j p := fun hsettled => by
    refine Or.inr (Or.inr ?_)
    rw [hstore]
    exact hsettled.silence hposted.fit hsound.store
  rcases hawake hok with hgone | ⟨hskip, hwaits | hheard | hsettled⟩ | hsettled
  · exact Or.inl hgone
  · exact Or.inr (Or.inl (hqueued.old hsound.queue j hwaits))
  · obtain ⟨sub, hsub, event, hevent, hpending⟩ := hheard
    rcases hposted.slot hok with ⟨hgone, _⟩ | ⟨q, hq, hcore, hhears⟩
    · exact Or.inl hgone
    · have hname := WatchList.propagator_of_mem_subscriptions hsub
      have hnotified : (event, sub.watcher) ∈ s.notifications skip :=
        mem_notifications.mpr ⟨sub.target, hpending, hhears sub hsub event hevent,
          by rw [hname]; exact Ne.symm hskip⟩
      have htold := hqueued.told hsound.queue _ hnotified q (by rw [hname, hq])
        (hposted.fit.heedful.of_core hcore)
      rw [hname] at htold
      exact Or.inr (Or.inl htold)
  · exact Or.inr (hsettle hsettled)
  · exact Or.inr (hsettle hsettled)

theorem Posted.upholds_of_failed (hposted : s.Posted j p)
    (hrefines : s.store.Refines s'.store) (hfailed : s'.failure ≠ none) : s'.Upholds j p :=
  ⟨hposted.fail hrefines hfailed, fun h => absurd h hfailed⟩

theorem Posted.failWith_afterRun (hposted : s.Posted j p) (hsound : s.Sound)
    (reason : Inconsistency) : ((s.afterRun id q).failWith reason).Upholds j p :=
  hposted.upholds_of_failed ((Frame.afterRun hsound id q).trans (.failWith reason _)).refines
    (failure_failWith reason _)

/-- A posted propagator that ran is settled, or entailed and gone. -/
theorem Posted.runs_itself (hposted : s.Posted j p) (hok : s.failure = none)
    (hsound : s.Sound) (hq : s.propagator? j = some q) (hrun : runOne j s = .ok () s') :
    s'.Upholds j p := by
  have hid := lt_size_of_propagator? hq
  have hafter := hsound.afterRun j q
  have hrefines : s.store.Refines (s.afterRun j q).store := (Frame.afterRun hsound j q).refines
  have hlive : (s.afterRun j q).propagator? j = some (q.run s.store).propagator :=
    propagator?_afterRun_self hq
  rcases hposted.slot hok with ⟨hgone, _⟩ | ⟨q', hq', hcore, hhears⟩
  · simp [hq] at hgone
  obtain rfl : q = q' := by simpa [hq] using hq'
  have hfit : q.Fit s.store :=
    (q.fit_core _).mp (hcore ▸ (p.fit_core _).mpr hposted.fit)
  rw [runOne_eq hq] at hrun
  cases q.run_outcome hfit hsound.store with
  | failed hverdict hnotes hempty =>
      simp only [hverdict, EStateM.Result.ok.injEq, true_and] at hrun
      exact hrun ▸ hposted.failWith_afterRun hsound _
  | subsumed hverdict hcore' hnotes hkept hentailed =>
      simp only [hverdict] at hrun
      have hsubsumed := subsume_subsumed hlive
      have hgone : ((s.afterRun j q).subsume j).propagator? j = none := by
        rw [hsubsumed.propagator?, if_pos rfl]
      have hstore := hsubsumed.store
      refine Upholds.schedule (s := (s.afterRun j q).subsume j)
        ⟨hstore ▸ hposted.fit.refines hrefines,
          hstore ▸ hposted.steady.refines hposted.fit hrefines,
          fun _ => by rwa [hsubsumed.size_slots, size_slots_afterRun],
          fun _ => Or.inl ⟨hgone, ?_⟩⟩
        (fun _ => Or.inl hgone) (hafter.of_subsumed hsubsumed) hrun
      rw [hstore]
      exact (p.entailed_core _).mp (hcore ▸ (q.entailed_core _).mpr hentailed)
  | fix hverdict hcore' hnotes hkept hsettled =>
      simp only [hverdict] at hrun
      have hsteady : q.Steady s.store :=
        (q.steady_core _).mp (hcore ▸ (p.steady_core _).mpr hposted.steady)
      have hsettled' : p.Settled (s.afterRun j q).store :=
        (p.settled_core _).mp (hcore ▸ (q.settled_core _).mpr (hsettled hsteady))
      exact Upholds.schedule
        ⟨hposted.fit.refines hrefines,
          hposted.steady.refines hposted.fit hrefines,
          fun _ => by rwa [size_slots_afterRun],
          fun _ => Or.inr ⟨_, hlive, hcore'.trans hcore, hhears⟩⟩
        (fun _ => Or.inr (Or.inr hsettled')) hafter hrun

/-- Where another propagator ran, a posted one is woken by what it did. -/
theorem Posted.another_runs (hposted : s.Posted j p)
    (hawake : s.propagator? j = none ∨ s.Awake j p) (hsound : s.Sound) (hj : j ≠ id)
    (hq : s.propagator? id = some q) (hrun : runOne id s = .ok () s') : s'.Upholds j p := by
  have hid := lt_size_of_propagator? hq
  have hafter := hsound.afterRun id q
  have hrefines : s.store.Refines (s.afterRun id q).store :=
    (Frame.afterRun hsound id q).refines
  have hother : (s.afterRun id q).propagator? j = s.propagator? j := by
    rw [propagator?_afterRun hid, if_neg hj]
  have hposted' : (s.afterRun id q).Posted j p :=
    hposted.congr hrefines (fun h => h) size_slots_afterRun.ge hother fun h => h
  have hawake' : (s.afterRun id q).propagator? j = none ∨ (s.afterRun id q).Awake j p := by
    rw [hother]
    exact hawake.imp_right fun h =>
      h.narrow hposted.fit hsound.store hafter.store (q.run_narrows hsound.store).2 rfl
  rw [runOne_eq hq] at hrun
  split at hrun
  · exact Upholds.schedule hposted'
      (fun _ => hawake'.imp_right fun h => Or.inl ⟨by simpa using Ne.symm hj, h⟩) hafter hrun
  · exact Upholds.schedule hposted'
      (fun _ => hawake'.imp_right fun h => Or.inl ⟨by simp, h⟩) hafter hrun
  · have hsubsumed := subsume_subsumed (propagator?_afterRun_self hq)
    have hsame : ((s.afterRun id q).subsume id).propagator? j =
        (s.afterRun id q).propagator? j := by
      rw [hsubsumed.propagator?, if_neg hj]
    refine Upholds.schedule (hposted'.congr (Frame.of_subsumed hsubsumed).refines
      (fun h => hsubsumed.failure ▸ h) hsubsumed.size_slots.ge hsame (hsubsumed.hears j p hj))
      (fun _ => ?_) (hafter.of_subsumed hsubsumed) hrun
    rw [hsame]
    refine hawake'.imp_right fun h => Or.inl ⟨by simp, ?_⟩
    simpa only [Awake, hsubsumed.queue, hsubsumed.store] using h
  · next reason hverdict =>
      simp only [EStateM.Result.ok.injEq, true_and] at hrun
      exact hrun ▸ hposted.failWith_afterRun hsound reason
  · simp at hrun

/-- The propagator that runs need not be awake before. -/
theorem Posted.runOne (hposted : s.Posted j p)
    (hawake : s.failure = none → s.propagator? j = none ∨ j = id ∨ s.Awake j p)
    (hsound : s.Sound) (hquiet : s.store.isQuiet = true)
    (hrun : runOne id s = .ok () s') : s'.Upholds j p := by
  have hran := hsound.runOne hquiet hrun
  by_cases hok : s.failure = none
  case neg => exact hposted.upholds_of_failed hran.refines fun h => hok (hran.failure h)
  cases hq : s.propagator? id with
  | none =>
      rw [runOne_of_gone hq] at hrun
      obtain rfl : s = s' := by simpa using hrun
      refine ⟨hposted, fun h => ?_⟩
      rcases hawake h with hgone | rfl | hawake
      · exact Or.inl hgone
      · exact Or.inl hq
      · exact Or.inr hawake
  | some q =>
      by_cases hj : j = id
      · subst hj
        exact hposted.runs_itself hok hsound hq hrun
      · refine hposted.another_runs ((hawake hok).imp_right fun h => ?_) hsound hj hq hrun
        exact h.resolve_left hj

end Space

end ConstraintSpace
