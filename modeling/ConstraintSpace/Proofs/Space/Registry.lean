import ConstraintSpace.Proofs.Space.Service

/-!
# Who is registered where

The slots, the watch lists, the queue and the list of those that are to be told are
separate parts of a space, and adding, running, failing and copying change each of them.
They name the same propagators all the time.  When a propagator leaves, it is taken off
the lists of all variables that its slot is subscribed to, and these are all variables on
whose lists it stands.
-/

namespace ConstraintSpace

/-- The propagator registered the local number for the event of the variable, through
whatever view. -/
def Propagator.Registers (p : Propagator) (localId : Nat) (event : Event) (v : Variable) :
    Prop :=
  ∃ watch ∈ p.watches, watch.localId = localId ∧
    ∃ events, watch.view.watch watch.events = some (v, events) ∧
      events.contains event = true

namespace Space

variable {s s' t u : Space} {id : Nat} {p : Propagator} {log : List Entry}

/-- The subscriptions of a propagator name what it registered. -/
theorem exists_subscription_iff (id : Nat) {localId : Nat} {event : Event} {v : Variable} :
    (∃ sub ∈ subscriptions id p.watches, sub.target = v ∧
        sub.events.contains event = true ∧ sub.watcher = ⟨id, localId⟩) ↔
      p.Registers localId event v := by
  constructor
  · rintro ⟨sub, hsub, rfl, hevent, hwatcher⟩
    obtain ⟨watch, hwatch, hsome⟩ := List.mem_filterMap.mp hsub
    split at hsome
    · simp at hsome
    next target events hview =>
      split at hsome
      · simp at hsome
      · simp only [Option.some.injEq] at hsome
        subst hsome
        simp only [Watcher.mk.injEq, true_and] at hwatcher
        exact ⟨watch, hwatch, hwatcher, events, hview, hevent⟩
  · rintro ⟨watch, hwatch, rfl, events, hview, hevent⟩
    refine ⟨⟨v, events, ⟨id, watch.localId⟩⟩, ?_, rfl, hevent, rfl⟩
    refine List.mem_filterMap.mpr ⟨watch, hwatch, ?_⟩
    simp [hview, EventSet.isEmpty_eq_false hevent]

/-! ## Parts that agree -/

/-- The watch lists and the queue name propagators that have their slots only, each once,
and every slot knows the variables that its propagator listens to. -/
structure Filed (s : Space) : Prop where
  live : ∀ event v x, x ∈ s.watches.watchers event v →
    (s.propagator? x.propagator).isSome = true
  distinct : s.watches.Distinct
  targets : ∀ id p, s.propagator? id = some p → ∃ targets, s.subscribed? id = some targets ∧
    ∀ sub ∈ subscriptions id p.watches, sub.target ∈ targets
  waiting : ∀ id ∈ s.queue.ids, (s.propagator? id).isSome = true

theorem filed_of_no_slots (hslots : s.slots = #[]) (hwatches : s.watches = .empty)
    (hqueue : s.queue.ids = []) : s.Filed where
  live := fun event v x hx => by
    rw [hwatches] at hx
    cases v <;> cases event <;>
      simp [WatchList.empty, WatchList.watchers, WatchList.of, Watchers.of,
        Watchers.empty] at hx
  distinct := fun event v => by
    rw [hwatches]
    cases v <;> cases event <;>
      simp [WatchList.empty, WatchList.watchers, WatchList.of, Watchers.of, Watchers.empty]
  targets := fun id p hp => by simp [propagator?, hslots] at hp
  waiting := by simp [hqueue]

theorem isSome_of_guise (hguise : ∀ id, (t.propagator? id).map Propagator.guise =
      (s.propagator? id).map Propagator.guise) (id : Nat) :
    (t.propagator? id).isSome = (s.propagator? id).isSome := by
  rw [← Option.isSome_map, hguise, Option.isSome_map]

/-- Propagators of the same guises in the same slots are filed the same. -/
theorem Filed.of_guise (hfiled : s.Filed) (hwatches : t.watches = s.watches)
    (hsubscribed : ∀ id, t.subscribed? id = s.subscribed? id)
    (hguise : ∀ id, (t.propagator? id).map Propagator.guise =
      (s.propagator? id).map Propagator.guise)
    (hwaiting : ∀ id ∈ t.queue.ids, (s.propagator? id).isSome = true) : t.Filed where
  live := fun event v x hx => by
    rw [isSome_of_guise hguise]
    exact hfiled.live event v x (hwatches ▸ hx)
  distinct := hwatches ▸ hfiled.distinct
  targets := fun id p hp => by
    have hsame := hguise id
    rw [hp, Option.map_some, eq_comm, Option.map_eq_some_iff] at hsame
    obtain ⟨q, hq, hsame⟩ := hsame
    rw [hsubscribed, Propagator.watches_eq_of_guise hsame.symm]
    exact hfiled.targets id q hq
  waiting := fun id hid => by
    rw [isSome_of_guise hguise]
    exact hwaiting id hid

theorem Filed.of_slots (hfiled : s.Filed) (hwatches : t.watches = s.watches)
    (hslots : t.slots = s.slots)
    (hwaiting : ∀ id ∈ t.queue.ids, (s.propagator? id).isSome = true) : t.Filed :=
  hfiled.of_guise hwatches (fun id => by simp only [subscribed?, hslots])
    (fun id => by simp only [propagator?, hslots]) hwaiting

theorem Filed.schedule {skip : Option Nat} (hfiled : s.Filed) (hsound : s.Sound)
    (hrun : Space.schedule skip s = .ok () t) : t.Filed := by
  obtain ⟨-, -, hslots, hwatches, -, -, -, hqueued⟩ := hsound.schedule hrun
  refine hfiled.of_slots hwatches hslots fun id hid => ?_
  rcases hqueued.new hsound.queue id hid with hold | ⟨p, hp⟩
  · exact hfiled.waiting id hold
  · simp [hp]

theorem Filed.failWith (hfiled : s.Filed) (hsound : s.Sound) (reason : Inconsistency) :
    (s.failWith reason).Filed := by
  refine hfiled.of_slots (watches_failWith _ _) (slots_failWith _ _) fun id hid => ?_
  rw [queue_failWith, hsound.queue.clear.2] at hid
  simp at hid

theorem Filed.afterRun (hfiled : s.Filed) (hp : s.propagator? id = some p) :
    (s.afterRun id p).Filed := by
  refine hfiled.of_guise watches_afterRun
    (fun j => subscribed?_setPropagator { s with store := (p.run s.store).store } id _ j)
    (fun j => ?_) hfiled.waiting
  rw [propagator?_afterRun (lt_size_of_propagator? hp)]
  split
  next heq => rw [heq, hp, Option.map_some, Option.map_some, p.guise_run]
  next => rfl

/-- What emptying a slot does to the watch lists and the other slots. -/
theorem subsume_unsubscribes {targets : List Variable} (hp : s.propagator? id = some p)
    (htargets : s.subscribed? id = some targets) :
    (s.subsume id).watches = targets.foldl (·.unsubscribe id) s.watches ∧
      ∀ j, j ≠ id → (s.subsume id).subscribed? j = s.subscribed? j := by
  obtain ⟨slot, hslot, rfl⟩ := Option.map_eq_some_iff.mp htargets
  have hlive : slot.propagator = some p := by simpa [propagator?, hslot] using hp
  have hothers : ∀ j, j ≠ id →
      (s.slots.setIfInBounds id { propagator := none, subscribed := [] })[j]? =
        s.slots[j]? :=
    fun j hj => by rw [Array.getElem?_setIfInBounds, if_neg (Ne.symm hj)]
  unfold subsume
  simp only [hslot, hlive]
  split <;> exact ⟨rfl, fun j hj => congrArg (Option.map Slot.subscribed) (hothers j hj)⟩

/-- A propagator that leaves is on no list any more, since it stood on those of its slot
only. -/
theorem Filed.subsume (hfiled : s.Filed) (hattentive : s.Attentive)
    (hp : s.propagator? id = some p) (hidle : id ∉ s.queue.ids) : (s.subsume id).Filed := by
  have hsubsumed := subsume_subsumed hp
  obtain ⟨targets, htargets, hall⟩ := hfiled.targets id p hp
  obtain ⟨hwatches, hothers⟩ := subsume_unsubscribes hp htargets
  refine ⟨fun event v x hx => ?_, hwatches ▸ hfiled.distinct.foldl_unsubscribe id targets,
    fun j q hq => ?_, fun j hj => ?_⟩
  · have hold := hsubsumed.watchers event v x hx
    by_cases heq : x.propagator = id
    · rw [hwatches, ← heq, WatchList.mem_watchers_foldl_unsubscribe_self] at hx
      obtain ⟨sub, hsub, htarget, -⟩ := hattentive.told id p hp event v x hold heq
      exact absurd (htarget ▸ hall sub hsub) hx.1
    · rw [hsubsumed.propagator?, if_neg heq]
      exact hfiled.live event v x hold
  · rw [hsubsumed.propagator?] at hq
    split at hq
    · simp at hq
    next hne =>
      rw [hothers j hne]
      exact hfiled.targets j q hq
  · rw [hsubsumed.queue] at hj
    have hne : j ≠ id := by
      rintro rfl
      exact hidle hj
    rw [hsubsumed.propagator?, if_neg hne]
    exact hfiled.waiting j hj

theorem Filed.runOne (hfiled : s.Filed) (hsound : s.Sound) (hattentive : s.Attentive)
    (hidle : id ∉ s.queue.ids) (hrun : Space.runOne id s = .ok () t) : t.Filed := by
  cases hp : s.propagator? id with
  | none =>
      rw [runOne_of_gone hp] at hrun
      obtain rfl : s = t := by simpa using hrun
      exact hfiled
  | some p =>
      have hafter := hfiled.afterRun hp
      have hsound' := hsound.afterRun id p
      have hlive : (s.afterRun id p).propagator? id = some (p.run s.store).propagator :=
        propagator?_afterRun_self hp
      rw [runOne_eq hp] at hrun
      split at hrun
      · exact hafter.schedule hsound' hrun
      · exact hafter.schedule hsound' hrun
      · exact (hafter.subsume (hattentive.afterRun hp) hlive hidle).schedule
          (hsound'.of_subsumed (subsume_subsumed hlive)) hrun
      · simp only [EStateM.Result.ok.injEq, true_and] at hrun
        subst hrun
        exact hafter.failWith hsound' _
      · simp at hrun

theorem Filed.register (hfiled : s.Filed) (hqueue : s.queue.Valid) (p : Propagator) :
    (s.register p).Filed := by
  have hstays : ∀ j, (s.propagator? j).isSome = true →
      (s.register p).propagator? j = s.propagator? j := fun j hj => by
    have hne : j ≠ s.slots.size := by
      rintro rfl
      simp [propagator?_of_size_le (le_refl _)] at hj
    rw [propagator?_register, if_neg hne]
  have hnew : (s.register p).propagator? s.slots.size = some p := by
    rw [propagator?_register, if_pos rfl]
  refine ⟨fun event v x hx => ?_, hfiled.distinct.foldl_subscribe _, fun j q hq => ?_,
    fun j hj => ?_⟩
  · rcases WatchList.mem_watchers_foldl_subscribe.mp hx with hold | ⟨sub, hsub, -, -, rfl⟩
    · have hlive := hfiled.live event v x hold
      rwa [hstays _ hlive]
    · rw [WatchList.propagator_of_mem_subscriptions hsub, hnew, Option.isSome_some]
  · simp only [subscribed?, Space.register, Array.getElem?_push]
    rw [propagator?_register] at hq
    split at hq
    next heq =>
      obtain rfl := Option.some.inj hq
      rw [if_pos heq]
      refine ⟨_, rfl, fun sub hsub => ?_⟩
      rw [List.mem_eraseDups, ← heq]
      exact List.mem_map_of_mem hsub
    next hne =>
      rw [if_neg hne]
      exact hfiled.targets j q hq
  · rcases ((hqueue.enqueue s.slots.size p.priority).2 j).mp hj with rfl | hold
    · rw [hnew, Option.isSome_some]
    · have hlive := hfiled.waiting j hold
      rwa [hstays _ hlive]

/-- Every effect keeps the parts of a space in agreement. -/
theorem Effect.filed (heffect : s.Effect log t) (hfiled : s.Filed) (htidy : s.Tidy) :
    t.Filed := by
  cases heffect with
  | touch hkin =>
      refine hfiled.of_guise hkin.watches hkin.subscribed? hkin.guise fun id hid => ?_
      exact hfiled.waiting id (hkin.queue ▸ hid)
  | grow _ => exact hfiled.of_slots rfl rfl hfiled.waiting
  | drain _ hrun => exact hfiled.schedule htidy.sound hrun
  | @narrow store _ counts _ hvalid _ hrun =>
      have hsound : Sound { s with store, counts } :=
        ⟨hvalid, htidy.sound.queue, htidy.sound.waiting⟩
      have hfiled' : Filed { s with store, counts } :=
        hfiled.of_slots rfl rfl hfiled.waiting
      exact hfiled'.schedule hsound hrun
  | @fail store counts _ reason hvalid _ _ =>
      have hsound : Sound { s with store, counts } :=
        ⟨hvalid, htidy.sound.queue, htidy.sound.waiting⟩
      have hfiled' : Filed { s with store, counts } :=
        hfiled.of_slots rfl rfl hfiled.waiting
      exact hfiled'.failWith hsound reason
  | @turn _ id q _ hpop hrun =>
      obtain ⟨-, hperm, -⟩ := htidy.sound.queue.pop? hpop
      have hidle : id ∉ q.ids :=
        (List.nodup_cons.mp (hperm.nodup_iff.mp htidy.sound.queue.nodup)).1
      have hpopped : Filed { s with queue := q } :=
        hfiled.of_slots rfl rfl fun j hj =>
          hfiled.waiting j (hperm.mem_iff.mpr (List.mem_cons_of_mem id hj))
      exact hpopped.runOne (htidy.sound.popped hpop) (htidy.attentive.of_slots rfl rfl)
        hidle hrun
  | register _ p => exact hfiled.register htidy.sound.queue p
  | discard _ => exact filed_of_no_slots rfl rfl (by simp [new, Queue.ids, Queue.empty])

theorem Unfolds.filed (hunfolds : s.Unfolds log t) (hfiled : s.Filed) (htidy : s.Tidy) :
    t.Filed := by
  induction hunfolds with
  | refl => exact hfiled
  | tail hunfolds heffect ih => exact heffect.filed ih (hunfolds.tidy htidy)

/-! ## Reachable spaces -/

theorem Registered.performAll {acts : List Act} (hregistered : s.Registered)
    (hperform : Space.performAll acts s = some t) : t.Registered := by
  induction acts generalizing s with
  | nil =>
      obtain rfl := Option.some.inj hperform
      exact hregistered
  | cons act rest ih =>
      obtain ⟨u, hact, hrest⟩ := Option.bind_eq_some_iff.mp hperform
      refine ih ?_ hrest
      cases hreplaces : act.replaces with
      | false => exact hregistered.proceeds (act.proceeds hreplaces hact)
      | true =>
          cases act with
          | copy mode next =>
              obtain rfl := Option.some.inj hact
              exact hregistered.copy mode next
          | _ => cases hreplaces

/-- All parts of a space agree with what its acts tell of the propagators. -/
structure Consistent (acts : List Act) (s : Space) : Prop where
  slots : ∀ id, (s.propagator? id).map Propagator.guise =
    (serving? acts id).map Propagator.guise
  numbered : ∀ p rejection id t, Space.addPropagator p rejection s = .ok id t →
    id = (arrivals acts new).length
  watchers : ∀ event v x, x ∈ s.watches.watchers event v ↔
    ∃ p, serving? acts x.propagator = some p ∧ p.Registers x.localId event v
  distinct : s.watches.Distinct
  queue : s.queue.Valid
  waiting : ∀ id ∈ s.queue.ids, (serving? acts id).isSome = true
  noticed_nodup : s.noticed.Nodup
  noticed : ∀ id, .propagator id ∈ s.noticed ↔
    ∃ p, serving? acts id = some p ∧ p.notices = true
  quiet : s.store.pending = #[]

/-- No part of the space names the propagator. -/
structure Absent (s : Space) (id : Nat) : Prop where
  slot : s.propagator? id = none
  watchers : ∀ event v, ∀ x ∈ s.watches.watchers event v, x.propagator ≠ id
  queue : id ∉ s.queue.ids
  noticed : .propagator id ∉ s.noticed

theorem guise_eq_serving? {acts : List Act} (hperform : performAll acts new = some s)
    (id : Nat) :
    (s.propagator? id).map Propagator.guise = (serving? acts id).map Propagator.guise := by
  obtain ⟨hserves, hempty⟩ := serves_performAll sound_new hperform
  unfold serving?
  cases hdiscarded : discarded acts new with
  | true => simp [propagator?, (hempty hdiscarded).1]
  | false =>
      have hnew : new.enrolled? (arrivals acts new) id = (arrivals acts new)[id]? := rfl
      rw [(hserves hdiscarded).guise, hnew]
      by_cases hleft : id ∈ departures (history acts new) <;> simp [hleft]

theorem exists_iff_of_guise {o o' : Option Propagator} {P : Propagator → Prop}
    (hguise : o.map Propagator.guise = o'.map Propagator.guise)
    (hcongr : ∀ p q : Propagator, q.guise = p.guise → P q → P p) :
    (∃ p, o = some p ∧ P p) ↔ ∃ p, o' = some p ∧ P p := by
  have hforward : ∀ {o o' : Option Propagator},
      o.map Propagator.guise = o'.map Propagator.guise →
        (∃ p, o = some p ∧ P p) → ∃ p, o' = some p ∧ P p := by
    rintro o o' hguise ⟨p, rfl, hp⟩
    obtain ⟨q, hq, hsame⟩ := Option.map_eq_some_iff.mp hguise.symm
    exact ⟨q, hq, hcongr q p hsame.symm hp⟩
  exact ⟨hforward hguise, hforward hguise.symm⟩

theorem registers_of_guise {q : Propagator} {localId : Nat} {event : Event} {v : Variable}
    (hguise : q.guise = p.guise) (hregisters : q.Registers localId event v) :
    p.Registers localId event v := by
  unfold Propagator.Registers at hregisters
  rwa [Propagator.watches_eq_of_guise hguise] at hregisters

/-- The watch lists hold what the propagators in the slots registered. -/
theorem Filed.mem_watchers_iff (hfiled : s.Filed) (hattentive : s.Attentive) {event : Event}
    {v : Variable} {x : Watcher} :
    x ∈ s.watches.watchers event v ↔
      ∃ p, s.propagator? x.propagator = some p ∧ p.Registers x.localId event v := by
  constructor
  · intro hx
    obtain ⟨p, hp⟩ := Option.isSome_iff_exists.mp (hfiled.live event v x hx)
    refine ⟨p, hp, (exists_subscription_iff x.propagator).mp ?_⟩
    exact hattentive.told x.propagator p hp event v x hx rfl
  · rintro ⟨p, hp, hregisters⟩
    obtain ⟨sub, hsub, htarget, hevent, hwatcher⟩ :=
      (exists_subscription_iff x.propagator).mpr hregisters
    have hmem := hattentive.hears x.propagator p hp sub hsub event hevent
    rwa [htarget, hwatcher] at hmem

theorem consistent_of_performAll {acts : List Act}
    (hperform : performAll acts new = some s) : s.Consistent acts := by
  have hunfolds := unfolds_of_performAll sound_new hperform
  have htidy := hunfolds.tidy tidy_new
  have hfiled := hunfolds.filed (filed_of_no_slots rfl rfl rfl) tidy_new
  have hregistered := registered_new.performAll hperform
  have hguise := guise_eq_serving? hperform
  refine ⟨hguise, fun p rejection id r hadd => ?_, fun event v x => ?_, hfiled.distinct,
    htidy.sound.queue, fun id hid => ?_, hregistered.nodup, fun id => ?_,
    Store.isQuiet_iff.mp htidy.quiet⟩
  · obtain ⟨hserves, hempty⟩ := serves_performAll sound_new hperform
    have hkept : discarded acts new = false := by
      by_contra hdiscarded
      rw [Bool.not_eq_false] at hdiscarded
      exact (hempty hdiscarded).2 (failure_of_addPropagator hadd)
    rw [(serves_addPropagator htidy.sound hadd).1, (hserves hkept).size]
    simp [new]
  · rw [hfiled.mem_watchers_iff htidy.attentive]
    exact exists_iff_of_guise (hguise x.propagator) fun _ _ => registers_of_guise
  · have hlive := hfiled.waiting id hid
    rwa [← Option.isSome_map, hguise, Option.isSome_map] at hlive
  · rw [hregistered.mem_iff, notices?, Option.map_eq_some_iff]
    refine exists_iff_of_guise (hguise id) fun p q hsame hnotices => ?_
    rw [← hnotices, Propagator.notices_eq_of_guise hsame]

theorem Filed.absent (hfiled : s.Filed) (hregistered : s.Registered)
    (hgone : s.propagator? id = none) : s.Absent id where
  slot := hgone
  watchers := fun event v x hx heq => by
    have hlive := hfiled.live event v x hx
    simp [heq, hgone] at hlive
  queue := fun hid => by
    have hlive := hfiled.waiting id hid
    simp [hgone] at hlive
  noticed := fun hid => by
    have hlive := hregistered.live _ hid
    simp [notices?, hgone] at hlive

/-- Everywhere in a reachable space the same propagators are named, those that were added
and did not leave, and a number is never given twice. -/
theorem registry_consistent {acts later : List Act} (hperform : performAll acts new = some s)
    (hlater : performAll later s = some t) :
    s.Consistent acts ∧
      (∀ id, id < s.slots.size → s.propagator? id = none → t.Absent id) ∧
      (∀ id p, s.propagator? id = some p → discarded later s = false →
        id ∉ departures (history later s) →
          ∃ q, t.propagator? id = some q ∧ q.guise = p.guise) ∧
      (discarded later s = true → t.slots = #[]) := by
  have hunfolds := unfolds_of_performAll sound_new hperform
  have hsound := hunfolds.sound sound_new
  have hfiled := (hunfolds.trans (unfolds_of_performAll hsound hlater)).filed
    (filed_of_no_slots rfl rfl rfl) tidy_new
  have hregistered := (registered_new.performAll hperform).performAll hlater
  obtain ⟨hserves, hempty⟩ := serves_performAll hsound hlater
  refine ⟨consistent_of_performAll hperform, fun id hid hgone => ?_,
    fun id p hp hkept hstays => ?_, fun hdiscarded => (hempty hdiscarded).1⟩
  · apply hfiled.absent hregistered
    cases hdiscarded : discarded later s with
    | true => simp [propagator?, (hempty hdiscarded).1]
    | false =>
        have hnobody : s.enrolled? (arrivals later s) id = none := by
          rw [enrolled?, if_pos hid, hgone]
        have hguise := (hserves hdiscarded).guise id
        rw [hnobody, Option.map_none, ite_self, Option.map_eq_none_iff] at hguise
        exact hguise
  · have hstill : s.enrolled? (arrivals later s) id = some p := by
      rw [enrolled?, if_pos (lt_size_of_propagator? hp), hp]
    have hguise := (hserves hkept).guise id
    rwa [if_neg hstays, hstill, Option.map_some, Option.map_eq_some_iff] at hguise

/-- Looks at the first variable through its negation, and leaves at its first run. -/
def leaver : Scripted where
  name := "leaver"
  priority := .low
  notices := true
  watches := [⟨.int (.affine (.var 0) (-1) 0), .any, 0⟩]
  script := fun _ _ => { narrowings := [], verdict := .ended .subsumed }
  vetoes := fun _ _ _ _ => false
  runs := 0
  shared := []

/-- One propagator leaves and is nowhere any more, in the space and its copy; another one
keeps its number and stands where it registered. -/
theorem leaver_leaves :
    let acts := [.newInt 0 2, .newInt 0 2, .addPropagator (.scripted leaver) none,
      .addPropagator (.lessOrEqual (.var 0) (.var 1)) none, .propagate]
    let later := [.copy .sharing 0, .post false [.upper (.var 1) 1], .propagate]
    ∃ s t, performAll acts new = some s ∧ performAll later s = some t ∧
      departures (history acts new) = [0] ∧ s.watches.watchers .lowerBound (.int 0) = [⟨1, 0⟩] ∧
        s.Consistent acts ∧ t.Absent 0 ∧ (t.propagator? 1).isSome = true := by
  intro acts later
  have hacts : (performAll acts new).map (fun s => (s.slots.size, (s.propagator? 0).isNone,
      (s.propagator? 1).isSome, s.watches.watchers .lowerBound (.int 0))) =
        some (2, true, true, [⟨1, 0⟩]) := by
    decide +kernel
  have hlater : ((performAll acts new).bind fun s =>
      (performAll later s).map fun t => (discarded later s, departures (history later s))) =
        some (false, []) := by
    decide +kernel
  have hleft : departures (history acts new) = [0] := by decide +kernel
  obtain ⟨s, hperform, hs⟩ := Option.map_eq_some_iff.mp hacts
  simp only [hperform, Option.bind_some] at hlater
  obtain ⟨t, hperform', ht⟩ := Option.map_eq_some_iff.mp hlater
  simp only [Prod.mk.injEq, Option.isNone_iff_eq_none, Option.isSome_iff_exists] at hs ht
  obtain ⟨hsize, hgone, ⟨p, hp⟩, hwatchers⟩ := hs
  obtain ⟨hconsistent, habsent, hstays, -⟩ := registry_consistent hperform hperform'
  obtain ⟨q, hq, -⟩ := hstays 1 p hp ht.1 (by simp [ht.2])
  exact ⟨s, t, hperform, hperform', hleft, hwatchers, hconsistent,
    habsent 0 (by omega) hgone, by simp [hq]⟩

end Space

end ConstraintSpace
