import ConstraintSpace.Space.Modeling
import ConstraintSpace.Proofs.Propagator.Contract

/-!
# Who listens to what

A subscription puts a watcher on the list of every event it asks for, and an
unsubscription takes only the watchers of its own propagator away.  So a
propagator listens to all its watches from its registration on, whatever is
registered or subsumed beside it, and nobody is on the lists without a watch.
-/

namespace ConstraintSpace

theorem EventSet.isEmpty_eq_false {events : EventSet} {event : Event}
    (hevent : events.contains event = true) : events.isEmpty = false := by
  by_contra hempty
  have hnone : events = .empty := by simpa [isEmpty] using hempty
  simp [hnone] at hevent

/-- The propagator asked for the events of the variable. -/
def Propagator.Subscribes (p : Propagator) (raised : Event × Variable) : Prop :=
  ∃ watch ∈ p.watches, ∃ events, watch.view.watch watch.events = some (raised.2, events) ∧
    events.contains raised.1 = true

namespace Watchers

theorem mem_enlist {watcher x : Watcher} {wanted : Bool} {list : List Watcher} :
    x ∈ enlist watcher wanted list ↔ x ∈ list ∨ (wanted = true ∧ x = watcher) := by
  unfold enlist
  by_cases hmem : watcher ∈ list <;> cases wanted <;> simp [hmem]
  rintro rfl
  exact hmem

theorem mem_of_subscribe {w : Watchers} {events : EventSet} {watcher x : Watcher}
    {event : Event} :
    x ∈ (w.subscribe events watcher).of event ↔
      x ∈ w.of event ∨ (events.contains event = true ∧ x = watcher) := by
  cases event <;> exact mem_enlist

theorem mem_of_unsubscribe {w : Watchers} {id : Nat} {x : Watcher} {event : Event} :
    x ∈ (w.unsubscribe id).of event ↔ x ∈ w.of event ∧ x.propagator ≠ id := by
  cases event <;> simp [unsubscribe, of]

theorem nodup_enlist {watcher : Watcher} {wanted : Bool} {list : List Watcher}
    (hnodup : list.Nodup) : (enlist watcher wanted list).Nodup := by
  unfold enlist
  split
  next hnew =>
    have hfresh : watcher ∉ list := by simpa using (Bool.and_eq_true_iff.mp hnew).2
    simpa using hnodup.concat hfresh
  next => exact hnodup

theorem nodup_of_subscribe {w : Watchers} {event : Event} (hnodup : (w.of event).Nodup)
    (events : EventSet) (watcher : Watcher) :
    ((w.subscribe events watcher).of event).Nodup := by
  cases event <;> exact nodup_enlist hnodup

theorem nodup_of_unsubscribe {w : Watchers} {event : Event} (hnodup : (w.of event).Nodup)
    (id : Nat) : ((w.unsubscribe id).of event).Nodup := by
  cases event <;> exact hnodup.filter _

theorem getD_update (table : Array Watchers) (id other : Nat)
    (change : Watchers → Watchers) :
    (update table id change)[other]?.getD empty =
      if other = id then change (table[id]?.getD empty) else table[other]?.getD empty := by
  have hgrow : ∀ n : Nat,
      (if id < table.size then table
        else table ++ Array.replicate (id + 1 - table.size) empty)[n]?.getD empty =
      table[n]?.getD empty := by
    intro n
    split
    · rfl
    · rw [Array.getElem?_append]
      split
      · rfl
      next hlt =>
        rw [Array.getElem?_eq_none (not_lt.mp hlt), Array.getElem?_replicate]
        split <;> rfl
  have hsize : id < (if id < table.size then table
      else table ++ Array.replicate (id + 1 - table.size) empty).size := by
    split
    · assumption
    · simp
      omega
  unfold update
  simp only [Array.getElem?_modify]
  by_cases heq : id = other
  · subst heq
    rw [if_pos rfl, if_pos rfl, ← hgrow id, Array.getElem?_eq_getElem hsize]
    rfl
  · rw [if_neg heq, if_neg (Ne.symm heq), hgrow]

end Watchers

namespace WatchList

variable {w : WatchList} {v : Variable} {x : Watcher} {event : Event}

theorem of_update (w : WatchList) (target v : Variable)
    (change : Watchers → Watchers) :
    (w.update target change).of v =
      if v = target then change (w.of target) else w.of v := by
  cases target <;> cases v <;>
    simp only [update, of, Watchers.getD_update, Variable.int.injEq,
      Variable.float.injEq, Variable.set.injEq, reduceCtorEq, if_false]

theorem mem_watchers_subscribe {sub : Subscription} :
    x ∈ (w.subscribe sub).watchers event v ↔
      x ∈ w.watchers event v ∨
        (v = sub.target ∧ sub.events.contains event = true ∧ x = sub.watcher) := by
  unfold watchers subscribe
  rw [of_update]
  split
  next heq => simp [heq, Watchers.mem_of_subscribe]
  next hne => simp [hne]

theorem mem_watchers_foldl_subscribe {subs : List Subscription} :
    x ∈ (subs.foldl subscribe w).watchers event v ↔
      x ∈ w.watchers event v ∨
        ∃ sub ∈ subs, v = sub.target ∧ sub.events.contains event = true ∧
          x = sub.watcher := by
  induction subs generalizing w with
  | nil => simp
  | cons sub rest ih =>
      rw [List.foldl_cons, ih, mem_watchers_subscribe]
      simp only [List.mem_cons, exists_eq_or_imp]
      tauto

theorem mem_watchers_unsubscribe {id : Nat} {target : Variable}
    (hx : x.propagator ≠ id) :
    x ∈ (w.unsubscribe id target).watchers event v ↔ x ∈ w.watchers event v := by
  unfold watchers unsubscribe
  rw [of_update]
  split
  next heq => simp [heq, Watchers.mem_of_unsubscribe, hx]
  next => rfl

theorem mem_watchers_foldl_unsubscribe {id : Nat} {targets : List Variable}
    (hx : x.propagator ≠ id) :
    x ∈ (targets.foldl (·.unsubscribe id) w).watchers event v ↔
      x ∈ w.watchers event v := by
  induction targets generalizing w with
  | nil => rfl
  | cons target rest ih => rw [List.foldl_cons, ih, mem_watchers_unsubscribe hx]

/-- The watchers of the propagator itself go from the lists of the targets. -/
theorem mem_watchers_foldl_unsubscribe_self {targets : List Variable} :
    x ∈ (targets.foldl (·.unsubscribe x.propagator) w).watchers event v ↔
      v ∉ targets ∧ x ∈ w.watchers event v := by
  induction targets generalizing w with
  | nil => simp
  | cons target rest ih =>
      rw [List.foldl_cons, ih, List.mem_cons, not_or]
      unfold watchers unsubscribe
      rw [of_update]
      split
      next heq => simp [heq, Watchers.mem_of_unsubscribe]
      next hne => simp [hne]

/-- No watcher stands in a list twice. -/
def Distinct (w : WatchList) : Prop := ∀ event v, (w.watchers event v).Nodup

theorem Distinct.update (hdistinct : w.Distinct) {target : Variable}
    {change : Watchers → Watchers}
    (hchange : ∀ event, ((w.of target).of event).Nodup →
      ((change (w.of target)).of event).Nodup) : (w.update target change).Distinct := by
  intro event v
  unfold watchers
  rw [of_update]
  split
  · exact hchange event (hdistinct event target)
  · exact hdistinct event v

theorem Distinct.foldl_subscribe (hdistinct : w.Distinct) (subs : List Subscription) :
    (subs.foldl subscribe w).Distinct := by
  induction subs generalizing w with
  | nil => exact hdistinct
  | cons sub rest ih =>
      apply ih
      exact hdistinct.update fun _ hnodup => Watchers.nodup_of_subscribe hnodup _ _

theorem Distinct.foldl_unsubscribe (hdistinct : w.Distinct) (id : Nat)
    (targets : List Variable) : (targets.foldl (·.unsubscribe id) w).Distinct := by
  induction targets generalizing w with
  | nil => exact hdistinct
  | cons target rest ih =>
      apply ih
      exact hdistinct.update fun _ hnodup => Watchers.nodup_of_unsubscribe hnodup id

theorem mem_of_mem_foldl_unsubscribe {id : Nat} {targets : List Variable}
    (hx : x ∈ (targets.foldl (·.unsubscribe id) w).watchers event v) :
    x ∈ w.watchers event v := by
  induction targets generalizing w with
  | nil => exact hx
  | cons target rest ih =>
      have hfirst := ih hx
      unfold watchers unsubscribe at hfirst
      rw [of_update] at hfirst
      split at hfirst
      next heq =>
        rw [watchers, heq]
        exact (Watchers.mem_of_unsubscribe.mp hfirst).1
      next => exact hfirst

/-- Every watch of the propagator has its watcher on the lists. -/
def Hears (w : WatchList) (id : Nat) (p : Propagator) : Prop :=
  ∀ sub ∈ Space.subscriptions id p.watches, ∀ event,
    sub.events.contains event = true → sub.watcher ∈ w.watchers event sub.target

theorem hears_foldl_subscribe {id : Nat} {p : Propagator} :
    ((Space.subscriptions id p.watches).foldl subscribe w).Hears id p :=
  fun sub hsub _ hevent => mem_watchers_foldl_subscribe.mpr
    (Or.inr ⟨sub, hsub, rfl, hevent, rfl⟩)

theorem Hears.foldl_subscribe {id : Nat} {p : Propagator} (hhears : w.Hears id p)
    (subs : List Subscription) : (subs.foldl subscribe w).Hears id p :=
  fun sub hsub event hevent => mem_watchers_foldl_subscribe.mpr
    (Or.inl (hhears sub hsub event hevent))

theorem propagator_of_mem_subscriptions {id : Nat} {watches : List Watch}
    {sub : Subscription} (hsub : sub ∈ Space.subscriptions id watches) :
    sub.watcher.propagator = id := by
  obtain ⟨watch, _, hwatch⟩ := List.mem_filterMap.mp hsub
  split at hwatch
  · simp at hwatch
  · split at hwatch
    · simp at hwatch
    · simp only [Option.some.injEq] at hwatch
      rw [← hwatch]

theorem Hears.congr {id : Nat} {p q : Propagator} (hhears : w.Hears id p)
    (hwatches : q.watches = p.watches) : w.Hears id q := by
  unfold Hears
  rw [hwatches]
  exact hhears

/-- Every watcher of the propagator on the lists is there for one of its watches. -/
def Told (w : WatchList) (id : Nat) (p : Propagator) : Prop :=
  ∀ event v x, x ∈ w.watchers event v → x.propagator = id →
    ∃ sub ∈ Space.subscriptions id p.watches,
      sub.target = v ∧ sub.events.contains event = true ∧ sub.watcher = x

theorem Told.congr {id : Nat} {p q : Propagator} (htold : w.Told id p)
    (hwatches : q.watches = p.watches) : w.Told id q := by
  unfold Told
  rw [hwatches]
  exact htold

theorem Told.foldl_subscribe {id : Nat} {p : Propagator} (htold : w.Told id p)
    {subs : List Subscription} (hother : ∀ sub ∈ subs, sub.watcher.propagator ≠ id) :
    (subs.foldl subscribe w).Told id p := by
  intro event v x hx hid
  rcases mem_watchers_foldl_subscribe.mp hx with hold | ⟨sub, hsub, -, -, heq⟩
  · exact htold event v x hold hid
  · exact absurd (heq ▸ hid) (hother sub hsub)

theorem told_foldl_subscribe {id : Nat} {p : Propagator}
    (hnew : ∀ event v x, x ∈ w.watchers event v → x.propagator ≠ id) :
    ((Space.subscriptions id p.watches).foldl subscribe w).Told id p := by
  intro event v x hx hid
  rcases mem_watchers_foldl_subscribe.mp hx with hold | ⟨sub, hsub, htarget, hevent, heq⟩
  · exact absurd hid (hnew event v x hold)
  · exact ⟨sub, hsub, htarget.symm, hevent, heq.symm⟩

theorem Hears.foldl_unsubscribe {id other : Nat} {p : Propagator}
    (hhears : w.Hears id p) (hne : id ≠ other) (targets : List Variable) :
    (targets.foldl (·.unsubscribe other) w).Hears id p :=
  fun sub hsub event hevent => (mem_watchers_foldl_unsubscribe
    (by rwa [propagator_of_mem_subscriptions hsub])).mpr (hhears sub hsub event hevent)

/-- A watch that misses a change left a subscription with a pending event. -/
theorem exists_pending_of_not_silent {s s' : Store} (hnarrows : s.Narrows s')
    {watches : List Watch} {id : Nat} {watch : Watch} (hwatch : watch ∈ watches)
    (hloud : ¬watch.Silent s s') :
    ∃ sub ∈ Space.subscriptions id watches, ∃ event,
      sub.events.contains event = true ∧ (event, sub.target) ∈ s'.pending := by
  unfold Watch.Silent at hloud
  push Not at hloud
  obtain ⟨target, events, hview, event, hevent, hchanged⟩ := hloud
  refine ⟨⟨target, events, ⟨id, watch.localId⟩⟩, ?_, event, hevent,
    hnarrows.mem_pending (by simpa using hchanged)⟩
  refine List.mem_filterMap.mpr ⟨watch, hwatch, ?_⟩
  simp [hview, EventSet.isEmpty_eq_false hevent]

/-- What a propagator asked for is on its list of subscriptions. -/
theorem exists_subscription {p : Propagator} {raised : Event × Variable}
    (hsubscribes : p.Subscribes raised) (id : Nat) :
    ∃ sub ∈ Space.subscriptions id p.watches, sub.target = raised.2 ∧
      sub.events.contains raised.1 = true := by
  obtain ⟨watch, hwatch, events, hview, hevent⟩ := hsubscribes
  refine ⟨⟨raised.2, events, ⟨id, watch.localId⟩⟩, ?_, rfl, hevent⟩
  refine List.mem_filterMap.mpr ⟨watch, hwatch, ?_⟩
  simp [hview, EventSet.isEmpty_eq_false hevent]

end WatchList

end ConstraintSpace
