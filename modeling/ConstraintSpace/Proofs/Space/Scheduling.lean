import ConstraintSpace.Proofs.Space.Listening
import ConstraintSpace.Proofs.Waiting

/-!
# Passing events on

Passing the pending events on leaves none pending and queues the propagators
that watch them; nothing else about the space changes but its journal.  A
propagator of the library never vetoes a notification, so it waits afterwards
whenever it listened to an event that was pending.
-/

namespace ConstraintSpace

/-- The propagator accepts every notification. -/
def Propagator.Obedient (p : Propagator) : Prop :=
  ∀ s localId event, p.notify s localId event = .ok (true, [])

theorem Propagator.Fit.obedient {p : Propagator} {s : Store} (hfit : p.Fit s) :
    p.Obedient := by
  cases p with
  | notEqual a b => exact fun _ _ _ => rfl
  | lessOrEqual a b => exact fun _ _ _ => rfl
  | subset a b _ => exact fun _ _ _ => rfl
  | floatLessOrEqual a b => exact hfit.elim
  | scripted _ => exact hfit.elim

/-- The propagator never vetoes a notification, as is the default. -/
def Propagator.Heedful : Propagator → Prop
  | scripted p => ∀ runs s localId event, p.vetoes runs s localId event = false
  | _ => True

theorem Propagator.Fit.heedful {p : Propagator} {s : Store} (hfit : p.Fit s) :
    p.Heedful := by
  cases p with
  | scripted _ => exact hfit.elim
  | _ => trivial

theorem Propagator.Heedful.of_core {p q : Propagator} (hp : p.Heedful)
    (hcore : q.core = p.core) : q.Heedful := by
  cases p <;> cases q <;> simp_all [core, Heedful]

theorem Propagator.Heedful.wanted {p : Propagator} (hheedful : p.Heedful) {s : Store}
    {localId : Nat} {event : Event} {wanted : Bool} {notes : List Happening}
    (hnotify : p.notify s localId event = .ok (wanted, notes)) : wanted = true := by
  cases p with
  | scripted script =>
      simp only [notify, Scripted.notify] at hnotify
      split at hnotify
      · simp at hnotify
      split at hnotify
      · simp at hnotify
      split at hnotify
      · simp only [Except.ok.injEq, Prod.mk.injEq] at hnotify
        rw [← hnotify.1, hheedful, Bool.not_false]
      · simp at hnotify
  | _ =>
      simp only [notify, Except.ok.injEq, Prod.mk.injEq] at hnotify
      exact hnotify.1.symm

namespace Store

/-! ## Silence -/

variable {s : Store}

theorem eventsTo_silence (hvalid : s.Valid) (v : Variable) :
    s.eventsTo s.silence v = .empty := by
  cases v with
  | int id => exact IntDomain.eventsTo_self _
  | float id => exact (hvalid.float id).eventsTo_self
  | set id => exact SetDomain.eventsTo_self _

theorem Valid.silence (hvalid : s.Valid) : s.silence.Valid :=
  ⟨hvalid.int, hvalid.limits, hvalid.float, hvalid.set⟩

theorem refines_silence (s : Store) : s.Refines s.silence :=
  ⟨le_refl _, le_refl _, fun _ _ _ hx => hx, fun _ _ => SetDomain.Shrinks.refl _⟩

theorem admits_silence {a : Assignment} : s.silence.Admits a ↔ s.Admits a :=
  ⟨fun ha => ⟨ha.int, ha.set⟩, fun ha => ⟨ha.int, ha.set⟩⟩

theorem isQuiet_iff : s.isQuiet = true ↔ s.pending = #[] := by
  simp [isQuiet]

theorem silence_eq_of_isQuiet (hquiet : s.isQuiet = true) : s.silence = s := by
  have hnone := isQuiet_iff.mp hquiet
  cases s
  simp_all [silence]

end Store

theorem Propagator.Settled.silence {p : Propagator} {s : Store}
    (hsettled : p.Settled s) (hfit : p.Fit s) (hvalid : s.Valid) :
    p.Settled s.silence :=
  hsettled.of_silent hfit hvalid hvalid.silence s.refines_silence
    fun w _ v events _ event _ => by
      rw [Store.eventsTo_silence hvalid]
      cases event <;> rfl

namespace Space

variable {s s' : Space}

/-! ## Spaces in order -/

/-- The store and the queue are in order, and only registered propagators wait. -/
structure Sound (s : Space) : Prop where
  store : s.store.Valid
  queue : s.queue.Valid
  waiting : ∀ id ∈ s.queue.ids, id < s.slots.size

theorem lt_size_of_propagator? {id : Nat} {p : Propagator}
    (hp : s.propagator? id = some p) : id < s.slots.size := by
  unfold propagator? at hp
  split at hp
  next slot hslot =>
    by_contra hge
    rw [Array.getElem?_eq_none (not_lt.mp hge)] at hslot
    simp at hslot
  next => simp at hp

theorem Sound.count_le (hsound : s.Sound) : s.queue.count ≤ s.slots.size := by
  rw [hsound.queue.count_eq]
  have hsub := hsound.queue.nodup.subperm
    (fun id hid => List.mem_range.mpr (hsound.waiting id hid))
  simpa using hsub.length_le

/-! ## Notifications -/

/-- The queue after some notifications: who waited still waits, who waits anew
is registered, and heedful propagators that were notified wait. -/
structure Queued (s : Space) (ns : List (Event × Watcher)) (q : Queue) : Prop where
  valid : s.queue.Valid → q.Valid
  old : s.queue.Valid → ∀ id ∈ s.queue.ids, id ∈ q.ids
  new : s.queue.Valid → ∀ id ∈ q.ids,
    id ∈ s.queue.ids ∨ ∃ p, s.propagator? id = some p
  told : s.queue.Valid → ∀ n ∈ ns, ∀ p,
    s.propagator? n.2.propagator = some p → p.Heedful → n.2.propagator ∈ q.ids
  idle : ns = [] → q = s.queue

theorem notify_cases (event : Event) (watcher : Watcher) (s : Space) :
    (∃ breach, notify event watcher s = .error (.breached breach) s ∧
        ∃ p, s.propagator? watcher.propagator = some p ∧
          p.notify s.store watcher.localId event = .error breach) ∨
      ∃ q journal,
        notify event watcher s = .ok () { s with queue := q, journal := journal } ∧
          s.Queued [(event, watcher)] q := by
  have hsame : Queued s [(event, watcher)] s.queue ∨
      ∃ p, s.propagator? watcher.propagator = some p := by
    cases hp : s.propagator? watcher.propagator with
    | some p => exact Or.inr ⟨p, rfl⟩
    | none =>
        exact Or.inl ⟨fun h => h, fun _ _ h => h, fun _ _ h => Or.inl h,
          fun _ n hn p hp' => by simp_all, fun h => by simp at h⟩
  cases hp : s.propagator? watcher.propagator with
  | none =>
      rcases hsame with hsame | ⟨p, hp'⟩
      · exact Or.inr ⟨s.queue, s.journal, by simp only [notify, hp], hsame⟩
      · simp [hp] at hp'
  | some p =>
      cases hnotify : p.notify s.store watcher.localId event with
      | error breach =>
          exact Or.inl ⟨breach, by simp only [notify, hp, hnotify], p, rfl, hnotify⟩
      | ok result =>
          obtain ⟨wanted, notes⟩ := result
          cases wanted with
          | false =>
              refine Or.inr ⟨s.queue, _, by simp only [notify, hp, hnotify]; rfl,
                fun h => h, fun _ _ h => h, fun _ _ h => Or.inl h,
                fun _ n hn p' hp' hheedful => ?_, fun h => by simp at h⟩
              rw [List.mem_singleton.mp hn, hp] at hp'
              obtain rfl := Option.some.inj hp'
              exact absurd (hheedful.wanted hnotify) (by simp)
          | true =>
              have hmem := fun hvalid : s.queue.Valid =>
                (hvalid.enqueue watcher.propagator p.priority).2
              refine Or.inr ⟨s.queue.enqueue watcher.propagator p.priority, _,
                by simp only [notify, hp, hnotify]; rfl,
                fun hvalid => (hvalid.enqueue _ _).1,
                fun hvalid id hid => (hmem hvalid id).mpr (Or.inr hid),
                fun hvalid id hid => ?_, fun hvalid n hn _ _ _ => ?_,
                fun h => by simp at h⟩
              · rcases (hmem hvalid id).mp hid with rfl | hold
                · exact Or.inr ⟨p, hp⟩
                · exact Or.inl hold
              · rw [List.mem_singleton.mp hn]
                exact (hmem hvalid _).mpr (Or.inl rfl)

theorem notifyAll_cases (ns : List (Event × Watcher)) (s : Space) :
    (∃ breach s', notifyAll ns s = .error (.breached breach) s' ∧
        ∃ n ∈ ns, ∃ p, s.propagator? n.2.propagator = some p ∧
          p.notify s.store n.2.localId n.1 = .error breach) ∨
      ∃ q journal,
        notifyAll ns s = .ok () { s with queue := q, journal := journal } ∧
          s.Queued ns q := by
  induction ns generalizing s with
  | nil =>
      exact Or.inr ⟨s.queue, s.journal, rfl, fun h => h, fun _ _ h => h,
        fun _ _ h => Or.inl h, fun _ n hn => by simp at hn, fun _ => rfl⟩
  | cons n rest ih =>
      obtain ⟨event, watcher⟩ := n
      rcases notify_cases event watcher s with
        ⟨breach, hrun, p, hp, hbad⟩ | ⟨q₁, journal₁, hrun, hq₁⟩
      · exact Or.inl ⟨breach, s, by simp only [notifyAll, bind, EStateM.bind, hrun],
          (event, watcher), List.mem_cons_self, p, hp, hbad⟩
      · have hstep : notifyAll ((event, watcher) :: rest) s =
            notifyAll rest { s with queue := q₁, journal := journal₁ } := by
          simp only [notifyAll, bind, EStateM.bind, hrun]
        rw [hstep]
        rcases ih { s with queue := q₁, journal := journal₁ } with
          ⟨breach, s', hrun', n, hn, hbad⟩ | ⟨q₂, journal₂, hrun', hq₂⟩
        · exact Or.inl ⟨breach, s', hrun', n, List.mem_cons_of_mem _ hn, hbad⟩
        · refine Or.inr ⟨q₂, journal₂, hrun', fun hvalid => hq₂.valid (hq₁.valid hvalid),
            fun hvalid id hid => hq₂.old (hq₁.valid hvalid) id (hq₁.old hvalid id hid),
            fun hvalid id hid => ?_, fun hvalid n hn p hp hheedful => ?_,
            fun h => by simp at h⟩
          · rcases hq₂.new (hq₁.valid hvalid) id hid with hold | hnew
            · exact hq₁.new hvalid id hold
            · exact Or.inr hnew
          · rcases List.mem_cons.mp hn with rfl | hn
            · exact hq₂.old (hq₁.valid hvalid) _
                (hq₁.told hvalid _ (List.mem_singleton_self _) p hp hheedful)
            · exact hq₂.told (hq₁.valid hvalid) n hn p hp hheedful

/-- Scheduling silences the store and changes the queue and the journal. -/
theorem schedule_cases (skip : Option Nat) (s : Space) :
    (∃ breach s', schedule skip s = .error (.breached breach) s' ∧
        ∃ n ∈ s.notifications skip, ∃ p, s.propagator? n.2.propagator = some p ∧
          p.notify s.store.silence n.2.localId n.1 = .error breach) ∨
      ∃ q journal,
        schedule skip s = .ok ()
          { s with store := s.store.silence, queue := q, journal := journal } ∧
        s.Queued (s.notifications skip) q := by
  rcases notifyAll_cases (s.notifications skip) { s with store := s.store.silence } with
    ⟨breach, s', hrun, hbad⟩ | ⟨q, journal, hrun, hqueued⟩
  · exact Or.inl ⟨breach, s', hrun, hbad⟩
  · exact Or.inr ⟨q, journal, hrun, hqueued.valid, hqueued.old, hqueued.new,
      hqueued.told, hqueued.idle⟩

theorem mem_notifications {skip : Option Nat} {n : Event × Watcher} :
    n ∈ s.notifications skip ↔ ∃ v, (n.1, v) ∈ s.store.pending ∧
      n.2 ∈ s.watches.watchers n.1 v ∧ some n.2.propagator ≠ skip := by
  obtain ⟨event, watcher⟩ := n
  simp only [notifications, List.mem_flatMap, List.mem_map, List.mem_filter,
    Array.mem_toList_iff, Prod.exists, Prod.mk.injEq, decide_eq_true_eq]
  constructor
  · rintro ⟨event', v, hpending, watcher', ⟨hwatch, hskip⟩, rfl, rfl⟩
    exact ⟨v, hpending, hwatch, hskip⟩
  · rintro ⟨v, hpending, hwatch, hskip⟩
    exact ⟨event, v, hpending, watcher, ⟨hwatch, hskip⟩, rfl, rfl⟩

theorem notifications_of_isQuiet {skip : Option Nat} (hquiet : s.store.isQuiet = true) :
    s.notifications skip = [] := by
  rw [List.eq_nil_iff_forall_not_mem]
  intro n hn
  obtain ⟨v, hpending, _⟩ := mem_notifications.mp hn
  rw [Store.isQuiet_iff.mp hquiet] at hpending
  simp at hpending

theorem schedule_of_isQuiet {skip : Option Nat} (hquiet : s.store.isQuiet = true) :
    schedule skip s = .ok () s := by
  unfold schedule
  rw [notifications_of_isQuiet hquiet, Store.silence_eq_of_isQuiet hquiet]
  rfl

end Space

end ConstraintSpace
