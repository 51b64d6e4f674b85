import ConstraintSpace.Proofs.Space.Attention

/-!
# Propagation terminates

The loop of propagation has no bound of its own: waiting propagators take their
turns until nobody waits, and each may narrow what it likes, end as it likes and
veto what it likes.  A turn that narrows lowers the measure of the store, and a turn
that does not leaves fewer propagators waiting.  So the loop ends after no more turns
than the bound computed from both, with nobody waiting, as long as no propagator
breaches a precondition.
-/

namespace ConstraintSpace

theorem IntView.unpack_isSome_of_watch {v : IntView} {events events' : EventSet} {id : Nat}
    (hwatch : v.watch events = some (id, events')) (event : Event) :
    (v.unpack event).isSome = true := by
  induction v generalizing events with
  | var _ => rfl
  | const _ => simp [watch] at hwatch
  | affine inner scale offset ih =>
      simp only [watch] at hwatch
      simp only [unpack]
      split
      · rw [Option.isSome_map]
        exact ih hwatch
      · exact ih hwatch
  | literal image ih => exact ih hwatch

namespace Propagator

variable {p q : Propagator} {s s' : Store}

/-! ## Orderly propagators -/

/-- What the propagator becomes by running, on whatever stores. -/
inductive Becomes (p : Propagator) : Propagator → Prop where
  | refl : Becomes p p
  | run {q : Propagator} (s : Store) (hbecomes : Becomes p q) : Becomes p (q.run s).propagator

theorem Becomes.head {s₀ : Store} (hbecomes : (p.run s₀).propagator.Becomes q) :
    p.Becomes q := by
  induction hbecomes with
  | refl => exact .run s₀ .refl
  | run s _ ih => exact .run s ih

theorem Becomes.guise_eq (hbecomes : p.Becomes q) : q.guise = p.guise := by
  induction hbecomes with
  | refl => rfl
  | @run q s _ ih => exact (q.guise_run s).trans ih

/-- However often it runs, and however the store is narrowed meanwhile, the
propagator breaches no precondition in a run or when it is notified. -/
structure Orderly (s : Store) (p : Propagator) : Prop where
  run : ∀ q s', p.Becomes q → s.Refines s' → s'.Valid →
    ∀ breach, (q.run s').verdict ≠ .breached breach
  notify : ∀ q s', p.Becomes q → s.Refines s' → s'.Valid →
    ∀ watch ∈ p.watches, ∀ v events event, watch.view.watch watch.events = some (v, events) →
      events.contains event = true → ∀ breach, q.notify s' watch.localId event ≠ .error breach

theorem Orderly.refines (horderly : p.Orderly s) (hrefines : s.Refines s') : p.Orderly s' where
  run := fun q t hbecomes hnext hvalid => horderly.run q t hbecomes (hrefines.trans hnext) hvalid
  notify := fun q t hbecomes hnext hvalid =>
    horderly.notify q t hbecomes (hrefines.trans hnext) hvalid

theorem Orderly.after_run (horderly : p.Orderly s) (s₀ : Store) :
    (p.run s₀).propagator.Orderly s where
  run := fun q t hbecomes => horderly.run q t hbecomes.head
  notify := fun q t hbecomes hnext hvalid watch hwatch => by
    rw [watches_eq_of_guise (p.guise_run s₀)] at hwatch
    exact horderly.notify q t hbecomes.head hnext hvalid watch hwatch

/-- The propagators of the library are orderly over what they fit. -/
theorem Fit.orderly (hfit : p.Fit s) : p.Orderly s := by
  have hsame : ∀ q s', p.Becomes q → s.Refines s' → q.Fit s' := by
    intro q s' hbecomes hrefines
    rw [← q.fit_core, hfit.core_eq_of_guise hbecomes.guise_eq, p.fit_core]
    exact hfit.refines hrefines
  constructor
  · intro q s' hbecomes hrefines hvalid breach
    exact (q.run_outcome (hsame q s' hbecomes hrefines) hvalid).ne_breached breach
  · intro q s' hbecomes hrefines _ watch _ _ _ event _ _ breach
    simp [(hsame q s' hbecomes hrefines).obedient s' watch.localId event]

end Propagator

/-! ## Orderly scripts -/

namespace Narrowing

variable {s : Store}

/-- The narrowing is one of an integer view that fits, by a 32-bit bound, or of a set
variable. -/
def Fit (s : Store) : Narrowing → Prop
  | lower view bound | upper view bound => view.Fit s ∧ Fits32 bound
  | remove view _ | fix view _ => view.Fit s
  | require id _ | forbid id _ | cardLower id _ | cardUpper id _ => id < s.sets.size
  | floatLower _ _ | floatUpper _ _ | floatFix _ _ => False

theorem Fit.refines {s' : Store} {narrowing : Narrowing} (hfit : narrowing.Fit s)
    (hrefines : s.Refines s') : narrowing.Fit s' := by
  cases narrowing <;>
    first
      | exact IntView.Fit.refines hfit hrefines
      | exact hfit.imp_left (IntView.Fit.refines · hrefines)
      | exact Nat.lt_of_lt_of_le hfit hrefines.sets_size
      | exact hfit

theorem ne_breached_of_keepsExactly {α : Type} {m : Narrow α} {keep : Assignment → Prop}
    (hkeeps : Store.KeepsExactly m keep s) (breach : Breach) (s' : Store) :
    m s ≠ .error (.breached breach) s' := by
  rcases hkeeps with ⟨hrun, _⟩ | ⟨x, t, hrun, _⟩ <;> simp [hrun]

theorem narrowSet_ne_breached {id : Nat} {op : SetDomain → Option (SetDomain × EventSet)}
    (hid : id < s.sets.size) (breach : Breach) (s' : Store) :
    Store.narrowSet id op s ≠ .error (.breached breach) s' := by
  unfold Store.narrowSet
  rw [Array.getElem?_eq_getElem hid]
  simp only
  split <;> simp

theorem Fit.ne_breached {narrowing : Narrowing} (hfit : narrowing.Fit s) (hvalid : s.Valid)
    (breach : Breach) (s' : Store) : narrowing.apply s ≠ .error (.breached breach) s' := by
  cases narrowing with
  | lower view value =>
      obtain ⟨hview, hbound⟩ := hfit
      exact ne_breached_of_keepsExactly (hview.setLower_keeps hvalid hbound) breach s'
  | upper view value =>
      obtain ⟨hview, hbound⟩ := hfit
      exact ne_breached_of_keepsExactly (hview.setUpper_keeps hvalid hbound) breach s'
  | remove view value =>
      exact ne_breached_of_keepsExactly (IntView.Fit.remove_keeps hfit hvalid value) breach s'
  | fix view value =>
      exact ne_breached_of_keepsExactly (IntView.Fit.fix_keeps hfit hvalid value) breach s'
  | floatLower _ _ | floatUpper _ _ | floatFix _ _ => exact hfit.elim
  | require id element | forbid id element | cardLower id count | cardUpper id count =>
      exact narrowSet_ne_breached hfit breach s'

end Narrowing

namespace Scripted

variable {script : Scripted} {s s' : Store}

/-- The script narrows views that fit and set variables only, never says that it
breached a precondition, and numbers its watches by their positions. -/
structure Fit (s : Store) (script : Scripted) : Prop where
  narrowings : ∀ runs s', s.Refines s' → s'.Valid →
    ∀ narrowing ∈ (script.script runs s').narrowings, narrowing.Fit s
  verdict : ∀ runs s' breach, (script.script runs s').verdict ≠ .breached breach
  positions : ∀ watch ∈ script.watches, script.watches[watch.localId]? = some watch
  watched : ∀ watch ∈ script.watches,
    (∃ view, watch.view = .int view ∧ view.known s = true) ∨
      ∃ id, watch.view = .set id ∧ id < s.sets.size

theorem perform_ne_breached (name : String) (narrowings : List Narrowing) (hvalid : s.Valid)
    (hfit : ∀ narrowing ∈ narrowings, narrowing.Fit s) (breach : Breach) :
    (perform name narrowings s).1 ≠ .error (.breached breach) := by
  induction narrowings generalizing s with
  | nil => simp [perform]
  | cons narrowing rest ih =>
      cases hrun : narrowing.apply s with
      | ok change t =>
          obtain ⟨hvalid', hnarrows⟩ := narrowing.safe_apply.of_ok hvalid hrun
          simp only [perform, hrun]
          apply ih hvalid'
          intro later hlater
          exact (hfit later (List.mem_cons_of_mem _ hlater)).refines hnarrows.refines
      | error misstep t =>
          simp only [perform, hrun, ne_eq, Except.error.injEq]
          rintro rfl
          exact (hfit narrowing List.mem_cons_self).ne_breached hvalid breach t hrun

theorem Fit.run_ne_breached (hfit : script.Fit s) (hrefines : s.Refines s') (hvalid : s'.Valid)
    (runs : Nat) (breach : Breach) :
    (Propagator.run (.scripted { script with runs }) s').verdict ≠ .breached breach := by
  have hperform := perform_ne_breached script.name (script.script runs s').narrowings hvalid
    (fun narrowing hnarrowing =>
      (hfit.narrowings runs s' hrefines hvalid narrowing hnarrowing).refines hrefines)
  simp only [Propagator.run, propagate]
  split
  · exact hfit.verdict runs s' breach
  next misstep herror =>
    cases misstep with
    | emptied => simp [Misstep.verdict]
    | breached other => exact absurd herror (hperform other)

theorem Fit.notify_ne_error (hfit : script.Fit s) (hrefines : s.Refines s') (runs : Nat)
    {watch : Watch} (hwatch : watch ∈ script.watches) {v : Variable} {events : EventSet}
    (hview : watch.view.watch watch.events = some (v, events)) (event : Event)
    (breach : Breach) :
    notify { script with runs } s' watch.localId event ≠ .error breach := by
  unfold notify
  simp only [hfit.positions watch hwatch]
  rcases hfit.watched watch hwatch with ⟨view, hint, hknown⟩ | ⟨id, hset, hid⟩
  · rw [hint] at hview ⊢
    simp only [AnyView.watch, Option.map_eq_some_iff] at hview
    obtain ⟨⟨id, events'⟩, hview, -⟩ := hview
    obtain ⟨seen, hseen⟩ := Option.isSome_iff_exists.mp
      (IntView.unpack_isSome_of_watch hview event)
    simp [AnyView.unpack, AnyView.known, hseen, IntView.known_refines hrefines hknown]
  · rw [hset]
    have hid' : id < s'.sets.size := hid.trans_le hrefines.sets_size
    simp [AnyView.unpack, AnyView.known, Store.knows, hid']

/-- Whatever such a script does, it is orderly. -/
theorem Fit.orderly (hfit : script.Fit s) : Propagator.Orderly s (.scripted script) := by
  have hbecomes : ∀ q, Propagator.Becomes (.scripted script) q →
      ∃ runs, q = .scripted { script with runs } := by
    intro q hq
    induction hq with
    | refl => exact ⟨script.runs, rfl⟩
    | run t _ ih =>
        obtain ⟨runs, rfl⟩ := ih
        exact ⟨runs + 1, rfl⟩
  constructor
  · intro q s' hq hrefines hvalid breach
    obtain ⟨runs, rfl⟩ := hbecomes q hq
    exact hfit.run_ne_breached hrefines hvalid runs breach
  · intro q s' hq hrefines _ watch hwatch v events event hview _ breach
    obtain ⟨runs, rfl⟩ := hbecomes q hq
    exact hfit.notify_ne_error hrefines runs hwatch hview event breach

end Scripted

namespace Space

variable {s s' : Space} {n id : Nat} {p : Propagator}
  {result : EStateM.Result Fault Space Unit}

/-! ## Every turn gives a result -/

/-- All live propagators are orderly. -/
def Orderly (s : Space) : Prop := ∀ j p, s.propagator? j = some p → p.Orderly s.store

theorem Orderly.of_refines (horderly : s.Orderly) (hrefines : s.store.Refines s'.store)
    (hpropagator : ∀ j p, s'.propagator? j = some p → ∃ q, s.propagator? j = some q ∧
      (p = q ∨ ∃ s₀, p = (q.run s₀).propagator)) : s'.Orderly := by
  intro j p hp
  obtain ⟨q, hq, rfl | ⟨s₀, rfl⟩⟩ := hpropagator j p hp
  · exact (horderly j _ hq).refines hrefines
  · exact ((horderly j q hq).after_run s₀).refines hrefines

theorem Orderly.of_slots (horderly : s.Orderly) (hrefines : s.store.Refines s'.store)
    (hslots : s'.slots = s.slots) : s'.Orderly := by
  refine horderly.of_refines hrefines fun j p hp => ⟨p, ?_, Or.inl rfl⟩
  simpa only [propagator?, hslots] using hp

theorem exists_watch_of_mem_subscriptions {watches : List Watch} {sub : Subscription}
    (hsub : sub ∈ subscriptions id watches) :
    ∃ watch ∈ watches, watch.view.watch watch.events = some (sub.target, sub.events) ∧
      sub.watcher.localId = watch.localId := by
  obtain ⟨watch, hwatch, hsome⟩ := List.mem_filterMap.mp hsub
  refine ⟨watch, hwatch, ?_⟩
  split at hsome
  · simp at hsome
  next hview =>
    split at hsome
    · simp at hsome
    · simp only [Option.some.injEq] at hsome
      subst hsome
      exact ⟨hview, rfl⟩

theorem Orderly.schedule (horderly : s.Orderly) (hsound : s.Sound) (hattentive : s.Attentive)
    (skip : Option Nat) : ∃ s', Space.schedule skip s = .ok () s' ∧ s'.Orderly := by
  rcases schedule_cases skip s with
    ⟨breach, s', -, n, hn, p, hp, hbad⟩ | ⟨rest, journal, hrun, -⟩
  · obtain ⟨v, -, hwatcher, -⟩ := mem_notifications.mp hn
    obtain ⟨sub, hsub, htarget, hevent, hname⟩ :=
      hattentive.told _ p hp n.1 v n.2 hwatcher rfl
    obtain ⟨watch, hwatch, hview, hlocal⟩ := exists_watch_of_mem_subscriptions hsub
    rw [← hname, hlocal] at hbad
    exact absurd hbad ((horderly _ p hp).notify p _ .refl s.store.refines_silence
      hsound.store.silence watch hwatch _ _ n.1 hview hevent breach)
  · obtain ⟨-, hstore, hslots, -⟩ := hsound.schedule hrun
    exact ⟨_, hrun, horderly.of_slots (hstore ▸ s.store.refines_silence) hslots⟩

theorem Orderly.afterRun (horderly : s.Orderly) (hsound : s.Sound)
    (hp : s.propagator? id = some p) : (s.afterRun id p).Orderly := by
  apply horderly.of_refines (Frame.afterRun hsound id p).refines
  intro j q hq
  rw [propagator?_afterRun (lt_size_of_propagator? hp)] at hq
  split at hq
  next heq =>
    obtain rfl := Option.some.inj hq
    exact ⟨p, heq ▸ hp, Or.inr ⟨s.store, rfl⟩⟩
  next => exact ⟨q, hq, Or.inl rfl⟩

theorem Orderly.of_subsumed (horderly : s.Orderly) (hsubsumed : s.Subsumed id s') :
    s'.Orderly := by
  apply horderly.of_refines (Frame.of_subsumed hsubsumed).refines
  intro j q hq
  rw [hsubsumed.propagator?] at hq
  split at hq
  · simp at hq
  · exact ⟨q, hq, Or.inl rfl⟩

theorem Orderly.failWith (horderly : s.Orderly) (reason : Inconsistency) :
    (s.failWith reason).Orderly :=
  horderly.of_slots (Frame.failWith reason s).refines (slots_failWith reason s)

theorem Orderly.runOne (horderly : s.Orderly) (hsound : s.Sound) (hattentive : s.Attentive)
    (id : Nat) : ∃ s', Space.runOne id s = .ok () s' ∧ s'.Orderly := by
  cases hp : s.propagator? id with
  | none => exact ⟨s, runOne_of_gone hp, horderly⟩
  | some p =>
      have hafter := horderly.afterRun hsound hp
      have hsound' := hsound.afterRun id p
      have hattentive' := hattentive.afterRun hp
      have hsubsumed := subsume_subsumed (propagator?_afterRun_self hp)
      rw [runOne_eq hp]
      split
      · exact hafter.schedule hsound' hattentive' (some id)
      · exact hafter.schedule hsound' hattentive' none
      · exact (hafter.of_subsumed hsubsumed).schedule (hsound'.of_subsumed hsubsumed)
          (hattentive'.of_subsumed hsubsumed) none
      next reason _ => exact ⟨_, rfl, hafter.failWith reason⟩
      next breach hverdict =>
        exact absurd hverdict
          ((horderly id p hp).run p s.store .refl (.refl _) hsound.store breach)

theorem Tidy.isEmpty_of_pop?_eq_none (htidy : s.Tidy) (hpop : s.queue.pop? = none) :
    s.queue.isEmpty = true := by
  have hnil := Queue.ids_eq_nil_of_pop?_eq_none htidy.sound.queue hpop
  simp [Queue.isEmpty, htidy.sound.queue.count_eq, hnil]

/-! ## The loop -/

/-- The loop of propagation: the waiting propagators take their turns until nobody
waits, or one breaches a precondition.  The number counts the turns. -/
inductive Loop : Nat → Space → EStateM.Result Fault Space Unit → Prop where
  | done {s : Space} (hpop : s.queue.pop? = none) : Loop 0 s (.ok () s)
  | stop {id : Nat} {rest : Queue} {s t : Space} {fault : Fault}
      (hpop : s.queue.pop? = some (id, rest))
      (hrun : runOne id { s with queue := rest } = .error fault t) :
      Loop 1 s (.error fault t)
  | turn {n id : Nat} {rest : Queue} {s t : Space} {result : EStateM.Result Fault Space Unit}
      (hpop : s.queue.pop? = some (id, rest))
      (hrun : runOne id { s with queue := rest } = .ok () t) (hloop : Loop n t result) :
      Loop (n + 1) s result

/-- The bound of the computed loop does not matter as long as it is no less than the
number of turns. -/
theorem Loop.runQueue_eq (hloop : Loop n s result) {fuel : Nat} (hfuel : n ≤ fuel) :
    runQueue fuel s = result := by
  induction hloop generalizing fuel with
  | done hpop => exact runQueue_of_pop?_eq_none hpop fuel
  | stop hpop hrun =>
      obtain ⟨fuel, rfl⟩ := Nat.exists_eq_add_of_le' hfuel
      rw [runQueue_succ hpop, hrun]
  | turn hpop hrun _ ih =>
      obtain ⟨fuel, rfl⟩ := Nat.exists_eq_add_of_le' (Nat.one_le_of_lt hfuel)
      rw [runQueue_succ hpop, hrun]
      exact ih (Nat.le_of_succ_le_succ hfuel)

/-- The loop ends after at most as many turns as the space computes. -/
theorem Tidy.exists_loop (htidy : s.Tidy) : ∃ n result, n ≤ s.enoughRuns ∧ Loop n s result := by
  induction hbound : s.enoughRuns using Nat.strong_induction_on generalizing s with
  | _ bound ih =>
      cases hpop : s.queue.pop? with
      | none => exact ⟨0, _, Nat.zero_le _, .done hpop⟩
      | some popped =>
          obtain ⟨id, rest⟩ := popped
          cases hrun : runOne id { s with queue := rest } with
          | error fault t =>
              obtain ⟨-, -, hcount⟩ := htidy.sound.queue.pop? hpop
              exact ⟨1, _, by unfold enoughRuns at hbound; omega, .stop hpop hrun⟩
          | ok _ t =>
              have hless : t.enoughRuns < bound :=
                hbound ▸ htidy.sound.enoughRuns_lt htidy.quiet hpop hrun
              obtain ⟨n, result, hle, hloop⟩ := ih _ hless (htidy.turn hpop hrun) rfl
              exact ⟨n + 1, result, Nat.succ_le_of_lt (hle.trans_lt hless), .turn hpop hrun hloop⟩

theorem Loop.isEmpty (hloop : Loop n s result) (htidy : s.Tidy) {u : Space}
    (hresult : result = .ok () u) : u.queue.isEmpty = true := by
  induction hloop with
  | done hpop =>
      obtain rfl := (EStateM.Result.ok.inj hresult).2
      exact htidy.isEmpty_of_pop?_eq_none hpop
  | stop => cases hresult
  | turn hpop hrun _ ih => exact ih (htidy.turn hpop hrun) hresult

/-- Where all propagators are orderly, none of their turns breaches a precondition. -/
theorem Loop.exists_eq_ok (hloop : Loop n s result) (htidy : s.Tidy) (horderly : s.Orderly) :
    ∃ u, result = .ok () u := by
  have hturn : ∀ {s : Space} {id : Nat} {rest : Queue}, s.Tidy → s.Orderly →
      s.queue.pop? = some (id, rest) →
      ∃ t, runOne id { s with queue := rest } = .ok () t ∧ t.Orderly := by
    intro s id rest htidy horderly hpop
    have hpopped : Orderly { s with queue := rest } := horderly
    exact hpopped.runOne (htidy.sound.popped hpop) (htidy.attentive.of_slots rfl rfl) id
  induction hloop with
  | done => exact ⟨_, rfl⟩
  | stop hpop hrun =>
      obtain ⟨t, hok, -⟩ := hturn htidy horderly hpop
      simp [hok] at hrun
  | turn hpop hrun _ ih =>
      obtain ⟨t, hok, horderly'⟩ := hturn htidy horderly hpop
      obtain rfl := (EStateM.Result.ok.inj (hok.symm.trans hrun)).2
      exact ih (htidy.turn hpop hrun) horderly'

theorem propagate_eq_of_loop (htidy : s.Tidy) (hok : s.failure = none)
    (hloop : Loop n s result) (hbound : n ≤ s.enoughRuns) :
    propagate s = match result with
      | .ok _ u => .ok u.failure u
      | .error fault u => .error fault u := by
  cases result <;>
    simp only [propagate, hok, schedule_of_isQuiet htidy.quiet, hloop.runQueue_eq hbound]

/-- Whatever its propagators do, propagation of a reachable space ends after no more
turns than the space computes: with an answer and nobody waiting, or in a breach, which
orderly propagators never cause. -/
theorem propagate_terminates (hreaches : new.Reaches s) :
    ∃ n, n ≤ s.enoughRuns ∧
      ((∃ u, Loop n s (.ok () u) ∧ propagate s = .ok u.failure u ∧ u.queue.isEmpty = true) ∨
        ¬ s.Orderly ∧ ∃ fault u, Loop n s (.error fault u) ∧ propagate s = .error fault u) := by
  have htidy := hreaches.tidy tidy_new
  cases hfailure : s.failure with
  | some reason =>
      have hpop := Queue.pop?_eq_none htidy.sound.queue (htidy.idle (by simp [hfailure]))
      refine ⟨0, Nat.zero_le _, Or.inl ⟨s, .done hpop, ?_, htidy.isEmpty_of_pop?_eq_none hpop⟩⟩
      simp only [propagate, hfailure]
  | none =>
      obtain ⟨n, result, hbound, hloop⟩ := htidy.exists_loop
      have hpropagate := propagate_eq_of_loop htidy hfailure hloop hbound
      refine ⟨n, hbound, ?_⟩
      cases result with
      | ok _ u => exact Or.inl ⟨u, hloop, hpropagate, hloop.isEmpty htidy rfl⟩
      | error fault u =>
          refine Or.inr ⟨fun horderly => ?_, fault, u, hloop, hpropagate⟩
          obtain ⟨t, hresult⟩ := hloop.exists_eq_ok htidy horderly
          cases hresult

/-- Crosses out the number of its run, says that it may have to run again, and does not
want to hear of anything after its third run. -/
def crossing : Scripted where
  name := "crossing"
  priority := .high
  notices := false
  watches := [⟨.int (.var 0), .any, 0⟩]
  script := fun runs _ =>
    { narrowings := [.remove (.var 0) runs], verdict := .ended .noFixpoint }
  vetoes := fun runs _ _ _ => decide (3 ≤ runs)
  runs := 0
  shared := []

theorem crossing_fit {s : Store} (hint : 0 < s.ints.size) : crossing.Fit s where
  narrowings := fun runs s' _ _ narrowing hmem => by
    obtain rfl := List.mem_singleton.mp hmem
    exact ⟨decide_eq_true hint, trivial⟩
  verdict := fun _ _ _ => nofun
  positions := fun watch hwatch => by
    obtain rfl := List.mem_singleton.mp hwatch
    rfl
  watched := fun watch hwatch => by
    obtain rfl := List.mem_singleton.mp hwatch
    exact Or.inl ⟨.var 0, rfl, decide_eq_true hint⟩

/-- Its events wake the propagator up until it does not listen any more. -/
theorem crossing_terminates :
    let acts := [.newInt 0 5, .addPropagator (.scripted crossing) none]
    ∃ s, performAll acts new = some s ∧ new.Reaches s ∧ s.Orderly ∧
      ∃ n u, n ≤ s.enoughRuns ∧ Loop n s (.ok () u) ∧ propagate s = .ok u.failure u ∧
        u.queue.isEmpty = true := by
  intro acts
  have hslots : (performAll acts new).map Space.slots =
      some #[⟨some (.scripted crossing), [.int 0]⟩] := rfl
  obtain ⟨s, hperform, hslots⟩ := Option.map_eq_some_iff.mp hslots
  have hints : (performAll acts new).map (fun s => s.store.ints.size) = some 1 := by
    decide +kernel
  simp only [hperform, Option.map_some, Option.some.injEq] at hints
  have hreaches := reaches_of_performAll hperform
  have horderly : s.Orderly := by
    intro j p hp
    have hj := lt_size_of_propagator? hp
    obtain rfl : j = 0 := by simpa [hslots] using hj
    obtain rfl : .scripted crossing = p := by simpa [propagator?, hslots] using hp
    exact (crossing_fit (by omega)).orderly
  obtain ⟨n, hbound, ⟨u, hloop, hrun, hempty⟩ | ⟨hdisorder, -⟩⟩ := propagate_terminates hreaches
  · exact ⟨s, hperform, hreaches, horderly, n, u, hbound, hloop, hrun, hempty⟩
  · exact absurd horderly hdisorder

end Space

end ConstraintSpace
