import ConstraintSpace.Proofs.Space.Likeness

/-!
# Numbers of shared instances

A copy may get instances of its own in place of the shared ones, and these differ in
their numbers only.  No operation of a search reads such a number: forgetting the
numbers before or after the operation comes to the same.  So a copy, shared or
independent, goes on as the copied space does.
-/

namespace ConstraintSpace

/-! ## Forgetting the numbers -/

def Shared.anonymous {α : Type} (handle : Shared α) : Shared α := { handle with id := 0 }

def Propagator.anonymous : Propagator → Propagator
  | scripted script => .scripted { script with shared := script.shared.map Shared.anonymous }
  | p => p

def IntSelection.anonymous : IntSelection → IntSelection
  | preferred table => .preferred table.anonymous
  | selection => selection

def Branching.anonymous : Branching → Branching
  | int views selection commit => .int views selection.anonymous commit
  | b => b

def ViewBrancher.anonymous (b : ViewBrancher) : ViewBrancher :=
  { b with branching := b.branching.anonymous }

def Brancher.anonymous : Brancher → Brancher
  | viewValue b => .viewValue b.anonymous
  | observer o => .observer o

def Slot.anonymous (slot : Slot) : Slot :=
  { slot with propagator := slot.propagator.map Propagator.anonymous }

/-- The space without the numbers of its shared instances. -/
def Space.anonymous (s : Space) : Space :=
  { s with
    slots := s.slots.map Slot.anonymous
    branchers := s.branchers.map Brancher.anonymous }

/-! ## Actors do not read them -/

namespace Propagator

@[simp] theorem name_anonymous (p : Propagator) : p.anonymous.name = p.name := by
  cases p <;> rfl

@[simp] theorem priority_anonymous (p : Propagator) : p.anonymous.priority = p.priority := by
  cases p <;> rfl

theorem notify_anonymous (p : Propagator) (s : Store) (localId : Nat) (event : Event) :
    p.anonymous.notify s localId event = p.notify s localId event := by
  cases p <;> rfl

theorem stateless_anonymous {p : Propagator} (hp : p.anonymous = p) (pass : Narrow Status)
    (s : Store) : (p.stateless pass s).propagator.anonymous = (p.stateless pass s).propagator := by
  rw [propagator_stateless, hp]

theorem run_anonymous (p : Propagator) (s : Store) :
    p.anonymous.run s =
      { p.run s with propagator := (p.run s).propagator.anonymous } := by
  -- only a script has shared data
  have hsame : ∀ q : Propagator, q.anonymous = q →
      (q.run s).propagator.anonymous = (q.run s).propagator →
        q.anonymous.run s = { q.run s with propagator := (q.run s).propagator.anonymous } := by
    intro q hq hrun
    rw [hq, hrun]
  cases p with
  | notEqual a b => exact hsame _ rfl (stateless_anonymous rfl _ s)
  | lessOrEqual a b => exact hsame _ rfl (stateless_anonymous rfl _ s)
  | floatLessOrEqual a b => exact hsame _ rfl (stateless_anonymous rfl _ s)
  | subset a b counts =>
      apply hsame _ rfl
      simp only [run]
      split
      · split <;> rfl
      · rfl
  | scripted script => rfl

end Propagator

theorem IntSelection.select_anonymous (selection : IntSelection) (s : Store) (view : IntView) :
    selection.anonymous.select s view =
      (selection.select s view).map (Prod.map id IntSelection.anonymous) := by
  cases selection with
  | random generator =>
      simp only [anonymous, select]
      split <;> rfl
  | drawn draws position =>
      simp only [anonymous, select]
      split <;> rfl
  | preferred table =>
      simp only [anonymous, select, Shared.anonymous]
      split <;> rfl
  | _ => rfl

namespace Branching

@[simp] theorem views_anonymous (b : Branching) : b.anonymous.views = b.views := by
  cases b <;> rfl

@[simp] theorem alternatives_anonymous (b : Branching) :
    b.anonymous.alternatives = b.alternatives := by
  cases b <;> rfl

theorem selectValue_anonymous (b : Branching) (s : Store) (position : Nat) :
    b.anonymous.selectValue s position =
      (b.selectValue s position).map (Prod.map id Branching.anonymous) := by
  cases b with
  | int views selection commit =>
      simp only [anonymous, selectValue]
      cases views[position]? with
      | none => rfl
      | some view =>
          simp only [selection.select_anonymous]
          cases selection.select s view <;> rfl
  | float views commit =>
      simp only [anonymous, selectValue]
      cases views[position]? <;> rfl
  | set views selection commit =>
      simp only [anonymous, selectValue]
      cases views[position]? with
      | none => rfl
      | some id =>
          simp only
          cases selection.select s id <;> rfl

theorem commit_anonymous (b : Branching) (c : Choice) (alternative : Nat) :
    b.anonymous.commit c alternative = b.commit c alternative := by
  cases b <;> rfl

end Branching

namespace ViewBrancher

@[simp] theorem cursor_anonymous (b : ViewBrancher) (s : Store) :
    b.anonymous.cursor s = b.cursor s := by
  simp [cursor, anonymous]

theorem status_anonymous (b : ViewBrancher) (s : Store) :
    b.anonymous.status s = (b.status s).map (Prod.map id ViewBrancher.anonymous) := by
  simp only [status, cursor_anonymous]
  simp only [anonymous, Branching.views_anonymous]
  cases b.branching.views[b.cursor s]? with
  | none => rfl
  | some view =>
      simp only
      split <;> rfl

theorem choice_anonymous (b : ViewBrancher) (s : Store) :
    b.anonymous.choice s =
      (b.choice s).map (Prod.map id (Prod.map ViewBrancher.anonymous id)) := by
  simp only [choice, anonymous, Branching.views_anonymous, Branching.selectValue_anonymous]
  cases b.selector.sound s (b.branching.views.drop b.start) with
  | false => rfl
  | true =>
      simp only [if_true]
      cases b.selector.select s (b.branching.views.drop b.start) with
      | none => rfl
      | some offset =>
          simp only
          cases b.branching.selectValue s (b.start + offset) with
          | error breach => rfl
          | ok selected => simp [Except.map, anonymous]

end ViewBrancher

namespace Brancher

theorem status_anonymous (b : Brancher) (s : Store) :
    b.anonymous.status s =
      (b.status s).map (Prod.map id (Prod.map Brancher.anonymous id)) := by
  cases b with
  | viewValue b =>
      simp only [anonymous, status, b.status_anonymous]
      cases b.status s <;> rfl
  | observer o =>
      simp only [anonymous, status]
      cases o.observe s <;> rfl

theorem choice_anonymous (b : Brancher) (s : Store) :
    b.anonymous.choice s =
      (b.choice s).map (Prod.map id (Prod.map Brancher.anonymous id)) := by
  cases b with
  | viewValue b =>
      simp only [anonymous, choice, b.choice_anonymous]
      cases b.choice s <;> rfl
  | observer o => rfl

theorem commit_anonymous (b : Brancher) (c : Choice) (alternative : Nat) :
    b.anonymous.commit c alternative = b.commit c alternative := by
  cases b with
  | viewValue b => exact b.branching.commit_anonymous c alternative
  | observer o => rfl

end Brancher

namespace Space

variable {s s' : Space} {id : Nat}

/-! ## Operations do not read them -/

def forget {α : Type} : EStateM.Result Fault Space α → EStateM.Result Fault Space α
  | .ok x s => .ok x s.anonymous
  | .error fault s => .error fault s.anonymous

/-- Forgetting the numbers of shared instances before the operation comes to the same
as forgetting them afterwards. -/
def Impartial {α : Type} (m : Operation α) : Prop := ∀ s : Space, m s.anonymous = forget (m s)

theorem impartial_pure {α : Type} (x : α) : Impartial (pure x : Operation α) := fun _ => rfl

theorem impartial_throw {α : Type} (fault : Fault) :
    Impartial (throw fault : Operation α) := fun _ => rfl

theorem Impartial.bind {α β : Type} {m : Operation α} {k : α → Operation β}
    (hm : Impartial m) (hk : ∀ x, Impartial (k x)) : Impartial (m >>= k) := by
  intro s
  have hfirst := hm s
  simp only [Bind.bind, EStateM.bind, hfirst]
  cases m s with
  | ok x t => exact hk x t
  | error fault t => rfl

/-- Where the operation gives a value, it also does so without the numbers. -/
theorem Impartial.of_ok {α : Type} {m : Operation α} (hm : Impartial m) {x : α}
    (hrun : m s = .ok x s') : m s.anonymous = .ok x s'.anonymous := by
  rw [hm s, hrun, forget]

@[simp] theorem store_anonymous (s : Space) : s.anonymous.store = s.store := rfl

@[simp] theorem queue_anonymous (s : Space) : s.anonymous.queue = s.queue := rfl

@[simp] theorem active_anonymous (s : Space) : s.anonymous.active = s.active := rfl

@[simp] theorem failure_anonymous (s : Space) : s.anonymous.failure = s.failure := rfl

theorem propagator?_anonymous (s : Space) (id : Nat) :
    s.anonymous.propagator? id = (s.propagator? id).map Propagator.anonymous := by
  simp only [propagator?, anonymous, Array.getElem?_map]
  cases s.slots[id]? <;> rfl

theorem impartial_notify (event : Event) (watcher : Watcher) :
    Impartial (notify event watcher) := by
  intro s
  simp only [notify, propagator?_anonymous]
  cases s.propagator? watcher.propagator with
  | none => rfl
  | some p =>
      simp only [Option.map_some, Propagator.notify_anonymous, Propagator.priority_anonymous,
        store_anonymous]
      cases p.notify s.store watcher.localId event with
      | error breach => rfl
      | ok result =>
          obtain ⟨wanted, notes⟩ := result
          cases wanted <;> rfl

theorem impartial_notifyAll (ns : List (Event × Watcher)) : Impartial (notifyAll ns) := by
  induction ns with
  | nil => exact impartial_pure ()
  | cons n rest ih => exact (impartial_notify n.1 n.2).bind fun _ => ih

theorem impartial_schedule (skip : Option Nat) : Impartial (schedule skip) := fun s =>
  impartial_notifyAll (s.notifications skip) { s with store := s.store.silence }

theorem failWith_anonymous (s : Space) (reason : Inconsistency) :
    s.anonymous.failWith reason = (s.failWith reason).anonymous := by
  cases hfailure : s.failure <;>
    simp only [failWith, failure_anonymous, hfailure, Option.isSome, if_true,
      Bool.false_eq_true, if_false] <;>
    rfl

theorem setPropagator_anonymous (s : Space) (id : Nat) (p : Propagator) :
    s.anonymous.setPropagator id p.anonymous = (s.setPropagator id p).anonymous := by
  have hslots : ((s.slots.map Slot.anonymous).modify id
      fun slot => { slot with propagator := some p.anonymous }) =
        (s.slots.modify id fun slot => { slot with propagator := some p }).map
          Slot.anonymous := by
    apply Array.ext_getElem?
    intro j
    simp only [Array.getElem?_modify, Array.getElem?_map]
    split
    · cases s.slots[j]? <;> rfl
    · rfl
  simp only [setPropagator, anonymous, hslots]

theorem afterRun_anonymous (s : Space) (id : Nat) (p : Propagator) :
    s.anonymous.afterRun id p.anonymous = (s.afterRun id p).anonymous := by
  have hset := setPropagator_anonymous { s with store := (p.run s.store).store } id
    (p.run s.store).propagator
  simp only [afterRun, Propagator.run_anonymous, Propagator.name_anonymous, store_anonymous]
  exact congrArg (fun t : Space => noteAll { t with
    counts := { s.counts with propagations := s.counts.propagations + 1 }
    journal := .propagating id p.name :: s.journal } (p.run s.store).notes) hset

theorem subsume_anonymous (s : Space) (id : Nat) :
    s.anonymous.subsume id = (s.subsume id).anonymous := by
  have hslots : ((s.slots.map Slot.anonymous).setIfInBounds id ⟨none, []⟩) =
      (s.slots.setIfInBounds id ⟨none, []⟩).map Slot.anonymous := by
    rw [Array.map_setIfInBounds]
    rfl
  unfold subsume
  simp only [anonymous, Array.getElem?_map]
  cases s.slots[id]? with
  | none => rfl
  | some slot =>
      obtain ⟨propagator, subscribed⟩ := slot
      cases propagator with
      | none => rfl
      | some p =>
          simp only [Option.map_some, Slot.anonymous, hslots, Propagator.name_anonymous]
          split <;> rfl

theorem impartial_runOne (id : Nat) : Impartial (runOne id) := by
  intro s
  have hpropagator := s.propagator?_anonymous id
  cases hp : s.propagator? id with
  | none =>
      rw [hp, Option.map_none] at hpropagator
      rw [runOne_of_gone hp, runOne_of_gone hpropagator, forget]
  | some p =>
      rw [hp, Option.map_some] at hpropagator
      rw [runOne_eq hp, runOne_eq hpropagator, store_anonymous, afterRun_anonymous,
        Propagator.run_anonymous]
      simp only
      split
      · exact impartial_schedule _ _
      · exact impartial_schedule _ _
      · rw [subsume_anonymous]
        exact impartial_schedule _ _
      · rw [failWith_anonymous]
        rfl
      · rfl

theorem impartial_runQueue (fuel : Nat) : Impartial (runQueue fuel) := by
  induction fuel with
  | zero => exact impartial_pure ()
  | succ fuel ih =>
      intro s
      simp only [runQueue, queue_anonymous]
      cases s.queue.pop? with
      | none => rfl
      | some popped =>
          obtain ⟨id, queue⟩ := popped
          have hpopped : { s.anonymous with queue } = anonymous { s with queue } := rfl
          simp only [hpopped, impartial_runOne id { s with queue }]
          cases runOne id { s with queue } with
          | ok _ t => exact ih t
          | error fault t => rfl

theorem enoughRuns_anonymous (s : Space) : s.anonymous.enoughRuns = s.enoughRuns := by
  simp only [enoughRuns, anonymous, Array.size_map]

theorem impartial_propagate : Impartial propagate := by
  intro s
  unfold propagate
  rw [failure_anonymous]
  cases s.failure with
  | some reason => rfl
  | none =>
      simp only [impartial_schedule none s]
      cases schedule none s with
      | error fault t => rfl
      | ok _ t =>
          simp only [forget, enoughRuns_anonymous, impartial_runQueue t.enoughRuns t]
          cases runQueue t.enoughRuns t <;> rfl

theorem branchers_anonymous (s : Space) (id : Nat) :
    s.anonymous.branchers[id]? = s.branchers[id]?.map Brancher.anonymous :=
  Array.getElem?_map

theorem setBrancher_anonymous (s : Space) (id : Nat) (b : Brancher) :
    s.anonymous.branchers.setIfInBounds id b.anonymous =
      (s.branchers.setIfInBounds id b).map Brancher.anonymous := by
  simp only [anonymous, Array.map_setIfInBounds]

theorem impartial_advanceBy (fuel : Nat) : Impartial (advanceBy fuel) := by
  induction fuel with
  | zero => exact impartial_pure false
  | succ fuel ih =>
      intro s
      simp only [advanceBy, active_anonymous, store_anonymous, branchers_anonymous]
      cases s.branchers[s.active]? with
      | none => rfl
      | some b =>
          simp only [Option.map_some, b.status_anonymous]
          cases b.status s.store with
          | error breach => rfl
          | ok answer =>
              obtain ⟨branches, b', notes⟩ := answer
              simp only [Except.map, Prod.map, id_eq, setBrancher_anonymous]
              let moved : Space :=
                { s with branchers := s.branchers.setIfInBounds s.active b' }.noteAll notes
              cases branches with
              | true => rfl
              | false => exact ih { moved with active := s.active + 1 }

theorem impartial_advance : Impartial advance := by
  intro s
  simp only [advance, anonymous, Array.size_map]
  exact impartial_advanceBy _ s

theorem impartial_status : Impartial status := by
  refine impartial_propagate.bind fun reason => ?_
  cases reason with
  | some _ => exact impartial_pure _
  | none => exact impartial_advance.bind fun _ => impartial_pure _

theorem impartial_propose : Impartial propose := by
  intro s
  simp only [propose, active_anonymous, store_anonymous, branchers_anonymous]
  cases s.branchers[s.active]? with
  | none => rfl
  | some b =>
      simp only [Option.map_some, b.choice_anonymous]
      cases b.choice s.store with
      | error breach => rfl
      | ok answer =>
          obtain ⟨proposed, b', notes⟩ := answer
          simp only [Except.map, Prod.map, id_eq, setBrancher_anonymous]
          cases proposed <;> rfl

theorem impartial_choice : Impartial choice := by
  intro s
  have hfailed : s.anonymous.isFailed = s.isFailed := rfl
  have hstable : s.anonymous.isStable = s.isStable := rfl
  rw [choice_eq, choice_eq, hfailed, hstable, impartial_advance s]
  cases s.isFailed with
  | true => rfl
  | false =>
      cases s.isStable with
      | false => rfl
      | true =>
          simp only [Bool.false_eq_true, if_false, Bool.not_true]
          cases advance s with
          | error fault t => rfl
          | ok found t =>
              cases found with
              | false => rfl
              | true => exact impartial_propose t

theorem impartial_commit (chosen : Choice) (alternative : Nat) :
    Impartial (commit chosen alternative) := by
  intro s
  have hfailed : s.anonymous.isFailed = s.isFailed := rfl
  simp only [commit, hfailed, store_anonymous, branchers_anonymous]
  cases s.isFailed with
  | true => rfl
  | false =>
      simp only [Bool.false_eq_true, if_false]
      by_cases hillegal : chosen.alternatives ≤ alternative
      · simp only [hillegal, if_true]
        rfl
      · simp only [hillegal, if_false]
        cases s.branchers[chosen.brancher]? with
        | none => rfl
        | some b =>
            simp only [Option.map_some, b.commit_anonymous]
            cases b.commit chosen alternative with
            | error error => rfl
            | ok narrowing =>
                simp only
                let narrowed (store : Store) : Space :=
                  { s with store, counts := { s.counts with commits := s.counts.commits + 1 } }
                cases narrowing s.store with
                | ok change store => exact impartial_schedule none (narrowed store)
                | error misstep store =>
                    cases misstep with
                    | emptied =>
                        exact congrArg (EStateM.Result.ok ())
                          (failWith_anonymous (narrowed store) .emptyDomain)
                    | breached breach => rfl

theorem impartial_replay (edges : List (Choice × Nat)) : Impartial (Path.replay edges) := by
  induction edges with
  | nil => exact impartial_pure ()
  | cons edge rest ih =>
      refine impartial_status.bind fun _ => impartial_choice.bind fun replayed => ?_
      split
      · exact (impartial_commit _ _).bind fun _ => ih
      · exact impartial_throw _

/-! ## Copies -/

end Space

theorem CopyContext.copyShared_anonymous {α : Type} (context : CopyContext)
    (handle : Shared α) : (context.copyShared handle).1.anonymous = handle.anonymous := by
  unfold copyShared
  split
  · rfl
  · split <;> rfl

theorem CopyContext.copyAll_anonymous {α : Type} (context : CopyContext)
    (handles : List (Shared α)) :
    (context.copyAll handles).1.map Shared.anonymous = handles.map Shared.anonymous := by
  induction handles generalizing context with
  | nil => rfl
  | cons handle rest ih =>
      simp only [copyAll, List.map_cons, copyShared_anonymous, ih]

theorem Propagator.onCopy_anonymous (p : Propagator) (context : CopyContext) :
    (p.onCopy context).1.anonymous = p.anonymous := by
  cases p with
  | scripted script => simp only [onCopy, anonymous, CopyContext.copyAll_anonymous]
  | _ => rfl

theorem Brancher.onCopy_anonymous (b : Brancher) (context : CopyContext) :
    (b.onCopy context).1.anonymous = b.anonymous := by
  cases b with
  | observer o => rfl
  | viewValue b =>
      obtain ⟨start, selector, branching, label, selectionNotices, commitNotices⟩ := b
      cases branching with
      | int views selection commit =>
          cases selection with
          | preferred table =>
              simp only [onCopy, ViewBrancher.onCopy, Branching.onCopy, IntSelection.onCopy,
                anonymous, ViewBrancher.anonymous, Branching.anonymous, IntSelection.anonymous,
                CopyContext.copyShared_anonymous]
          | _ => rfl
      | _ => rfl

namespace Space

variable {s s' : Space}

theorem tellCopy_anonymous (mode : CopyMode) (s : Space) (context : CopyContext)
    (actor : Noticed) :
    s.anonymous.Alike (tellCopy mode (s, context) actor).1.anonymous := by
  cases actor with
  | propagator id =>
      simp only [tellCopy]
      cases hp : s.propagator? id with
      | none => exact .refl _
      | some p =>
          have hsame : s.anonymous.setPropagator id p.anonymous = s.anonymous :=
            setPropagator_self (by rw [propagator?_anonymous, hp, Option.map_some])
          have hset := setPropagator_anonymous s id (p.onCopy context).1
          rw [p.onCopy_anonymous, hsame] at hset
          rw [hset]
          exact ⟨s.counts, _, rfl⟩
  | brancher id =>
      simp only [tellCopy]
      cases hb : s.branchers[id]? with
      | none => exact .refl _
      | some b =>
          have hset := setBrancher_anonymous s id (b.onCopy context).1
          rw [b.onCopy_anonymous,
            Store.setIfInBounds_self (by rw [branchers_anonymous, hb, Option.map_some])] at hset
          refine ⟨s.counts, .copied (.brancher id b.label) mode :: s.journal, ?_⟩
          exact congrArg (fun branchers => { s.anonymous with
            branchers, journal := .copied (.brancher id b.label) mode :: s.journal }) hset.symm

theorem foldl_tellCopy_anonymous (mode : CopyMode) (actors : List Noticed) (s : Space)
    (context : CopyContext) :
    s.anonymous.Alike (actors.foldl (tellCopy mode) (s, context)).1.anonymous := by
  induction actors generalizing s context with
  | nil => exact .refl _
  | cons actor rest ih =>
      rw [List.foldl_cons]
      exact (tellCopy_anonymous mode s context actor).trans (ih _ _)

/-- The spaces differ at most in their counts, their journals and the numbers of their
shared instances. -/
def Twin (s s' : Space) : Prop := s.anonymous.Alike s'.anonymous

theorem Alike.twin (halike : s.Alike s') : s.Twin s' := by
  obtain ⟨counts, journal, rfl⟩ := halike
  exact ⟨counts, journal, rfl⟩

theorem Twin.symm (htwin : s.Twin s') : s'.Twin s := Alike.symm htwin

theorem Twin.trans {t : Space} (hfirst : s.Twin s') (hsecond : s'.Twin t) : s.Twin t :=
  Alike.trans hfirst hsecond

/-- A copy of a space that is not failed is its twin. -/
theorem twin_copy (hok : s.failure = none) (mode : CopyMode) (next : Nat) :
    s.Twin (s.copy mode next).1 := by
  have hcopy : (s.copy mode next).1 = (s.noticed.foldl (tellCopy mode)
      ({ s with counts := .zero, journal := [] }, .begin mode next)).1 := by
    simp only [copy, hok]
  rw [hcopy]
  exact Alike.trans ⟨.zero, [], rfl⟩ (foldl_tellCopy_anonymous mode s.noticed _ _)

/-- Twins do the same. -/
theorem Twin.of_ok {α : Type} {m : Operation α} (hm : Impartial m) (hoblivious : Oblivious m)
    {x : α} {t : Space} (htwin : s.Twin s') (hrun : m s = .ok x t) :
    ∃ t', m s' = .ok x t' ∧ t.Twin t' := by
  obtain ⟨u, hanonymous, halike⟩ := hoblivious.of_ok htwin (hm.of_ok hrun)
  rw [hm s'] at hanonymous
  cases hrun' : m s' with
  | error fault t' =>
      rw [hrun'] at hanonymous
      cases hanonymous
  | ok y t' =>
      rw [hrun', forget] at hanonymous
      obtain ⟨rfl, rfl⟩ := EStateM.Result.ok.inj hanonymous
      exact ⟨t', rfl, halike⟩

theorem Twin.of_error {α : Type} {m : Operation α} (hm : Impartial m) (hoblivious : Oblivious m)
    {fault : Fault} {t : Space} (htwin : s.Twin s') (hrun : m s = .error fault t) :
    ∃ t', m s' = .error fault t' := by
  have hsame := hoblivious _ _ htwin
  rw [hm s, hm s', hrun, forget] at hsame
  cases hrun' : m s' with
  | ok x t' =>
      rw [hrun', forget] at hsame
      cases hsame
  | error fault' t' =>
      rw [hrun', forget] at hsame
      cases hsame
      exact ⟨t', rfl⟩

end Space

end ConstraintSpace
