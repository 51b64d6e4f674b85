import ConstraintSpace.Proofs.Space.Actors
import ConstraintSpace.Proofs.Space.Carrying
import ConstraintSpace.Proofs.Space.Failure
import ConstraintSpace.Proofs.Space.Status

/-!
# What happens to the actors of a space

The propagators and branchers of a space are its actors.  An operation may notify or run a
propagator, commit through a brancher, or take a propagator out of the space once it is
subsumed.  A story lists these deeds in order, each done to an actor that the space still
has at that point.  Nothing else that an operation does concerns the actors or the registry
of those that notice, and the journal tells the same story.

Observers may put anything into the journal.  The journal is to be trusted where they only
note what they find.
-/

namespace ConstraintSpace

/-- What can be done to an actor. -/
inductive Deed where
  | copied (mode : CopyMode)
  | notified
  | propagated
  | committed
  | subsumed
  | disposed
deriving DecidableEq, Repr

/-- An actor is put to use. -/
def Deed.isWork : Deed → Bool
  | notified | propagated | committed => true
  | copied _ | subsumed | disposed => false

def Actor.noticed : Actor → Noticed
  | .propagator id _ => .propagator id
  | .brancher id _ => .brancher id

/-- The deed that an entry of the journal tells of, and whom it is done to. -/
def Happening.deed? : Happening → Option (Noticed × Deed)
  | .notified id _ _ => some (.propagator id, .notified)
  | .propagating id _ => some (.propagator id, .propagated)
  | .copied actor mode => some (actor.noticed, .copied mode)
  | .subsumed id _ => some (.propagator id, .subsumed)
  | .disposed actor => some (actor.noticed, .disposed)
  | _ => none

/-- The observer notes only what it finds. -/
def Observer.Plain (o : Observer) : Prop :=
  ∀ s notes, o.observe s = .ok notes → ∀ happening ∈ notes, happening.deed? = none

def Brancher.Plain : Brancher → Prop
  | viewValue _ => True
  | observer o => o.Plain

namespace Observer

theorem plain_liar : liar.Plain := by
  intro s notes hnotes
  obtain rfl := Except.ok.inj hnotes
  simp [Happening.deed?]

end Observer

/-! ## Notes -/

namespace Propagator

theorem deed?_of_mem_notify {p : Propagator} {s : Store} {localId : Nat} {event : Event}
    {wanted : Bool} {notes : List Happening}
    (hnotify : p.notify s localId event = .ok (wanted, notes)) :
    ∀ happening ∈ notes, happening.deed? = none := by
  cases p with
  | scripted script =>
      simp only [notify, Scripted.notify] at hnotify
      split at hnotify
      · simp at hnotify
      split at hnotify
      · simp at hnotify
      split at hnotify
      · simp only [Except.ok.injEq, Prod.mk.injEq] at hnotify
        rw [← hnotify.2]
        simp [Happening.deed?]
      · simp at hnotify
  | _ =>
      simp only [notify, Except.ok.injEq, Prod.mk.injEq] at hnotify
      rw [← hnotify.2]
      simp

theorem deed?_of_mem_perform {name : String} {narrowings : List Narrowing} {s : Store} :
    ∀ happening ∈ (Scripted.perform name narrowings s).2.2, happening.deed? = none := by
  induction narrowings generalizing s with
  | nil => simp [Scripted.perform]
  | cons narrowing rest ih =>
      unfold Scripted.perform
      split
      · simp
      · simp only [List.mem_cons, forall_eq_or_imp, Happening.deed?, true_and]
        exact ih

theorem notes_stateless (p : Propagator) (pass : Narrow Status) (s : Store) :
    (p.stateless pass s).notes = [] := by
  unfold stateless
  split
  · split <;> rfl
  · rfl

theorem deed?_of_mem_run (p : Propagator) (s : Store) :
    ∀ happening ∈ (p.run s).notes, happening.deed? = none := by
  cases p with
  | notEqual a b => simp [run, notes_stateless]
  | lessOrEqual a b => simp [run, notes_stateless]
  | floatLessOrEqual a b => simp [run, notes_stateless]
  | subset a b counts =>
      simp only [run]
      split
      · split <;> simp
      · simp
  | scripted script =>
      simp only [run, Scripted.propagate, List.mem_cons, forall_eq_or_imp, Happening.deed?,
        true_and]
      exact deed?_of_mem_perform

end Propagator

namespace Brancher

variable {b b' : Brancher} {s : Store} {notes : List Happening}

theorem deed?_of_mem_status {branches : Bool} (hplain : b.Plain)
    (hstatus : b.status s = .ok (branches, b', notes)) :
    ∀ happening ∈ notes, happening.deed? = none := by
  cases b with
  | viewValue b =>
      simp only [status] at hstatus
      split at hstatus
      · simp only [Except.ok.injEq, Prod.mk.injEq] at hstatus
        obtain ⟨-, -, rfl⟩ := hstatus
        simp
      · simp at hstatus
  | observer o =>
      simp only [status] at hstatus
      split at hstatus
      next hobserve =>
        simp only [Except.ok.injEq, Prod.mk.injEq] at hstatus
        obtain ⟨-, -, rfl⟩ := hstatus
        exact hplain s _ hobserve
      next => simp at hstatus

theorem deed?_of_mem_choice {proposed : Option Choice}
    (hchoice : b.choice s = .ok (proposed, b', notes)) :
    ∀ happening ∈ notes, happening.deed? = none := by
  cases b with
  | viewValue b =>
      have hnotes : ∀ happening ∈
          (if (b.branching.views.drop b.start).isEmpty then
            [Happening.unsupplied b.selector] else []), happening.deed? = none := by
        split <;> simp [Happening.deed?]
      simp only [choice, ViewBrancher.choice] at hchoice
      split at hchoice
      next hview =>
        simp only [Except.ok.injEq, Prod.mk.injEq] at hchoice
        obtain ⟨-, -, rfl⟩ := hchoice
        split at hview
        · split at hview
          · simp only [Except.ok.injEq, Prod.mk.injEq] at hview
            obtain ⟨-, -, rfl⟩ := hview
            exact hnotes
          · split at hview
            · simp at hview
            · simp only [Except.ok.injEq, Prod.mk.injEq] at hview
              obtain ⟨-, -, rfl⟩ := hview
              exact hnotes
        · simp at hview
      next => simp at hchoice
  | observer o =>
      simp only [choice, Except.ok.injEq, Prod.mk.injEq] at hchoice
      obtain ⟨-, -, rfl⟩ := hchoice
      simp

end Brancher

namespace Space

variable {s t u : Space} {a : Noticed} {id : Nat} {α β : Type}

/-- All observers note only what they find. -/
def Plain (s : Space) : Prop :=
  ∀ (id : Nat) (o : Observer), s.branchers[id]? = some (.observer o) → o.Plain

theorem Kindred.plain (hkindred : s.Kindred t) (hplain : s.Plain) : t.Plain :=
  fun id o ho => hplain id o (hkindred.observers id o ho)

theorem Plain.brancher (hplain : s.Plain) {b : Brancher} (hb : s.branchers[id]? = some b) :
    b.Plain := by
  cases b with
  | viewValue b => trivial
  | observer o => exact hplain id o hb

/-! ## Stories -/

structure Leaves (s : Space) (id : Nat) (t : Space) : Prop where
  live : (s.notices? (.propagator id)).isSome = true
  noticed : t.noticed = s.noticed.erase (.propagator id)
  notices? : ∀ a, t.notices? a = if a = .propagator id then none else s.notices? a
  handles : ∀ a, t.handles a = if a = .propagator id then [] else s.handles a
  numbers : ∀ a, t.Numbers a ↔ s.Numbers a
  branchers : t.branchers = s.branchers

/-- What is done to a propagator that leaves: it is disposed if it is to be told. -/
def leaving (id : Nat) (s : Space) : List (Noticed × Deed) :=
  (if s.noticed.contains (.propagator id) then [(.propagator id, .disposed)] else []) ++
    [(.propagator id, .subsumed)]

/-- The deeds by which the first space became the second. -/
inductive Story (s : Space) : List (Noticed × Deed) → Space → Prop where
  | refl : Story s [] s
  | rest {deeds : List (Noticed × Deed)} {t u : Space} (hstory : Story s deeds t)
      (hsteady : t.Steady u) : Story s deeds u
  | work {deeds : List (Noticed × Deed)} {t : Space} (a : Noticed) (deed : Deed)
      (hstory : Story s deeds t) (hlive : (t.notices? a).isSome = true)
      (hwork : deed.isWork = true) : Story s (deeds ++ [(a, deed)]) t
  | leave {deeds : List (Noticed × Deed)} {t u : Space} (id : Nat)
      (hstory : Story s deeds t) (hleaves : t.Leaves id u) :
      Story s (deeds ++ leaving id t) u

theorem Steady.story (hsteady : s.Steady t) : s.Story [] t := .rest .refl hsteady

theorem Story.trans {deeds later : List (Noticed × Deed)} (hfirst : s.Story deeds t)
    (hsecond : t.Story later u) : s.Story (deeds ++ later) u := by
  induction hsecond with
  | refl => simpa using hfirst
  | rest _ hsteady ih => exact .rest ih hsteady
  | work a deed _ hlive hwork ih =>
      rw [← List.append_assoc]
      exact .work a deed ih hlive hwork
  | leave id _ hleaves ih =>
      rw [← List.append_assoc]
      exact .leave id ih hleaves

theorem Story.plain {deeds : List (Noticed × Deed)} (hstory : s.Story deeds t)
    (hplain : s.Plain) : t.Plain := by
  induction hstory with
  | refl => exact hplain
  | rest _ hsteady ih => exact hsteady.toKindred.plain ih
  | work _ _ _ _ _ ih => exact ih
  | leave _ _ hleaves ih => exact fun id o ho => ih id o (hleaves.branchers ▸ ho)

/-- The journal grew by what tells the story. -/
def Recorded (s t : Space) : Prop :=
  ∃ (happenings : List Happening) (deeds : List (Noticed × Deed)),
    t.journal = happenings.reverse ++ s.journal ∧ s.Story deeds t ∧
      (s.Plain → happenings.filterMap Happening.deed? = deeds)

theorem Recorded.trans (hfirst : s.Recorded t) (hsecond : t.Recorded u) : s.Recorded u := by
  obtain ⟨happenings, deeds, hjournal, hstory, hdeeds⟩ := hfirst
  obtain ⟨happenings', deeds', hjournal', hstory', hdeeds'⟩ := hsecond
  refine ⟨happenings ++ happenings', deeds ++ deeds', ?_, hstory.trans hstory', ?_⟩
  · rw [hjournal', hjournal, List.reverse_append, List.append_assoc]
  · intro hplain
    rw [List.filterMap_append, hdeeds hplain, hdeeds' (hstory.plain hplain)]

theorem Steady.recorded (hsteady : s.Steady t) (happenings : List Happening)
    (hjournal : t.journal = happenings.reverse ++ s.journal)
    (hnone : s.Plain → ∀ happening ∈ happenings, happening.deed? = none) : s.Recorded t :=
  ⟨happenings, [], hjournal, hsteady.story,
    fun hplain => List.filterMap_eq_nil_iff.mpr (hnone hplain)⟩

theorem Steady.recorded_of_journal (hsteady : s.Steady t) (hjournal : t.journal = s.journal) :
    s.Recorded t :=
  hsteady.recorded [] hjournal (by simp)

theorem Recorded.of_actors (hnoticed : t.noticed = s.noticed) (hslots : t.slots = s.slots)
    (hbranchers : t.branchers = s.branchers) (hjournal : t.journal = s.journal) :
    s.Recorded t :=
  (Steady.of_actors hnoticed hslots hbranchers).recorded_of_journal hjournal

theorem Recorded.refl (s : Space) : s.Recorded s := (Steady.refl s).recorded_of_journal rfl

theorem recorded_work {deed : Deed} {happening : Happening}
    (hlive : (s.notices? a).isSome = true) (hwork : deed.isWork = true)
    (hdeed : happening.deed? = some (a, deed)) : s.Recorded (s.note happening) := by
  refine ⟨[happening], [(a, deed)], rfl, ?_, fun _ => by simp [hdeed]⟩
  have hstory : s.Story [(a, deed)] s := .work a deed .refl hlive hwork
  exact .rest hstory (.of_actors rfl rfl rfl)

/-- However the operation ends short of a breach, the journal tells the story. -/
def Narrates (m : Operation α) : Prop := ∀ s t, resume (m s) = some t → s.Recorded t

/-! ## Propagation -/

theorem narrates_notify (event : Event) (watcher : Watcher) :
    Narrates (notify event watcher) := by
  intro s t hrun
  unfold notify at hrun
  split at hrun
  · obtain rfl := Option.some.inj hrun
    exact .refl s
  next p hp =>
  split at hrun
  · simp [resume] at hrun
  next wanted notes hnotify =>
  have hlive : (s.notices? (.propagator watcher.propagator)).isSome = true := by
    simp only [notices?, hp, Option.map_some, Option.isSome_some]
  have hnotified : s.Recorded
      (s.note (.notified watcher.propagator watcher.localId event)) :=
    recorded_work hlive rfl rfl
  have hjournal :
      (s.noteAll (.notified watcher.propagator watcher.localId event :: notes)).journal =
        notes.reverse ++ .notified watcher.propagator watcher.localId event :: s.journal := by
    simp [noteAll]
  split at hrun <;>
  · obtain rfl := Option.some.inj hrun
    refine hnotified.trans (Steady.recorded (.of_actors rfl rfl rfl) notes hjournal ?_)
    exact fun _ => Propagator.deed?_of_mem_notify hnotify

theorem recorded_of_notifyAll {ns : List (Event × Watcher)}
    (hrun : resume (notifyAll ns s) = some t) : s.Recorded t := by
  induction ns generalizing s with
  | nil =>
      obtain rfl : s = t := Option.some.inj hrun
      exact .refl s
  | cons n rest ih =>
      rcases resume_bind_cases hrun with hrun | ⟨_, u, hfirst, hrest⟩
      · exact narrates_notify n.1 n.2 s t hrun
      · exact (narrates_notify n.1 n.2 s u (resume_of_ok hfirst)).trans (ih hrest)

theorem recorded_failWith (reason : Inconsistency) (s : Space) :
    s.Recorded (s.failWith reason) := by
  have hsteady : s.Steady (s.failWith reason) := by
    refine .of_actors ?_ (slots_failWith reason s) (branchers_failWith reason s)
    unfold failWith
    split <;> rfl
  cases hfailure : s.failure with
  | none =>
      apply hsteady.recorded [.failed reason]
      · simp [failWith, hfailure, note]
      · simp [Happening.deed?]
  | some first =>
      apply hsteady.recorded_of_journal
      simp [failWith, hfailure]

theorem tolerant_recorded : Tolerant Recorded where
  trans := .trans
  work := fun _ _ _ _ => .of_actors rfl rfl rfl rfl
  failWith := recorded_failWith
  schedule := fun _ s t hrun => by
    have hsilent : s.Recorded { s with store := s.store.silence } :=
      .of_actors rfl rfl rfl rfl
    exact hsilent.trans (recorded_of_notifyAll hrun)

theorem slot_of_propagator? {p : Propagator} (hp : s.propagator? id = some p) :
    ∃ slot, s.slots[id]? = some slot ∧ slot.propagator = some p := by
  unfold propagator? at hp
  split at hp
  next slot hslot => exact ⟨slot, hslot, hp⟩
  next => simp at hp

/-- The slot of the propagator is emptied, and its name leaves the registry. -/
theorem noticed_subsume {p : Propagator} (hp : s.propagator? id = some p) :
    (s.subsume id).noticed = s.noticed.erase (.propagator id) := by
  obtain ⟨slot, hslot, hpropagator⟩ := slot_of_propagator? hp
  by_cases hmem : .propagator id ∈ s.noticed
  · simp [subsume, hslot, hpropagator, hmem, note]
  · simp [subsume, hslot, hpropagator, hmem, note, List.erase_of_not_mem hmem]

theorem journal_subsume {p : Propagator} (hp : s.propagator? id = some p) :
    (s.subsume id).journal =
      .subsumed id p.name ::
        ((if s.noticed.contains (.propagator id) then [.disposed (.propagator id p.name)]
          else []) ++ s.journal) := by
  obtain ⟨slot, hslot, hpropagator⟩ := slot_of_propagator? hp
  by_cases hmem : .propagator id ∈ s.noticed <;>
    simp [subsume, hslot, hpropagator, hmem, note]

theorem leaves_subsume {p : Propagator} (hp : s.propagator? id = some p) :
    s.Leaves id (s.subsume id) := by
  have hsubsumed := subsume_subsumed hp
  refine ⟨?_, noticed_subsume hp, fun a => ?_, fun a => ?_, fun a => ?_, hsubsumed.branchers⟩
  · simp only [notices?, hp, Option.map_some, Option.isSome_some]
  · cases a with
    | brancher j => simp only [notices?, hsubsumed.branchers, reduceCtorEq, if_false]
    | propagator j =>
        simp only [notices?, hsubsumed.propagator?, Noticed.propagator.injEq]
        split <;> rfl
  · cases a with
    | brancher j => simp only [handles, hsubsumed.branchers, reduceCtorEq, if_false]
    | propagator j =>
        simp only [handles, hsubsumed.propagator?, Noticed.propagator.injEq]
        split <;> rfl
  · cases a with
    | brancher j => simp only [Numbers, hsubsumed.branchers]
    | propagator j => simp only [Numbers, hsubsumed.size_slots]

theorem recorded_subsume {p : Propagator} (hp : s.propagator? id = some p) :
    s.Recorded (s.subsume id) := by
  have hstory : s.Story (leaving id s) (s.subsume id) := by
    simpa using Story.leave id .refl (leaves_subsume hp)
  have hjournal := journal_subsume hp
  by_cases hmem : s.noticed.contains (.propagator id) = true
  · refine ⟨[.disposed (.propagator id p.name), .subsumed id p.name], _, ?_, hstory, ?_⟩
    · rw [hjournal, if_pos hmem]
      rfl
    · rw [leaving, if_pos hmem]
      exact fun _ => rfl
  · refine ⟨[.subsumed id p.name], _, ?_, hstory, ?_⟩
    · rw [hjournal, if_neg hmem]
      rfl
    · rw [leaving, if_neg hmem]
      exact fun _ => rfl

theorem recorded_afterRun {p : Propagator} (hp : s.propagator? id = some p) :
    s.Recorded (s.afterRun id p) := by
  have hlive : (s.notices? (.propagator id)).isSome = true := by
    simp only [notices?, hp, Option.map_some, Option.isSome_some]
  have hrun : s.Recorded (s.note (.propagating id p.name)) := recorded_work hlive rfl rfl
  -- its notes tell of no deed, and it declares and holds what it did before
  refine hrun.trans (Steady.recorded ?_ (p.run s.store).notes ?_ ?_)
  · have hset : s.Steady (s.setPropagator id (p.run s.store).propagator) :=
      .setPropagator hp (Propagator.notices_eq_of_guise (p.guise_run s.store))
        (p.handles_run s.store)
    have hback : (s.note (.propagating id p.name)).Steady s := .of_actors rfl rfl rfl
    exact (hback.trans hset).trans (.of_actors rfl rfl rfl)
  · rfl
  · exact fun _ => p.deed?_of_mem_run s.store

theorem narrates_runOne (id : Nat) : Narrates (runOne id) :=
  tolerant_recorded.runOne recorded_afterRun recorded_subsume id

theorem narrates_propagate : Narrates propagate :=
  tolerant_recorded.propagate narrates_runOne

/-! ## Exploration -/

theorem recorded_setBrancher {b b' : Brancher} {notes : List Happening}
    (hb : s.branchers[id]? = some b) (hstill : b.Still b')
    (hnone : b.Plain → ∀ happening ∈ notes, happening.deed? = none) :
    s.Recorded ({ s with branchers := s.branchers.setIfInBounds id b' }.noteAll notes) := by
  have hsteady : s.Steady
      ({ s with branchers := s.branchers.setIfInBounds id b' }.noteAll notes) :=
    (Steady.setBrancher hb hstill).trans (.of_actors rfl rfl rfl)
  exact hsteady.recorded notes rfl fun hplain => hnone (hplain.brancher hb)

theorem narrates_advance : Narrates advance := by
  intro s u hrun
  obtain ⟨found, hok⟩ := (willing_advanceBy _).ok_of_resume (m := advanceBy _) hrun
  refine advanceBy_induction (P := s.Recorded) (fun t b branches b' notes hbefore hb hstatus => ?_)
    (.refl s) hok
  have hasked : t.Recorded
      ({ t with branchers := t.branchers.setIfInBounds t.active b' }.noteAll notes) :=
    recorded_setBrancher hb (Brancher.still_status hstatus) fun hplain =>
      Brancher.deed?_of_mem_status hplain hstatus
  exact ⟨fun _ => hbefore.trans hasked,
    fun _ => (hbefore.trans hasked).trans (.of_actors rfl rfl rfl rfl)⟩

theorem narrates_status : Narrates status :=
  tolerant_recorded.status narrates_runOne narrates_advance

theorem narrates_propose : Narrates propose := by
  intro s t hrun
  unfold propose at hrun
  split at hrun
  · obtain rfl := Option.some.inj hrun
    exact .refl s
  next b hb =>
  split at hrun
  · simp [resume] at hrun
  next proposed b' notes hchoice =>
  have hasked : s.Recorded
      ({ s with branchers := s.branchers.setIfInBounds s.active b' }.noteAll notes) :=
    recorded_setBrancher hb (Brancher.still_choice hchoice) fun _ =>
      Brancher.deed?_of_mem_choice hchoice
  split at hrun <;>
  · obtain rfl := Option.some.inj hrun
    exact hasked

theorem narrates_choice : Narrates choice :=
  tolerant_recorded.choice narrates_advance narrates_propose

end Space

end ConstraintSpace
