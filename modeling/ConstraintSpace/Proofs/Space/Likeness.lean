import ConstraintSpace.Path
import ConstraintSpace.Proofs.Space.Running

/-!
# What operations do not read

The counts and the journal of a space are written and never read, so spaces that
differ in nothing else stay alike under every operation that a search performs,
and give the same answers.  The copy that a search keeps is alike to the space
that was copied.
-/

namespace ConstraintSpace

namespace Space

variable {s s' t : Space}

/-- The spaces differ at most in their counts and their journals. -/
def Alike (s s' : Space) : Prop :=
  ∃ counts journal, s' = { s with counts, journal }

theorem Alike.refl (s : Space) : s.Alike s := ⟨s.counts, s.journal, rfl⟩

theorem Alike.symm (halike : s.Alike s') : s'.Alike s := by
  obtain ⟨counts, journal, rfl⟩ := halike
  exact ⟨s.counts, s.journal, rfl⟩

theorem Alike.trans (hfirst : s.Alike s') (hsecond : s'.Alike t) : s.Alike t := by
  obtain ⟨counts, journal, rfl⟩ := hfirst
  obtain ⟨counts', journal', rfl⟩ := hsecond
  exact ⟨counts', journal', rfl⟩

theorem Alike.store (halike : s.Alike s') : s'.store = s.store := by
  obtain ⟨_, _, rfl⟩ := halike
  rfl

theorem Alike.failure (halike : s.Alike s') : s'.failure = s.failure := by
  obtain ⟨_, _, rfl⟩ := halike
  rfl

/-- The results have the same value or fault, and their spaces are alike. -/
inductive SameResult {α : Type} :
    EStateM.Result Fault Space α → EStateM.Result Fault Space α → Prop where
  | ok (x : α) {s s' : Space} (halike : s.Alike s') :
      SameResult (.ok x s) (.ok x s')
  | error (fault : Fault) {s s' : Space} (halike : s.Alike s') :
      SameResult (.error fault s) (.error fault s')

/-- The operation gives alike spaces the same result. -/
def Oblivious {α : Type} (m : Operation α) : Prop :=
  ∀ s s', s.Alike s' → SameResult (m s) (m s')

theorem SameResult.of_ok {α : Type} {r : EStateM.Result Fault Space α} {x : α}
    (hsame : SameResult (.ok x s) r) : ∃ s', r = .ok x s' ∧ s.Alike s' := by
  cases hsame with
  | ok _ halike => exact ⟨_, rfl, halike⟩

theorem Oblivious.of_ok {α : Type} {m : Operation α} (hm : Oblivious m) {x : α}
    (halike : s.Alike s') (hrun : m s = .ok x t) :
    ∃ t', m s' = .ok x t' ∧ t.Alike t' := by
  have hsame := hm s s' halike
  rw [hrun] at hsame
  exact hsame.of_ok

theorem oblivious_pure {α : Type} (x : α) : Oblivious (pure x : Operation α) :=
  fun _ _ halike => .ok x halike

theorem Oblivious.bind {α β : Type} {m : Operation α} {k : α → Operation β}
    (hm : Oblivious m) (hk : ∀ x, Oblivious (k x)) : Oblivious (m >>= k) := by
  intro s s' halike
  have hsame := hm s s' halike
  simp only [Bind.bind, EStateM.bind]
  generalize m s = r at hsame ⊢
  generalize m s' = r' at hsame ⊢
  cases hsame with
  | ok x halike' => exact hk x _ _ halike'
  | error fault halike' => exact .error fault halike'

/-! ## Propagation -/

theorem oblivious_notify (event : Event) (watcher : Watcher) :
    Oblivious (notify event watcher) := by
  rintro s _ ⟨counts, journal, rfl⟩
  have hsame : propagator? { s with counts, journal } watcher.propagator =
      s.propagator? watcher.propagator := rfl
  simp only [notify, hsame]
  cases s.propagator? watcher.propagator with
  | none => exact .ok () ⟨_, _, rfl⟩
  | some p =>
      simp only
      cases p.notify s.store watcher.localId event with
      | error breach => exact .error _ ⟨_, _, rfl⟩
      | ok result =>
          simp only
          split
          · exact .ok () ⟨_, _, rfl⟩
          · exact .ok () ⟨_, _, rfl⟩

theorem oblivious_notifyAll (ns : List (Event × Watcher)) : Oblivious (notifyAll ns) := by
  induction ns with
  | nil => exact oblivious_pure ()
  | cons n rest ih => exact (oblivious_notify n.1 n.2).bind fun _ => ih

theorem oblivious_schedule (skip : Option Nat) : Oblivious (schedule skip) := by
  rintro s _ ⟨counts, journal, rfl⟩
  exact oblivious_notifyAll (s.notifications skip) _ _ ⟨counts, journal, rfl⟩

theorem Alike.failWith (halike : s.Alike s') (reason : Inconsistency) :
    (s.failWith reason).Alike (s'.failWith reason) := by
  obtain ⟨counts, journal, rfl⟩ := halike
  unfold Space.failWith
  simp only
  split
  · exact ⟨_, _, rfl⟩
  · exact ⟨_, _, rfl⟩

theorem Alike.subsume (halike : s.Alike s') (id : Nat) :
    (s.subsume id).Alike (s'.subsume id) := by
  obtain ⟨counts, journal, rfl⟩ := halike
  unfold Space.subsume
  simp only
  split
  · exact ⟨_, _, rfl⟩
  · split
    · exact ⟨_, _, rfl⟩
    · split
      · exact ⟨_, _, rfl⟩
      · exact ⟨_, _, rfl⟩

theorem oblivious_runOne (id : Nat) : Oblivious (runOne id) := by
  intro s s' halike
  have hpropagator : s'.propagator? id = s.propagator? id := by
    obtain ⟨_, _, rfl⟩ := halike
    rfl
  cases hp : s.propagator? id with
  | none =>
      rw [runOne_of_gone hp, runOne_of_gone (hpropagator.trans hp)]
      exact .ok () halike
  | some p =>
      have hafter : (s.afterRun id p).Alike (s'.afterRun id p) := by
        obtain ⟨_, _, rfl⟩ := halike
        exact ⟨_, _, rfl⟩
      rw [runOne_eq hp, runOne_eq (hpropagator.trans hp), halike.store]
      split
      · exact oblivious_schedule _ _ _ hafter
      · exact oblivious_schedule _ _ _ hafter
      · exact oblivious_schedule _ _ _ (hafter.subsume id)
      · exact .ok () (hafter.failWith _)
      · exact .error _ hafter

theorem oblivious_runQueue (fuel : Nat) : Oblivious (runQueue fuel) := by
  induction fuel with
  | zero => exact oblivious_pure ()
  | succ fuel ih =>
      rintro s _ ⟨counts, journal, rfl⟩
      simp only [runQueue]
      split
      · exact .ok () ⟨counts, journal, rfl⟩
      next id queue hpop =>
        have hsame := oblivious_runOne id { s with queue } _ ⟨counts, journal, rfl⟩
        generalize runOne id { s with queue } = r at hsame ⊢
        generalize runOne id { s with queue, counts, journal } = r' at hsame ⊢
        cases hsame with
        | ok x halike => exact ih _ _ halike
        | error fault halike => exact .error fault halike

theorem oblivious_propagate : Oblivious propagate := by
  rintro s s' halike
  unfold propagate
  rw [halike.failure]
  split
  · exact .ok _ halike
  · have hsame := oblivious_schedule none s s' halike
    generalize schedule none s = r at hsame ⊢
    generalize schedule none s' = r' at hsame ⊢
    cases hsame with
    | error fault halike => exact .error fault halike
    | @ok _ t t' halike =>
        have hfuel : t'.enoughRuns = t.enoughRuns := by
          obtain ⟨_, _, rfl⟩ := halike
          rfl
        have hsame := oblivious_runQueue t.enoughRuns t t' halike
        simp only [hfuel]
        generalize runQueue t.enoughRuns t = r at hsame ⊢
        generalize runQueue t.enoughRuns t' = r' at hsame ⊢
        cases hsame with
        | error fault halike => exact .error fault halike
        | ok _ halike =>
            simp only [halike.failure]
            exact .ok _ halike

/-! ## Exploration -/

theorem oblivious_advanceBy (fuel : Nat) : Oblivious (advanceBy fuel) := by
  induction fuel with
  | zero => exact oblivious_pure false
  | succ fuel ih =>
      rintro s _ ⟨counts, journal, rfl⟩
      simp only [advanceBy]
      split
      · exact .ok _ ⟨_, _, rfl⟩
      · split
        · exact .error _ ⟨_, _, rfl⟩
        · split
          · exact .ok _ ⟨_, _, rfl⟩
          · exact ih _ _ ⟨_, _, rfl⟩

theorem oblivious_advance : Oblivious advance := by
  rintro s _ ⟨counts, journal, rfl⟩
  exact oblivious_advanceBy _ _ _ ⟨counts, journal, rfl⟩

theorem oblivious_status : Oblivious status := by
  refine oblivious_propagate.bind fun reason => ?_
  cases reason with
  | some _ => exact oblivious_pure _
  | none => exact oblivious_advance.bind fun _ => oblivious_pure _

/-- The choice of the active brancher, once the cursors have been moved. -/
def propose : Operation Choice := fun s =>
  match s.branchers[s.active]? with
  | none => .error (.refused .noBrancher) s
  | some b =>
    match b.choice s.store with
    | .error breach => .error (.breached breach) s
    | .ok (proposed, b, notes) =>
      let s := { s with branchers := s.branchers.setIfInBounds s.active b }.noteAll notes
      match proposed with
      | none => .error (.refused .noBrancher) s
      | some choice => .ok { choice with brancher := s.active } s

theorem choice_eq (s : Space) :
    choice s =
      if s.isFailed then .error (.refused .spaceFailed) s
      else if !s.isStable then .error (.refused .notStable) s
      else
        match advance s with
        | .error fault s => .error fault s
        | .ok false s => .error (.refused .noBrancher) s
        | .ok true s => propose s := rfl

/-- A choice is proposed by the active brancher, once the cursors have been moved. -/
theorem exists_propose_of_choice {c : Choice} (hrun : Space.choice s = .ok c t) :
    s.failure = none ∧ ∃ u, advance s = .ok true u ∧ Space.propose u = .ok c t := by
  rw [choice_eq] at hrun
  split at hrun
  · cases hrun
  next hfailed =>
    have hok : s.failure = none := by simpa [isFailed] using hfailed
    split at hrun
    · cases hrun
    split at hrun
    · cases hrun
    · cases hrun
    next u hadvance => exact ⟨hok, u, hadvance, hrun⟩

theorem oblivious_propose : Oblivious propose := by
  rintro s _ ⟨counts, journal, rfl⟩
  unfold propose
  simp only
  split
  · exact .error _ ⟨_, _, rfl⟩
  · split
    · exact .error _ ⟨_, _, rfl⟩
    · split
      · exact .error _ ⟨_, _, rfl⟩
      · exact .ok _ ⟨_, _, rfl⟩

theorem oblivious_choice : Oblivious choice := by
  intro s s' halike
  have hfailed : s'.isFailed = s.isFailed := by rw [isFailed, halike.failure, isFailed]
  have hstable : s'.isStable = s.isStable := by
    obtain ⟨_, _, rfl⟩ := halike
    rfl
  rw [choice_eq, choice_eq, hfailed, hstable]
  by_cases hfails : s.isFailed = true
  · rw [if_pos hfails, if_pos hfails]
    exact .error _ halike
  by_cases hwaits : (!s.isStable) = true
  · rw [if_neg hfails, if_neg hfails, if_pos hwaits, if_pos hwaits]
    exact .error _ halike
  rw [if_neg hfails, if_neg hfails, if_neg hwaits, if_neg hwaits]
  have hsame := oblivious_advance s s' halike
  generalize advance s = r at hsame ⊢
  generalize advance s' = r' at hsame ⊢
  cases hsame with
  | error fault halike => exact .error fault halike
  | ok found halike =>
      cases found with
      | false => exact .error _ halike
      | true => exact oblivious_propose _ _ halike

theorem oblivious_commit (chosen : Choice) (alternative : Nat) :
    Oblivious (commit chosen alternative) := by
  rintro s _ ⟨counts, journal, rfl⟩
  unfold commit
  simp only [isFailed]
  split
  · exact .ok _ ⟨_, _, rfl⟩
  split
  · exact .error _ ⟨_, _, rfl⟩
  split
  · exact .error _ ⟨_, _, rfl⟩
  split
  · exact .error _ ⟨_, _, rfl⟩
  split
  · exact oblivious_schedule _ _ _ ⟨_, _, rfl⟩
  · exact .ok _ (Alike.failWith ⟨_, _, rfl⟩ _)
  · exact .error _ ⟨_, _, rfl⟩

theorem oblivious_throw {α : Type} (fault : Fault) :
    Oblivious (throw fault : Operation α) :=
  fun _ _ halike => .error fault halike

theorem oblivious_replay (edges : List (Choice × Nat)) :
    Oblivious (Path.replay edges) := by
  induction edges with
  | nil => exact oblivious_pure ()
  | cons edge rest ih =>
      refine oblivious_status.bind fun _ => oblivious_choice.bind fun replayed => ?_
      split
      · exact (oblivious_commit _ _).bind fun _ => ih
      · exact oblivious_throw _

/-! ## Copies -/

end Space

theorem CopyContext.copyAll_sharing {α : Type} {context : CopyContext}
    (hmode : context.mode = .sharing) (handles : List (Shared α)) :
    context.copyAll handles = (handles, context) := by
  induction handles with
  | nil => rfl
  | cons handle rest ih => simp [copyAll, copyShared, hmode, ih]

theorem Propagator.onCopy_sharing (p : Propagator) {context : CopyContext}
    (hmode : context.mode = .sharing) : p.onCopy context = (p, context) := by
  cases p with
  | scripted script => simp [onCopy, CopyContext.copyAll_sharing hmode]
  | _ => rfl

theorem Brancher.onCopy_sharing (b : Brancher) {context : CopyContext}
    (hmode : context.mode = .sharing) : b.onCopy context = (b, context) := by
  cases b with
  | observer o => rfl
  | viewValue b =>
      obtain ⟨start, selector, branching, label, sn, cn⟩ := b
      cases branching with
      | int views selection commit =>
          cases selection <;>
            simp [onCopy, ViewBrancher.onCopy, Branching.onCopy, IntSelection.onCopy,
              CopyContext.copyShared, hmode]
      | float views commit => rfl
      | set views selection commit => rfl

namespace Space

variable {s s' : Space}

theorem setPropagator_self {id : Nat} {p : Propagator} (hp : s.propagator? id = some p) :
    s.setPropagator id p = s := by
  have hslots : (s.slots.modify id fun slot => { slot with propagator := some p }) =
      s.slots := by
    refine Array.ext_getElem? fun other => ?_
    rw [Array.getElem?_modify]
    split
    next heq =>
      subst heq
      unfold propagator? at hp
      cases hslot : s.slots[id]? with
      | none => rfl
      | some slot =>
          simp only [hslot] at hp
          rw [Option.map_some, ← hp]
    next => rfl
  unfold setPropagator
  rw [hslots]

theorem tellCopy_sharing {context : CopyContext} (hmode : context.mode = .sharing)
    (actor : Noticed) :
    s.Alike (tellCopy .sharing (s, context) actor).1 ∧
      (tellCopy .sharing (s, context) actor).2 = context := by
  cases actor with
  | propagator id =>
      simp only [tellCopy]
      cases hp : s.propagator? id with
      | none => exact ⟨.refl s, rfl⟩
      | some p =>
          simp only [p.onCopy_sharing hmode, setPropagator_self hp, and_true]
          exact ⟨s.counts, _, rfl⟩
  | brancher id =>
      simp only [tellCopy]
      cases hb : s.branchers[id]? with
      | none => exact ⟨.refl s, rfl⟩
      | some b =>
          have hsame : s.branchers.setIfInBounds id b = s.branchers :=
            Store.setIfInBounds_self hb
          simp only [b.onCopy_sharing hmode, hsame, and_true]
          exact ⟨s.counts, _, rfl⟩

theorem foldl_tellCopy_sharing {context : CopyContext} (hmode : context.mode = .sharing)
    (actors : List Noticed) (s : Space) :
    s.Alike (actors.foldl (tellCopy .sharing) (s, context)).1 := by
  induction actors generalizing s with
  | nil => exact .refl s
  | cons actor rest ih =>
      obtain ⟨halike, hcontext⟩ := tellCopy_sharing (s := s) hmode actor
      rw [List.foldl_cons, ← Prod.mk.eta (p := tellCopy .sharing (s, context) actor),
        hcontext]
      exact halike.trans (ih _)

/-- A copy of a space that is not failed is alike to it. -/
theorem alike_copy (hok : s.failure = none) (next : Nat) :
    s.Alike (s.copy .sharing next).1 := by
  have hcopy : (s.copy .sharing next).1 = (s.noticed.foldl (tellCopy .sharing)
      ({ s with counts := .zero, journal := [] }, .begin .sharing next)).1 := by
    simp only [copy, hok]
  rw [hcopy]
  exact Alike.trans ⟨.zero, [], rfl⟩ (foldl_tellCopy_sharing rfl s.noticed _)

theorem alike_clone (hok : s.failure = none) : s.Alike s.clone :=
  alike_copy hok 0

end Space

end ConstraintSpace
