import ConstraintSpace.Proofs.Space.Effects
import ConstraintSpace.Proofs.Space.Likeness

/-!
# Acts and their logs

An act is one operation that a caller may ask a space for.  A refused act may
leave the space changed, and the run goes on from there; after a breach nothing
is promised and the run ends.  The log of an act lists its narrowings and its runs
of propagators in order, each with the events that it raised.  What a post, a commit
or a choice may come to is said once, and every act unfolds into effects whose log is
that of the act.
-/

namespace ConstraintSpace

namespace Space

variable {s s' t : Space} {α β : Type}

/-! ## Acts -/

/-- An operation on a space, with its arguments. -/
inductive Act where
  | newInt (lower upper : Int)
  | newSparse (values : List Int)
  | newBool
  | newFloat (lower upper : Double)
  | newSet (glb lub : List Int) (card : Nat × Nat)
  | post (keepGoing : Bool) (narrowings : List Narrowing)
  | addPropagator (p : Propagator) (rejection : Option SpaceError)
  | addBrancher (b : Brancher)
  | propagate
  | status
  | observe (observer : Observer)
  | choice
  | commit (chosen : Choice) (alternative : Nat)
  | fail
  | copy (mode : CopyMode) (next : Nat)
  | readJournal
  | rescript (id : Nat) (script : Nat → Store → Step)

/-- The space with which a run goes on after an operation. -/
def resume {α : Type} : EStateM.Result Fault Space α → Option Space
  | .ok _ s => some s
  | .error (.refused _) s => some s
  | .error (.breached _) _ => none

/-- The space after an act.  A copy goes on in place of the copied space. -/
def Act.perform (act : Act) (s : Space) : Option Space :=
  match act with
  | .newInt lower upper => resume (Space.newInt lower upper s)
  | .newSparse values => resume (Space.newSparse values s)
  | .newBool => resume (Space.newBool s)
  | .newFloat lower upper => resume (Space.newFloat lower upper s)
  | .newSet glb lub card => resume (Space.newSet glb lub card s)
  | .post keepGoing narrowings => resume (Space.post keepGoing narrowings s)
  | .addPropagator p rejection => resume (Space.addPropagator p rejection s)
  | .addBrancher b => resume (Space.addBrancher b s)
  | .propagate => resume (Space.propagate s)
  | .status => resume (Space.status s)
  | .observe observer => resume (Space.observe observer s)
  | .choice => resume (Space.choice s)
  | .commit chosen alternative => resume (Space.commit chosen alternative s)
  | .fail => some s.fail
  | .copy mode next => some (s.copy mode next).1
  | .readJournal => some s.readJournal.2
  | .rescript id script => some (Space.rescript id script s).2

/-- Some acts, one after the other, lead from the first space to the second. -/
inductive Reaches (s : Space) : Space → Prop where
  | refl : Reaches s s
  | act {t u : Space} (act : Act) (hreaches : Reaches s t)
      (hperform : act.perform t = some u) : Reaches s u

/-! ## Logs -/

/-- The turns of waiting propagators, at most `fuel` of them. -/
def queueLog : Nat → Space → List Entry
  | 0, _ => []
  | fuel + 1, s =>
    match s.queue.pop? with
    | none => []
    | some (id, queue) =>
      turnLog id s ++
        match runOne id { s with queue } with
        | .ok _ s => queueLog fuel s
        | .error _ _ => []

def propagateLog (s : Space) : List Entry :=
  match s.failure with
  | some _ => []
  | none =>
    match schedule none s with
    | .ok _ s => queueLog s.enoughRuns s
    | .error _ _ => []

def postLog (keepGoing : Bool) (narrowings : List Narrowing) (s : Space) : List Entry :=
  if s.isFailed then []
  else [.narrowed (Narrowing.applyAll keepGoing narrowings s.store).2.2.pending]

def commitLog (choice : Choice) (alternative : Nat) (s : Space) : List Entry :=
  if s.isFailed || choice.alternatives ≤ alternative then []
  else
    match s.branchers[choice.brancher]? with
    | none => []
    | some b =>
      match b.commit choice alternative with
      | .error _ => []
      | .ok narrowing => [.narrowed (narrowing.after s.store).pending]

/-- The narrowings and runs of an act, in order. -/
def Act.log (s : Space) : Act → List Entry
  | .post keepGoing narrowings => postLog keepGoing narrowings s
  | .commit chosen alternative => commitLog chosen alternative s
  | .propagate | .status => propagateLog s
  | .observe observer =>
    match Space.addBrancher (.observer observer) s with
    | .ok _ s => propagateLog s
    | .error _ _ => []
  | _ => []

/-- The space after some acts, one after the other. -/
def performAll : List Act → Space → Option Space
  | [], s => some s
  | act :: rest, s => (act.perform s).bind (performAll rest)

/-- The log of some acts, one after the other. -/
def history : List Act → Space → List Entry
  | [], _ => []
  | act :: rest, s =>
    act.log s ++
      match act.perform s with
      | some s => history rest s
      | none => []

theorem reaches_of_performAll {acts : List Act} (hperform : performAll acts s = some s') :
    s.Reaches s' := by
  suffices hgeneral : ∀ t, s.Reaches t → performAll acts t = some s' → s.Reaches s' from
    hgeneral s .refl hperform
  clear hperform
  induction acts with
  | nil =>
      intro t hreaches hperform
      obtain rfl := Option.some.inj hperform
      exact hreaches
  | cons act rest ih =>
      intro t hreaches hperform
      obtain ⟨u, hact, hrest⟩ := Option.bind_eq_some_iff.mp hperform
      exact ih u (hreaches.act act hact) hrest

/-! ## How operations end -/

/-- The operation is never refused. -/
def Willing (m : Operation α) : Prop :=
  ∀ s error s', m s ≠ .error (.refused error) s'

theorem willing_schedule (skip : Option Nat) : Willing (schedule skip) := by
  intro s error s' hrun
  rcases schedule_cases skip s with ⟨breach, t, hrun', _⟩ | ⟨q, journal, hrun', _⟩ <;>
    simp [hrun] at hrun'

theorem willing_advanceBy (fuel : Nat) : Willing (advanceBy fuel) := by
  induction fuel with
  | zero =>
      intro s error s' hrun
      have hrun' : (.ok false s : EStateM.Result Fault Space Bool) =
        .error (.refused error) s' := hrun
      simp at hrun'
  | succ fuel ih =>
      intro s error s' hrun
      simp only [advanceBy] at hrun
      split at hrun
      · simp at hrun
      · split at hrun
        · simp at hrun
        · split at hrun
          · simp at hrun
          · exact ih _ _ _ hrun

theorem Willing.ok_of_resume {m : Operation α} (hwilling : Willing m)
    (hrun : resume (m s) = some s') : ∃ x, m s = .ok x s' := by
  cases hm : m s with
  | ok x t =>
      rw [hm] at hrun
      obtain rfl := Option.some.inj hrun
      exact ⟨x, rfl⟩
  | error fault t =>
      cases fault with
      | refused error => exact absurd hm (hwilling s error t)
      | breached breach => simp [hm, resume] at hrun

theorem resume_of_ok {m : Operation α} {x : α} (hm : m s = .ok x t) :
    resume (m s) = some t := by
  rw [hm, resume]

theorem bind_of_error {m : Operation α} {fault : Fault} (hm : m s = .error fault t)
    (k : α → Operation β) : (m >>= k) s = .error fault t := by
  simp only [Bind.bind, EStateM.bind, hm]

theorem bind_of_ok {m : Operation α} {x : α} (hm : m s = .ok x t) (k : α → Operation β) :
    (m >>= k) s = k x t := by
  simp only [Bind.bind, EStateM.bind, hm]

/-- Of two operations in a row the first one is refused, or the second goes on from where
the first one ended. -/
theorem resume_bind_cases {m : Operation α} {k : α → Operation β}
    (hrun : resume ((m >>= k) s) = some t) :
    resume (m s) = some t ∨ ∃ x u, m s = .ok x u ∧ resume (k x u) = some t := by
  cases hm : m s with
  | ok x u =>
      rw [bind_of_ok hm] at hrun
      exact Or.inr ⟨x, u, rfl, hrun⟩
  | error fault u =>
      rw [bind_of_error hm] at hrun
      cases fault <;> exact Or.inl hrun

/-- The space is left as it was, or its domains are narrowed to a store with the property,
and then the events are passed on or the space fails. -/
inductive Tightens (P : Store → Prop) (s : Space) : List Entry → Space → Prop where
  | idle : Tightens P s [] s
  | passed {store : Store} {t : Space} (counts : SpaceCounts) (hok : s.failure = none)
      (hstore : P store) (hrun : schedule none { s with store, counts } = .ok () t) :
      Tightens P s [.narrowed store.pending] t
  | failed {store : Store} (counts : SpaceCounts) (hok : s.failure = none)
      (hstore : P store) :
      Tightens P s [.narrowed store.pending] ({ s with store, counts }.failWith .emptyDomain)

theorem post_tightens {P : Store → Prop} {keepGoing : Bool} {narrowings : List Narrowing}
    (hstore : P (Narrowing.applyAll keepGoing narrowings s.store).2.2)
    (hrun : resume (post keepGoing narrowings s) = some t) :
    s.Tightens P (postLog keepGoing narrowings s) t := by
  unfold postLog
  unfold post at hrun
  split at hrun
  next hfailed =>
    obtain rfl := Option.some.inj hrun
    rw [if_pos hfailed]
    exact .idle
  next hopen =>
  rw [if_neg hopen]
  have hok : s.failure = none := by simpa [isFailed] using hopen
  split at hrun
  next outcomes store happly =>
    rw [happly] at hstore ⊢
    split at hrun
    next u hschedule =>
      obtain rfl : u = t := Option.some.inj hrun
      exact .passed s.counts hok hstore hschedule
    next fault u hschedule =>
      cases fault with
      | refused error => exact absurd hschedule (willing_schedule none _ error u)
      | breached breach => simp [resume] at hrun
  next outcomes store happly =>
    rw [happly] at hstore ⊢
    obtain rfl := Option.some.inj hrun
    exact .failed s.counts hok hstore
  next => simp [resume] at hrun

theorem commit_tightens {P : Store → Prop} {chosen : Choice} {alternative : Nat}
    (hstore : ∀ (b : Brancher) (narrowing : Narrow Change),
      b.commit chosen alternative = .ok narrowing → P (narrowing.after s.store))
    (hrun : resume (commit chosen alternative s) = some t) :
    s.Tightens P (commitLog chosen alternative s) t := by
  unfold commitLog
  unfold commit at hrun
  split at hrun
  next hfailed =>
    obtain rfl := Option.some.inj hrun
    simp only [hfailed, Bool.true_or, if_true]
    exact .idle
  next hopen =>
  have hok : s.failure = none := by simpa [isFailed] using hopen
  split at hrun
  next hillegal =>
    obtain rfl := Option.some.inj hrun
    simp only [hillegal, decide_true, Bool.or_true, if_true]
    exact .idle
  next hlegal =>
  simp only [hopen, hlegal, decide_false, Bool.or_false, Bool.false_eq_true, if_false]
  cases hb : s.branchers[chosen.brancher]? with
  | none =>
      simp only [hb] at hrun
      obtain rfl := Option.some.inj hrun
      exact .idle
  | some b =>
      cases hcommit : b.commit chosen alternative with
      | error error =>
          simp only [hb, hcommit] at hrun ⊢
          obtain rfl := Option.some.inj hrun
          exact .idle
      | ok narrowing =>
          have hafter := hstore b narrowing hcommit
          cases hnarrow : narrowing s.store with
          | ok change store =>
              simp only [hb, hcommit, hnarrow, Narrow.after_of_ok hnarrow] at hrun hafter ⊢
              obtain ⟨_, hschedule⟩ := (willing_schedule none).ok_of_resume hrun
              exact .passed _ hok hafter hschedule
          | error misstep store =>
              simp only [hb, hcommit, hnarrow, Narrow.after_of_error hnarrow] at hrun hafter ⊢
              cases misstep with
              | emptied =>
                  obtain rfl := Option.some.inj hrun
                  exact .failed _ hok hafter
              | breached breach => simp [resume] at hrun

theorem commitLog_cases (chosen : Choice) (alternative : Nat) (s : Space) :
    commitLog chosen alternative s = [] ∨ ∃ (b : Brancher) (narrowing : Narrow Change),
      b.commit chosen alternative = .ok narrowing ∧
        commitLog chosen alternative s = [.narrowed (narrowing.after s.store).pending] := by
  unfold commitLog
  split
  · exact Or.inl rfl
  split
  · exact Or.inl rfl
  next b _ =>
  split
  · exact Or.inl rfl
  next narrowing hcommit => exact Or.inr ⟨b, narrowing, hcommit, rfl⟩

/-- A choice is refused at once, or once the cursors were moved, or the active brancher is
asked to propose it. -/
theorem choice_cases (hrun : resume (choice s) = some t) :
    t = s ∨ advance s = .ok false t ∨
      ∃ u, advance s = .ok true u ∧ resume (propose u) = some t := by
  rw [choice_eq] at hrun
  split at hrun
  · exact Or.inl (Option.some.inj hrun).symm
  split at hrun
  · exact Or.inl (Option.some.inj hrun).symm
  split at hrun
  next fault u hadvance =>
    cases fault with
    | refused error => exact absurd hadvance (willing_advanceBy _ s error u)
    | breached breach => simp [resume] at hrun
  next u hadvance =>
    obtain rfl : u = t := Option.some.inj hrun
    exact Or.inr (Or.inl hadvance)
  next u hadvance => exact Or.inr (Or.inr ⟨u, hadvance, hrun⟩)

/-! ## Operations unfold -/

/-- Whatever the operation gives, the space unfolds with the log. -/
def Traces (m : Operation α) (log : Space → List Entry) : Prop :=
  ∀ s : Space, s.Sound → ∀ s', resume (m s) = some s' → s.Unfolds (log s) s'

/-- Whatever the operation gives, the space unfolds and there is nothing to
remember. -/
abbrev Silent (m : Operation α) : Prop := Traces m fun _ => []

theorem silent_pure (x : α) : Silent (pure x : Operation α) := by
  intro s hsound s' hrun
  have hrun' : some s = some s' := hrun
  obtain rfl := Option.some.inj hrun'
  exact .refl

/-- What follows an operation adds nothing to its log. -/
theorem Traces.bind {m : Operation α} {log : Space → List Entry} {k : α → Operation β}
    (hm : Traces m log) (hk : ∀ x, Silent (k x)) : Traces (m >>= k) log := by
  intro s hsound s' hrun
  rcases resume_bind_cases hrun with hrun | ⟨x, t, hfirst, hrest⟩
  · exact hm s hsound s' hrun
  · have hunfolds := hm s hsound t (resume_of_ok hfirst)
    simpa using hunfolds.trans (hk x t (hunfolds.sound hsound) s' hrest)

theorem silent_checkNotFailed : Silent checkNotFailed := by
  intro s hsound s' hrun
  unfold checkNotFailed at hrun
  split at hrun <;>
  · obtain rfl : s = s' := by simpa [resume] using hrun
    exact .refl

/-- A check that a space has not failed, and then the operation. -/
theorem Silent.checked {m : Operation α}
    (hm : ∀ s : Space, s.Sound → s.failure = none → ∀ s', resume (m s) = some s' →
      s.Unfolds [] s') :
    Silent (checkNotFailed >>= fun _ => m) := by
  intro s hsound s' hrun
  cases hfailure : s.failure with
  | none =>
      have hstep : (checkNotFailed >>= fun _ => m) s = m s := by
        simp [Bind.bind, EStateM.bind, checkNotFailed, isFailed, hfailure]
      rw [hstep] at hrun
      exact hm s hsound hfailure s' hrun
  | some reason =>
      have hstep : (checkNotFailed >>= fun _ => m) s = .error (.refused .spaceFailed) s := by
        simp [Bind.bind, EStateM.bind, checkNotFailed, isFailed, hfailure]
      rw [hstep] at hrun
      obtain rfl := Option.some.inj hrun
      exact .refl

theorem Silent.permit_bind {result : Except SpaceError α} {k : α → Operation β}
    (hk : ∀ x, result = .ok x → Silent (k x)) : Silent (permit result >>= k) := by
  cases result with
  | error error =>
      intro s hsound s' hrun
      have hrun' : some s = some s' := hrun
      obtain rfl := Option.some.inj hrun'
      exact .refl
  | ok x => exact hk x rfl

theorem silent_modifyGet {f : Space → α × Space}
    (hf : ∀ s : Space, s.Sound → s.Effect [] (f s).2) :
    Silent (modifyGet f : Operation α) := by
  intro s hsound s' hrun
  have hrun' : some (f s).2 = some s' := hrun
  obtain rfl := Option.some.inj hrun'
  exact (hf s hsound).unfolds

/-! ### Building a model -/

theorem silent_addInt {domain : Except SpaceError IntDomain}
    (hdomain : ∀ d, domain = .ok d → d.Valid ∧ d.InLimits) : Silent (addInt domain) := by
  refine silent_checkNotFailed.bind fun _ => Silent.permit_bind fun d hd => ?_
  obtain ⟨hvalid, hlimits⟩ := hdomain d hd
  exact silent_modifyGet fun s _ => .grow (Store.grows_addInt hvalid hlimits s.store)

theorem silent_newInt (lower upper : Int) : Silent (newInt lower upper) :=
  silent_addInt fun _ hd =>
    ⟨(IntDomain.of_ofBounds_eq_ok hd).1, (IntDomain.of_ofBounds_eq_ok hd).2.1⟩

theorem silent_newSparse (values : List Int) : Silent (newSparse values) :=
  silent_addInt fun _ hd =>
    ⟨(IntDomain.of_ofValues_eq_ok hd).1, (IntDomain.of_ofValues_eq_ok hd).2.1⟩

theorem silent_newBool : Silent newBool :=
  (silent_newInt 0 1).bind fun id => silent_pure (IntView.truth id)

theorem silent_newFloat (lower upper : Double) : Silent (newFloat lower upper) :=
  silent_checkNotFailed.bind fun _ => Silent.permit_bind fun _ hd =>
    silent_modifyGet fun s _ =>
      .grow (Store.grows_addFloat (FloatDomain.valid_of_ofBounds_eq_ok hd) s.store)

theorem silent_newSet (glb lub : List Int) (card : Nat × Nat) :
    Silent (newSet glb lub card) :=
  silent_checkNotFailed.bind fun _ => Silent.permit_bind fun _ hd =>
    silent_modifyGet fun s _ =>
      .grow (Store.grows_addSet (SetDomain.of_ofBounds_eq_ok hd).1 s.store)

theorem Tightens.unfolds {log : List Entry}
    (htightens : s.Tightens (fun store => store.Valid ∧ s.store.Narrows store) log s') :
    s.Unfolds log s' := by
  cases htightens with
  | idle => exact .refl
  | passed counts hok hstore hrun =>
      exact (Effect.narrow counts hok hstore.1 hstore.2 hrun).unfolds
  | failed counts hok hstore =>
      exact (Effect.fail counts _ .emptyDomain hstore.1 hstore.2 (by simp)).unfolds

theorem traces_post (keepGoing : Bool) (narrowings : List Narrowing) :
    Traces (post keepGoing narrowings) (postLog keepGoing narrowings) := fun _ hsound _ hrun =>
  (post_tightens (Narrowing.applyAll_narrows keepGoing narrowings hsound.store) hrun).unfolds

theorem silent_announce (name : String) (position : Nat) (watches : List Watch) :
    Silent (announce name position watches) := by
  induction watches generalizing position with
  | nil => exact silent_pure ()
  | cons watch rest ih =>
      intro s hsound s' hrun
      unfold announce at hrun
      split at hrun
      · have hkin : s.Kin (s.note (.registered name position
            (watch.view.isFixed s.store))) := .of_slots rfl rfl rfl rfl rfl
        exact (Effect.touch hkin).unfolds.trans (ih _ _ (hkin.sound hsound) s' hrun)
      · simp [resume] at hrun

theorem failure_announce {name : String} {watches : List Watch} {position : Nat}
    {s : Space} (hrun : announce name position watches s = .ok () s') :
    s'.failure = s.failure := by
  induction watches generalizing position s with
  | nil =>
      have hrun' : (.ok () s : EStateM.Result Fault Space Unit) = .ok () s' := hrun
      obtain rfl : s = s' := by simpa using hrun'
      rfl
  | cons watch rest ih =>
      unfold announce at hrun
      split at hrun
      · have hrest := ih hrun
        exact hrest
      · simp at hrun

/-- Noting its watches is all that happens before a propagator is registered. -/
theorem present_cases (p : Propagator) :
    Silent (present p) ∧ ∀ s s', present p s = .ok () s' → s'.failure = s.failure := by
  cases p with
  | scripted script =>
      exact ⟨silent_announce script.name 0 script.watches, fun _ _ => failure_announce⟩
  | _ =>
      refine ⟨silent_pure (), fun s s' hrun => ?_⟩
      have hrun' : (.ok () s : EStateM.Result Fault Space Unit) = .ok () s' := hrun
      obtain rfl : s = s' := by simpa using hrun'
      rfl

theorem silent_addPropagator (p : Propagator) (rejection : Option SpaceError) :
    Silent (addPropagator p rejection) := by
  obtain ⟨hsilent, hsame⟩ := present_cases p
  refine Silent.checked fun s hsound hok s' hrun => ?_
  rcases resume_bind_cases hrun with hrun | ⟨_, t, hpresent, hrest⟩
  · exact hsilent s hsound s' hrun
  · have hunfolds := hsilent s hsound t (resume_of_ok hpresent)
    have hok' : t.failure = none := (hsame s t hpresent).trans hok
    cases rejection with
    | some error =>
        obtain rfl : t = s' := Option.some.inj hrest
        exact hunfolds
    | none =>
        obtain rfl : t.register p = s' := Option.some.inj hrest
        exact hunfolds.tail (.register hok' p)

theorem silent_addBrancher (b : Brancher) : Silent (addBrancher b) :=
  silent_checkNotFailed.bind fun _ => silent_modifyGet fun _ _ =>
    .touch (.of_slots rfl rfl rfl rfl rfl)

/-! ### Propagation -/

theorem willing_runOne (id : Nat) : Willing (runOne id) := by
  intro s error s' hrun
  cases hp : s.propagator? id with
  | none => simp [runOne_of_gone hp] at hrun
  | some p =>
      rw [runOne_eq hp] at hrun
      split at hrun
      · exact willing_schedule _ _ _ _ hrun
      · exact willing_schedule _ _ _ _ hrun
      · exact willing_schedule _ _ _ _ hrun
      · simp at hrun
      · simp at hrun

theorem willing_runQueue (fuel : Nat) : Willing (runQueue fuel) := by
  induction fuel with
  | zero =>
      intro s error s' hrun
      have hrun' : (.ok () s : EStateM.Result Fault Space Unit) =
        .error (.refused error) s' := hrun
      simp at hrun'
  | succ fuel ih =>
      intro s error s' hrun
      cases hpop : s.queue.pop? with
      | none => simp [runQueue_of_pop?_eq_none hpop] at hrun
      | some result =>
          obtain ⟨id, q⟩ := result
          rw [runQueue_succ hpop] at hrun
          split at hrun
          · exact ih _ _ _ hrun
          next fault t hone =>
            simp only [EStateM.Result.error.injEq] at hrun
            obtain ⟨rfl, rfl⟩ := hrun
            exact willing_runOne _ _ _ _ hone

theorem willing_propagate : Willing propagate := by
  intro s error s' hrun
  unfold propagate at hrun
  split at hrun
  · simp at hrun
  · split at hrun
    next fault t hschedule =>
      simp only [EStateM.Result.error.injEq] at hrun
      obtain ⟨rfl, rfl⟩ := hrun
      exact willing_schedule _ _ _ _ hschedule
    · split at hrun
      next fault t hqueue =>
        simp only [EStateM.Result.error.injEq] at hrun
        obtain ⟨rfl, rfl⟩ := hrun
        exact willing_runQueue _ _ _ _ hqueue
      · simp at hrun

theorem unfolds_of_runQueue {fuel : Nat} (hsound : s.Sound)
    (hquiet : s.store.isQuiet = true) (hrun : runQueue fuel s = .ok () s') :
    s.Unfolds (queueLog fuel s) s' := by
  induction fuel generalizing s with
  | zero =>
      have hrun' : (.ok () s : EStateM.Result Fault Space Unit) = .ok () s' := hrun
      obtain rfl : s = s' := by simpa using hrun'
      exact .refl
  | succ fuel ih =>
      cases hpop : s.queue.pop? with
      | none =>
          rw [runQueue_of_pop?_eq_none hpop] at hrun
          obtain rfl : s = s' := by simpa using hrun
          simp only [queueLog, hpop]
          exact .refl
      | some result =>
          obtain ⟨id, q⟩ := result
          rw [runQueue_succ hpop] at hrun
          cases hone : runOne id { s with queue := q } with
          | ok _ t =>
              rw [hone] at hrun
              have hran := (hsound.popped hpop).runOne hquiet hone
              simp only [queueLog, hpop, hone]
              exact (Effect.turn hquiet hpop hone).unfolds.trans
                (ih hran.sound hran.quiet hrun)
          | error fault t =>
              rw [hone] at hrun
              simp at hrun

theorem traces_propagate : Traces propagate propagateLog := by
  intro s hsound s' hrun
  obtain ⟨reason, hok⟩ := willing_propagate.ok_of_resume hrun
  unfold propagateLog
  rcases propagate_cases hok with ⟨first, hfailure, -, rfl⟩ | ⟨hfailure, -, t, hschedule, hqueue⟩
  · simp only [hfailure]
    exact .refl
  · simp only [hfailure, hschedule]
    obtain ⟨hsound', hstore, -⟩ := hsound.schedule hschedule
    have hquiet : t.store.isQuiet = true := by
      rw [hstore]
      rfl
    exact (Effect.drain hfailure hschedule).unfolds.trans
      (unfolds_of_runQueue hsound' hquiet hqueue)

/-! ### Exploration -/

/-- What every question to the active brancher keeps, and moving past it where it has no
alternatives, holds once the cursors were moved. -/
theorem advanceBy_induction {P : Space → Prop}
    (hask : ∀ s b branches b' notes, P s → s.branchers[s.active]? = some b →
      b.status s.store = .ok (branches, b', notes) →
        let asked := { s with branchers := s.branchers.setIfInBounds s.active b' }.noteAll notes
        (branches = true → P asked) ∧
          (branches = false → P { asked with active := s.active + 1 }))
    {fuel : Nat} {found : Bool} (hstart : P s) (hrun : advanceBy fuel s = .ok found t) :
    P t := by
  induction fuel generalizing s with
  | zero =>
      cases hrun
      exact hstart
  | succ fuel ih =>
      simp only [advanceBy] at hrun
      split at hrun
      · cases hrun
        exact hstart
      next b hb =>
      split at hrun
      · cases hrun
      next branches b' notes hstatus =>
        obtain ⟨hfound, hpassed⟩ := hask s b branches b' notes hstart hb hstatus
        cases branches with
        | true =>
            rw [if_pos rfl] at hrun
            cases hrun
            exact hfound rfl
        | false =>
            rw [if_neg Bool.false_ne_true] at hrun
            exact ih (hpassed rfl) hrun

/-- Moving past branchers changes nothing but the branchers and the journal. -/
theorem kin_of_advanceBy {fuel : Nat} {found : Bool}
    (hrun : advanceBy fuel s = .ok found s') : s.Kin s' :=
  advanceBy_induction (P := s.Kin)
    (fun _ _ _ _ _ hkin _ _ =>
      ⟨fun _ => hkin.trans (.of_slots rfl rfl rfl rfl rfl),
        fun _ => hkin.trans (.of_slots rfl rfl rfl rfl rfl)⟩)
    (.refl s) hrun

theorem silent_advance : Silent advance := by
  intro s hsound s' hrun
  obtain ⟨found, hok⟩ := (willing_advanceBy _).ok_of_resume (m := advanceBy _) hrun
  exact (Effect.touch (kin_of_advanceBy hok)).unfolds

theorem traces_status : Traces status propagateLog := by
  refine traces_propagate.bind fun reason => ?_
  cases reason with
  | some _ => exact silent_pure _
  | none => exact silent_advance.bind fun found => silent_pure _

theorem traces_observe (observer : Observer) :
    Traces (observe observer) fun s => (Act.observe observer).log s := by
  intro s hsound s' hrun
  have hadded := silent_addBrancher (.observer observer) s hsound
  cases hadd : addBrancher (.observer observer) s with
  | ok id t =>
      rw [observe, bind_of_ok hadd] at hrun
      have hunfolds := hadded t (resume_of_ok hadd)
      simp only [Act.log, hadd]
      exact hunfolds.trans (traces_status t (hunfolds.sound hsound) s' hrun)
  | error fault t =>
      rw [observe, bind_of_error hadd] at hrun
      simp only [Act.log, hadd]
      rw [hadd] at hadded
      cases fault <;> exact hadded s' hrun

theorem kin_of_propose (hrun : resume (propose s) = some s') : s.Kin s' := by
  unfold propose at hrun
  split at hrun
  · obtain rfl := Option.some.inj hrun
    exact .refl s
  split at hrun
  · simp [resume] at hrun
  split at hrun <;>
  · obtain rfl := Option.some.inj hrun
    exact .of_slots rfl rfl rfl rfl rfl

theorem silent_choice : Silent choice := by
  intro s hsound s' hrun
  rcases choice_cases hrun with rfl | hadvance | ⟨t, hadvance, hpropose⟩
  · exact .refl
  · exact (Effect.touch (kin_of_advanceBy hadvance)).unfolds
  · have hkin : s.Kin t := kin_of_advanceBy hadvance
    exact (Effect.touch (hkin.trans (kin_of_propose hpropose))).unfolds

theorem traces_commit (chosen : Choice) (alternative : Nat) :
    Traces (commit chosen alternative) (commitLog chosen alternative) := fun _ hsound _ hrun =>
  (commit_tightens (fun _ _ hcommit => Brancher.safe_commit hcommit _ hsound.store)
    hrun).unfolds

/-! ### Copies -/

theorem kin_tellCopy (mode : CopyMode) (state : Space × CopyContext) (actor : Noticed) :
    state.1.Kin (tellCopy mode state actor).1 := by
  obtain ⟨s, context⟩ := state
  cases actor with
  | brancher id =>
      simp only [tellCopy]
      split
      · exact .refl s
      · exact .of_slots rfl rfl rfl rfl rfl
  | propagator id =>
      simp only [tellCopy]
      split
      · exact .refl s
      next p hp =>
        refine (Kin.setPropagator hp (p.guise_onCopy context)).trans ?_
        exact .of_slots rfl rfl rfl rfl rfl

theorem kin_foldl_tellCopy (mode : CopyMode) (actors : List Noticed)
    (state : Space × CopyContext) :
    state.1.Kin (actors.foldl (tellCopy mode) state).1 := by
  induction actors generalizing state with
  | nil => exact .refl _
  | cons actor rest ih =>
      rw [List.foldl_cons]
      exact (kin_tellCopy mode state actor).trans (ih _)

theorem effect_copy (s : Space) (mode : CopyMode) (next : Nat) :
    s.Effect [] (s.copy mode next).1 := by
  cases hfailure : s.failure with
  | some reason =>
      simp only [copy, hfailure]
      exact .discard hfailure
  | none =>
      simp only [copy, hfailure]
      refine .touch (Kin.trans ?_ (kin_foldl_tellCopy mode s.noticed _))
      exact .of_slots rfl rfl rfl hfailure.symm rfl

theorem kin_rescript (id : Nat) (script : Nat → Store → Step) (s : Space) :
    s.Kin (Space.rescript id script s).2 := by
  unfold Space.rescript
  split
  next p hp => exact .setPropagator hp rfl
  next => exact .refl s

/-- Every act unfolds into effects with its log. -/
theorem Act.unfolds {act : Act} (hsound : s.Sound) (hperform : act.perform s = some s') :
    s.Unfolds (act.log s) s' := by
  cases act with
  | newInt lower upper => exact silent_newInt lower upper s hsound s' hperform
  | newSparse values => exact silent_newSparse values s hsound s' hperform
  | newBool => exact silent_newBool s hsound s' hperform
  | newFloat lower upper => exact silent_newFloat lower upper s hsound s' hperform
  | newSet glb lub card => exact silent_newSet glb lub card s hsound s' hperform
  | post keepGoing narrowings =>
      exact traces_post keepGoing narrowings s hsound s' hperform
  | addPropagator p rejection =>
      exact silent_addPropagator p rejection s hsound s' hperform
  | addBrancher b => exact silent_addBrancher b s hsound s' hperform
  | propagate => exact traces_propagate s hsound s' hperform
  | status => exact traces_status s hsound s' hperform
  | observe observer => exact traces_observe observer s hsound s' hperform
  | choice => exact silent_choice s hsound s' hperform
  | commit chosen alternative =>
      exact traces_commit chosen alternative s hsound s' hperform
  | fail =>
      obtain rfl := Option.some.inj hperform
      exact (Effect.fail s.counts [] .conflict hsound.store (.refl hsound.store)
        (by simp)).unfolds
  | copy mode next =>
      obtain rfl := Option.some.inj hperform
      exact (effect_copy s mode next).unfolds
  | readJournal =>
      obtain rfl := Option.some.inj hperform
      have hkin : s.Kin s.readJournal.2 := .of_slots rfl rfl rfl rfl rfl
      exact (Effect.touch hkin).unfolds
  | rescript id script =>
      obtain rfl := Option.some.inj hperform
      exact (Effect.touch (kin_rescript id script s)).unfolds

/-- So do acts one after the other. -/
theorem unfolds_of_performAll {acts : List Act} (hsound : s.Sound)
    (hperform : performAll acts s = some s') : s.Unfolds (history acts s) s' := by
  induction acts generalizing s with
  | nil =>
      obtain rfl := Option.some.inj hperform
      exact .refl
  | cons act rest ih =>
      obtain ⟨t, hact, hrest⟩ := Option.bind_eq_some_iff.mp hperform
      have hunfolds := act.unfolds hsound hact
      simp only [history, hact]
      exact hunfolds.trans (ih (hunfolds.sound hsound) hrest)

end Space

/-- A store without variables reads open domains, which are valid. -/
theorem Store.valid_empty : Store.empty.Valid where
  int := fun _ => IntDomain.valid_interval (by decide : (0 : Int) ≤ 1)
  limits := fun _ =>
    ⟨(by decide : Limits.integerMin ≤ 0), (by decide : 1 ≤ Limits.integerMax)⟩
  float := fun _ => ⟨rfl, rfl,
    (by decide : (Double.ofNat 0).ordinal ≤ (Double.ofNat 1).ordinal)⟩
  set := fun _ => (@SetDomain.of_create [] [0] 0 1 (by simp) (by simp) (by simp)
    (by simp)).1

theorem Space.sound_new : Space.new.Sound where
  store := Store.valid_empty
  queue := Queue.valid_empty
  waiting := by simp [new, Queue.ids, Queue.empty]

end ConstraintSpace
