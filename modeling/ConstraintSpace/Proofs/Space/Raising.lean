import ConstraintSpace.Proofs.Space.Failure
import ConstraintSpace.Proofs.Space.Runs
import ConstraintSpace.Proofs.Space.WakeUps
import ConstraintSpace.Proofs.View.Reporting

/-!
# Events over the life of a variable

A domain of one value keeps it, so a variable comes down to one value at most once, and
at most one of the narrowings and runs that a space goes through says that it did.  The
bookkeeping is a sum: the entries of a log that say so, and one more if the variable had
one value before, are no more than one if it has one value afterwards.
-/

namespace ConstraintSpace

namespace Store

variable {s s' t : Store} {v : Variable}

/-- The variable is a discrete one of the store and has one value. -/
def decided (s : Store) : Variable → Bool
  | .int id => s.knows (.int id) && (s.int id).isFixed
  | .set id => s.knows (.set id) && (s.set id).isFixed
  | .float _ => false

/-- What is decided stays so. -/
theorem Refines.decided (hrefines : s.Refines s') (hvalid : s.Valid) (hvalid' : s'.Valid)
    (hdecided : s.decided v = true) : s'.decided v = true := by
  cases v with
  | float id => simp [Store.decided] at hdecided
  | int id =>
      simp only [Store.decided, knows, Bool.and_eq_true, decide_eq_true_eq] at hdecided ⊢
      obtain ⟨hid, hfixed⟩ := hdecided
      refine ⟨hid.trans_le hrefines.ints_size, ?_⟩
      have hlower := hrefines.int_subset id hid _ (hvalid'.int id).lower_mem
      have hupper := hrefines.int_subset id hid _ (hvalid'.int id).upper_mem
      rw [IntDomain.isFixed_iff, IntDomain.eq_lower_of_isFixed hfixed hlower,
        IntDomain.eq_lower_of_isFixed hfixed hupper]
  | set id =>
      simp only [Store.decided, knows, Bool.and_eq_true, decide_eq_true_eq] at hdecided ⊢
      obtain ⟨hid, hfixed⟩ := hdecided
      refine ⟨hid.trans_le hrefines.sets_size, ?_⟩
      rw [(hrefines.set_shrinks id hid).eq_of_isFixed (hvalid.set id).toSpanned
        (hvalid'.set id).toSpanned hfixed, hfixed]

theorem Refines.decided_le (hrefines : s.Refines s') (hvalid : s.Valid) (hvalid' : s'.Valid)
    (v : Variable) : (s.decided v).toNat ≤ (s'.decided v).toNat := by
  cases hdecided : s.decided v with
  | false => exact Nat.zero_le _
  | true => rw [hrefines.decided hvalid hvalid' hdecided]

/-- A variable that comes down to one value had several and is decided now. -/
theorem Accounts.decided_of_assign (haccounts : s.Accounts s') (hquiet : s.isQuiet = true)
    (hdiscrete : v.IsDiscrete) (hassign : (Event.assign, v) ∈ s'.pending) :
    s.decided v = false ∧ s'.decided v = true := by
  have hnew : (Event.assign, v) ∉ s.pending := by
    rw [isQuiet_iff.mp hquiet]
    exact Array.not_mem_empty _
  have hevent := (haccounts.honest v .assign hdiscrete hassign).resolve_left hnew
  cases v with
  | float id => exact hdiscrete.elim
  | int id =>
      have hid : id < s.ints.size := by
        by_contra hge
        -- a variable that was never created reads the same in both stores
        have hsame : s'.int id = s.int id := by
          have hge' : ¬id < s'.ints.size := by rwa [haccounts.narrows.ints_size]
          simp [Store.int, not_lt.mp hge, not_lt.mp hge']
        simp [eventsTo, hsame] at hevent
      simp only [eventsTo, IntDomain.eventsTo, EventSet.contains, Bool.and_eq_true,
        Bool.not_eq_true'] at hevent
      simp [decided, knows, hid, haccounts.narrows.ints_size, hevent]
  | set id =>
      have hid : id < s.sets.size := by
        by_contra hge
        have hsame : s'.set id = s.set id := by
          have hge' : ¬id < s'.sets.size := by rwa [haccounts.narrows.sets_size]
          simp [Store.set, not_lt.mp hge, not_lt.mp hge']
        simp [eventsTo, hsame] at hevent
      simp only [eventsTo, SetDomain.eventsTo, EventSet.contains, Bool.and_eq_true,
        Bool.not_eq_true'] at hevent
      simp [decided, knows, hid, haccounts.narrows.sets_size, hevent]

end Store

namespace Space

variable {s s' t : Space} {v : Variable} {log entries : List Entry} {α β : Type}

/-- The entry says that the variable came down to one value. -/
def Entry.assigns (v : Variable) (entry : Entry) : Bool :=
  decide ((Event.assign, v) ∈ entry.raised)

/-- How often the variable came down to one value. -/
def assignments (v : Variable) (log : List Entry) : Nat := log.countP (Entry.assigns v)

@[simp] theorem assignments_nil (v : Variable) : assignments v [] = 0 := rfl

theorem assignments_append (v : Variable) (log entries : List Entry) :
    assignments v (log ++ entries) = assignments v log + assignments v entries :=
  List.countP_append

/-- The log and the stores around it agree on how often the variable was decided. -/
def Balanced (v : Variable) (s : Store) (log : List Entry) (s' : Store) : Prop :=
  assignments v log + (s.decided v).toNat ≤ (s'.decided v).toNat

theorem balanced_nil {s s' : Store} (hrefines : s.Refines s') (hvalid : s.Valid)
    (hvalid' : s'.Valid) : Balanced v s [] s' := by
  rw [Balanced, assignments_nil, Nat.zero_add]
  exact hrefines.decided_le hvalid hvalid' v

theorem Balanced.trans {s s' s'' : Store} (hfirst : Balanced v s log s')
    (hsecond : Balanced v s' entries s'') : Balanced v s (log ++ entries) s'' := by
  unfold Balanced at *
  rw [assignments_append]
  omega

theorem Balanced.mono {s s' s'' : Store} (hbalanced : Balanced v s log s')
    (hrefines : s'.Refines s'') (hvalid : s'.Valid) (hvalid' : s''.Valid) :
    Balanced v s log s'' :=
  Nat.le_trans hbalanced (hrefines.decided_le hvalid hvalid' v)

/-- However the balance stands, the variable was decided at most once. -/
theorem Balanced.le_one {s s' : Store} (hbalanced : Balanced v s log s') :
    assignments v log + (s.decided v).toNat ≤ 1 :=
  Nat.le_trans hbalanced (Bool.toNat_le _)

/-- One entry for all that a computation made pending. -/
theorem balanced_entry {s s' : Store} (haccounts : s.Accounts s') (hvalid : s.Valid)
    (hquiet : s.isQuiet = true) (hdiscrete : v.IsDiscrete) {entry : Entry}
    (hraised : entry.raised = s'.pending) : Balanced v s [entry] s' := by
  unfold Balanced assignments
  rw [List.countP_singleton, Entry.assigns, hraised]
  by_cases hassign : (Event.assign, v) ∈ s'.pending
  · obtain ⟨hopen, hdecided⟩ := haccounts.decided_of_assign hquiet hdiscrete hassign
    simp [hassign, hopen, hdecided]
  · rw [if_neg (by simpa using hassign), Nat.zero_add]
    exact haccounts.narrows.refines.decided_le hvalid haccounts.valid v

/-! ## Turns -/

theorem store_schedule {skip : Option Nat} (hrun : schedule skip s = .ok () s') :
    s'.store = s.store.silence := by
  rcases schedule_cases skip s with ⟨breach, t, hrun', -⟩ | ⟨q, journal, hrun', -⟩
  · simp [hrun] at hrun'
  · rw [hrun, EStateM.Result.ok.injEq] at hrun'
    rw [hrun'.2]

/-- A turn passes on all that it made pending. -/
theorem store_runOne {id : Nat} (hquiet : s.store.isQuiet = true)
    (hrun : runOne id s = .ok () s') : s'.store = (turned id s).silence := by
  unfold turned
  cases hp : s.propagator? id with
  | none =>
      rw [runOne_of_gone hp, EStateM.Result.ok.injEq] at hrun
      rw [← hrun.2, Store.silence_eq_of_isQuiet hquiet]
  | some p =>
      rw [runOne_eq hp] at hrun
      split at hrun
      · exact store_schedule hrun
      · exact store_schedule hrun
      · rw [store_schedule hrun, (subsume_subsumed (propagator?_afterRun_self hp)).store]
        rfl
      · rw [EStateM.Result.ok.injEq] at hrun
        rw [← hrun.2, store_failWith]
        rfl
      · simp at hrun

theorem balanced_turnLog (hsound : s.Sound) (hquiet : s.store.isQuiet = true)
    (hdiscrete : v.IsDiscrete) (id : Nat) :
    Balanced v s.store (turnLog id s) (turned id s) := by
  cases hp : s.propagator? id with
  | none =>
      simp only [turnLog, turned, hp]
      exact balanced_nil (.refl _) hsound.store hsound.store
  | some p =>
      simp only [turnLog, turned, hp]
      have haccounts := p.run_accounts hsound.store
      exact balanced_entry haccounts hsound.store hquiet hdiscrete rfl

/-- The turns of waiting propagators, also where the last one is cut short. -/
theorem balanced_queueLog (hdiscrete : v.IsDiscrete) (fuel : Nat) (hsound : s.Sound)
    (hquiet : s.store.isQuiet = true) :
    (∀ s', runQueue fuel s = .ok () s' → Balanced v s.store (queueLog fuel s) s'.store) ∧
      assignments v (queueLog fuel s) + (s.store.decided v).toNat ≤ 1 := by
  have hrefl : Balanced v s.store [] s.store :=
    balanced_nil (.refl _) hsound.store hsound.store
  induction fuel generalizing s with
  | zero =>
      refine ⟨fun s' hrun => ?_, hrefl.le_one⟩
      have hrun' : (.ok () s : EStateM.Result Fault Space Unit) = .ok () s' := hrun
      rw [EStateM.Result.ok.injEq] at hrun'
      rw [← hrun'.2]
      exact hrefl
  | succ fuel ih =>
      cases hpop : s.queue.pop? with
      | none =>
          simp only [queueLog, hpop]
          refine ⟨fun s' hrun => ?_, hrefl.le_one⟩
          rw [runQueue_of_pop?_eq_none hpop, EStateM.Result.ok.injEq] at hrun
          rw [← hrun.2]
          exact hrefl
      | some result =>
          obtain ⟨id, q⟩ := result
          have hpopped := hsound.popped hpop
          have hturn : Balanced v s.store (turnLog id s) (turned id s) :=
            balanced_turnLog hsound hquiet hdiscrete id
          rw [runQueue_succ hpop]
          cases hone : runOne id { s with queue := q } with
          | error fault t =>
              simp only [queueLog, hpop, hone, List.append_nil]
              exact ⟨fun _ hrun => by simp at hrun, hturn.le_one⟩
          | ok _ t =>
              simp only [queueLog, hpop, hone]
              have hran := hpopped.runOne hquiet hone
              have hstore : t.store = (turned id s).silence :=
                store_runOne (s := { s with queue := q }) hquiet hone
              have hvalid := (turned_narrows hsound id).1
              have hfirst : Balanced v s.store (turnLog id s) t.store := by
                rw [hstore]
                exact hturn.mono (Store.refines_silence _) hvalid hvalid.silence
              obtain ⟨hok, hone'⟩ := ih hran.sound hran.quiet
                (balanced_nil (.refl _) hran.sound.store hran.sound.store)
              refine ⟨fun s' hrun => hfirst.trans (hok s' hrun), ?_⟩
              rw [assignments_append]
              unfold Balanced at hfirst
              omega

theorem balanced_propagateLog (hdiscrete : v.IsDiscrete) (hsound : s.Sound) :
    (∀ reason s', propagate s = .ok reason s' →
        Balanced v s.store (propagateLog s) s'.store) ∧
      assignments v (propagateLog s) + (s.store.decided v).toNat ≤ 1 := by
  have hrefl : Balanced v s.store [] s.store :=
    balanced_nil (.refl _) hsound.store hsound.store
  unfold propagateLog propagate
  cases s.failure with
  | some reason =>
      refine ⟨fun _ s' hrun => ?_, hrefl.le_one⟩
      simp only [EStateM.Result.ok.injEq] at hrun
      rw [← hrun.2]
      exact hrefl
  | none =>
      cases hschedule : schedule none s with
      | error fault t => exact ⟨fun _ _ hrun => by simp at hrun, hrefl.le_one⟩
      | ok _ t =>
          obtain ⟨hsound', hstore, -⟩ := hsound.schedule hschedule
          have hquiet : t.store.isQuiet = true := by
            rw [hstore]
            rfl
          obtain ⟨hok, hone⟩ := balanced_queueLog hdiscrete t.enoughRuns hsound' hquiet
          have hstart : Balanced v s.store [] t.store := by
            rw [hstore]
            exact balanced_nil (Store.refines_silence _) hsound.store hsound.store.silence
          refine ⟨fun reason s' hrun => ?_, ?_⟩
          · cases hqueue : runQueue t.enoughRuns t with
            | error fault u => simp [hqueue] at hrun
            | ok _ u =>
                simp only [hqueue, EStateM.Result.ok.injEq] at hrun
                rw [← hrun.2]
                exact hstart.trans (hok u hqueue)
          · unfold Balanced at hstart
            simp only [assignments_nil, Nat.zero_add] at hstart
            exact (Nat.add_le_add_left hstart _).trans hone

/-! ## Acts -/

/-- The operation and its log are in balance, also where it ends in a breach. -/
def Settles (v : Variable) (m : Operation α) (log : Space → List Entry) : Prop :=
  ∀ s : Space, s.Tidy →
    (∀ s', resume (m s) = some s' → Balanced v s.store (log s) s'.store) ∧
      assignments v (log s) + (s.store.decided v).toNat ≤ 1

theorem Unfolds.balanced_nil (hunfolds : s.Unfolds log s') (hsound : s.Sound) :
    Balanced v s.store [] s'.store := by
  have hkeeps := hunfolds.keeps hsound
  exact Space.balanced_nil hkeeps.refines hsound.store hkeeps.sound.store

theorem settles_propagate (hdiscrete : v.IsDiscrete) : Settles v propagate propagateLog := by
  intro s htidy
  obtain ⟨hok, hone⟩ := balanced_propagateLog hdiscrete htidy.sound
  refine ⟨fun s' hrun => ?_, hone⟩
  obtain ⟨reason, hrun'⟩ := willing_propagate.ok_of_resume hrun
  exact hok reason s' hrun'

theorem settles_status (hdiscrete : v.IsDiscrete) : Settles v status propagateLog := by
  intro s htidy
  obtain ⟨hok, hone⟩ := balanced_propagateLog hdiscrete htidy.sound
  refine ⟨fun s' hrun => ?_, hone⟩
  rcases resume_bind_cases hrun with hrun | ⟨reason, t, hpropagate, hrest⟩
  · obtain ⟨reason, hpropagate⟩ := willing_propagate.ok_of_resume hrun
    exact hok reason s' hpropagate
  · have hunfolds := traces_propagate s htidy.sound t (resume_of_ok hpropagate)
    have hsound := hunfolds.sound htidy.sound
    have hasked : t.Unfolds [] s' := by
      cases reason with
      | some reason => exact silent_pure _ t hsound s' hrest
      | none => exact (silent_advance.bind fun found => silent_pure _) t hsound s' hrest
    have hbalanced := (hok reason t hpropagate).trans (hasked.balanced_nil hsound)
    rwa [List.append_nil] at hbalanced

theorem settles_observe (hdiscrete : v.IsDiscrete) (observer : Observer) :
    Settles v (observe observer) fun s => (Act.observe observer).log s := by
  intro s htidy
  have hadd := silent_addBrancher (.observer observer) s htidy.sound
  cases hrun : addBrancher (.observer observer) s with
  | error fault t =>
      simp only [Act.log, hrun, observe, bind_of_error hrun]
      rw [hrun] at hadd
      have hrefl : Balanced v s.store [] s.store :=
        balanced_nil (.refl _) htidy.sound.store htidy.sound.store
      refine ⟨fun s' hresume => ?_, hrefl.le_one⟩
      refine (hadd s' ?_).balanced_nil htidy.sound
      cases fault <;> exact hresume
  | ok id t =>
      simp only [Act.log, hrun, observe, bind_of_ok hrun]
      have hunfolds := hadd t (by rw [hrun, resume])
      have hstart : Balanced v s.store [] t.store := hunfolds.balanced_nil htidy.sound
      obtain ⟨hok, hone⟩ := settles_status hdiscrete t (hunfolds.tidy htidy)
      refine ⟨fun s' hresume => hstart.trans (hok s' hresume), ?_⟩
      unfold Balanced at hstart
      simp only [assignments_nil, Nat.zero_add] at hstart
      exact (Nat.add_le_add_left hstart _).trans hone

/-- A narrowed store is in balance with its one entry, and so is every space that goes on
from it. -/
theorem Tightens.balanced (htidy : s.Tidy) (hdiscrete : v.IsDiscrete)
    (htightens : s.Tightens s.store.Accounts log s') : Balanced v s.store log s'.store := by
  have hentry : ∀ {store : Store}, s.store.Accounts store →
      Balanced v s.store [.narrowed store.pending] store.silence := fun {store} haccounts => by
    have hpending : Balanced v s.store [.narrowed store.pending] store :=
      balanced_entry haccounts htidy.sound.store htidy.quiet hdiscrete rfl
    exact hpending.mono (Store.refines_silence _) haccounts.valid haccounts.valid.silence
  cases htightens with
  | idle => exact balanced_nil (.refl _) htidy.sound.store htidy.sound.store
  | passed counts _ haccounts hrun =>
      rw [store_schedule hrun]
      exact hentry haccounts
  | failed counts _ haccounts =>
      rw [store_failWith]
      exact hentry haccounts

theorem narrowed_le_one {store : Store} (htidy : s.Tidy) (hdiscrete : v.IsDiscrete)
    (haccounts : s.store.Accounts store) :
    assignments v [.narrowed store.pending] + (s.store.decided v).toNat ≤ 1 :=
  (balanced_entry haccounts htidy.sound.store htidy.quiet hdiscrete rfl).le_one

theorem settles_post (hdiscrete : v.IsDiscrete) (keepGoing : Bool)
    (narrowings : List Narrowing) :
    Settles v (post keepGoing narrowings) (postLog keepGoing narrowings) := by
  intro s htidy
  have haccounts := Narrowing.applyAll_accounts keepGoing narrowings htidy.sound.store
  refine ⟨fun s' hrun => (post_tightens haccounts hrun).balanced htidy hdiscrete, ?_⟩
  unfold postLog
  split
  · exact (balanced_nil (.refl _) htidy.sound.store htidy.sound.store).le_one
  · exact narrowed_le_one htidy hdiscrete haccounts

theorem settles_commit (hdiscrete : v.IsDiscrete) (chosen : Choice) (alternative : Nat) :
    Settles v (commit chosen alternative) (commitLog chosen alternative) := by
  intro s htidy
  have haccounts : ∀ (b : Brancher) (narrowing : Narrow Change),
      b.commit chosen alternative = .ok narrowing →
        s.store.Accounts (narrowing.after s.store) := fun _ _ hcommit =>
    Brancher.honest_commit hcommit s.store htidy.sound.store
  refine ⟨fun s' hrun => (commit_tightens haccounts hrun).balanced htidy hdiscrete, ?_⟩
  rcases commitLog_cases chosen alternative s with hlog | ⟨b, narrowing, hcommit, hlog⟩ <;>
    rw [hlog]
  · exact (balanced_nil (.refl _) htidy.sound.store htidy.sound.store).le_one
  · exact narrowed_le_one htidy hdiscrete (haccounts b narrowing hcommit)

theorem Act.settles (hdiscrete : v.IsDiscrete) (act : Act) (htidy : s.Tidy) :
    (∀ s', act.perform s = some s' → Balanced v s.store (act.log s) s'.store) ∧
      assignments v (act.log s) + (s.store.decided v).toNat ≤ 1 := by
  have hrefl : Balanced v s.store [] s.store :=
    balanced_nil (.refl _) htidy.sound.store htidy.sound.store
  have hsilent : ∀ act : Act, ∀ s', act.perform s = some s' →
      Balanced v s.store [] s'.store :=
    fun act s' hperform => (act.unfolds htidy.sound hperform).balanced_nil htidy.sound
  cases act with
  | post keepGoing narrowings => exact settles_post hdiscrete keepGoing narrowings s htidy
  | commit chosen alternative => exact settles_commit hdiscrete chosen alternative s htidy
  | propagate => exact settles_propagate hdiscrete s htidy
  | status => exact settles_status hdiscrete s htidy
  | observe observer => exact settles_observe hdiscrete observer s htidy
  | _ => exact ⟨hsilent _, hrefl.le_one⟩

/-- Over any acts, as far as they get, a variable comes down to one value at most once. -/
theorem assignments_history_le (hdiscrete : v.IsDiscrete) (acts : List Act) (htidy : s.Tidy) :
    assignments v (history acts s) + (s.store.decided v).toNat ≤ 1 := by
  induction acts generalizing s with
  | nil =>
      rw [history, assignments_nil, Nat.zero_add]
      exact Bool.toNat_le _
  | cons act rest ih =>
      obtain ⟨hok, hone⟩ := act.settles hdiscrete htidy
      simp only [history]
      cases hperform : act.perform s with
      | none => simpa using hone
      | some s' =>
          have hfirst := hok s' hperform
          have hrest := ih ((act.unfolds htidy.sound hperform).tidy htidy)
          unfold Balanced at hfirst
          dsimp only
          rw [assignments_append]
          omega

/-! ## What events say -/

/-- The stores that narrowings can find: those of reachable spaces, and what further
narrowings and silence make of them, as within the run of a propagator. -/
inductive Arises : Store → Prop where
  | reached {s : Space} (hreaches : new.Reaches s) : Arises s.store
  | narrowed {s : Store} (harises : Arises s) (narrowing : Narrowing) :
      Arises (narrowing.apply.after s)
  | silenced {s : Store} (harises : Arises s) : Arises s.silence

theorem Arises.valid {s : Store} (harises : Arises s) : s.Valid := by
  induction harises with
  | reached hreaches => exact (hreaches.keeps sound_new).sound.store
  | narrowed _ narrowing ih => exact (narrowing.safe_apply _ ih).1
  | silenced _ ih => exact ih.silence

/-- Whatever store a narrowing of a discrete variable finds, it makes pending what
happened to the variable and returns the strongest of it, and one that is refused changes
nothing.  Over the life of the variable it comes down to one value at most once. -/
theorem events_say_what_happened (hdiscrete : v.IsDiscrete) :
    (∀ (s : Store) (narrowing : Narrowing), Arises s → narrowing.target? = some v →
      (∀ change s', narrowing.apply s = .ok change s' → s.Reports v change s') ∧
        ∀ misstep s', narrowing.apply s = .error misstep s' → s' = s) ∧
      ∀ acts, assignments v (history acts new) ≤ 1 := by
  constructor
  · intro s narrowing harises htarget
    have hmove := narrowing.single_apply s harises.valid
    rw [htarget] at hmove
    constructor
    · intro change s' happly
      rw [happly] at hmove
      exact hmove.reports hdiscrete harises.valid
    · intro misstep s' happly
      rw [happly] at hmove
      cases hmove
      rfl
  · intro acts
    exact (Nat.le_add_right _ _).trans (assignments_history_le hdiscrete acts tidy_new)

/-- The second element fills a set of at most two, so the third one is excluded with it. -/
theorem required_element_moves_both_bounds :
    let narrowing : Narrowing := .require 0 2
    ∃ s s', performAll [.newSet [1] [1, 2, 3] (0, 2)] new = some s ∧
      narrowing.apply s.store = .ok .assigned s' ∧ s.store.Reports (.set 0) .assigned s' ∧
      s'.pending = #[(.assign, .set 0), (.lowerBound, .set 0), (.upperBound, .set 0),
        (.removal, .set 0)] ∧
      ∀ acts, assignments (.set 0) (history acts new) ≤ 1 := by
  intro narrowing
  have hrun : ((performAll [.newSet [1] [1, 2, 3] (0, 2)] new).bind fun s =>
      match narrowing.apply s.store with
      | .ok change s' => some (change, s'.pending)
      | .error _ _ => none) =
        some (.assigned, #[(.assign, .set 0), (.lowerBound, .set 0), (.upperBound, .set 0),
          (.removal, .set 0)]) := by
    decide +kernel
  obtain ⟨s, hperform, hrun⟩ := Option.bind_eq_some_iff.mp hrun
  obtain ⟨hexact, honce⟩ := events_say_what_happened (v := .set 0) trivial
  have hreports :=
    (hexact s.store narrowing (.reached (reaches_of_performAll hperform)) rfl).1
  cases happly : narrowing.apply s.store with
  | error misstep s' => simp [happly] at hrun
  | ok change s' =>
      simp only [happly, Option.some.injEq, Prod.mk.injEq] at hrun
      obtain ⟨rfl, hpending⟩ := hrun
      exact ⟨s, s', hperform, happly, hreports _ _ happly, hpending, honce⟩

end Space

end ConstraintSpace
