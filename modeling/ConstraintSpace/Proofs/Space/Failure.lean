import ConstraintSpace.Proofs.Space.Attention

/-!
# Failure is final

A space that has failed keeps its reason and its domains whatever is asked of it or of
its copies, and no propagator hears of anything or runs again.  Its status is failure,
propagation gives the reason, a commit is accepted and does nothing, and everything
else that would build or explore the model is refused.  It does not matter where the
failure came from: every operation that fails leaves nothing pending and nobody waiting.
-/

namespace ConstraintSpace

namespace Space

variable {s t u : Space} {reason : Inconsistency} {α β : Type}

/-! ## What is asked of a failed space -/

/-- Everything that is asked of the space is refused, or answered from the failure,
and leaves the space as it is. -/
structure Defunct (s : Space) (reason : Inconsistency) : Prop where
  status : Space.status s = .ok .failed s
  propagate : Space.propagate s = .ok (some reason) s
  commit : ∀ chosen alternative, Space.commit chosen alternative s = .ok () s
  choice : Space.choice s = .error (.refused .spaceFailed) s
  newInt : ∀ lower upper, Space.newInt lower upper s = .error (.refused .spaceFailed) s
  newSparse : ∀ values, Space.newSparse values s = .error (.refused .spaceFailed) s
  newBool : Space.newBool s = .error (.refused .spaceFailed) s
  newFloat : ∀ lower upper, Space.newFloat lower upper s = .error (.refused .spaceFailed) s
  newSet : ∀ glb lub card, Space.newSet glb lub card s = .error (.refused .spaceFailed) s
  post : ∀ keepGoing narrowings,
    Space.post keepGoing narrowings s = .error (.refused .spaceFailed) s
  addPropagator : ∀ p rejection,
    Space.addPropagator p rejection s = .error (.refused .spaceFailed) s
  addBrancher : ∀ b, Space.addBrancher b s = .error (.refused .spaceFailed) s
  observe : ∀ observer, Space.observe observer s = .error (.refused .spaceFailed) s

theorem defunct_of_failed (hfailure : s.failure = some reason) : s.Defunct reason := by
  have hfailed : s.isFailed = true := by rw [isFailed, hfailure, Option.isSome_some]
  have hcheck : checkNotFailed s = .error (.refused .spaceFailed) s := by
    rw [checkNotFailed, if_pos hfailed]
  have hpropagate : Space.propagate s = .ok (some reason) s := by
    simp only [Space.propagate, hfailure]
  exact {
    status := bind_of_ok hpropagate _
    propagate := hpropagate
    commit := fun _ _ => by rw [Space.commit, if_pos hfailed]
    choice := by rw [Space.choice, if_pos hfailed]
    newInt := fun _ _ => bind_of_error hcheck _
    newSparse := fun _ => bind_of_error hcheck _
    newBool := bind_of_error (bind_of_error hcheck _) _
    newFloat := fun _ _ => bind_of_error hcheck _
    newSet := fun _ _ _ => bind_of_error hcheck _
    post := fun _ _ => by rw [Space.post, if_pos hfailed]
    addPropagator := fun _ _ => bind_of_error hcheck _
    addBrancher := fun _ => bind_of_error hcheck _
    observe := fun _ => bind_of_error (bind_of_error hcheck _) _ }

/-! ## One operation -/

/-- The reason, the domains and the order of the space are as before, and nothing was
added to what happened. -/
structure Freezes (s t : Space) : Prop where
  failure : t.failure = s.failure
  store : t.store = s.store
  quiet : t.store.isQuiet = true
  idle : t.queue.ids = []
  failures_le : t.counts.failures ≤ s.counts.failures
  propagations_le : t.counts.propagations ≤ s.counts.propagations
  journal : t.journal ⊆ s.journal

theorem Freezes.trans (hfirst : s.Freezes t) (hsecond : t.Freezes u) : s.Freezes u where
  failure := hsecond.failure.trans hfirst.failure
  store := hsecond.store.trans hfirst.store
  quiet := hsecond.quiet
  idle := hsecond.idle
  failures_le := hsecond.failures_le.trans hfirst.failures_le
  propagations_le := hsecond.propagations_le.trans hfirst.propagations_le
  journal := fun _ hmem => hfirst.journal (hsecond.journal hmem)

theorem Tidy.freezes (htidy : s.Tidy) (hfailure : s.failure = some reason) : s.Freezes s where
  failure := rfl
  store := rfl
  quiet := htidy.quiet
  idle := htidy.idle (by simp [hfailure])
  failures_le := le_refl _
  propagations_le := le_refl _
  journal := List.Subset.refl _

theorem Tidy.freezes_fail (htidy : s.Tidy) (hfailure : s.failure = some reason) :
    s.Freezes s.fail := by
  have hfail : s.fail = { s with queue := s.queue.clear, store := s.store.silence } := by
    simp only [fail, failWith, hfailure, Option.isSome_some, if_true]
  have hpending : s.store.pending = #[] := Store.isQuiet_iff.mp htidy.quiet
  rw [hfail]
  refine { htidy.freezes hfailure with store := ?_, quiet := rfl, idle := ?_ }
  · rw [Store.silence, ← hpending]
  · exact htidy.sound.queue.clear.2

theorem Tidy.freezes_copy (htidy : s.Tidy) (hfailure : s.failure = some reason)
    (mode : CopyMode) (next : Nat) : s.Freezes (s.copy mode next).1 := by
  simp only [copy, hfailure]
  exact {
    failure := hfailure.symm
    store := rfl
    quiet := htidy.quiet
    idle := by simp [new, Queue.ids, Queue.empty]
    failures_le := Nat.zero_le _
    propagations_le := Nat.zero_le _
    journal := List.nil_subset _ }

theorem Tidy.freezes_rescript (htidy : s.Tidy) (hfailure : s.failure = some reason)
    (id : Nat) (script : Nat → Store → Step) :
    s.Freezes (Space.rescript id script s).2 := by
  unfold Space.rescript
  split
  next => exact { htidy.freezes hfailure with }
  next => exact htidy.freezes hfailure

/-- Every operation on a failed space gives a space that is frozen, and its log is
empty. -/
theorem Tidy.perform_freezes (htidy : s.Tidy) (hfailure : s.failure = some reason)
    (act : Act) : ∃ t, act.perform s = some t ∧ act.log s = [] ∧ s.Freezes t := by
  have hdefunct := defunct_of_failed hfailure
  have hfrozen := htidy.freezes hfailure
  have hfailed : s.isFailed = true := by rw [isFailed, hfailure, Option.isSome_some]
  have hidle : propagateLog s = [] := by simp only [propagateLog, hfailure]
  cases act with
  | newInt lower upper =>
      exact ⟨s, by rw [Act.perform, hdefunct.newInt, resume], rfl, hfrozen⟩
  | newSparse values =>
      exact ⟨s, by rw [Act.perform, hdefunct.newSparse, resume], rfl, hfrozen⟩
  | newBool => exact ⟨s, by rw [Act.perform, hdefunct.newBool, resume], rfl, hfrozen⟩
  | newFloat lower upper =>
      exact ⟨s, by rw [Act.perform, hdefunct.newFloat, resume], rfl, hfrozen⟩
  | newSet glb lub card =>
      exact ⟨s, by rw [Act.perform, hdefunct.newSet, resume], rfl, hfrozen⟩
  | post keepGoing narrowings =>
      exact ⟨s, by rw [Act.perform, hdefunct.post, resume],
        by rw [Act.log, postLog, if_pos hfailed], hfrozen⟩
  | addPropagator p rejection =>
      exact ⟨s, by rw [Act.perform, hdefunct.addPropagator, resume], rfl, hfrozen⟩
  | addBrancher b => exact ⟨s, by rw [Act.perform, hdefunct.addBrancher, resume], rfl, hfrozen⟩
  | propagate => exact ⟨s, by rw [Act.perform, hdefunct.propagate, resume], hidle, hfrozen⟩
  | status => exact ⟨s, by rw [Act.perform, hdefunct.status, resume], hidle, hfrozen⟩
  | observe observer =>
      exact ⟨s, by rw [Act.perform, hdefunct.observe, resume],
        by simp only [Act.log, hdefunct.addBrancher], hfrozen⟩
  | choice => exact ⟨s, by rw [Act.perform, hdefunct.choice, resume], rfl, hfrozen⟩
  | commit chosen alternative =>
      exact ⟨s, by rw [Act.perform, hdefunct.commit, resume],
        by simp only [Act.log, commitLog, hfailed, Bool.true_or, if_true], hfrozen⟩
  | fail => exact ⟨s.fail, rfl, rfl, htidy.freezes_fail hfailure⟩
  | copy mode next => exact ⟨_, rfl, rfl, htidy.freezes_copy hfailure mode next⟩
  | readJournal =>
      exact ⟨_, rfl, rfl, { hfrozen with journal := List.nil_subset _ }⟩
  | rescript id script => exact ⟨_, rfl, rfl, htidy.freezes_rescript hfailure id script⟩

/-! ## Any operations -/

/-- A failed space stays frozen under any operations on it and its copies, and every
such space answers from the first failure.  Nothing is remembered of the operations:
no propagator ran, and no domain was narrowed. -/
theorem failure_is_final (hreaches : new.Reaches s) (hfailure : s.failure = some reason)
    (acts : List Act) :
    ∃ t, performAll acts s = some t ∧ history acts s = [] ∧ s.Freezes t ∧
      t.Defunct reason := by
  have htidy := hreaches.tidy tidy_new
  clear hreaches
  induction acts generalizing s with
  | nil => exact ⟨s, rfl, rfl, htidy.freezes hfailure, defunct_of_failed hfailure⟩
  | cons act rest ih =>
      obtain ⟨t, hperform, hlog, hfreezes⟩ := htidy.perform_freezes hfailure act
      obtain ⟨u, hrest, hhistory, hfreezes', hdefunct⟩ :=
        ih (hfreezes.failure.trans hfailure) ((act.unfolds htidy.sound hperform).tidy htidy)
      refine ⟨u, ?_, ?_, hfreezes.trans hfreezes', hdefunct⟩
      · rw [performAll, hperform, Option.bind_some, hrest]
      · simp only [history, hlog, hperform, hhistory, List.nil_append]

/-- The second propagator fails while the third one still waits, after the first one
has raised the lower bound of a variable. -/
theorem conflict_is_final :
    let acts : List Act := [.newInt 0 5, .newInt 0 5,
      .addPropagator (.lessOrEqual (.var 0) (.var 1)) none,
      .addPropagator (.lessOrEqual (.const 3) (.const 2)) none,
      .addPropagator (.notEqual (.var 0) (.var 1)) none,
      .post false [.lower (.var 0) 2], .propagate]
    let later : List Act := [.newInt 0 1, .copy .independent 0, .post false [.fix (.var 0) 9],
      .fail, .status]
    ∃ s, performAll acts new = some s ∧ new.Reaches s ∧ s.failure = some .emptyDomain ∧
      (s.counts.propagations, s.store.ints) =
        (2, #[⟨2, 5, [], 0⟩, ⟨2, 5, [], 0⟩]) ∧
      ∃ t, performAll later s = some t ∧ history later s = [] ∧ s.Freezes t ∧
        t.Defunct .emptyDomain := by
  intro acts later
  have hrun : (performAll acts new).map
      (fun s => (s.failure, s.counts.propagations, s.store.ints)) =
        some (some .emptyDomain, 2, #[⟨2, 5, [], 0⟩, ⟨2, 5, [], 0⟩]) := by
    decide +kernel
  obtain ⟨s, hperform, hs⟩ := Option.map_eq_some_iff.mp hrun
  obtain ⟨hfailure, hstate⟩ := Prod.mk.injEq .. ▸ hs
  have hreaches := reaches_of_performAll hperform
  exact ⟨s, hperform, hreaches, hfailure, hstate, failure_is_final hreaches hfailure later⟩

end Space

end ConstraintSpace
