import ConstraintSpace.Proofs.Space.Runs

/-!
# Propagation loses no solution

In a fitting space every live propagator is one of the library, over exact views
of created variables.  Its propagation always gives an answer.  An assignment that
is admitted by the domains and accepted by every live propagator stays so through
each run of a propagator, whether the run narrows, subsumes its propagator or does
neither, and no run fails while there is such an assignment.  By induction over the
loop the same holds of propagation as a whole, in whatever order the propagators
run.  A space that has failed already keeps its reason and its domains.
-/

namespace ConstraintSpace

namespace Space

variable {s s' t : Space} {id : Nat} {p : Propagator} {q : Queue}

/-! ## Fitting spaces -/

/-- A space in order whose live propagators all fit. -/
structure Fitting (s : Space) : Prop where
  sound : s.Sound
  fit : ∀ j p, s.propagator? j = some p → p.Fit s.store

/-- Narrowing the store and changing counts of propagators keeps a space fitting. -/
theorem Fitting.of_refines (hfitting : s.Fitting) (hsound : s'.Sound)
    (hrefines : s.store.Refines s'.store)
    (hpropagator : ∀ j p, s'.propagator? j = some p →
      ∃ q, s.propagator? j = some q ∧ p.core = q.core) : s'.Fitting where
  sound := hsound
  fit := fun j p hp => by
    obtain ⟨q, hq, hcore⟩ := hpropagator j p hp
    rw [← p.fit_core, hcore, q.fit_core]
    exact (hfitting.fit j q hq).refines hrefines

theorem Fitting.of_slots (hfitting : s.Fitting) (hsound : s'.Sound)
    (hrefines : s.store.Refines s'.store) (hslots : s'.slots = s.slots) : s'.Fitting :=
  hfitting.of_refines hsound hrefines
    fun j p hp => ⟨p, by simpa only [propagator?, hslots] using hp, rfl⟩

theorem Fitting.failWith (hfitting : s.Fitting) (reason : Inconsistency) :
    (s.failWith reason).Fitting :=
  hfitting.of_slots (hfitting.sound.failWith reason) (Frame.failWith reason s).refines
    (slots_failWith reason s)

theorem Fitting.afterRun (hfitting : s.Fitting) (hp : s.propagator? id = some p) :
    (s.afterRun id p).Fitting := by
  have hid := lt_size_of_propagator? hp
  refine hfitting.of_refines (hfitting.sound.afterRun id p)
    (Frame.afterRun hfitting.sound id p).refines fun j q hq => ?_
  rw [propagator?_afterRun hid] at hq
  split at hq
  next heq =>
    obtain rfl := Option.some.inj hq
    exact ⟨p, heq ▸ hp, p.run_core (hfitting.fit id p hp)⟩
  next => exact ⟨q, hq, rfl⟩

theorem Fitting.of_subsumed (hfitting : s.Fitting) (hsubsumed : s.Subsumed id s') :
    s'.Fitting := by
  refine hfitting.of_refines (hfitting.sound.of_subsumed hsubsumed)
    (Frame.of_subsumed hsubsumed).refines fun j q hq => ?_
  rw [hsubsumed.propagator?] at hq
  split at hq
  · simp at hq
  · exact ⟨q, hq, rfl⟩

theorem Fitting.popped (hfitting : s.Fitting) (hpop : s.queue.pop? = some (id, q)) :
    Fitting { s with queue := q } :=
  ⟨hfitting.sound.popped hpop, hfitting.fit⟩

/-! ## Solutions of a space -/

/-- The assignment is admitted by the domains and accepted by every live
propagator. -/
structure Solves (s : Space) (a : Assignment) : Prop where
  admitted : s.store.Admits a
  accepted : ∀ j p, s.propagator? j = some p → p.Accepts a

/-- Whatever solves the first space solves the second one, which has not failed in
between if anything does. -/
def Lossless (s s' : Space) : Prop :=
  ∀ a, s.Solves a → s'.Solves a ∧ (s.failure = none → s'.failure = none)

theorem Lossless.refl (s : Space) : s.Lossless s := fun _ ha => ⟨ha, fun h => h⟩

theorem Lossless.trans (hfirst : s.Lossless s') (hsecond : s'.Lossless t) :
    s.Lossless t := by
  intro a ha
  obtain ⟨ha', hok⟩ := hfirst a ha
  obtain ⟨ha'', hok'⟩ := hsecond a ha'
  exact ⟨ha'', fun h => hok' (hok h)⟩

/-- Nothing is lost where the propagators are the same up to counts and some may be
gone. -/
theorem Lossless.of_admits
    (hadmits : ∀ a, s.Solves a → s'.store.Admits a)
    (hpropagator : ∀ j p, s'.propagator? j = some p →
      ∃ q, s.propagator? j = some q ∧ p.core = q.core)
    (hfailure : s'.failure = s.failure) : s.Lossless s' := by
  intro a ha
  refine ⟨⟨hadmits a ha, fun j p hp => ?_⟩, fun h => hfailure.trans h⟩
  obtain ⟨q, hq, hcore⟩ := hpropagator j p hp
  rw [← p.accepts_core, hcore, q.accepts_core]
  exact ha.accepted j q hq

/-- Passing events on gives a result and changes nothing that solutions depend
on. -/
theorem Fitting.schedule (hfitting : s.Fitting) (skip : Option Nat) :
    ∃ s', Space.schedule skip s = .ok () s' ∧ s'.Fitting ∧ s.Lossless s' := by
  rcases schedule_cases skip s with
    ⟨breach, s', -, n, -, p, hp, hbad⟩ | ⟨q, journal, hrun, -⟩
  · simp [(hfitting.fit _ p hp).obedient _ _ _] at hbad
  · obtain ⟨hsound, hstore, hslots, -, hfailure, -⟩ := hfitting.sound.schedule hrun
    refine ⟨_, hrun, hfitting.of_slots hsound (hstore ▸ s.store.refines_silence) hslots, ?_⟩
    refine .of_admits (fun a ha => ?_) (fun j p hp => ⟨p, ?_, rfl⟩) hfailure
    · rw [hstore]
      exact Store.admits_silence.mpr ha.admitted
    · simpa only [propagator?, hslots] using hp

/-! ## One run -/

/-- A run that keeps what its propagator accepts loses nothing. -/
theorem Fitting.lossless_afterRun (hfitting : s.Fitting)
    (hp : s.propagator? id = some p)
    (hkept : ∀ a, s.store.Admits a → p.Accepts a → (p.run s.store).store.Admits a) :
    s.Lossless (s.afterRun id p) := by
  refine .of_admits (fun a ha => hkept a ha.admitted (ha.accepted id p hp))
    (fun j q hq => ?_) rfl
  rw [propagator?_afterRun (lt_size_of_propagator? hp)] at hq
  split at hq
  next heq =>
    obtain rfl := Option.some.inj hq
    exact ⟨p, heq ▸ hp, p.run_core (hfitting.fit id p hp)⟩
  next => exact ⟨q, hq, rfl⟩

theorem Subsumed.lossless (hsubsumed : s.Subsumed id s') : s.Lossless s' := by
  refine .of_admits (fun a ha => hsubsumed.store ▸ ha.admitted) (fun j q hq => ?_)
    hsubsumed.failure
  rw [hsubsumed.propagator?] at hq
  split at hq
  · simp at hq
  · exact ⟨q, hq, rfl⟩

/-- A run of a propagator that fits gives a result and loses nothing. -/
theorem Fitting.runOne (hfitting : s.Fitting) (id : Nat) :
    ∃ s', Space.runOne id s = .ok () s' ∧ s'.Fitting ∧ s.Lossless s' := by
  cases hp : s.propagator? id with
  | none => exact ⟨s, runOne_of_gone hp, hfitting, .refl s⟩
  | some p =>
      have hafter := hfitting.afterRun hp
      rw [runOne_eq hp]
      cases p.run_outcome (hfitting.fit id p hp) hfitting.sound.store with
      | failed hverdict _ hempty =>
          rw [hverdict]
          exact ⟨_, rfl, hafter.failWith _, fun a ha =>
            absurd (ha.accepted id p hp) (hempty a ha.admitted)⟩
      | subsumed hverdict _ _ hkept _ =>
          rw [hverdict]
          have hsubsumed := subsume_subsumed (propagator?_afterRun_self hp)
          obtain ⟨s', hrun, hfitting', hlossless⟩ :=
            (hafter.of_subsumed hsubsumed).schedule none
          exact ⟨s', hrun, hfitting', (hfitting.lossless_afterRun hp hkept).trans
            (hsubsumed.lossless.trans hlossless)⟩
      | fix hverdict _ _ hkept _ =>
          rw [hverdict]
          obtain ⟨s', hrun, hfitting', hlossless⟩ := hafter.schedule (some id)
          exact ⟨s', hrun, hfitting',
            (hfitting.lossless_afterRun hp hkept).trans hlossless⟩

/-! ## Propagation -/

theorem Fitting.runQueue (hfitting : s.Fitting) (fuel : Nat) :
    ∃ s', Space.runQueue fuel s = .ok () s' ∧ s'.Fitting ∧ s.Lossless s' := by
  induction fuel generalizing s with
  | zero => exact ⟨s, rfl, hfitting, .refl s⟩
  | succ fuel ih =>
      cases hpop : s.queue.pop? with
      | none => exact ⟨s, runQueue_of_pop?_eq_none hpop _, hfitting, .refl s⟩
      | some result =>
          obtain ⟨id, q⟩ := result
          obtain ⟨t, hone, hfitting', hlossless⟩ := (hfitting.popped hpop).runOne id
          obtain ⟨s', hrun, hfitting'', hlossless'⟩ := ih hfitting'
          rw [runQueue_succ hpop, hone]
          refine ⟨s', hrun, hfitting'', Lossless.trans (fun a ha => ?_) hlossless'⟩
          exact hlossless a ⟨ha.admitted, ha.accepted⟩

/-- Propagation of a fitting space gives an answer and loses nothing. -/
theorem Fitting.propagate (hfitting : s.Fitting) :
    ∃ reason s', Space.propagate s = .ok reason s' ∧ s'.Fitting ∧ s.Lossless s' := by
  unfold Space.propagate
  cases hfailure : s.failure with
  | some reason => exact ⟨_, s, rfl, hfitting, .refl s⟩
  | none =>
      obtain ⟨t, hschedule, hfitting', hlossless⟩ := hfitting.schedule none
      obtain ⟨u, hqueue, hfitting'', hlossless'⟩ := hfitting'.runQueue t.enoughRuns
      simp only [hschedule, hqueue]
      exact ⟨_, u, rfl, hfitting'', hlossless.trans hlossless'⟩

theorem propagate_of_failed {reason : Inconsistency} (hfailure : s.failure = some reason) :
    propagate s = .ok (some reason) s := by
  simp only [propagate, hfailure]

/-- The assignment is admitted by the domains and satisfies the constraint of every
live propagator. -/
def Satisfied (s : Space) (a : Assignment) : Prop :=
  s.store.Admits a ∧ ∀ j p, s.propagator? j = some p → p.Holds a

theorem Satisfied.solves {a : Assignment} (ha : s.Satisfied a) : s.Solves a :=
  ⟨ha.1, fun j p hp => Propagator.holds_accepts (ha.2 j p hp)⟩

/-- Propagation of a space that has not failed keeps every assignment that satisfies
all live propagators, and gives a reason of failure only where there is none.  A
failed space gives its first reason again and stays as it is. -/
theorem propagate_keeps_satisfied (hreaches : new.Reaches s)
    (hfit : ∀ j p, s.propagator? j = some p → p.Fit s.store) :
    ∃ reason s', propagate s = .ok reason s' ∧
      (∀ a, s.Satisfied a → s'.store.Admits a) ∧
      (s.failure = none → reason ≠ none → ¬∃ a, s.Satisfied a) ∧
      (s.failure ≠ none → reason = s.failure ∧ s' = s) := by
  have hfitting : s.Fitting := ⟨(hreaches.keeps sound_new).sound, hfit⟩
  obtain ⟨reason, s', hrun, -, hlossless⟩ := hfitting.propagate
  refine ⟨reason, s', hrun, fun a ha => (hlossless a ha.solves).1.admitted,
    fun hok hreason ⟨a, ha⟩ => hreason ?_, fun hfailed => ?_⟩
  · have hok' := (hlossless a ha.solves).2 hok
    exact (hfitting.sound.propagate hrun).failure.symm.trans hok'
  · obtain ⟨first, hfirst⟩ := Option.ne_none_iff_exists'.mp hfailed
    rw [propagate_of_failed hfirst, EStateM.Result.ok.injEq] at hrun
    exact ⟨hrun.1.symm.trans hfirst.symm, hrun.2.symm⟩

/-- Over x between 0 and 1 and y equal to 1 propagation of x ≤ y keeps both values
of x. -/
theorem at_most_one_keeps_both :
    ∃ s, new.Reaches s ∧ s.propagator? 0 = some (.lessOrEqual (.var 0) (.var 1)) ∧
      ∃ s', propagate s = .ok none s' ∧ s'.store.Admits ⟨[0, 1], []⟩ ∧
        s'.store.Admits ⟨[1, 1], []⟩ := by
  let t : Space :=
    { new with store := { Store.empty with ints := #[.interval 0 1, .interval 1 1] } }
  let p : Propagator := .lessOrEqual (.var 0) (.var 1)
  have hreaches : new.Reaches (t.register p) :=
    .act (.addPropagator p none) (.act (.newInt 1 1) (.act (.newInt 0 1) .refl rfl) rfl) rfl
  have honly : ∀ j q, (t.register p).propagator? j = some q → q = p := fun j q hq => by
    rw [propagator?_register] at hq
    split at hq
    · exact (Option.some.inj hq).symm
    · simp [t, propagator?, new] at hq
  have hsatisfied : ∀ x ∈ [0, 1], (t.register p).Satisfied ⟨[x, 1], []⟩ := fun x hx => by
    refine ⟨⟨fun id hid => ?_, fun id hid => absurd hid (Nat.not_lt_zero id)⟩,
      fun j q hq => ?_⟩
    · have hcases : id = 0 ∨ id = 1 :=
        Nat.le_one_iff_eq_zero_or_eq_one.mp (Nat.lt_succ_iff.mp hid)
      rcases hcases with rfl | rfl
      · have : x = 0 ∨ x = 1 := by simpa using hx
        exact IntDomain.mem_interval.mpr (by simp [Assignment.int]; omega)
      · exact IntDomain.mem_interval.mpr (by simp [Assignment.int])
    · rw [honly j q hq]
      have : x = 0 ∨ x = 1 := by simpa using hx
      simp only [p, Propagator.Holds, IntView.value, IntView.point, IntView.base?,
        IntView.valueAt, Assignment.int, Option.getD]
      simp
      omega
  obtain ⟨reason, s', hrun, hkept, hsolvable, -⟩ := propagate_keeps_satisfied hreaches
    fun j q hq => by
      rw [honly j q hq]
      exact ⟨⟨rfl, trivial⟩, rfl, trivial⟩
  obtain rfl : reason = none := by
    by_contra hreason
    exact hsolvable rfl hreason ⟨_, hsatisfied 0 (by simp)⟩
  exact ⟨_, hreaches, rfl, s', hrun, hkept _ (hsatisfied 0 (by simp)),
    hkept _ (hsatisfied 1 (by simp))⟩

/-- A space that failed when x between 0 and 1 was to be 5 reports its failure again
although x may still be 0. -/
theorem not_reports_only_unsatisfied :
    ¬∀ s : Space, new.Reaches s →
      (∀ j p, s.propagator? j = some p → p.Fit s.store) →
      ∀ reason s', propagate s = .ok reason s' → reason ≠ none →
        ¬∃ a, s.Satisfied a := by
  intro hclaim
  let s : Space :=
    { new with
      store := { Store.empty with ints := #[.interval 0 1] }
      queue := Queue.empty.clear
      failure := some .emptyDomain
      counts := { SpaceCounts.zero with failures := 1 }
      journal := [.failed .emptyDomain] }
  have hreaches : new.Reaches s :=
    .act (.post false [.fix (.var 0) 5]) (.act (.newInt 0 1) .refl rfl) rfl
  have hnone : ∀ j p, s.propagator? j ≠ some p := by simp [s, propagator?, new]
  refine hclaim s hreaches (fun j p hp => absurd hp (hnone j p)) (some .emptyDomain) s rfl
    (by simp) ⟨⟨[0], []⟩, ⟨fun id hid => ?_, fun id hid => absurd hid (Nat.not_lt_zero id)⟩,
      fun j p hp => absurd hp (hnone j p)⟩
  obtain rfl : id = 0 := Nat.lt_one_iff.mp hid
  exact IntDomain.mem_interval.mpr (by simp [Assignment.int])

end Space

end ConstraintSpace
