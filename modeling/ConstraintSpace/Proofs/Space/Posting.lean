import ConstraintSpace.Proofs.Space.Attention
import ConstraintSpace.Proofs.Space.Building
import ConstraintSpace.Proofs.Space.Carrying

/-!
# What was posted

A propagator comes into a space only where it is posted.  All other acts leave the
propagators that they find, up to what a run changes of them, or empty their slots.  So
in a space that was built by plain acts every live propagator is one of those posted,
and where no two views of it share a variable, each posted one is upheld.
-/

namespace ConstraintSpace

namespace Space

variable {s s' t : Space} {id : Nat} {p : Propagator} {α β : Type}

/-! ## Inheritance -/

/-- Every live propagator was there before. -/
def Inherits (s s' : Space) : Prop :=
  ∀ j q, s'.propagator? j = some q → ∃ p, s.propagator? j = some p ∧ q.guise = p.guise

theorem Inherits.refl (s : Space) : s.Inherits s := fun _ q hq => ⟨q, hq, rfl⟩

theorem Inherits.trans (hfirst : s.Inherits s') (hsecond : s'.Inherits t) : s.Inherits t := by
  intro j r hr
  obtain ⟨q, hq, hguise⟩ := hsecond j r hr
  obtain ⟨p, hp, hguise'⟩ := hfirst j q hq
  exact ⟨p, hp, hguise.trans hguise'⟩

theorem Inherits.of_slots (hslots : s'.slots = s.slots) : s.Inherits s' := by
  intro j q hq
  refine ⟨q, ?_, rfl⟩
  simpa only [propagator?, hslots] using hq

theorem Kin.inherits (hkin : s.Kin s') : s.Inherits s' := fun _ _ => hkin.exists_of_some

theorem Subsumed.inherits (hsubsumed : s.Subsumed id s') : s.Inherits s' := by
  intro j q hq
  rw [hsubsumed.propagator?] at hq
  split at hq
  · simp at hq
  · exact ⟨q, hq, rfl⟩

theorem inherits_afterRun (hp : s.propagator? id = some p) : s.Inherits (s.afterRun id p) := by
  intro j q hq
  rw [propagator?_afterRun (lt_size_of_propagator? hp)] at hq
  split at hq
  next heq =>
    obtain rfl := Option.some.inj hq
    exact ⟨p, heq ▸ hp, p.guise_run s.store⟩
  next => exact ⟨q, hq, rfl⟩

theorem inherits_failWith (reason : Inconsistency) (s : Space) : s.Inherits (s.failWith reason) :=
  .of_slots (slots_failWith reason s)

theorem inherits_copy (s : Space) (mode : CopyMode) (next : Nat) :
    s.Inherits (s.copy mode next).1 := by
  cases hfailure : s.failure with
  | some reason =>
      intro j q hq
      simp [copy, hfailure, propagator?, new] at hq
  | none =>
      simp only [copy, hfailure]
      have hfresh : s.Inherits { s with failure := none, counts := .zero, journal := [] } :=
        .of_slots rfl
      exact hfresh.trans (kin_foldl_tellCopy mode s.noticed _).inherits

/-! ## Operations that post nothing -/

/-- Whatever the operation gives, it posts nothing. -/
def Inheriting (m : Operation α) : Prop :=
  ∀ s s' : Space, resume (m s) = some s' → s.Inherits s'

theorem tolerant_inherits : Tolerant Inherits where
  trans := .trans
  work := fun _ _ _ _ => .of_slots rfl
  failWith := inherits_failWith
  schedule := fun skip s t hrun => by
    rcases schedule_cases skip s with ⟨breach, u, hrun', _⟩ | ⟨q, journal, hrun', _⟩
    · simp [hrun', resume] at hrun
    · rw [hrun'] at hrun
      obtain rfl := Option.some.inj hrun
      exact .of_slots rfl

theorem inheriting_addBrancher (b : Brancher) : Inheriting (addBrancher b) :=
  tolerant_inherits.bind tolerant_inherits.checkNotFailed fun _ =>
    carries_modifyGet fun _ => .of_slots rfl

theorem inheriting_runOne (id : Nat) : Inheriting (runOne id) :=
  tolerant_inherits.runOne inherits_afterRun (fun hp => (subsume_subsumed hp).inherits) id

theorem inheriting_propagate : Inheriting propagate :=
  tolerant_inherits.propagate inheriting_runOne

theorem inheriting_advance : Inheriting advance := by
  intro s s' hrun
  obtain ⟨found, hok⟩ := (willing_advanceBy _).ok_of_resume (m := advanceBy _) hrun
  exact (kin_of_advanceBy hok).inherits

theorem inheriting_status : Inheriting status :=
  tolerant_inherits.status inheriting_runOne inheriting_advance

theorem inheriting_choice : Inheriting choice :=
  tolerant_inherits.choice inheriting_advance fun _ _ hrun => (kin_of_propose hrun).inherits

/-- A plain act posts nothing, or it registers the one propagator that it posts. -/
theorem Act.inherits_or_registers {act : Act} (hplain : act.Plain s)
    (hperform : act.perform s = some s') :
    (act.posted s = [] ∧ s.Inherits s') ∨
      ∃ p, act.posted s = [(s.slots.size, p)] ∧ p.Fit s.store ∧ s' = s.register p := by
  cases act with
  | newInt lower upper => exact Or.inl ⟨rfl, tolerant_inherits.addInt _ s s' hperform⟩
  | newSparse values => exact Or.inl ⟨rfl, tolerant_inherits.addInt _ s s' hperform⟩
  | newBool => exact Or.inl ⟨rfl, tolerant_inherits.newBool s s' hperform⟩
  | newFloat lower upper => exact hplain.elim
  | newSet glb lub card => exact Or.inl ⟨rfl, tolerant_inherits.newSet glb lub card s s' hperform⟩
  | post keepGoing narrowings =>
      exact Or.inl ⟨rfl, tolerant_inherits.post keepGoing narrowings s s' hperform⟩
  | addPropagator p rejection =>
      have hfit : p.Fit s.store := hplain
      cases rejection with
      | some error =>
          have hsame := addPropagator_rejected hfit error
          obtain rfl := Option.some.inj (hsame.symm.trans hperform)
          exact Or.inl ⟨rfl, .refl s⟩
      | none =>
          have hrun : resume (Space.addPropagator p none s) = some s' := hperform
          rw [addPropagator_eq hfit] at hrun
          cases hfailed : s.isFailed with
          | true =>
              rw [if_pos hfailed] at hrun
              obtain rfl := Option.some.inj hrun
              exact Or.inl ⟨by simp [Act.posted, hfailed], .refl s⟩
          | false =>
              rw [if_neg (by simp [hfailed])] at hrun
              obtain rfl := Option.some.inj hrun
              exact Or.inr ⟨p, by simp [Act.posted, hfailed], hfit, rfl⟩
  | addBrancher b => exact Or.inl ⟨rfl, inheriting_addBrancher b s s' hperform⟩
  | propagate => exact Or.inl ⟨rfl, inheriting_propagate s s' hperform⟩
  | status => exact Or.inl ⟨rfl, inheriting_status s s' hperform⟩
  | observe observer => exact hplain.elim
  | choice => exact Or.inl ⟨rfl, inheriting_choice s s' hperform⟩
  | commit chosen alternative =>
      exact Or.inl ⟨rfl, tolerant_inherits.commit chosen alternative s s' hperform⟩
  | fail =>
      obtain rfl := Option.some.inj hperform
      exact Or.inl ⟨rfl, inherits_failWith _ s⟩
  | copy mode next =>
      obtain rfl := Option.some.inj hperform
      exact Or.inl ⟨rfl, inherits_copy s mode next⟩
  | readJournal =>
      obtain rfl := Option.some.inj hperform
      exact Or.inl ⟨rfl, .of_slots rfl⟩
  | rescript id script => exact hplain.elim

/-! ## What was posted -/

variable {posted : List (Nat × Propagator)}

/-- An act that posts nothing leaves a space built from the same propagators. -/
theorem Built.of_act (hbuilt : Built posted s) (act : Act)
    (hplain : act.Plain s) (hposted : act.posted s = []) (hperform : act.perform s = some s') :
    Built posted s' := by
  have hbuilt' := hbuilt.act act hplain hperform
  rwa [hposted, List.append_nil] at hbuilt'

/-- Every live propagator of a built space was posted. -/
theorem Built.exists_posted (hbuilt : Built posted s) {j : Nat} {q : Propagator}
    (hq : s.propagator? j = some q) : ∃ p, (j, p) ∈ posted ∧ q.guise = p.guise := by
  induction hbuilt generalizing q with
  | new => simp [propagator?, Space.new] at hq
  | @act posted s t act hbuilt hplain hperform ih =>
      have hold : ∀ {p}, s.propagator? j = some p →
          ∃ p', (j, p') ∈ posted ++ act.posted s ∧ p.guise = p'.guise := by
        intro p hp
        obtain ⟨p', hposted, hguise⟩ := ih hp
        exact ⟨p', List.mem_append_left _ hposted, hguise⟩
      rcases act.inherits_or_registers hplain hperform with
        ⟨-, hinherits⟩ | ⟨p, hposted, -, rfl⟩
      · obtain ⟨p, hp, hguise⟩ := hinherits j q hq
        obtain ⟨p', hmem, hguise'⟩ := hold hp
        exact ⟨p', hmem, hguise.trans hguise'⟩
      · rw [propagator?_register] at hq
        split at hq
        next heq =>
          obtain rfl := Option.some.inj hq
          refine ⟨p, List.mem_append_right _ ?_, rfl⟩
          rw [hposted, heq]
          exact List.mem_singleton_self _
        next => exact hold hq

/-- Every propagator that was posted and whose views share no variable is upheld. -/
theorem Built.upholds (hbuilt : Built posted s) :
    ∀ e ∈ posted, e.2.Apart → s.Upholds e.1 e.2 := by
  induction hbuilt with
  | new => simp
  | @act posted s t act hbuilt hplain hperform ih =>
      have hsound := hbuilt.kernel.sound
      intro e he hapart
      rcases List.mem_append.mp he with hold | hnew
      · exact (act.keeps hsound hperform).upholds _ _ (ih e hold hapart)
      · rcases act.inherits_or_registers hplain hperform with
          ⟨hnone, -⟩ | ⟨p, hposted, hfit, rfl⟩
        · simp [hnone] at hnew
        · rw [hposted] at hnew
          obtain rfl := List.mem_singleton.mp hnew
          exact upholds_register hsound hfit (hapart.steady s.store)

/-- What is admitted and accepted by all propagators that were posted solves the space. -/
theorem Built.solves (hbuilt : Built posted s) {a : Assignment} (hadmits : s.store.Admits a)
    (haccepts : ∀ e ∈ posted, e.2.Accepts a) : s.Solves a := by
  refine ⟨hadmits, ?_⟩
  intro j q hq
  obtain ⟨p, hposted, hguise⟩ := hbuilt.exists_posted hq
  have hcore := (hbuilt.kernel.fit j q hq).core_eq_of_guise hguise.symm
  rw [← q.accepts_core, ← hcore, p.accepts_core]
  exact haccepts (j, p) hposted

end Space

end ConstraintSpace
