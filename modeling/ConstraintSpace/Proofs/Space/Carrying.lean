import ConstraintSpace.Proofs.Space.Acts

/-!
# Relations that operations carry

Much of what an operation leaves alone is a relation between the space before it and the
space after it that composes, and that narrowing, waiting, failing and passing events on
cannot break.  Every operation that does no more than that carries such a relation, and
where a run and a question to a brancher do not break it either, so do propagation, the
status and the choice.
-/

namespace ConstraintSpace

namespace Space

variable {s t : Space} {α β : Type} {R : Space → Space → Prop}

/-- However the operation ends short of a breach, the space before it and the space after
it are related. -/
def Carries (R : Space → Space → Prop) (m : Operation α) : Prop :=
  ∀ s t, resume (m s) = some t → R s t

theorem Carries.of_ok {m : Operation α} {x : α} (hm : Carries R m) (hrun : m s = .ok x t) :
    R s t :=
  hm s t (resume_of_ok hrun)

theorem carries_modifyGet {f : Space → α × Space} (hf : ∀ s, R s (f s).2) :
    Carries R (modifyGet f : Operation α) := by
  intro s t hrun
  obtain rfl : (f s).2 = t := Option.some.inj hrun
  exact hf s

/-- The relation composes, and holds whatever becomes of the domains, the queue and the
counts, where a space fails, and where it passes its events on. -/
structure Tolerant (R : Space → Space → Prop) : Prop where
  trans : ∀ {s t u : Space}, R s t → R t u → R s u
  work : ∀ (s : Space) (store : Store) (queue : Queue) (counts : SpaceCounts),
    R s { s with store, queue, counts }
  failWith : ∀ (reason : Inconsistency) (s : Space), R s (s.failWith reason)
  schedule : ∀ skip, Carries R (schedule skip)

namespace Tolerant

theorem refl (hR : Tolerant R) (s : Space) : R s s := hR.work s s.store s.queue s.counts

theorem pure (hR : Tolerant R) (x : α) : Carries R (Pure.pure x : Operation α) := by
  intro s t hrun
  obtain rfl : s = t := Option.some.inj hrun
  exact hR.refl s

theorem bind (hR : Tolerant R) {m : Operation α} {k : α → Operation β} (hm : Carries R m)
    (hk : ∀ x, Carries R (k x)) : Carries R (m >>= k) := by
  intro s t hrun
  rcases resume_bind_cases hrun with hrun | ⟨x, u, hfirst, hrest⟩
  · exact hm s t hrun
  · exact hR.trans (hm.of_ok hfirst) (hk x u t hrest)

/-! ## Building a model -/

theorem checkNotFailed (hR : Tolerant R) : Carries R checkNotFailed := by
  intro s t hrun
  unfold Space.checkNotFailed at hrun
  split at hrun <;>
  · obtain rfl : s = t := Option.some.inj hrun
    exact hR.refl s

theorem permit (hR : Tolerant R) (result : Except SpaceError α) :
    Carries R (permit result) := by
  intro s t hrun
  cases result <;>
  · obtain rfl : s = t := Option.some.inj hrun
    exact hR.refl s

theorem addInt (hR : Tolerant R) (domain : Except SpaceError IntDomain) :
    Carries R (addInt domain) :=
  hR.bind hR.checkNotFailed fun _ => hR.bind (hR.permit domain) fun _ =>
    carries_modifyGet fun s => hR.work s _ s.queue s.counts

theorem newBool (hR : Tolerant R) : Carries R newBool :=
  hR.bind (hR.addInt _) fun _ => hR.pure _

theorem newFloat (hR : Tolerant R) (lower upper : Double) :
    Carries R (newFloat lower upper) :=
  hR.bind hR.checkNotFailed fun _ => hR.bind (hR.permit _) fun _ =>
    carries_modifyGet fun s => hR.work s _ s.queue s.counts

theorem newSet (hR : Tolerant R) (glb lub : List Int) (card : Nat × Nat) :
    Carries R (newSet glb lub card) :=
  hR.bind hR.checkNotFailed fun _ => hR.bind (hR.permit _) fun _ =>
    carries_modifyGet fun s => hR.work s _ s.queue s.counts

theorem of_tightens (hR : Tolerant R) {P : Store → Prop} {log : List Entry}
    (htightens : s.Tightens P log t) : R s t := by
  cases htightens with
  | idle => exact hR.refl s
  | passed counts _ _ hrun => exact hR.trans (hR.work s _ _ counts) ((hR.schedule none).of_ok hrun)
  | failed counts => exact hR.trans (hR.work s _ _ counts) (hR.failWith _ _)

theorem post (hR : Tolerant R) (keepGoing : Bool) (narrowings : List Narrowing) :
    Carries R (post keepGoing narrowings) := fun _ _ hrun =>
  hR.of_tightens (post_tightens (P := fun _ => True) trivial hrun)

theorem commit (hR : Tolerant R) (chosen : Choice) (alternative : Nat) :
    Carries R (commit chosen alternative) := fun _ _ hrun =>
  hR.of_tightens (commit_tightens (P := fun _ => True) (fun _ _ _ => trivial) hrun)

/-! ## Propagation and exploration -/

theorem runOne (hR : Tolerant R)
    (hafter : ∀ {s id p}, s.propagator? id = some p → R s (s.afterRun id p))
    (hsubsume : ∀ {s id p}, s.propagator? id = some p → R s (s.subsume id)) (id : Nat) :
    Carries R (runOne id) := by
  intro s t hrun
  cases hp : s.propagator? id with
  | none =>
      rw [runOne_of_gone hp] at hrun
      obtain rfl := Option.some.inj hrun
      exact hR.refl s
  | some p =>
      have hran := hafter hp
      rw [runOne_eq hp] at hrun
      -- fixpoint, no fixpoint, subsumed, failed, breached
      split at hrun
      · exact hR.trans hran (hR.schedule _ _ t hrun)
      · exact hR.trans hran (hR.schedule _ _ t hrun)
      · have hsubsumed := hsubsume (propagator?_afterRun_self hp)
        exact hR.trans (hR.trans hran hsubsumed) (hR.schedule _ _ t hrun)
      · obtain rfl := Option.some.inj hrun
        exact hR.trans hran (hR.failWith _ _)
      · simp [resume] at hrun

theorem propagate (hR : Tolerant R) (hone : ∀ id, Carries R (Space.runOne id)) :
    Carries R propagate := by
  intro s t hrun
  obtain ⟨reason, hok⟩ := willing_propagate.ok_of_resume hrun
  rcases propagate_cases hok with ⟨_, -, -, rfl⟩ | ⟨-, -, u, hschedule, hqueue⟩
  · exact hR.refl t
  · refine runQueue_induction (P := R s) (fun v w id q hbefore _ hran => ?_)
      ((hR.schedule none).of_ok hschedule) hqueue
    exact hR.trans hbefore (hR.trans (hR.work v _ q _) ((hone id).of_ok hran))

theorem status (hR : Tolerant R) (hone : ∀ id, Carries R (Space.runOne id))
    (hadvance : Carries R advance) : Carries R status := by
  refine hR.bind (hR.propagate hone) fun reason => ?_
  cases reason with
  | some _ => exact hR.pure _
  | none => exact hR.bind hadvance fun _ => hR.pure _

theorem choice (hR : Tolerant R) (hadvance : Carries R advance)
    (hpropose : Carries R propose) : Carries R choice := by
  intro s t hrun
  rcases choice_cases hrun with rfl | hmoved | ⟨u, hmoved, hproposed⟩
  · exact hR.refl t
  · exact hadvance.of_ok hmoved
  · exact hR.trans (hadvance.of_ok hmoved) (hpropose u t hproposed)

end Tolerant

/-! ## The cursors -/

/-- The operation moves no cursor. -/
def Unmoving (m : Operation α) : Prop :=
  ∀ s t, resume (m s) = some t → t.branchers = s.branchers ∧ t.active = s.active

theorem tolerant_unmoved :
    Tolerant fun s t => t.branchers = s.branchers ∧ t.active = s.active where
  trans := fun hfirst hsecond => ⟨hsecond.1.trans hfirst.1, hsecond.2.trans hfirst.2⟩
  work := fun _ _ _ _ => ⟨rfl, rfl⟩
  failWith := fun reason s => ⟨branchers_failWith reason s, active_failWith reason s⟩
  schedule := fun skip s t hrun => by
    rcases schedule_cases skip s with ⟨breach, u, hschedule, -⟩ | ⟨q, journal, hschedule, -⟩
    · simp [hschedule, resume] at hrun
    · rw [hschedule] at hrun
      obtain rfl := Option.some.inj hrun
      exact ⟨rfl, rfl⟩

theorem unmoving_commit (chosen : Choice) (alternative : Nat) :
    Unmoving (commit chosen alternative) :=
  tolerant_unmoved.commit chosen alternative

end Space

end ConstraintSpace
