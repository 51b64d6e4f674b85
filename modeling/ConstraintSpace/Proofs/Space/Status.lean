import ConstraintSpace.Proofs.Space.Runs

/-!
# What a status tells

A status other than failure leaves the space at rest: nobody waits, nothing is
pending, and every posted propagator whose views are fixed is entailed.
-/

namespace ConstraintSpace

namespace Space

variable {s s' t : Space} {j : Nat} {p : Propagator}

theorem status_eq (s : Space) :
    status s =
      match propagate s with
      | .ok (some _) t => .ok .failed t
      | .ok none t =>
        match advance t with
        | .ok found u => .ok (if found then .branching else .solved) u
        | .error fault u => .error fault u
      | .error fault t => .error fault t := by
  unfold status
  simp only [bind, EStateM.bind]
  cases propagate s with
  | error fault t => rfl
  | ok reason t =>
      cases reason with
      | some _ => rfl
      | none =>
          cases hadvance : advance t with
          | ok found u => simp only [EStateM.bind, hadvance]; rfl
          | error fault u => simp only [EStateM.bind, hadvance]

/-- A status other than failure leaves a space at rest. -/
theorem Sound.status_rests (hsound : s.Sound) {answer : SpaceStatus}
    (hstatus : Space.status s = .ok answer s') (hanswer : answer ≠ .failed) :
    s'.Rests ∧ s'.failure = none := by
  rw [status_eq] at hstatus
  split at hstatus
  · simp only [EStateM.Result.ok.injEq] at hstatus
    exact absurd hstatus.1.symm hanswer
  next t hpropagate =>
    have hpropagated := hsound.propagate hpropagate
    have hrests := hpropagated.rests rfl
    split at hstatus
    next found u hadvance =>
      simp only [EStateM.Result.ok.injEq] at hstatus
      obtain ⟨-, rfl⟩ := hstatus
      have hkin : t.Kin u := kin_of_advanceBy hadvance
      exact ⟨⟨hkin.queue ▸ hrests.queue, hkin.store ▸ hrests.quiet⟩,
        hkin.failure.trans hpropagated.failure⟩
    next => simp at hstatus
  next => simp at hstatus

/-- What was posted is entailed at every such status, once its views are fixed. -/
theorem Upholds.entailed_of_status (hupholds : s.Upholds j p) (hsound : s.Sound)
    {answer : SpaceStatus} (hstatus : Space.status s = .ok answer s')
    (hanswer : answer ≠ .failed) (hfixed : p.AllFixed s'.store) :
    p.Entailed s'.store := by
  have hkeeps := hsound.status_keeps hstatus
  obtain ⟨hrests, hok⟩ := hsound.status_rests hstatus hanswer
  exact (hkeeps.upholds j p hupholds).entailed hkeeps.sound hrests hok hfixed

theorem addPropagator_eq (hfit : p.Fit s.store) :
    addPropagator p none s =
      if s.isFailed then .error (.refused .spaceFailed) s
      else .ok s.slots.size (s.register p) := by
  have hpresent : ∀ s : Space, present p s = .ok () s := by
    cases p with
    | scripted script => exact hfit.elim
    | _ => exact fun _ => rfl
  unfold addPropagator
  simp only [bind, EStateM.bind, checkNotFailed]
  cases hfailed : s.isFailed with
  | true => rfl
  | false =>
      simp only [Bool.false_eq_true, if_false, hpresent]
      rfl

end Space

end ConstraintSpace
