import ConstraintSpace.Proofs.Space.Recomputation
import ConstraintSpace.Proofs.Space.Splitting

/-!
# Retracing

A copy that a search keeps has already been asked for its status, and a replay asks it
again.  A space that has answered to be branching answers so again and stays as it is,
whatever propagators and branchers it has.  So a replay on such a copy repeats what the
copied space did, and what it comes to is where the space comes to that follows the path.
-/

namespace ConstraintSpace

theorem ViewBrancher.status_again {b next : ViewBrancher} {s : Store}
    (hstatus : b.status s = .ok (true, next)) : next.status s = .ok (true, next) := by
  have hcursor : next.cursor s = next.start := (stands_of_status hstatus).cursor_eq
  simp only [status] at hstatus
  split at hstatus
  · cases hstatus
  next view hview =>
    split at hstatus
    next hknown =>
      cases hstatus
      simp only [status, hcursor, hview, hknown, if_true]
    · cases hstatus

theorem Brancher.status_again {b next : Brancher} {s : Store} {notes : List Happening}
    (hstatus : b.status s = .ok (true, next, notes)) :
    next.status s = .ok (true, next, notes) := by
  cases b with
  | observer o =>
      simp only [status] at hstatus
      split at hstatus
      next hobserve =>
        simp only [Except.ok.injEq, Prod.mk.injEq] at hstatus
        obtain ⟨hbranches, rfl, rfl⟩ := hstatus
        simp only [status, hobserve, hbranches]
      · cases hstatus
  | viewValue b =>
      simp only [status] at hstatus
      split at hstatus
      next hview =>
        simp only [Except.ok.injEq, Prod.mk.injEq] at hstatus
        obtain ⟨rfl, rfl, rfl⟩ := hstatus
        simp only [status, ViewBrancher.status_again hview]
      · cases hstatus

namespace Space

variable {s s' t u v w : Space} {p : Path} {chosen : Choice} {alternative : Nat}

/-! ## Asking again -/

/-- Asking ends at a brancher that gives the same answer when it is asked again. -/
theorem exists_asked_of_advanceBy {fuel : Nat} (hrun : advanceBy fuel s = .ok true t) :
    ∃ b notes, t.branchers[t.active]? = some b ∧ b.status t.store = .ok (true, b, notes) := by
  induction fuel generalizing s with
  | zero => cases hrun
  | succ fuel ih =>
      simp only [advanceBy] at hrun
      split at hrun
      · cases hrun
      next asked hasked =>
        split at hrun
        · cases hrun
        next branches next notes hstatus =>
          split at hrun
          next hbranches =>
            cases hrun
            subst hbranches
            have hlt := (Array.getElem?_eq_some_iff.mp hasked).1
            exact ⟨next, notes, by simp [noteAll, hlt], Brancher.status_again hstatus⟩
          · exact ih hrun

theorem advance_again (hrun : advance s = .ok true t) :
    ∃ t', advance t = .ok true t' ∧ t.Alike t' := by
  obtain ⟨b, notes, hb, hstatus⟩ := exists_asked_of_advanceBy hrun
  have hactive := (Array.getElem?_eq_some_iff.mp hb).1
  obtain ⟨fuel, hfuel⟩ := Nat.exists_eq_succ_of_ne_zero (Nat.sub_ne_zero_of_lt hactive)
  refine ⟨t.noteAll notes, ?_, t.counts, _, rfl⟩
  simp only [advance, hfuel, advanceBy, hb, hstatus, Store.setIfInBounds_self hb]
  rfl

theorem Rests.propagate_eq (hrests : t.Rests) (hsound : t.Sound) (hok : t.failure = none) :
    Space.propagate t = .ok none t := by
  have hpop := Queue.pop?_eq_none hsound.queue hrests.queue
  simp only [Space.propagate, hok, schedule_of_isQuiet hrests.quiet,
    runQueue_of_pop?_eq_none hpop]

/-- A branching space answers so again. -/
theorem Sound.status_again (hsound : s.Sound) (hstatus : Space.status s = .ok .branching t) :
    ∃ t', Space.status t = .ok .branching t' ∧ t.Alike t' := by
  obtain ⟨hrests, hok⟩ := hsound.status_rests hstatus (by simp)
  have hpropagate := hrests.propagate_eq (hsound.status_keeps hstatus).sound hok
  rw [status_eq] at hstatus
  split at hstatus
  · cases hstatus
  next asked _ =>
    split at hstatus
    next found u hadvance =>
      cases found with
      | false => cases hstatus
      | true =>
          simp only [EStateM.Result.ok.injEq] at hstatus
          obtain ⟨-, rfl⟩ := hstatus
          obtain ⟨t', hagain, halike⟩ := advance_again hadvance
          refine ⟨t', ?_, halike⟩
          rw [status_eq, hpropagate]
          simp only [hagain, if_true]
    · cases hstatus
  · cases hstatus

/-! ## Following a path again -/

theorem Follows.reaches (hfollows : s.Follows p t) (hreaches : new.Reaches s) :
    new.Reaches t := by
  induction hfollows with
  | start => exact hreaches
  | @edge p t t' u v chosen alternative _ hstatus hchoice hcommit ih =>
      apply Reaches.act (.commit chosen alternative) _ (by rw [Act.perform, hcommit, resume])
      apply Reaches.act .choice _ (by rw [Act.perform, hchoice, resume])
      exact Reaches.act .status ih (by rw [Act.perform, hstatus, resume])

/-- The path says where the space comes to. -/
theorem Follows.unique (hfirst : s.Follows p t) (hsecond : s.Follows p u) : t = u := by
  induction hfirst generalizing u with
  | start =>
      generalize hempty : Path.empty = q at hsecond
      cases hsecond with
      | start => rfl
      | edge => simp [Path.empty, Path.push] at hempty
  | @edge p t t' w v chosen alternative _ hstatus hchoice hcommit ih =>
      generalize hpush : p.push chosen alternative = q at hsecond
      cases hsecond with
      | start => simp [Path.empty, Path.push] at hpush
      | @edge p₁ t₁ t₁' w₁ _ chosen₁ alternative₁ hfollows₁ hstatus₁ hchoice₁ hcommit₁ =>
          simp only [Path.push, Path.mk.injEq] at hpush
          obtain ⟨hedges, hlast⟩ := List.append_inj' hpush rfl
          obtain ⟨rfl, rfl⟩ : chosen = chosen₁ ∧ alternative = alternative₁ := by
            simpa using hlast
          obtain rfl : p = p₁ := congrArg Path.mk hedges
          obtain rfl := ih hfollows₁
          obtain ⟨-, rfl⟩ := EStateM.Result.ok.inj (hstatus.symm.trans hstatus₁)
          obtain ⟨-, rfl⟩ := EStateM.Result.ok.inj (hchoice.symm.trans hchoice₁)
          exact (EStateM.Result.ok.inj (hcommit.symm.trans hcommit₁)).2

/-- Replaying one edge commits to what the space chose itself. -/
theorem exists_commit_of_replay (hstatus : status s = .ok .branching t)
    (hchoice : choice t = .ok chosen u) (halike : s.Alike s')
    (hreplay : Path.replay [(chosen, alternative)] s' = .ok () v) :
    ∃ w, commit chosen alternative u = .ok () w ∧ w.Alike v := by
  obtain ⟨t', hstatus', halike_t⟩ := oblivious_status.of_ok halike hstatus
  obtain ⟨u', hchoice', halike_u⟩ := oblivious_choice.of_ok halike_t hchoice
  simp only [Path.replay, bind, EStateM.bind, hstatus', hchoice'] at hreplay
  split at hreplay
  · change (commit chosen alternative >>= fun _ => pure ()) u' = .ok () v at hreplay
    rw [bind_pure_unit] at hreplay
    obtain ⟨w, hcommit, halike_w⟩ :=
      (oblivious_commit chosen alternative).of_ok halike_u.symm hreplay
    exact ⟨w, hcommit, halike_w.symm⟩
  · cases hreplay

/-- So it does on a copy from just before the choice, which is asked for its status once
more. -/
theorem Sound.exists_commit_of_replay (hsound : s.Sound)
    (hstatus : status s = .ok .branching t) (hchoice : choice t = .ok chosen u)
    (halike : t.Alike s') (hreplay : Path.replay [(chosen, alternative)] s' = .ok () v) :
    ∃ w, commit chosen alternative u = .ok () w ∧ w.Alike v := by
  obtain ⟨t', hagain, halike_t⟩ := hsound.status_again hstatus
  obtain ⟨u', hchoice', halike_u⟩ := oblivious_choice.of_ok halike_t hchoice
  obtain ⟨w', hcommit', halike_w'⟩ := Space.exists_commit_of_replay hagain hchoice' halike hreplay
  obtain ⟨w, hcommit, halike_w⟩ :=
    (oblivious_commit chosen alternative).of_ok halike_u.symm hcommit'
  exact ⟨w, hcommit, halike_w.symm.trans halike_w'⟩

end Space

end ConstraintSpace
