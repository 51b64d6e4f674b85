import ConstraintSpace.Proofs.Space.Anonymity
import ConstraintSpace.Proofs.Space.Attention
import ConstraintSpace.Proofs.Space.Carrying
import ConstraintSpace.Proofs.Space.Status

/-!
# Recomputation

A path records the choices that led from a space to a descendant.  Replaying it on a
copy of the space repeats every status and every choice, since whatever they depend on
is copied: cursors, generators, tables, the queue and who listens to what.  So the
replay is never refused and it ends where the recorded run did.
-/

namespace ConstraintSpace

/-! ## Choices of integers -/

/-- The branching selects integers: it is not one over float variables. -/
def Branching.Discrete : Branching → Prop
  | float _ _ => False
  | _ => True

def Brancher.Discrete : Brancher → Prop
  | viewValue b => b.branching.Discrete
  | observer _ => True

theorem Branching.Discrete.selectValue {b next : Branching} {s : Store} {position : Nat}
    {value : BranchValue} (hdiscrete : b.Discrete)
    (hselect : b.selectValue s position = .ok (value, next)) :
    next.Discrete ∧ ∃ x, value = .int x := by
  cases b with
  | float views commit => exact hdiscrete.elim
  | int views selection commit =>
      simp only [Branching.selectValue] at hselect
      split at hselect
      · split at hselect
        · simp only [Except.ok.injEq, Prod.mk.injEq] at hselect
          obtain ⟨rfl, rfl⟩ := hselect
          exact ⟨trivial, _, rfl⟩
        · cases hselect
      · cases hselect
  | set views selection commit =>
      simp only [Branching.selectValue] at hselect
      split at hselect
      · split at hselect
        · simp only [Except.ok.injEq, Prod.mk.injEq] at hselect
          obtain ⟨rfl, rfl⟩ := hselect
          exact ⟨trivial, _, rfl⟩
        · cases hselect
      · cases hselect

namespace ViewBrancher

variable {b next : ViewBrancher} {s : Store}

theorem branching_of_status {branches : Bool} (hstatus : b.status s = .ok (branches, next)) :
    next.branching = b.branching := by
  simp only [status] at hstatus
  split at hstatus
  · cases hstatus
    rfl
  · split at hstatus
    · cases hstatus
      rfl
    · cases hstatus

theorem discrete_of_choice {proposed : Option Choice} {notes : List Happening}
    (hdiscrete : b.branching.Discrete) (hchoice : b.choice s = .ok (proposed, next, notes)) :
    next.branching.Discrete ∧ ∀ c ∈ proposed, ∃ x, c.value = .int x := by
  simp only [choice] at hchoice
  split at hchoice
  case isFalse => cases hchoice
  split at hchoice
  · cases hchoice
    exact ⟨hdiscrete, by simp⟩
  next offset _ =>
    cases hselect : b.branching.selectValue s (b.start + offset) with
    | error breach => simp [hselect] at hchoice
    | ok selected =>
        obtain ⟨value, branching⟩ := selected
        obtain ⟨hnext, x, rfl⟩ := hdiscrete.selectValue hselect
        simp only [hselect, Except.ok.injEq, Prod.mk.injEq] at hchoice
        obtain ⟨rfl, rfl, -⟩ := hchoice
        refine ⟨hnext, ?_⟩
        rintro c hc
        obtain rfl := Option.some.inj hc
        exact ⟨x, rfl⟩

end ViewBrancher

namespace Brancher

variable {b next : Brancher} {s : Store} {notes : List Happening}

theorem Discrete.status {branches : Bool} (hdiscrete : b.Discrete)
    (hstatus : b.status s = .ok (branches, next, notes)) : next.Discrete := by
  cases b with
  | observer o =>
      simp only [Brancher.status] at hstatus
      split at hstatus
      · cases hstatus
        trivial
      · cases hstatus
  | viewValue b =>
      simp only [Brancher.status] at hstatus
      split at hstatus
      next hview =>
        cases hstatus
        have hsame := ViewBrancher.branching_of_status hview
        simpa only [Discrete, hsame] using hdiscrete
      · cases hstatus

theorem Discrete.choice {proposed : Option Choice} (hdiscrete : b.Discrete)
    (hchoice : b.choice s = .ok (proposed, next, notes)) :
    next.Discrete ∧ ∀ c ∈ proposed, ∃ x, c.value = .int x := by
  cases b with
  | observer o =>
      cases hchoice
      exact ⟨trivial, by simp⟩
  | viewValue b =>
      simp only [Brancher.choice] at hchoice
      split at hchoice
      next hview =>
        cases hchoice
        exact ViewBrancher.discrete_of_choice hdiscrete hview
      · cases hchoice

theorem discrete_anonymous (b : Brancher) : b.anonymous.Discrete ↔ b.Discrete := by
  cases b with
  | observer o => exact Iff.rfl
  | viewValue b =>
      obtain ⟨start, selector, branching, label, selectionNotices, commitNotices⟩ := b
      cases branching <;> exact Iff.rfl

end Brancher

/-- A choice of an integer agrees with itself. -/
theorem Choice.agrees_self {c : Choice} {x : Int} (hvalue : c.value = .int x) :
    c.agrees c = true := by
  simp [agrees, hvalue, BranchValue.agrees]

namespace Space

variable {s s' t u : Space} {p : Path}

/-- No brancher is over float variables. -/
def Discrete (s : Space) : Prop := ∀ b ∈ s.branchers, b.Discrete

theorem Discrete.of_branchers (hdiscrete : s.Discrete) (hbranchers : t.branchers = s.branchers) :
    t.Discrete := by
  unfold Discrete
  rwa [hbranchers]

theorem Discrete.setBrancher (hdiscrete : s.Discrete) {id : Nat} {b : Brancher}
    (hb : b.Discrete) (hbranchers : t.branchers = s.branchers.setIfInBounds id b) :
    t.Discrete := by
  intro b' hb'
  rw [hbranchers] at hb'
  rcases Array.mem_or_eq_of_mem_setIfInBounds hb' with hold | rfl
  · exact hdiscrete b' hold
  · exact hb

theorem Discrete.advanceBy {fuel : Nat} {found : Bool} (hdiscrete : s.Discrete)
    (hrun : Space.advanceBy fuel s = .ok found t) : t.Discrete := by
  refine advanceBy_induction (P := Discrete) (fun u b branches b' notes hbefore hb hstatus => ?_)
    hdiscrete hrun
  have hb' : b.Discrete := hbefore b (Array.mem_of_getElem? hb)
  exact ⟨fun _ => hbefore.setBrancher (hb'.status hstatus) rfl,
    fun _ => hbefore.setBrancher (hb'.status hstatus) rfl⟩

theorem Discrete.status {answer : SpaceStatus} (hdiscrete : s.Discrete) (hsound : s.Sound)
    (hrun : Space.status s = .ok answer t) : t.Discrete := by
  rw [status_eq] at hrun
  split at hrun
  next hpropagate =>
    cases hrun
    exact hdiscrete.of_branchers (hsound.propagate hpropagate).frame.branchers
  next hpropagate =>
    have hdiscrete' := hdiscrete.of_branchers (hsound.propagate hpropagate).frame.branchers
    split at hrun
    next hadvance =>
      cases hrun
      exact hdiscrete'.advanceBy hadvance
    · cases hrun
  · cases hrun

theorem Discrete.choice {c : Choice} (hdiscrete : s.Discrete)
    (hrun : Space.choice s = .ok c t) : t.Discrete ∧ ∃ x, c.value = .int x := by
  obtain ⟨-, moved, hadvance, hpropose⟩ := exists_propose_of_choice hrun
  have hdiscrete' : moved.Discrete := hdiscrete.advanceBy hadvance
  unfold propose at hpropose
  split at hpropose
  · cases hpropose
  next b hb =>
    have hb' : b.Discrete := hdiscrete' b (Array.mem_of_getElem? hb)
    split at hpropose
    · cases hpropose
    next hchoice =>
      obtain ⟨hnext, hvalue⟩ := hb'.choice hchoice
      split at hpropose
      · cases hpropose
      next proposed =>
        cases hpropose
        exact ⟨hdiscrete'.setBrancher hnext rfl, hvalue proposed rfl⟩

theorem Discrete.commit {c : Choice} {alternative : Nat} (hdiscrete : s.Discrete)
    (hrun : Space.commit c alternative s = .ok () t) : t.Discrete :=
  hdiscrete.of_branchers (unmoving_commit c alternative s t (resume_of_ok hrun)).1

/-! ## Following and replaying a path -/

/-- The space follows the path to another one: again and again it is branching, makes
one choice, and is committed to an alternative that the path records. -/
inductive Follows (s : Space) : Path → Space → Prop where
  | start : Follows s .empty s
  | edge {p : Path} {t t' u v : Space} {chosen : Choice} {alternative : Nat}
      (hfollows : Follows s p t) (hstatus : status t = .ok .branching t')
      (hchoice : choice t' = .ok chosen u)
      (hcommit : commit chosen alternative u = .ok () v) :
      Follows s (p.push chosen alternative) v

theorem replay_append (first second : List (Choice × Nat)) :
    Path.replay (first ++ second) = Path.replay first >>= fun _ => Path.replay second := by
  induction first with
  | nil => rfl
  | cons edge rest ih =>
      simp only [List.cons_append, Path.replay, bind_assoc]
      apply bind_congr
      intro _
      apply bind_congr
      intro replayed
      split
      · simp only [ih, bind_assoc]
      · rfl

/-- Where a space follows a path, it can be replayed there, with the same end. -/
theorem Follows.replay (hfollows : s.Follows p t) (hreaches : new.Reaches s)
    (hdiscrete : s.Discrete) :
    Path.replay p.edges s = .ok () t ∧ new.Reaches t ∧ t.Discrete := by
  induction hfollows with
  | start => exact ⟨rfl, hreaches, hdiscrete⟩
  | @edge p t t' u v chosen alternative _ hstatus hchoice hcommit ih =>
      obtain ⟨hreplay, hreaches, hdiscrete⟩ := ih
      have hreaches' : new.Reaches v := by
        apply Reaches.act (.commit chosen alternative) _ (by rw [Act.perform, hcommit, resume])
        apply Reaches.act .choice _ (by rw [Act.perform, hchoice, resume])
        exact Reaches.act .status hreaches (by rw [Act.perform, hstatus, resume])
      have hdiscrete' := hdiscrete.status (hreaches.tidy tidy_new).sound hstatus
      obtain ⟨hdiscrete'', x, hvalue⟩ := hdiscrete'.choice hchoice
      refine ⟨?_, hreaches', hdiscrete''.commit hcommit⟩
      rw [Path.push, replay_append]
      simp only [Path.replay, bind, EStateM.bind, hreplay, hstatus, hchoice,
        Choice.agrees_self hvalue, if_true, hcommit]
      rfl

theorem Twin.discrete (htwin : s.Twin s') (hdiscrete : s.Discrete) : s'.Discrete := by
  obtain ⟨counts, journal, hsame⟩ := htwin
  have hbranchers : s'.branchers.map Brancher.anonymous = s.branchers.map Brancher.anonymous :=
    congrArg Space.branchers hsame
  intro b hb
  have hmem : b.anonymous ∈ s.branchers.map Brancher.anonymous := by
    rw [← hbranchers]
    exact Array.mem_map_of_mem hb
  obtain ⟨b', hb', heq⟩ := Array.mem_map.mp hmem
  rw [← b.discrete_anonymous, ← heq, b'.discrete_anonymous]
  exact hdiscrete b' hb'

/-- Recomputing a path on a space gives what a copy of the space came to when it
followed the path: the same but for counts, journals and the numbers of what the copies
share, and for a sharing copy the same but for counts and journals. -/
theorem recompute_follows (hreaches : new.Reaches s) (hdiscrete : s.Discrete)
    {mode : CopyMode} {next : Nat} (hfollows : (s.copy mode next).1.Follows p t) :
    ∃ t', p.recompute s = .ok () t' ∧ t.Twin t' ∧ (mode = .sharing → t.Alike t') := by
  have hcopied : new.Reaches (s.copy mode next).1 := .act (.copy mode next) hreaches rfl
  cases hfailure : s.failure with
  | some reason =>
      have hsame : (s.copy mode next).1 = s.clone := by simp only [clone, copy, hfailure]
      have hnone : (s.copy mode next).1.Discrete := by
        simp [Discrete, copy, hfailure, new]
      obtain ⟨hreplay, -⟩ := hfollows.replay hcopied hnone
      rw [hsame] at hreplay
      exact ⟨t, hreplay, (Alike.refl t).twin, fun _ => .refl t⟩
  | none =>
      have htwin := twin_copy hfailure mode next
      obtain ⟨hreplay, -⟩ := hfollows.replay hcopied (htwin.discrete hdiscrete)
      have hclone : (s.copy mode next).1.Twin s.clone :=
        htwin.symm.trans (twin_copy hfailure .sharing 0)
      obtain ⟨t', hrecompute, htwin'⟩ :=
        hclone.of_ok (impartial_replay p.edges) (oblivious_replay p.edges) hreplay
      refine ⟨t', hrecompute, htwin', ?_⟩
      rintro rfl
      have halike := (alike_copy hfailure next).symm.trans (alike_clone hfailure)
      obtain ⟨t'', hrecompute', halike'⟩ := (oblivious_replay p.edges).of_ok halike hreplay
      obtain rfl := (EStateM.Result.ok.inj (hrecompute'.symm.trans hrecompute)).2
      exact halike'

/-- Takes the given alternatives one after the other, and notes them on a path. -/
def descend : List Nat → Path → Space → Option (Path × Space)
  | [], p, s => some (p, s)
  | alternative :: rest, p, s =>
    match status s with
    | .ok .branching t =>
      match choice t with
      | .ok chosen u =>
        match commit chosen alternative u with
        | .ok _ v => descend rest (p.push chosen alternative) v
        | .error _ _ => none
      | .error _ _ => none
    | _ => none

theorem Follows.descend {alternatives : List Nat} {q : Path} (hfollows : s.Follows p t)
    (hdescend : descend alternatives p t = some (q, u)) : s.Follows q u := by
  induction alternatives generalizing p t with
  | nil =>
      cases hdescend
      exact hfollows
  | cons alternative rest ih =>
      simp only [Space.descend] at hdescend
      split at hdescend
      next hstatus =>
        split at hdescend
        next hchoice =>
          split at hdescend
          next hcommit => exact ih (hfollows.edge hstatus hchoice hcommit) hdescend
          · cases hdescend
        · cases hdescend
      · cases hdescend

/-- A random descent below an independent copy, which is recomputed. -/
theorem recompute_random_descent :
    let brancher : ViewBrancher :=
      { start := 0, selector := .inputOrder
        branching := .int [.var 0, .var 1] (.random (.ofSeed 7)) .assignOrExclude
        label := none, selectionNotices := false, commitNotices := false }
    let acts := [.newInt 0 3, .newInt 0 3, .addPropagator (.lessOrEqual (.var 0) (.var 1)) none,
      .addBrancher (.viewValue brancher)]
    ∃ s p t, performAll acts new = some s ∧ s.Discrete ∧ p.length = 3 ∧
      (s.copy .independent 0).1.Follows p t ∧
        ∃ t', p.recompute s = .ok () t' ∧ t.Twin t' := by
  intro brancher acts
  have hbranchers : (performAll acts new).map Space.branchers = some #[.viewValue brancher] := rfl
  obtain ⟨s, hperform, hbranchers⟩ := Option.map_eq_some_iff.mp hbranchers
  have hdiscrete : s.Discrete := by
    intro b hb
    obtain rfl : b = .viewValue brancher := by simpa [hbranchers] using hb
    trivial
  have hlength : ((performAll acts new).bind fun s =>
      descend [1, 1, 0] .empty (s.copy .independent 0).1).map (fun r => r.1.length) = some 3 := by
    decide +kernel
  rw [hperform, Option.bind_some] at hlength
  obtain ⟨⟨p, t⟩, hdescend, hlength⟩ := Option.map_eq_some_iff.mp hlength
  have hfollows := Follows.start.descend hdescend
  obtain ⟨t', hrecompute, htwin, -⟩ :=
    recompute_follows (reaches_of_performAll hperform) hdiscrete hfollows
  exact ⟨s, p, t, hperform, hdiscrete, hlength, hfollows, t', hrecompute, htwin⟩

end Space

end ConstraintSpace
