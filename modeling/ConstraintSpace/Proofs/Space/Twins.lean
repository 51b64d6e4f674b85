import ConstraintSpace.Proofs.Space.Acts
import ConstraintSpace.Proofs.Space.Anonymity

/-!
# Twins are treated alike

Spaces that differ at most in their counts, their journals and the numbers of their shared
instances are twins.  Whatever operation is performed on both of two twins, both get the
same value or the same fault, and twins are left.
-/

namespace ConstraintSpace

namespace Space

variable {s s' : Space} {α β : Type}

/-- The results have the same value or fault, and their spaces are twins. -/
inductive Agree : EStateM.Result Fault Space α → EStateM.Result Fault Space α → Prop where
  | ok (x : α) {s s' : Space} (htwin : s.Twin s') : Agree (.ok x s) (.ok x s')
  | error (fault : Fault) {s s' : Space} (htwin : s.Twin s') :
      Agree (.error fault s) (.error fault s')

/-- The operation gives twins the same result. -/
def Fair (m : Operation α) : Prop := ∀ s s', s.Twin s' → Agree (m s) (m s')

/-- An operation is fair that reads neither counts and journal nor numbers of instances. -/
theorem Impartial.fair {m : Operation α} (hm : Impartial m) (hoblivious : Oblivious m) :
    Fair m := by
  intro s s' htwin
  have hsame := hoblivious _ _ htwin
  rw [hm s, hm s'] at hsame
  cases hrun : m s with
  | ok x t =>
      cases hrun' : m s' with
      | ok y t' =>
          rw [hrun, hrun'] at hsame
          cases hsame with
          | ok _ halike => exact .ok _ halike
      | error fault t' =>
          rw [hrun, hrun'] at hsame
          cases hsame
  | error fault t =>
      cases hrun' : m s' with
      | ok y t' =>
          rw [hrun, hrun'] at hsame
          cases hsame
      | error fault' t' =>
          rw [hrun, hrun'] at hsame
          cases hsame with
          | error _ halike => exact .error _ halike

theorem fair_pure (x : α) : Fair (pure x : Operation α) := fun _ _ htwin => .ok x htwin

theorem fair_throw (fault : Fault) : Fair (throw fault : Operation α) :=
  fun _ _ htwin => .error fault htwin

theorem Fair.bind {m : Operation α} {k : α → Operation β} (hm : Fair m)
    (hk : ∀ x, Fair (k x)) : Fair (m >>= k) := by
  intro s s' htwin
  have hfirst := hm s s' htwin
  simp only [Bind.bind, EStateM.bind]
  generalize m s = result at hfirst
  generalize m s' = result' at hfirst
  cases hfirst with
  | ok x htwin' => exact hk x _ _ htwin'
  | error fault htwin' => exact .error fault htwin'

theorem Fair.map {m : Operation α} (hm : Fair m) (f : α → β) : Fair (f <$> m) := by
  intro s s' htwin
  have hfirst := hm s s' htwin
  simp only [Functor.map, EStateM.map]
  generalize m s = result at hfirst
  generalize m s' = result' at hfirst
  cases hfirst with
  | ok x htwin' => exact .ok (f x) htwin'
  | error fault htwin' => exact .error fault htwin'

theorem fair_modifyGet {f : Space → α × Space}
    (hf : ∀ s s', s.Twin s' → (f s).1 = (f s').1 ∧ (f s).2.Twin (f s').2) :
    Fair (modifyGet f : Operation α) := by
  intro s s' htwin
  obtain ⟨hvalue, htwin'⟩ := hf s s' htwin
  have hok := Agree.ok (f s).1 htwin'
  rw [hvalue] at hok
  have hrun : ∀ t, (modifyGet f : Operation α) t = .ok (f t).1 (f t).2 := fun _ => rfl
  rw [hrun, hrun, hvalue]
  exact hok

/-! ## What twins have in common -/

theorem Twin.store (htwin : s.Twin s') : s'.store = s.store := by
  have halike : s.anonymous.Alike s'.anonymous := htwin
  exact halike.store

theorem Twin.failure (htwin : s.Twin s') : s'.failure = s.failure := by
  have halike : s.anonymous.Alike s'.anonymous := htwin
  exact halike.failure

theorem Twin.isFailed (htwin : s.Twin s') : s'.isFailed = s.isFailed := by
  rw [Space.isFailed, Space.isFailed, htwin.failure]

theorem Twin.size_slots (htwin : s.Twin s') : s'.slots.size = s.slots.size := by
  obtain ⟨counts, journal, heq⟩ := htwin
  simpa [anonymous] using congrArg (fun t : Space => t.slots.size) heq

theorem Twin.size_branchers (htwin : s.Twin s') : s'.branchers.size = s.branchers.size := by
  obtain ⟨counts, journal, heq⟩ := htwin
  simpa [anonymous] using congrArg (fun t : Space => t.branchers.size) heq

theorem Twin.propagator? (htwin : s.Twin s') (id : Nat) :
    (s'.propagator? id).map Propagator.anonymous =
      (s.propagator? id).map Propagator.anonymous := by
  obtain ⟨counts, journal, heq⟩ := htwin
  rw [← propagator?_anonymous, ← propagator?_anonymous, heq]
  rfl

theorem Twin.branchers (htwin : s.Twin s') (id : Nat) :
    s'.branchers[id]?.map Brancher.anonymous = s.branchers[id]?.map Brancher.anonymous := by
  obtain ⟨counts, journal, heq⟩ := htwin
  rw [← branchers_anonymous, ← branchers_anonymous, heq]

theorem Twin.withStore (htwin : s.Twin s') (store : Store) :
    Twin { s with store } { s' with store } := by
  obtain ⟨counts, journal, heq⟩ := htwin
  exact ⟨counts, journal, congrArg (fun t : Space => { t with store }) heq⟩

theorem Twin.note (htwin : s.Twin s') (happening : Happening) :
    (s.note happening).Twin (s'.note happening) := by
  obtain ⟨counts, journal, heq⟩ := htwin
  exact ⟨counts, happening :: journal,
    congrArg (fun t : Space => { t with journal := happening :: t.journal }) heq⟩

theorem Twin.failWith (htwin : s.Twin s') (reason : Inconsistency) :
    (s.failWith reason).Twin (s'.failWith reason) := by
  unfold Twin at *
  rw [← failWith_anonymous, ← failWith_anonymous]
  exact htwin.failWith reason

/-! ## Propagation and exploration -/

theorem fair_schedule (skip : Option Nat) : Fair (schedule skip) :=
  (impartial_schedule skip).fair (oblivious_schedule skip)

theorem fair_propagate : Fair Space.propagate := impartial_propagate.fair oblivious_propagate

theorem fair_status : Fair Space.status := impartial_status.fair oblivious_status

theorem fair_choice : Fair Space.choice := impartial_choice.fair oblivious_choice

theorem fair_commit (chosen : Choice) (alternative : Nat) :
    Fair (Space.commit chosen alternative) :=
  (impartial_commit chosen alternative).fair (oblivious_commit chosen alternative)

/-! ## Building a model -/

theorem fair_checkNotFailed : Fair checkNotFailed := by
  intro s s' htwin
  unfold checkNotFailed
  rw [htwin.isFailed]
  split
  · exact .error _ htwin
  · exact .ok () htwin

theorem fair_permit (result : Except SpaceError α) : Fair (permit result) := by
  intro s s' htwin
  cases result with
  | ok x => exact .ok x htwin
  | error error => exact .error _ htwin

theorem fair_addInt (domain : Except SpaceError IntDomain) : Fair (addInt domain) := by
  apply fair_checkNotFailed.bind
  intro _
  apply (fair_permit domain).bind
  intro d
  apply fair_modifyGet
  intro s s' htwin
  rw [htwin.store]
  exact ⟨rfl, htwin.withStore _⟩

theorem fair_newBool : Fair Space.newBool :=
  (fair_addInt _).bind fun id => fair_pure (IntView.truth id)

theorem fair_newFloat (lower upper : Double) : Fair (Space.newFloat lower upper) := by
  apply fair_checkNotFailed.bind
  intro _
  apply (fair_permit _).bind
  intro d
  apply fair_modifyGet
  intro s s' htwin
  rw [htwin.store]
  exact ⟨rfl, htwin.withStore _⟩

theorem fair_newSet (glb lub : List Int) (card : Nat × Nat) :
    Fair (Space.newSet glb lub card) := by
  apply fair_checkNotFailed.bind
  intro _
  apply (fair_permit _).bind
  intro d
  apply fair_modifyGet
  intro s s' htwin
  rw [htwin.store]
  exact ⟨rfl, htwin.withStore _⟩

theorem fair_post (keepGoing : Bool) (narrowings : List Narrowing) :
    Fair (Space.post keepGoing narrowings) := by
  intro s s' htwin
  unfold Space.post
  rw [htwin.isFailed, htwin.store]
  split
  · exact .error _ htwin
  · split
    next outcomes _ store _ =>
      have hsame := fair_schedule none _ _ (htwin.withStore store)
      generalize schedule none { s with store } = result at hsame
      generalize schedule none { s' with store } = result' at hsame
      cases hsame with
      | ok _ htwin' => exact .ok outcomes htwin'
      | error fault htwin' => exact .error fault htwin'
    next outcomes store _ => exact .ok outcomes ((htwin.withStore store).failWith _)
    next breach store _ => exact .error _ (htwin.withStore store)

theorem fair_announce (name : String) (position : Nat) (watches : List Watch) :
    Fair (announce name position watches) := by
  induction watches generalizing position with
  | nil => exact fair_pure ()
  | cons watch rest ih =>
      intro s s' htwin
      unfold announce
      rw [htwin.store]
      split
      · exact ih _ _ _ (htwin.note _)
      · exact .error _ htwin

theorem fair_present (p : Propagator) : Fair (present p) := by
  cases p with
  | scripted script => exact fair_announce script.name 0 script.watches
  | _ => exact fair_pure ()

end Space

@[simp] theorem Propagator.watches_anonymous (p : Propagator) :
    p.anonymous.watches = p.watches := by
  cases p <;> rfl

@[simp] theorem Propagator.notices_anonymous (p : Propagator) :
    p.anonymous.notices = p.notices := by
  cases p <;> rfl

@[simp] theorem Propagator.kind_anonymous (p : Propagator) : p.anonymous.kind = p.kind := by
  cases p <;> rfl

@[simp] theorem ViewBrancher.kind_anonymous (b : ViewBrancher) :
    b.anonymous.kind = b.kind := by
  obtain ⟨start, selector, branching, label, selectionNotices, commitNotices⟩ := b
  cases branching <;> rfl

namespace Space

variable {s s' : Space} {α β : Type}

theorem register_anonymous (s : Space) (p : Propagator) :
    s.anonymous.register p.anonymous = (s.register p).anonymous := by
  simp only [register, anonymous, Propagator.watches_anonymous, Propagator.notices_anonymous,
    Propagator.priority_anonymous, Array.size_map, Array.map_push]
  rfl

theorem Twin.register (htwin : s.Twin s') (p : Propagator) :
    (s.register p).Twin (s'.register p) := by
  unfold Twin at *
  rw [← register_anonymous, ← register_anonymous]
  obtain ⟨counts, journal, heq⟩ := htwin
  rw [heq]
  exact ⟨counts, journal, rfl⟩

theorem fair_addPropagator (p : Propagator) (rejection : Option SpaceError) :
    Fair (Space.addPropagator p rejection) := by
  apply fair_checkNotFailed.bind
  intro _
  apply (fair_present p).bind
  intro _
  cases rejection with
  | some error => exact fair_throw _
  | none =>
      apply fair_modifyGet
      intro s s' htwin
      exact ⟨htwin.size_slots.symm, htwin.register p⟩

theorem fair_addBrancher (b : Brancher) : Fair (Space.addBrancher b) := by
  apply fair_checkNotFailed.bind
  intro _
  apply fair_modifyGet
  intro s s' htwin
  refine ⟨htwin.size_branchers.symm, ?_⟩
  have hsize := htwin.size_branchers
  obtain ⟨counts, journal, heq⟩ := htwin
  refine ⟨counts, journal, ?_⟩
  have hpush := congrArg (fun t : Space => { t with
    branchers := t.branchers.push b.anonymous
    noticed :=
      if b.notices then t.noticed ++ [Noticed.brancher s.branchers.size] else t.noticed }) heq
  simpa only [anonymous, Array.map_push, hsize] using hpush

theorem fair_observe (observer : Observer) : Fair (Space.observe observer) :=
  (fair_addBrancher _).bind fun _ => fair_status

theorem Twin.rescript (htwin : s.Twin s') (id : Nat) (script : Nat → Store → Step) :
    (Space.rescript id script s).1 = (Space.rescript id script s').1 ∧
      (Space.rescript id script s).2.Twin (Space.rescript id script s').2 := by
  have hset : ∀ {t : Space} {p : Scripted}, t.propagator? id = some (.scripted p) →
      (Space.rescript id script t).1 = true ∧ (Space.rescript id script t).2.anonymous =
        t.anonymous.setPropagator id
          (Propagator.anonymous (.scripted { p with script, runs := 0 })) := by
    intro t p hp
    simp only [Space.rescript, hp]
    exact ⟨trivial, (setPropagator_anonymous _ _ _).symm⟩
  have hgone : ∀ {t : Space}, (∀ p, t.propagator? id ≠ some (.scripted p)) →
      Space.rescript id script t = (false, t) := by
    intro t hnone
    unfold Space.rescript
    split
    next p hp => exact absurd hp (hnone p)
    next => rfl
  have hsame := htwin.propagator? id
  by_cases hp : ∃ p, s.propagator? id = some (.scripted p)
  · obtain ⟨p, hp⟩ := hp
    rw [hp] at hsame
    obtain ⟨q, hq, hanonymous⟩ := Option.map_eq_some_iff.mp hsame
    cases q with
    | scripted q =>
        obtain ⟨hfound, htold⟩ := hset hp
        obtain ⟨hfound', htold'⟩ := hset hq
        refine ⟨hfound.trans hfound'.symm, ?_⟩
        have hscript : Propagator.anonymous (.scripted { q with script, runs := 0 }) =
            Propagator.anonymous (.scripted { p with script, runs := 0 }) := by
          simp only [Propagator.anonymous, Propagator.scripted.injEq, Scripted.mk.injEq]
            at hanonymous ⊢
          simp [hanonymous]
        unfold Twin at *
        rw [htold, htold', hscript]
        obtain ⟨counts, journal, heq⟩ := htwin
        rw [heq]
        exact ⟨counts, journal, rfl⟩
    | _ => simp [Propagator.anonymous] at hanonymous
  · have hnone : ∀ p, s.propagator? id ≠ some (.scripted p) := fun p heq => hp ⟨p, heq⟩
    have hnone' : ∀ p, s'.propagator? id ≠ some (.scripted p) := by
      intro p heq
      rw [heq] at hsame
      obtain ⟨q, hq, hanonymous⟩ := Option.map_eq_some_iff.mp hsame.symm
      cases q with
      | scripted q => exact hnone q hq
      | _ => simp [Propagator.anonymous] at hanonymous
    rw [hgone hnone, hgone hnone']
    exact ⟨rfl, htwin⟩

/-! ## Copies -/

/-- Copies of twins are twins, whatever numbers their instances get. -/
theorem Twin.copy (htwin : s.Twin s') (mode : CopyMode) (next next' : Nat) :
    (s.copy mode next).1.Twin (s'.copy mode next').1 := by
  cases hfailure : s.failure with
  | none =>
      have hfailure' : s'.failure = none := htwin.failure.trans hfailure
      exact ((twin_copy hfailure mode next).symm.trans htwin).trans
        (twin_copy hfailure' mode next')
  | some reason =>
      have hfailure' : s'.failure = some reason := htwin.failure.trans hfailure
      have hcopy : (s.copy mode next).1 = (s'.copy mode next').1 := by
        simp only [Space.copy, hfailure, hfailure', htwin.store]
      rw [hcopy]
      exact .refl _

end Space

end ConstraintSpace
