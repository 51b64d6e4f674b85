import ConstraintSpace.Proofs.Branching.Choices
import ConstraintSpace.Proofs.Space.Carrying
import ConstraintSpace.Proofs.Space.Solutions
import ConstraintSpace.Proofs.Space.Status

/-!
# Spaces that never fault

A kernel space has integer and set variables, propagators of the library and
branchers over fitting views.  Such a space is never refused a status, a choice
that is left, or a commit to that choice, and it never breaches a precondition.
All cursors have passed fixed views only.
-/

namespace ConstraintSpace

/-- A brancher of the library over integer or set views. -/
def Brancher.Listed (s : Store) : Brancher → Prop
  | viewValue b => b.branching.Listed s
  | observer _ => False

namespace Space

variable {s s' : Space} {id : Nat} {p : Propagator}

/-- Whatever a cursor has passed, within its brancher or in the order of the
branchers, is fixed. -/
def Passed (s : Space) : Prop :=
  ∀ (j : Nat) (b : ViewBrancher), s.branchers[j]? = some (.viewValue b) → ∀ i view,
    b.branching.views[i]? = some view → (i < b.start ∨ j < s.active) →
      view.isFixed s.store = true

/-- A space in order whose propagators and branchers are those of the library. -/
structure Kernel (s : Space) : Prop extends Fitting s where
  listed : ∀ (j : Nat) (b : Brancher), s.branchers[j]? = some b → b.Listed s.store
  passed : s.Passed
  active_le : s.active ≤ s.branchers.size

/-- Propagators that fit and branchers as before keep a space kernel. -/
theorem Kernel.of_fitting (hkernel : s.Kernel) (hfitting : s'.Fitting)
    (hrefines : s.store.Refines s'.store) (hbranchers : s'.branchers = s.branchers)
    (hactive : s'.active = s.active) : s'.Kernel where
  toFitting := hfitting
  listed := fun j b hb => by
    have hlisted := hkernel.listed j b (hbranchers ▸ hb)
    cases b with
    | viewValue b => exact Branching.Listed.refines hlisted hrefines
    | observer o => exact hlisted
  passed := fun j b hb i view hview hbefore => by
    rw [hbranchers] at hb
    rw [hactive] at hbefore
    have hlisted : b.branching.Listed s.store := hkernel.listed j _ hb
    exact AnyView.isFixed_refines (hlisted.discrete view (List.mem_of_getElem? hview))
      hkernel.sound.store hfitting.sound.store hrefines
      (hkernel.passed j b hb i view hview hbefore)
  active_le := by
    rw [hactive, hbranchers]
    exact hkernel.active_le

theorem Kernel.of_slots (hkernel : s.Kernel) (hsound : s'.Sound)
    (hrefines : s.store.Refines s'.store) (hslots : s'.slots = s.slots)
    (hbranchers : s'.branchers = s.branchers) (hactive : s'.active = s.active) :
    s'.Kernel :=
  hkernel.of_fitting (hkernel.toFitting.of_slots hsound hrefines hslots) hrefines
    hbranchers hactive

theorem Alike.kernel (halike : s.Alike s') (hkernel : s.Kernel) : s'.Kernel := by
  obtain ⟨counts, journal, rfl⟩ := halike
  exact ⟨⟨⟨hkernel.sound.store, hkernel.sound.queue, hkernel.sound.waiting⟩, hkernel.fit⟩,
    hkernel.listed, hkernel.passed, hkernel.active_le⟩

/-! ## Propagation -/

theorem Kernel.schedule (hkernel : s.Kernel) (skip : Option Nat) :
    ∃ s', Space.schedule skip s = .ok () s' ∧ s'.Kernel := by
  obtain ⟨s', hrun, hfitting, -⟩ := hkernel.toFitting.schedule skip
  have hframe := Frame.schedule hkernel.sound hrun
  exact ⟨s', hrun, hkernel.of_fitting hfitting hframe.refines hframe.branchers hframe.active⟩

theorem Kernel.failWith (hkernel : s.Kernel) (reason : Inconsistency) :
    (s.failWith reason).Kernel :=
  hkernel.of_fitting (hkernel.toFitting.failWith reason) (Frame.failWith reason s).refines
    (branchers_failWith reason s) (active_failWith reason s)

theorem Kernel.propagate (hkernel : s.Kernel) :
    ∃ reason s', Space.propagate s = .ok reason s' ∧ s'.Kernel ∧ s.Lossless s' := by
  obtain ⟨reason, s', hrun, hfitting, hlossless⟩ := hkernel.toFitting.propagate
  have hframe := (hkernel.sound.propagate hrun).frame
  exact ⟨reason, s', hrun,
    hkernel.of_fitting hfitting hframe.refines hframe.branchers hframe.active, hlossless⟩

/-! ## Status -/

/-- The active brancher stands at an open view. -/
def Stands (s : Space) : Prop :=
  ∃ b : ViewBrancher, s.branchers[s.active]? = some (.viewValue b) ∧ b.Stands s.store

/-- All views of all branchers are fixed. -/
def Decided (s : Space) : Prop :=
  ∀ (j : Nat) (b : ViewBrancher), s.branchers[j]? = some (.viewValue b) →
    ∀ view ∈ b.branching.views, view.isFixed s.store = true

/-- The space with the cursor of the active brancher moved. -/
def moved (b : ViewBrancher) (s : Space) : Space :=
  { s with
    branchers := s.branchers.setIfInBounds s.active
      (.viewValue { b with start := b.cursor s.store }) }

theorem Kernel.moved (hkernel : s.Kernel) {b : ViewBrancher}
    (hb : s.branchers[s.active]? = some (.viewValue b)) : (s.moved b).Kernel where
  sound := ⟨hkernel.sound.store, hkernel.sound.queue, hkernel.sound.waiting⟩
  fit := hkernel.fit
  listed := fun j b' hb' => by
    simp only [Space.moved, Array.getElem?_setIfInBounds] at hb'
    split at hb'
    · split at hb'
      · obtain rfl := Option.some.inj hb'
        exact (hkernel.listed s.active _ hb : b.branching.Listed s.store)
      · simp at hb'
    · exact hkernel.listed j b' hb'
  passed := fun j b' hb' i view hview hbefore => by
    simp only [Space.moved, Array.getElem?_setIfInBounds] at hb'
    split at hb'
    next heq =>
      subst heq
      split at hb'
      · obtain rfl := Brancher.viewValue.inj (Option.some.inj hb')
        have hlt : i < b.cursor s.store :=
          hbefore.resolve_right (Nat.lt_irrefl s.active)
        by_cases hstart : i < b.start
        · exact hkernel.passed s.active b hb i view hview (Or.inl hstart)
        · exact ViewBrancher.isFixed_of_lt_cursor (not_lt.mp hstart) hlt hview
      · simp at hb'
    next => exact hkernel.passed j b' hb' i view hview hbefore
  active_le := by simpa only [Space.moved, Array.size_setIfInBounds] using hkernel.active_le

/-- Every brancher is still there, with the same views, and there are no others. -/
structure Retains (s s' : Space) : Prop where
  size : s'.branchers.size = s.branchers.size
  akin : ∀ (j : Nat) (b : ViewBrancher), s.branchers[j]? = some (.viewValue b) →
    ∃ b', s'.branchers[j]? = some (.viewValue b') ∧ b.branching.Akin b'.branching

theorem Retains.of_eq (hbranchers : s'.branchers = s.branchers) : s.Retains s' :=
  ⟨by rw [hbranchers], fun _ b hb => ⟨b, hbranchers ▸ hb, .refl _⟩⟩

theorem Retains.trans {t : Space} (hfirst : s.Retains s') (hsecond : s'.Retains t) :
    s.Retains t := by
  refine ⟨hsecond.size.trans hfirst.size, fun j b hb => ?_⟩
  obtain ⟨b', hb', hakin⟩ := hfirst.akin j b hb
  obtain ⟨b'', hb'', hakin'⟩ := hsecond.akin j b' hb'
  exact ⟨b'', hb'', hakin.trans hakin'⟩

/-- Another brancher in the place of the active one, with the same views. -/
theorem Retains.of_setIfInBounds {b next : ViewBrancher}
    (hb : s.branchers[s.active]? = some (.viewValue b))
    (hbranchers : s'.branchers = s.branchers.setIfInBounds s.active (.viewValue next))
    (hakin : b.branching.Akin next.branching) : s.Retains s' := by
  refine ⟨by rw [hbranchers, Array.size_setIfInBounds], fun j b' hb' => ?_⟩
  rw [hbranchers, Array.getElem?_setIfInBounds]
  split
  next heq =>
    subst heq
    obtain rfl := Brancher.viewValue.inj (Option.some.inj (hb.symm.trans hb'))
    rw [if_pos (Array.getElem?_eq_some_iff.mp hb).1]
    exact ⟨next, rfl, hakin⟩
  next => exact ⟨b', hb', .refl _⟩

/-- Past a brancher all of whose views are fixed the space is still kernel. -/
theorem Kernel.movedPast (hkernel : s.Kernel) {b : ViewBrancher}
    (hb : s.branchers[s.active]? = some (.viewValue b))
    (hfixed : ∀ view ∈ b.branching.views.drop b.start, view.isFixed s.store = true) :
    Kernel { s.moved b with active := s.active + 1 } where
  sound := ⟨hkernel.sound.store, hkernel.sound.queue, hkernel.sound.waiting⟩
  fit := hkernel.fit
  listed := (hkernel.moved hb).listed
  passed := fun j b' hb' i view hview hbefore => by
    have hpassed := (hkernel.moved hb).passed j b' hb' i view hview
    by_cases hj : j = s.active
    case neg => exact hpassed (hbefore.imp_right fun hlt => by
      simp only at hlt
      exact lt_of_le_of_ne (Nat.lt_succ_iff.mp hlt) hj)
    subst hj
    simp only [Space.moved, Array.getElem?_setIfInBounds, if_true] at hb'
    split at hb'
    · obtain rfl := Brancher.viewValue.inj (Option.some.inj hb')
      by_cases hstart : i < b.start
      · exact hkernel.passed s.active b hb i view hview (Or.inl hstart)
      · obtain ⟨k, rfl⟩ := Nat.exists_eq_add_of_le (not_lt.mp hstart)
        exact hfixed view (List.mem_of_getElem? ((List.getElem?_drop).trans hview))
    · simp at hb'
  active_le := by
    have hactive := (Array.getElem?_eq_some_iff.mp hb).1
    simpa only [Space.moved, Array.size_setIfInBounds] using Nat.succ_le_of_lt hactive

theorem Kernel.advanceBy (hkernel : s.Kernel) (fuel : Nat)
    (hfuel : s.branchers.size ≤ s.active + fuel) :
    ∃ found s', Space.advanceBy fuel s = .ok found s' ∧ s'.Kernel ∧ s.Retains s' ∧
      (found = true → s'.Stands) ∧ (found = false → s'.branchers.size ≤ s'.active) := by
  induction fuel generalizing s with
  | zero => exact ⟨false, s, rfl, hkernel, .of_eq rfl, by simp, fun _ => hfuel⟩
  | succ fuel ih =>
      cases hbrancher : s.branchers[s.active]? with
      | none =>
          refine ⟨false, s, by simp only [Space.advanceBy, hbrancher], hkernel, .of_eq rfl,
            by simp, fun _ => ?_⟩
          exact Array.getElem?_eq_none_iff.mp hbrancher
      | some brancher =>
          have hbranching := hkernel.listed _ _ hbrancher
          cases brancher with
          | observer o => exact hbranching.elim
          | viewValue b =>
              have hlisted : b.branching.Listed s.store := hbranching
              have hmoved := hkernel.moved hbrancher
              have hretains : s.Retains (s.moved b) := .of_setIfInBounds hbrancher rfl (.refl _)
              rcases ViewBrancher.status_cases (b := b) hlisted.known with
                ⟨hstatus, hfixed⟩ | ⟨hstatus, hstands⟩
              · have hstep : Space.advanceBy (fuel + 1) s =
                    Space.advanceBy fuel { s.moved b with active := s.active + 1 } := by
                  simp only [Space.advanceBy, hbrancher, Brancher.status, hstatus]
                  rfl
                obtain ⟨found, s', hrun, hkernel', hretains', hstands, hpast⟩ :=
                  ih (hkernel.movedPast hbrancher hfixed)
                    (by simp only [Space.moved, Array.size_setIfInBounds]; omega)
                rw [hstep]
                exact ⟨found, s', hrun, hkernel', hretains.trans ⟨hretains'.size, hretains'.akin⟩,
                  hstands, hpast⟩
              · have hstep : Space.advanceBy (fuel + 1) s = .ok true (s.moved b) := by
                  simp only [Space.advanceBy, hbrancher, Brancher.status, hstatus]
                  rfl
                have hplace : (s.moved b).branchers[s.active]? =
                    some (.viewValue { b with start := b.cursor s.store }) := by
                  simp only [Space.moved, Array.getElem?_setIfInBounds, if_true,
                    (Array.getElem?_eq_some_iff.mp hbrancher).1]
                exact ⟨true, s.moved b, hstep, hmoved, hretains,
                  fun _ => ⟨_, hplace, hstands⟩, by simp⟩

theorem Kernel.decided (hkernel : s.Kernel) (hpast : s.branchers.size ≤ s.active) :
    s.Decided := by
  intro j b hb view hview
  obtain ⟨i, hi⟩ := List.mem_iff_getElem?.mp hview
  have hj := (Array.getElem?_eq_some_iff.mp hb).1
  exact hkernel.passed j b hb i view hi (Or.inr (hj.trans_le hpast))

/-- Asking the branchers gives an answer, and the answer tells where they stand. -/
theorem Kernel.advance (hkernel : s.Kernel) :
    ∃ found s', Space.advance s = .ok found s' ∧ s'.Kernel ∧ s.Retains s' ∧
      (found = true → s'.Stands) ∧ (found = false → s'.Decided) := by
  obtain ⟨found, s', hrun, hkernel', hretains, hstands, hpast⟩ :=
    hkernel.advanceBy (s.branchers.size - s.active) (by omega)
  exact ⟨found, s', hrun, hkernel', hretains, hstands,
    fun hfound => hkernel'.decided (hpast hfound)⟩

/-- A space at rest whose active brancher stands at an open view. -/
structure Ready (s : Space) : Prop where
  kernel : s.Kernel
  rests : s.Rests
  ok : s.failure = none
  stands : s.Stands

/-- What each status tells of the space. -/
def Answered (s : Space) : SpaceStatus → Prop
  | .failed => s.failure ≠ none
  | .solved => s.Rests ∧ s.failure = none ∧ s.Decided
  | .branching => s.Ready

/-- The status of a kernel space is an answer. -/
theorem Kernel.status (hkernel : s.Kernel) :
    ∃ answer s', Space.status s = .ok answer s' ∧ s'.Kernel ∧ s.Retains s' ∧
      s'.Answered answer := by
  obtain ⟨reason, t, hpropagate, hkernel', -⟩ := hkernel.propagate
  have hpropagated := hkernel.sound.propagate hpropagate
  have hretains : s.Retains t := .of_eq hpropagated.frame.branchers
  rw [status_eq, hpropagate]
  cases reason with
  | some reason =>
      exact ⟨.failed, t, rfl, hkernel', hretains, by
        rw [Answered, hpropagated.failure]
        simp⟩
  | none =>
      obtain ⟨found, u, hadvance, hkernel'', hretains', hstands, hdecided⟩ :=
        hkernel'.advance
      have hkin : t.Kin u := kin_of_advanceBy hadvance
      have hrests := hpropagated.rests rfl
      have hrests' : u.Rests := ⟨hkin.queue ▸ hrests.queue, hkin.store ▸ hrests.quiet⟩
      have hok : u.failure = none := hkin.failure.trans hpropagated.failure
      simp only [hadvance]
      refine ⟨_, u, rfl, hkernel'', hretains.trans hretains', ?_⟩
      cases found with
      | true => exact ⟨hkernel'', hrests', hok, hstands rfl⟩
      | false => exact ⟨hrests', hok, hdecided rfl⟩

theorem Rests.isStable (hrests : s.Rests) (hsound : s.Sound) : s.isStable = true := by
  have hcount : s.queue.count = 0 := by
    rw [hsound.queue.count_eq, hrests.queue, List.length_nil]
  simp [Space.isStable, Queue.isEmpty, hcount, hrests.quiet]

/-- Where the active brancher stands at an open view, asking moves no cursor. -/
theorem advance_of_stands {b : ViewBrancher} (hb : s.branchers[s.active]? = some (.viewValue b))
    (hopen : b.Stands s.store) (hknown : ∀ view ∈ b.branching.views, view.known s.store = true) :
    Space.advance s = .ok true s := by
  have hactive := (Array.getElem?_eq_some_iff.mp hb).1
  obtain ⟨fuel, hfuel⟩ := Nat.exists_eq_succ_of_ne_zero (Nat.sub_ne_zero_of_lt hactive)
  have hsame : ({ b with start := b.cursor s.store } : ViewBrancher) = b := by
    rw [hopen.cursor_eq]
  have hstatus : b.status s.store = .ok (true, b) := by
    rcases ViewBrancher.status_cases hknown with ⟨-, hfixed⟩ | ⟨hstatus, -⟩
    · obtain ⟨view, hview, hopen⟩ := hopen
      have hmem : view ∈ b.branching.views.drop b.start := by
        refine List.mem_of_getElem? (i := 0) ?_
        rwa [List.getElem?_drop, Nat.add_zero]
      simp [hfixed view hmem] at hopen
    · rw [hstatus, hsame]
  have hset : s.branchers.setIfInBounds s.active (.viewValue b) = s.branchers :=
    Store.setIfInBounds_self hb
  simp only [Space.advance, hfuel, advanceBy, hb, Brancher.status, hstatus, hset]
  rfl

theorem Stands.advance (hstands : s.Stands) (hkernel : s.Kernel) :
    Space.advance s = .ok true s := by
  obtain ⟨b, hb, hopen⟩ := hstands
  have hlisted : b.branching.Listed s.store := hkernel.listed _ _ hb
  exact advance_of_stands hb hopen hlisted.known

/-- A space that is ready has a status of its own: asking again changes nothing. -/
theorem Ready.status (hready : s.Ready) : Space.status s = .ok .branching s := by
  have hpop := Queue.pop?_eq_none hready.kernel.sound.queue hready.rests.queue
  have hpropagate : Space.propagate s = .ok none s := by
    unfold Space.propagate
    simp only [hready.ok, schedule_of_isQuiet hready.rests.quiet,
      runQueue_of_pop?_eq_none hpop]
  rw [status_eq, hpropagate]
  simp only [hready.stands.advance hready.kernel, if_true]

/-! ## Choice and commit -/

/-- The space after its choice: one of its branchers made the choice at an open
view. -/
structure Offers (s : Space) (c : Choice) : Prop where
  kernel : s.Kernel
  rests : s.Rests
  ok : s.failure = none
  alternatives : c.alternatives = 2
  apt : ∃ b, s.branchers[c.brancher]? = some (.viewValue b) ∧ b.branching.Apt s.store c

theorem Alike.offers {c : Choice} (halike : s.Alike s') (hoffers : s.Offers c) :
    s'.Offers c := by
  have hkernel := halike.kernel hoffers.kernel
  obtain ⟨counts, journal, rfl⟩ := halike
  exact ⟨hkernel, ⟨hoffers.rests.queue, hoffers.rests.quiet⟩, hoffers.ok,
    hoffers.alternatives, hoffers.apt⟩

/-- The proposal of the active brancher is its choice, and the brancher is kept in its
place with what it has drawn. -/
theorem propose_of_choice {b next : ViewBrancher} {c : Choice}
    (hb : s.branchers[s.active]? = some (.viewValue b))
    (hchoice : b.choice s.store = .ok (some c, next, [])) :
    Space.propose s = .ok { c with brancher := s.active }
        { s with branchers := s.branchers.setIfInBounds s.active (.viewValue next) } ∧
      (s.branchers.setIfInBounds s.active (.viewValue next))[s.active]? =
        some (.viewValue next) := by
  refine ⟨?_, ?_⟩
  · simp only [Space.propose, hb, Brancher.choice, hchoice]
    rfl
  · simp only [Array.getElem?_setIfInBounds, if_true, (Array.getElem?_eq_some_iff.mp hb).1]

/-- Standing at an open view, the active brancher makes a choice there. -/
theorem Stands.propose (hstands : s.Stands) (hkernel : s.Kernel) :
    ∃ c s' b, Space.propose s = .ok c s' ∧ s'.Kernel ∧ s.Kin s' ∧ s.Retains s' ∧
      c.alternatives = 2 ∧ s'.branchers[c.brancher]? = some (.viewValue b) ∧
        b.branching.Apt s.store c := by
  obtain ⟨b, hb, hopen⟩ := hstands
  have hbranching : b.branching.Listed s.store := hkernel.listed _ _ hb
  obtain ⟨c, next, hchoice, hnumber, -, hakin, hapt⟩ :=
    hopen.exists_choice hkernel.sound.store hbranching.known
      fun _ _ _ hview => hbranching.suited hview
  have hlisted := hakin.listed s.store hbranching
  let s' : Space :=
    { s with
      branchers := s.branchers.setIfInBounds s.active
        (.viewValue { b with branching := next }) }
  obtain ⟨hrun, hplace⟩ := propose_of_choice hb hchoice
  have hother : ∀ {j : Nat} {b' : Brancher}, s'.branchers[j]? = some b' →
      (j = s.active ∧ b' = .viewValue { b with branching := next }) ∨
        s.branchers[j]? = some b' := fun {j b'} hb' => by
    by_cases heq : j = s.active
    · subst heq
      exact Or.inl ⟨rfl, (Option.some.inj (hplace.symm.trans hb')).symm⟩
    · refine Or.inr ?_
      simpa only [s', Array.getElem?_setIfInBounds, if_neg (Ne.symm heq)] using hb'
  have hkernel' : s'.Kernel := by
    refine ⟨⟨⟨hkernel.sound.store, hkernel.sound.queue, hkernel.sound.waiting⟩,
      hkernel.fit⟩, fun j b' hb' => ?_, fun j b' hb' i view hview hbefore => ?_, ?_⟩
    · rcases hother hb' with ⟨-, rfl⟩ | hold
      · exact hlisted
      · exact hkernel.listed j b' hold
    · rcases hother hb' with ⟨rfl, heq⟩ | hold
      · obtain rfl := Brancher.viewValue.inj heq
        rw [hakin.views_eq] at hview
        exact hkernel.passed _ b hb i view hview hbefore
      · exact hkernel.passed j b' hold i view hview hbefore
    · simpa only [s', Array.size_setIfInBounds] using hkernel.active_le
  exact ⟨_, s', _, hrun, hkernel', .of_slots rfl rfl rfl rfl rfl,
    .of_setIfInBounds hb rfl hakin, hnumber, hplace, hapt s.active⟩

/-- A space that is ready makes a choice. -/
theorem Ready.choice (hready : s.Ready) :
    ∃ c s', Space.choice s = .ok c s' ∧ s'.Offers c ∧ s.Retains s' ∧ s.Kin s' := by
  obtain ⟨c, s', b, hrun, hkernel, hkin, hretains, hnumber, hb, hapt⟩ :=
    hready.stands.propose hready.kernel
  have hchoice : Space.choice s = .ok c s' := by
    have hfailed : s.isFailed = false := by simp [isFailed, hready.ok]
    rw [choice_eq, hfailed, hready.rests.isStable hready.kernel.sound,
      hready.stands.advance hready.kernel]
    simpa using hrun
  have hrests : s'.Rests :=
    ⟨hkin.queue ▸ hready.rests.queue, hkin.store ▸ hready.rests.quiet⟩
  exact ⟨c, s', hchoice, ⟨hkernel, hrests, hkin.failure.trans hready.ok, hnumber, b, hb,
    hkin.store ▸ hapt⟩, hretains, hkin⟩

/-- The space after a commit that keeps some assignments: failed where it admits
none of them, and otherwise narrowed to exactly those. -/
inductive NarrowedTo (s : Space) (keep : Assignment → Prop) (s' : Space) : Prop where
  | failed (hfailed : s'.failure ≠ none) (hnone : ∀ a, s.store.Admits a → ¬keep a)
  | narrowed {store : Store} (hok : s'.failure = none) (hnarrows : s.store.Narrows store)
      (hstore : s'.store = store.silence)
      (hadmits : ∀ a, s'.store.Admits a ↔ s.store.Admits a ∧ keep a)

theorem isSome_failWith (reason : Inconsistency) (s : Space) :
    (s.failWith reason).failure ≠ none := by
  unfold Space.failWith
  cases hfailure : s.failure <;> simp [hfailure]

theorem Kernel.narrowed (hkernel : s.Kernel) {store : Store} (counts : SpaceCounts)
    (hvalid : store.Valid) (hnarrows : s.store.Narrows store) :
    Kernel { s with store, counts } :=
  hkernel.of_slots ⟨hvalid, hkernel.sound.queue, hkernel.sound.waiting⟩
    hnarrows.refines rfl rfl rfl

theorem Kernel.of_tightens (hkernel : s.Kernel) {log : List Entry}
    (htightens : s.Tightens (fun store => store.Valid ∧ s.store.Narrows store) log s') :
    s'.Kernel := by
  cases htightens with
  | idle => exact hkernel
  | passed counts _ hstore hrun =>
      obtain ⟨t, hschedule, hkernel'⟩ := (hkernel.narrowed counts hstore.1 hstore.2).schedule none
      obtain ⟨-, rfl⟩ := EStateM.Result.ok.inj (hschedule.symm.trans hrun)
      exact hkernel'
  | failed counts _ hstore =>
      exact (hkernel.narrowed counts hstore.1 hstore.2).failWith .emptyDomain

/-- Whatever is committed, a kernel space stays kernel. -/
theorem Kernel.commit (hkernel : s.Kernel) {c : Choice} {alternative : Nat}
    (hrun : resume (Space.commit c alternative s) = some s') : s'.Kernel :=
  hkernel.of_tightens
    (commit_tightens (fun _ _ hcommit => Brancher.safe_commit hcommit _ hkernel.sound.store) hrun)

/-- A commit with a narrowing that keeps some assignments narrows to them. -/
theorem narrowedTo_of_commit {c : Choice} {b : Brancher} {alternative : Nat}
    {narrowing : Narrow Change} {keep : Assignment → Prop} (hsound : s.Sound)
    (hok : s.failure = none) (hlegal : alternative < c.alternatives)
    (hb : s.branchers[c.brancher]? = some b) (hcommit : b.commit c alternative = .ok narrowing)
    (hkeeps : Store.KeepsExactly narrowing keep s.store)
    (hrun : Space.commit c alternative s = .ok () s') : s.NarrowedTo keep s' := by
  have hfailed : s.isFailed = false := by simp [isFailed, hok]
  simp only [Space.commit, hfailed, Bool.false_eq_true, if_false, not_le.mpr hlegal, hb, hcommit]
    at hrun
  rcases hkeeps with ⟨hnarrow, hempty⟩ | ⟨change, store, hnarrow, hadmits⟩
  · rw [hnarrow] at hrun
    obtain ⟨-, rfl⟩ := EStateM.Result.ok.inj hrun
    exact .failed (isSome_failWith _ _) hempty
  · rw [hnarrow] at hrun
    obtain ⟨hvalid, hnarrows⟩ := (Brancher.safe_commit hcommit).of_ok hsound.store hnarrow
    have hnarrowed : ∀ counts, Sound { s with store, counts } :=
      fun _ => ⟨hvalid, hsound.queue, hsound.waiting⟩
    obtain ⟨-, hstore, -, -, hfailure, -⟩ := (hnarrowed _).schedule hrun
    refine .narrowed (hfailure.trans hok) hnarrows hstore fun a => ?_
    rw [hstore, Store.admits_silence]
    exact hadmits a

/-- Such a commit succeeds where the events can be passed on. -/
theorem commit_narrows {c : Choice} {b : Brancher} {alternative : Nat}
    {narrowing : Narrow Change} {keep : Assignment → Prop} (hsound : s.Sound)
    (hok : s.failure = none) (hlegal : alternative < c.alternatives)
    (hb : s.branchers[c.brancher]? = some b) (hcommit : b.commit c alternative = .ok narrowing)
    (hkeeps : Store.KeepsExactly narrowing keep s.store)
    (hschedule : ∀ (store : Store) (counts : SpaceCounts), store.Valid →
      s.store.Narrows store → ∃ s', schedule none { s with store, counts } = .ok () s') :
    ∃ s', Space.commit c alternative s = .ok () s' ∧ s.NarrowedTo keep s' := by
  suffices hsome : ∃ s', Space.commit c alternative s = .ok () s' by
    obtain ⟨s', hrun⟩ := hsome
    exact ⟨s', hrun, narrowedTo_of_commit hsound hok hlegal hb hcommit hkeeps hrun⟩
  have hfailed : s.isFailed = false := by simp [isFailed, hok]
  simp only [Space.commit, hfailed, Bool.false_eq_true, if_false, not_le.mpr hlegal, hb, hcommit]
  rcases hkeeps with ⟨hnarrow, -⟩ | ⟨change, store, hnarrow, -⟩
  · rw [hnarrow]
    exact ⟨_, rfl⟩
  · rw [hnarrow]
    obtain ⟨hvalid, hnarrows⟩ := (Brancher.safe_commit hcommit).of_ok hsound.store hnarrow
    exact hschedule store _ hvalid hnarrows

/-- A commit to an alternative of an offered choice narrows to what belongs to the
alternative. -/
theorem Offers.commit {c : Choice} (hoffers : s.Offers c) {alternative : Nat}
    (halternative : alternative < 2) :
    ∃ s' b, Space.commit c alternative s = .ok () s' ∧ s'.Kernel ∧
      s'.branchers = s.branchers ∧ s.branchers[c.brancher]? = some (.viewValue b) ∧
        b.branching.Apt s.store c ∧
          s.NarrowedTo (fun a => alternative = 0 ↔ b.branching.First c a) s' := by
  obtain ⟨b, hb, hapt⟩ := hoffers.apt
  have hkernel := hoffers.kernel
  have hlisted : b.branching.Listed s.store := hkernel.listed _ _ hb
  have hschedule : ∀ (store : Store) (counts : SpaceCounts), store.Valid →
      s.store.Narrows store → ∃ s', Space.schedule none { s with store, counts } = .ok () s' :=
    fun store counts hvalid hnarrows => by
      obtain ⟨s', hrun, -⟩ := (hkernel.narrowed counts hvalid hnarrows).schedule none
      exact ⟨s', hrun⟩
  obtain ⟨narrowing, hcommit, hkeeps⟩ :=
    hapt.commit_keeps (hapt.suited hlisted) hkernel.sound.store halternative
  have hlegal : alternative < c.alternatives := by rwa [hoffers.alternatives]
  obtain ⟨s', hrun, hnarrowed⟩ := commit_narrows (b := .viewValue b) hkernel.sound hoffers.ok
    hlegal hb hcommit hkeeps hschedule
  have hresume : resume (Space.commit c alternative s) = some s' := resume_of_ok hrun
  exact ⟨s', b, hrun, hkernel.commit hresume, (unmoving_commit c alternative s s' hresume).1, hb,
    hapt, hnarrowed⟩

end Space

end ConstraintSpace
