import ConstraintSpace.Proofs.Space.Kernel

/-!
# Building a kernel space

Plain acts create integer and set variables, narrow them, and add propagators
of the library and branchers over fitting views; they also perform what a search
does.  A space that is built by plain acts is a kernel space, and it upholds
every propagator that was posted on the way.
-/

namespace ConstraintSpace

namespace Space

variable {s s' : Space}

/-- Whether an act keeps a space kernel: it concerns integers and sets, and the
views of what it adds fit. -/
def Act.Plain (s : Space) : Act → Prop
  | .newInt _ _ | .newSparse _ | .newBool | .newSet _ _ _ => True
  | .post _ _ => True
  | .addPropagator p _ => p.Fit s.store
  | .addBrancher b => b.Listed s.store ∧ ∀ v, b = .viewValue v → v.start = 0
  | .propagate | .status | .choice | .commit _ _ | .fail | .readJournal => True
  | .copy mode _ => mode = .sharing
  | .newFloat _ _ | .observe _ | .rescript _ _ => False

/-- The propagators that an act posts, with their numbers. -/
def Act.posted (s : Space) : Act → List (Nat × Propagator)
  | .addPropagator p none => if s.isFailed then [] else [(s.slots.size, p)]
  | _ => []

/-- The space is built from nothing by plain acts, which posted the propagators. -/
inductive Built : List (Nat × Propagator) → Space → Prop where
  | new : Built [] Space.new
  | act {posted : List (Nat × Propagator)} {s t : Space} (act : Act)
      (hbuilt : Built posted s) (hplain : act.Plain s)
      (hperform : act.perform s = some t) : Built (posted ++ act.posted s) t

/-! ## Each plain act -/

/-- Whatever the operation gives, the space it leaves is kernel. -/
def KernelKeeping {α : Type} (m : Operation α) : Prop :=
  ∀ s : Space, s.Kernel → ∀ s', resume (m s) = some s' → s'.Kernel

theorem kernelKeeping_pure {α : Type} (x : α) : KernelKeeping (pure x : Operation α) := by
  intro s hkernel s' hrun
  have hrun' : some s = some s' := hrun
  obtain rfl := Option.some.inj hrun'
  exact hkernel

theorem KernelKeeping.bind {α β : Type} {m : Operation α} {k : α → Operation β}
    (hm : KernelKeeping m) (hk : ∀ x, KernelKeeping (k x)) : KernelKeeping (m >>= k) := by
  intro s hkernel s' hrun
  rcases resume_bind_cases hrun with hrun | ⟨x, t, hfirst, hrest⟩
  · exact hm s hkernel s' hrun
  · exact hk x t (hm s hkernel t (resume_of_ok hfirst)) s' hrest

/-- An operation on a kernel space that gives a kernel space, whatever it says. -/
theorem KernelKeeping.of_exists {α : Type} {m : Operation α}
    (hm : ∀ s, s.Kernel → ∃ x s', m s = .ok x s' ∧ s'.Kernel) : KernelKeeping m := by
  intro s hkernel s' hrun
  obtain ⟨x, t, hok, hkernel'⟩ := hm s hkernel
  rw [hok] at hrun
  obtain rfl := Option.some.inj hrun
  exact hkernel'

theorem Kernel.new : Space.new.Kernel where
  sound := sound_new
  fit := by simp [propagator?, Space.new]
  listed := by simp [Space.new]
  passed := by simp [Passed, Space.new]
  active_le := by simp [Space.new]

theorem Kernel.grown (hkernel : s.Kernel) {store : Store}
    (hgrows : s.store.Grows store) : Kernel { s with store } :=
  hkernel.of_slots ⟨hgrows.valid hkernel.sound.store, hkernel.sound.queue,
    hkernel.sound.waiting⟩ hgrows.refines rfl rfl rfl

theorem kernelKeeping_checkNotFailed : KernelKeeping checkNotFailed := by
  intro s hkernel s' hrun
  unfold checkNotFailed at hrun
  split at hrun <;>
  · obtain rfl : s = s' := by simpa [resume] using hrun
    exact hkernel

theorem KernelKeeping.permit_bind {α β : Type} {result : Except SpaceError α}
    {k : α → Operation β} (hk : ∀ x, result = .ok x → KernelKeeping (k x)) :
    KernelKeeping (permit result >>= k) := by
  cases result with
  | error error =>
      intro s hkernel s' hrun
      have hrun' : some s = some s' := hrun
      obtain rfl := Option.some.inj hrun'
      exact hkernel
  | ok x => exact hk x rfl

theorem kernelKeeping_modifyGet {α : Type} {f : Space → α × Space}
    (hf : ∀ s : Space, s.Kernel → (f s).2.Kernel) :
    KernelKeeping (modifyGet f : Operation α) := by
  intro s hkernel s' hrun
  have hrun' : some (f s).2 = some s' := hrun
  obtain rfl := Option.some.inj hrun'
  exact hf s hkernel

theorem kernelKeeping_addInt {domain : Except SpaceError IntDomain}
    (hdomain : ∀ d, domain = .ok d → d.Valid ∧ d.InLimits) :
    KernelKeeping (addInt domain) := by
  refine kernelKeeping_checkNotFailed.bind fun _ => KernelKeeping.permit_bind fun d hd => ?_
  obtain ⟨hvalid, hlimits⟩ := hdomain d hd
  exact kernelKeeping_modifyGet fun s hkernel =>
    hkernel.grown (Store.grows_addInt hvalid hlimits s.store)

theorem kernelKeeping_newInt (lower upper : Int) : KernelKeeping (newInt lower upper) :=
  kernelKeeping_addInt fun _ hd =>
    ⟨(IntDomain.of_ofBounds_eq_ok hd).1, (IntDomain.of_ofBounds_eq_ok hd).2.1⟩

theorem kernelKeeping_newSparse (values : List Int) : KernelKeeping (newSparse values) :=
  kernelKeeping_addInt fun _ hd =>
    ⟨(IntDomain.of_ofValues_eq_ok hd).1, (IntDomain.of_ofValues_eq_ok hd).2.1⟩

theorem kernelKeeping_newBool : KernelKeeping newBool :=
  (kernelKeeping_newInt 0 1).bind fun id => kernelKeeping_pure (IntView.truth id)

theorem kernelKeeping_newSet (glb lub : List Int) (card : Nat × Nat) :
    KernelKeeping (newSet glb lub card) :=
  kernelKeeping_checkNotFailed.bind fun _ => KernelKeeping.permit_bind fun _ hd =>
    kernelKeeping_modifyGet fun s hkernel =>
      hkernel.grown (Store.grows_addSet (SetDomain.of_ofBounds_eq_ok hd).1 s.store)

theorem kernelKeeping_post (keepGoing : Bool) (narrowings : List Narrowing) :
    KernelKeeping (post keepGoing narrowings) := fun _ hkernel _ hrun =>
  hkernel.of_tightens
    (post_tightens (Narrowing.applyAll_narrows keepGoing narrowings hkernel.sound.store) hrun)

theorem kernelKeeping_propagate : KernelKeeping propagate :=
  .of_exists fun _ hkernel => by
    obtain ⟨reason, s', hrun, hkernel', -⟩ := hkernel.propagate
    exact ⟨reason, s', hrun, hkernel'⟩

theorem kernelKeeping_status : KernelKeeping status :=
  .of_exists fun _ hkernel => by
    obtain ⟨answer, s', hrun, hkernel', -⟩ := hkernel.status
    exact ⟨answer, s', hrun, hkernel'⟩

theorem kernelKeeping_choice : KernelKeeping choice := by
  intro s hkernel s' hrun
  rcases choice_cases hrun with rfl | hmoved | ⟨u, hmoved, hpropose⟩
  · exact hkernel
  all_goals
    obtain ⟨found, t, hadvance, hkernel', -, hstands, -⟩ := hkernel.advance
    obtain ⟨rfl, rfl⟩ := EStateM.Result.ok.inj (hadvance.symm.trans hmoved)
  · exact hkernel'
  · have hopen : t.Stands := hstands rfl
    obtain ⟨c, v, b, hproposed, hkernel'', -⟩ := hopen.propose hkernel'
    rw [hproposed] at hpropose
    obtain rfl := Option.some.inj hpropose
    exact hkernel''

theorem kernelKeeping_commit (chosen : Choice) (alternative : Nat) :
    KernelKeeping (commit chosen alternative) := fun _ hkernel _ hrun => hkernel.commit hrun

theorem Kernel.register (hkernel : s.Kernel) {p : Propagator} (hfit : p.Fit s.store) :
    (s.register p).Kernel where
  sound := hkernel.sound.register p
  fit := fun j q hq => by
    rw [propagator?_register] at hq
    split at hq
    · obtain rfl := Option.some.inj hq
      exact hfit
    · exact hkernel.fit j q hq
  listed := hkernel.listed
  passed := hkernel.passed
  active_le := hkernel.active_le

/-- A propagator that is rejected leaves the space as it was. -/
theorem addPropagator_rejected {p : Propagator} (hfit : p.Fit s.store) (error : SpaceError) :
    resume (Space.addPropagator p (some error) s) = some s := by
  have hpresent : ∀ s : Space, present p s = .ok () s := by
    cases p with
    | scripted script => exact hfit.elim
    | _ => exact fun _ => rfl
  unfold Space.addPropagator
  simp only [bind, EStateM.bind, checkNotFailed]
  cases s.isFailed with
  | true => rfl
  | false =>
      simp only [Bool.false_eq_true, if_false, hpresent]
      rfl

theorem Kernel.addPropagator (hkernel : s.Kernel) {p : Propagator} (hfit : p.Fit s.store)
    (rejection : Option SpaceError)
    (hrun : resume (Space.addPropagator p rejection s) = some s') : s'.Kernel := by
  cases rejection with
  | none =>
      rw [addPropagator_eq hfit] at hrun
      split at hrun
      · obtain rfl := Option.some.inj hrun
        exact hkernel
      · obtain rfl := Option.some.inj hrun
        exact hkernel.register hfit
  | some error =>
      rw [addPropagator_rejected hfit] at hrun
      obtain rfl := Option.some.inj hrun
      exact hkernel

theorem addBrancher_eq (b : Brancher) (s : Space) :
    addBrancher b s =
      if s.isFailed then .error (.refused .spaceFailed) s
      else .ok s.branchers.size
        { s with
          branchers := s.branchers.push b
          noticed :=
            if b.notices then s.noticed ++ [.brancher s.branchers.size] else s.noticed } := by
  unfold addBrancher
  simp only [bind, EStateM.bind, checkNotFailed]
  cases s.isFailed <;> rfl

/-- A new brancher starts before its first view, and nobody has passed it. -/
theorem Kernel.addBrancher (hkernel : s.Kernel) {b : Brancher} (hlisted : b.Listed s.store)
    (hstart : ∀ v, b = .viewValue v → v.start = 0)
    (hrun : resume (Space.addBrancher b s) = some s') : s'.Kernel := by
  rw [addBrancher_eq] at hrun
  split at hrun
  · obtain rfl := Option.some.inj hrun
    exact hkernel
  obtain rfl := Option.some.inj hrun
  have hmem : ∀ (j : Nat) (b' : Brancher), (s.branchers.push b)[j]? = some b' →
      (j = s.branchers.size ∧ b' = b) ∨ s.branchers[j]? = some b' := fun j b' hb' => by
    rw [Array.getElem?_push] at hb'
    split at hb'
    next heq => exact Or.inl ⟨heq, (Option.some.inj hb').symm⟩
    next => exact Or.inr hb'
  refine ⟨⟨⟨hkernel.sound.store, hkernel.sound.queue, hkernel.sound.waiting⟩, hkernel.fit⟩,
    fun j b' hb' => ?_, fun j b' hb' i view hview hbefore => ?_, ?_⟩
  · rcases hmem j b' hb' with ⟨-, rfl⟩ | hold
    · exact hlisted
    · exact hkernel.listed j b' hold
  · rcases hmem j _ hb' with ⟨rfl, heq⟩ | hold
    · rw [hstart b' heq.symm] at hbefore
      exact absurd hkernel.active_le
        (not_le.mpr (hbefore.resolve_left (Nat.not_lt_zero i)))
    · exact hkernel.passed j b' hold i view hview hbefore
  · simp only [Array.size_push]
    exact hkernel.active_le.trans (Nat.le_succ _)

theorem Kernel.copy (hkernel : s.Kernel) (next : Nat) :
    (s.copy .sharing next).1.Kernel := by
  cases hfailure : s.failure with
  | none => exact (alike_copy hfailure next).kernel hkernel
  | some reason =>
      simp only [Space.copy, hfailure]
      refine Kernel.of_slots (s := { Space.new with store := s.store })
        ⟨⟨⟨hkernel.sound.store, Queue.valid_empty, ?_⟩, ?_⟩, ?_, ?_, le_refl _⟩
        ⟨hkernel.sound.store, Queue.valid_empty, ?_⟩ (.refl _) rfl rfl rfl <;>
      simp [Passed, propagator?, Space.new, Queue.ids, Queue.empty]

/-- Every plain act keeps a space kernel. -/
theorem Kernel.act (hkernel : s.Kernel) {act : Act} (hplain : act.Plain s)
    (hperform : act.perform s = some s') : s'.Kernel := by
  cases act with
  | newInt lower upper => exact kernelKeeping_newInt lower upper s hkernel s' hperform
  | newSparse values => exact kernelKeeping_newSparse values s hkernel s' hperform
  | newBool => exact kernelKeeping_newBool s hkernel s' hperform
  | newFloat lower upper => exact hplain.elim
  | newSet glb lub card => exact kernelKeeping_newSet glb lub card s hkernel s' hperform
  | post keepGoing narrowings =>
      exact kernelKeeping_post keepGoing narrowings s hkernel s' hperform
  | addPropagator p rejection => exact hkernel.addPropagator hplain rejection hperform
  | addBrancher b => exact hkernel.addBrancher hplain.1 hplain.2 hperform
  | propagate => exact kernelKeeping_propagate s hkernel s' hperform
  | status => exact kernelKeeping_status s hkernel s' hperform
  | observe observer => exact hplain.elim
  | choice => exact kernelKeeping_choice s hkernel s' hperform
  | commit chosen alternative =>
      exact kernelKeeping_commit chosen alternative s hkernel s' hperform
  | fail =>
      obtain rfl := Option.some.inj hperform
      exact hkernel.failWith .conflict
  | copy mode next =>
      obtain rfl := Option.some.inj hperform
      obtain rfl : mode = .sharing := hplain
      exact hkernel.copy next
  | readJournal =>
      obtain rfl := Option.some.inj hperform
      exact Alike.kernel ⟨s.counts, [], rfl⟩ hkernel
  | rescript id script => exact hplain.elim

theorem Built.kernel {posted : List (Nat × Propagator)} (hbuilt : Built posted s) :
    s.Kernel := by
  induction hbuilt with
  | new => exact Kernel.new
  | act act _ hplain hperform ih => exact ih.act hplain hperform

end Space

end ConstraintSpace
