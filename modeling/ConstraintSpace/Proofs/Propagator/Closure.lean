import ConstraintSpace.Proofs.Propagator.Contract

/-!
# Families that propagators leave alone

What a propagator reads from a store are bounds that all admitted assignments share,
and it removes what violates one of them.  So its behaviour is told by families of
assignments: a family is closed under the propagator when every bound that its members
share on one side is respected by all of them on the other.

A run takes nothing out of a closed family that the store admits, and it fails only where
there is none.  Where the two views have no variable in common, a run that ends at its
fixpoint leaves a closed family, and it stays closed for as long as no watch hears of a
change.
-/

namespace ConstraintSpace

/-! ## Computations that spare a family -/

namespace Store

variable {α : Type} {m : Narrow α} {K : Assignment → Prop} {s : Store}

/-- The computation admits all assignments of the family in the end, or is refused where
the family has none. -/
def Spares (m : Narrow α) (K : Assignment → Prop) (s : Store) : Prop :=
  (∃ s', m s = .error .emptied s' ∧ ∀ v, ¬K v) ∨
    ∃ x s', m s = .ok x s' ∧ ∀ v, K v → s'.Admits v

theorem Spares.of_ok {x : α} {s' : Store} (hrun : m s = .ok x s')
    (hK : ∀ v, K v → s'.Admits v) : Spares m K s :=
  Or.inr ⟨x, s', hrun, hK⟩

end Store

/-! ## Not equal -/

namespace NotEqual

variable {a b : IntView} {s s' : Store} {K : Assignment → Prop}

/-- A value that all assignments give to one view is given to the other by none. -/
structure Closed (a b : IntView) (K : Assignment → Prop) : Prop where
  left : ∀ n, (∀ v, K v → a.value v = n) → ∀ v, K v → b.value v ≠ n
  right : ∀ n, (∀ v, K v → b.value v = n) → ∀ v, K v → a.value v ≠ n

theorem closed_of_ne (hne : ∀ v, K v → a.value v ≠ b.value v) : Closed a b K where
  left := fun _ hall v hv hn => hne v hv ((hall v hv).trans hn.symm)
  right := fun _ hall v hv hn => hne v hv (hn.trans (hall v hv).symm)

theorem closed_of_open (ha : a.Fit s) (hb : b.Fit s) (hvalid : s.Valid)
    (hopenA : a.isFixed s = false) (hopenB : b.isFixed s = false) :
    Closed a b s.Admits where
  left := fun _ hall => by simp [ha.isFixed_of_value hvalid hall] at hopenA
  right := fun _ hall => by simp [hb.isFixed_of_value hvalid hall] at hopenB

theorem propagate_of_open (ha : a.Fit s) (hb : b.Fit s) (hvalid : s.Valid)
    (hopenA : a.isFixed s = false) (hopenB : b.isFixed s = false) :
    ∃ status, propagate a b s = .ok status s := by
  have hltA := (ha.lower_lt_upper hvalid hopenA).ne
  have hltB := (hb.lower_lt_upper hvalid hopenB).ne
  rw [propagate_eq]
  by_cases hapart : a.upper s < b.lower s ∨ b.upper s < a.lower s
  · exact ⟨.subsumed, by rw [if_pos hapart]; rfl⟩
  · exact ⟨.fix, by rw [if_neg hapart, if_neg hltA, if_neg hltB]; rfl⟩

/-- A fixed view tells the members of a closed family apart from the other one. -/
theorem Closed.ne_or_open (hclosed : Closed a b K) (hK : ∀ v, K v → s.Admits v)
    (ha : a.Fit s) (hb : b.Fit s) (hvalid : s.Valid) :
    (∀ v, K v → a.value v ≠ b.value v) ∨ (a.isFixed s = false ∧ b.isFixed s = false) := by
  cases hfixedA : a.isFixed s with
  | true =>
      have hvalue := fun v hv => ha.value_of_isFixed hvalid hfixedA (hK v hv)
      refine Or.inl fun v hv heq => hclosed.left (a.lower s) hvalue v hv ?_
      rw [← heq, hvalue v hv]
  | false =>
      cases hfixedB : b.isFixed s with
      | true =>
          have hvalue := fun v hv => hb.value_of_isFixed hvalid hfixedB (hK v hv)
          refine Or.inl fun v hv heq => hclosed.right (b.lower s) hvalue v hv ?_
          rw [heq, hvalue v hv]
      | false => exact Or.inr ⟨rfl, rfl⟩

theorem Closed.spares (hclosed : Closed a b K) (hK : ∀ v, K v → s.Admits v)
    (ha : a.Fit s) (hb : b.Fit s) (hvalid : s.Valid) : Store.Spares (propagate a b) K s := by
  rcases hclosed.ne_or_open hK ha hb hvalid with hne | ⟨hopenA, hopenB⟩
  · -- the members satisfy the relation, and a pass keeps what does
    rcases propagate_cases ha hb hvalid with
      ⟨hrun, hempty⟩ | ⟨s', hrun, hmem⟩ | ⟨hrun, -⟩
    · exact Or.inl ⟨s, hrun, fun v hv => hne v hv (hempty v (hK v hv))⟩
    · exact .of_ok hrun fun v hv => (hmem v).mpr ⟨hK v hv, hne v hv⟩
    · exact .of_ok hrun hK
  · obtain ⟨status, hrun⟩ := propagate_of_open ha hb hvalid hopenA hopenB
    exact .of_ok hrun hK

theorem Closed.of_silent (hclosed : Closed a b s.Admits) (ha : a.Fit s) (hb : b.Fit s)
    (hvalid : s.Valid) (hvalid' : s'.Valid) (hrefines : s.Refines s')
    (hopenA : a.isFixed s = false → a.isFixed s' = false)
    (hopenB : b.isFixed s = false → b.isFixed s' = false) : Closed a b s'.Admits := by
  -- a view with one value is fixed, and then it was before
  have hvalue : ∀ u : IntView, u.Fit s → (u.isFixed s = false → u.isFixed s' = false) →
      ∀ n, (∀ v, s'.Admits v → u.value v = n) → ∀ v, s.Admits v → u.value v = n := by
    intro u hu hopen n hall v hv
    have hfixed' := (hu.refines hrefines).isFixed_of_value hvalid' hall
    have hfixed : u.isFixed s = true := by
      by_contra hnot
      simp [hopen (by simpa using hnot)] at hfixed'
    obtain ⟨w, hw⟩ := hvalid'.exists_admits
    rw [hu.value_of_isFixed hvalid hfixed hv, ← hall w hw,
      hu.value_of_isFixed hvalid hfixed (hrefines.admits hw)]
  exact ⟨fun n hall v hv => hclosed.left n (hvalue a ha hopenA n hall) v (hrefines.admits hv),
    fun n hall v hv => hclosed.right n (hvalue b hb hopenB n hall) v (hrefines.admits hv)⟩

end NotEqual

/-! ## Less or equal -/

namespace LessOrEqual

variable {a b : IntView} {s s' s₁ s₂ : Store} {K : Assignment → Prop}

/-- The first view stays below what bounds the second one from above, and the second view
above what bounds the first one from below, but for lax values. -/
structure Closed (a b : IntView) (K : Assignment → Prop) : Prop where
  top : ∀ n, (∀ v, K v → b.value v ≤ n) →
    ∀ v, K v → a.value v ≤ n ∨ a.Lax .upper (a.point v)
  bottom : ∀ n, (∀ v, K v → n ≤ a.value v) →
    ∀ v, K v → n ≤ b.value v ∨ b.Lax .lower (b.point v)

theorem closed_of_accepts (haccepts : ∀ v, K v → Accepts a b v) : Closed a b K where
  top := fun _ hall v hv => (haccepts v hv).imp (fun hle => hle.trans (hall v hv)) And.left
  bottom := fun _ hall v hv =>
    (haccepts v hv).imp (fun hle => (hall v hv).trans hle) And.right

theorem Closed.spares (hclosed : Closed a b K) (hK : ∀ v, K v → s.Admits v)
    (ha : a.Fit s) (hb : b.Fit s) (hvalid : s.Valid) : Store.Spares (propagate a b) K s := by
  have htop := hclosed.top (b.upper s) fun v hv => hb.le_upper hvalid (hK v hv)
  rcases propagate_steps ha hb hvalid with ⟨hrun, hempty⟩ | ⟨s₁, hcapped, hsecond⟩
  · exact Or.inl ⟨s, hrun, fun v hv => hempty v (hK v hv) (htop v hv)⟩
  have hK₁ : ∀ v, K v → s₁.Admits v := fun v hv => (hcapped.admits v).mpr ⟨hK v hv, htop v hv⟩
  have hbottom := hclosed.bottom (a.lower s₁) fun v hv =>
    (ha.refines hcapped.refines).lower_le hcapped.valid (hK₁ v hv)
  rcases hsecond with ⟨hrun, hempty⟩ | ⟨s₂, hraised, hrun⟩
  · exact Or.inl ⟨s₁, hrun, fun v hv => hempty v (hK₁ v hv) (hbottom v hv)⟩
  · exact Or.inr ⟨_, s₂, hrun, fun v hv => (hraised.admits v).mpr ⟨hK₁ v hv, hbottom v hv⟩⟩

/-- Views without a common variable: either bound is still reached after the pass, by an
assignment that differs in the one view only. -/
theorem closed_of_bounds (ha : a.Fit s) (hb : b.Fit s) (hvalid : s.Valid)
    (hapart : ∀ id, a.base? = some id → b.base? ≠ some id)
    (hcapped : Capped a b s s₁) (hraised : Raised a b s₁ s₂) : Closed a b s₂.Admits where
  top := fun n hall v hv => by
    obtain ⟨hv₁, hbottom⟩ := (hraised.admits v).mp hv
    obtain ⟨hv₀, htop⟩ := (hcapped.admits v).mp hv₁
    refine htop.imp_left fun hle => hle.trans ?_
    -- `w` is `v` with the largest value for `b`
    obtain ⟨r, hr, hreach⟩ := hb.exists_upper hvalid
    let w := b.place (b.point r) v
    have hpointA : a.point w = a.point v := IntView.point_place_of_apart hapart _
    have hvalueB : b.value w = b.upper s := by
      rw [← hreach, IntView.value, IntView.point_place (hb.point_mem hr), IntView.value]
    have hw₁ : s₁.Admits w := by
      refine (hcapped.admits w).mpr ⟨IntView.admits_place hv₀ (hb.point_mem hr), ?_⟩
      rw [IntView.value, hpointA]
      exact htop
    have hw : s₂.Admits w := by
      refine (hraised.admits w).mpr ⟨hw₁, Or.inl ?_⟩
      rw [hvalueB]
      exact ((ha.refines hcapped.refines).lower_le hcapped.valid hv₁).trans hle
    rw [← hvalueB]
    exact hall w hw
  bottom := fun n hall v hv => by
    obtain ⟨hv₁, hbottom⟩ := (hraised.admits v).mp hv
    obtain ⟨hv₀, -⟩ := (hcapped.admits v).mp hv₁
    refine hbottom.imp_left fun hle => le_trans ?_ hle
    -- `w` is `v` with the smallest value that the first bound left for `a`
    obtain ⟨p, hp, hreach⟩ := (ha.refines hcapped.refines).exists_lower hcapped.valid
    obtain ⟨hp₀, htop⟩ := (hcapped.admits p).mp hp
    let w := a.place (a.point p) v
    have hpointB : b.point w = b.point v :=
      IntView.point_place_of_apart (fun id hb ha => hapart id ha hb) _
    have hpointA : a.point w = a.point p := IntView.point_place (ha.point_mem hp₀)
    have hw₁ : s₁.Admits w := by
      refine (hcapped.admits w).mpr ⟨IntView.admits_place hv₀ (ha.point_mem hp₀), ?_⟩
      rw [IntView.value, hpointA]
      exact htop
    have hw : s₂.Admits w := by
      refine (hraised.admits w).mpr ⟨hw₁, ?_⟩
      rw [IntView.value, hpointB]
      exact hbottom
    rw [← hreach, IntView.value, ← hpointA]
    exact hall w hw

theorem Closed.of_silent (hclosed : Closed a b s.Admits) (ha : a.Fit s) (hb : b.Fit s)
    (hvalid : s.Valid) (hvalid' : s'.Valid) (hrefines : s.Refines s')
    (hlower : a.lower s' = a.lower s) (hupper : b.upper s' = b.upper s) :
    Closed a b s'.Admits where
  top := fun n hall v hv => by
    obtain ⟨w, hw, hreach⟩ := (hb.refines hrefines).exists_upper hvalid'
    refine hclosed.top n (fun u hu => ?_) v (hrefines.admits hv)
    calc b.value u ≤ b.upper s := hb.le_upper hvalid hu
      _ = b.value w := by rw [hreach, hupper]
      _ ≤ n := hall w hw
  bottom := fun n hall v hv => by
    obtain ⟨w, hw, hreach⟩ := (ha.refines hrefines).exists_lower hvalid'
    refine hclosed.bottom n (fun u hu => ?_) v (hrefines.admits hv)
    calc n ≤ a.value w := hall w hw
      _ = a.lower s := by rw [hreach, hlower]
      _ ≤ a.value u := ha.lower_le hvalid hu

end LessOrEqual

/-! ## Inclusion -/

namespace Subset

variable {a b : Nat} {s s' : Store}

theorem Level.of_silent (hlevel : Level a b s.Admits) (hvalid' : s'.Valid)
    (hrefines : s.Refines s') (ha : a < s.sets.size) (hb : b < s.sets.size)
    (hsameA : s'.set a = s.set a) (hsameB : s'.set b = s.set b) : Level a b s'.Admits := by
  -- neither set lost a value
  have htake : ∀ id < s.sets.size, s'.set id = s.set id → ∀ v, s.Admits v →
      ∃ w, s'.Admits w ∧ w.set id = v.set id := fun id hid hsame v hv =>
    hvalid'.exists_admits_set (hid.trans_le hrefines.sets_size) (hsame ▸ hv.set id hid)
  have htakeA := htake a ha hsameA
  have htakeB := htake b hb hsameB
  constructor
  · intro x hall v hv
    refine hlevel.required x (fun u hu => ?_) v (hrefines.admits hv)
    obtain ⟨w, hw, heq⟩ := htakeA u hu
    exact heq ▸ hall w hw
  · intro x hall v hv
    refine hlevel.excluded x (fun u hu => ?_) v (hrefines.admits hv)
    obtain ⟨w, hw, heq⟩ := htakeB u hu
    exact heq ▸ hall w hw
  · intro n hall v hv
    refine hlevel.most n (fun u hu => ?_) v (hrefines.admits hv)
    obtain ⟨w, hw, heq⟩ := htakeB u hu
    exact heq ▸ hall w hw
  · intro n hall v hv
    refine hlevel.least n (fun u hu => ?_) v (hrefines.admits hv)
    obtain ⟨w, hw, heq⟩ := htakeA u hu
    exact heq ▸ hall w hw

end Subset

/-! ## Any propagator that fits -/

namespace Propagator

variable {p : Propagator} {s s' : Store} {K : Assignment → Prop}

/-- A run of the propagator takes nothing out of the family. -/
def Closed (K : Assignment → Prop) : Propagator → Prop
  | notEqual a b => NotEqual.Closed a b K
  | lessOrEqual a b => LessOrEqual.Closed a b K
  | subset a b _ => Subset.Level a b K
  | floatLessOrEqual _ _ => True
  | scripted _ => True

theorem closed_core (p : Propagator) : p.core.Closed K ↔ p.Closed K := by
  cases p <;> rfl

theorem closed_of_accepts (haccepts : ∀ v, K v → p.Accepts v) : p.Closed K := by
  cases p with
  | notEqual a b => exact NotEqual.closed_of_ne haccepts
  | lessOrEqual a b => exact LessOrEqual.closed_of_accepts haccepts
  | subset a b _ => exact Subset.level_of_subset haccepts
  | floatLessOrEqual a b => trivial
  | scripted _ => trivial

theorem stateless_spares {pass : Narrow Status} (hknown : p.known s = true)
    (hspares : Store.Spares pass K s) {v : Assignment} (hv : K v) :
    (∃ status, (p.stateless pass s).verdict = .ended status) ∧
      (p.stateless pass s).store.Admits v := by
  rcases hspares with ⟨s', -, hempty⟩ | ⟨status, s', hrun, hK'⟩
  · exact absurd hv (hempty v)
  · rw [stateless_eq_of_ok hknown hrun]
    exact ⟨⟨status, rfl⟩, hK' v hv⟩

/-- A run keeps every assignment of a closed family, and does not fail where there is
one. -/
theorem Closed.run_spares (hclosed : p.Closed K) (hfit : p.Fit s) (hvalid : s.Valid)
    (hK : ∀ v, K v → s.Admits v) {v : Assignment} (hv : K v) :
    (∃ status, (p.run s).verdict = .ended status) ∧ (p.run s).store.Admits v := by
  have hknown := hfit.known
  cases p with
  | notEqual a b =>
      exact stateless_spares hknown (NotEqual.Closed.spares hclosed hK hfit.1 hfit.2 hvalid) hv
  | lessOrEqual a b =>
      exact stateless_spares hknown
        (LessOrEqual.Closed.spares hclosed hK hfit.1 hfit.2 hvalid) hv
  | subset a b counts =>
      rcases Subset.propagate_ends hvalid hfit.1 hfit.2 counts with
        ⟨s', counts', hrun, -, -, hbars⟩ | ⟨status, s', counts', hrun, -, -, hspares, -⟩
      · exact absurd hv (hbars K hclosed hK v)
      · simp only [run, hknown, if_true, hrun]
        exact ⟨⟨status, rfl⟩, hspares K hclosed hK v hv⟩
  | floatLessOrEqual a b => exact hfit.elim
  | scripted _ => exact hfit.elim

/-- At its fixpoint a propagator whose views share no variable leaves a closed family. -/
theorem closed_of_fix (hfit : p.Fit s) (hapart : p.Apart) (hvalid : s.Valid)
    (hverdict : (p.run s).verdict = .ended .fix) : p.Closed (p.run s).store.Admits := by
  have hknown := hfit.known
  cases p with
  | notEqual a b =>
      rcases NotEqual.propagate_cases hfit.1 hfit.2 hvalid with
        ⟨hrun, -⟩ | ⟨s', hrun, -⟩ | ⟨hrun, hopenA, hopenB⟩
      · simp [run, stateless_eq_of_error hknown hrun, Misstep.verdict] at hverdict
      · simp [run, stateless_eq_of_ok hknown hrun] at hverdict
      · -- two open views share no value that a member could be denied
        simp only [run, stateless_eq_of_ok hknown hrun]
        exact NotEqual.closed_of_open hfit.1 hfit.2 hvalid hopenA hopenB
  | lessOrEqual a b =>
      have hbases : ∀ id, a.base? = some id → b.base? ≠ some id := by
        simpa [Apart, watches, AnyView.base?] using hapart
      rcases LessOrEqual.propagate_steps hfit.1 hfit.2 hvalid with
        ⟨hrun, -⟩ | ⟨s₁, hcapped, ⟨hrun, -⟩ | ⟨s₂, hraised, hrun⟩⟩
      · simp [run, stateless_eq_of_error hknown hrun, Misstep.verdict] at hverdict
      · simp [run, stateless_eq_of_error hknown hrun, Misstep.verdict] at hverdict
      · simp only [run, stateless_eq_of_ok hknown hrun]
        exact LessOrEqual.closed_of_bounds hfit.1 hfit.2 hvalid hbases hcapped hraised
  | subset a b counts =>
      rcases Subset.propagate_ends hvalid hfit.1 hfit.2 counts with
        ⟨s', counts', hrun, -⟩ | ⟨status, s', counts', hrun, -, -, -, ⟨rfl, -⟩ | ⟨rfl, hlevel⟩⟩
      · simp [run, hknown, hrun, Misstep.verdict] at hverdict
      · simp [run, hknown, hrun] at hverdict
      · simp only [run, hknown, if_true, hrun]
        exact hlevel
  | floatLessOrEqual a b => exact hfit.elim
  | scripted _ => exact hfit.elim

/-- A closed family stays so where no watch hears of a change. -/
theorem Closed.of_silent (hclosed : p.Closed s.Admits) (hfit : p.Fit s)
    (hvalid : s.Valid) (hvalid' : s'.Valid) (hrefines : s.Refines s')
    (hsilent : ∀ w ∈ p.watches, w.Silent s s') : p.Closed s'.Admits := by
  cases p with
  | notEqual a b =>
      simp only [watches, List.mem_cons, List.not_mem_nil, or_false,
        forall_eq_or_imp, forall_eq] at hsilent
      exact NotEqual.Closed.of_silent hclosed hfit.1 hfit.2 hvalid hvalid' hrefines
        (hfit.1.isFixed_of_silent hsilent.1) (hfit.2.isFixed_of_silent hsilent.2)
  | lessOrEqual a b =>
      simp only [watches, List.mem_cons, List.not_mem_nil, or_false,
        forall_eq_or_imp, forall_eq] at hsilent
      exact LessOrEqual.Closed.of_silent hclosed hfit.1 hfit.2 hvalid hvalid' hrefines
        (hfit.1.lower_eq_of_silent hvalid hvalid' hrefines hsilent.1)
        (hfit.2.upper_eq_of_silent hvalid hvalid' hrefines hsilent.2)
  | subset a b _ =>
      simp only [watches, List.mem_cons, List.not_mem_nil, or_false,
        forall_eq_or_imp, forall_eq] at hsilent
      exact Subset.Level.of_silent hclosed hvalid' hrefines hfit.1 hfit.2
        hsilent.1.set_eq hsilent.2.set_eq
  | floatLessOrEqual a b => trivial
  | scripted _ => trivial

end Propagator

end ConstraintSpace
