import ConstraintSpace.Proofs.Propagator.Comparison
import ConstraintSpace.Proofs.Propagator.Inclusion

/-!
# What propagators guarantee

Every run of a propagator narrows the store and does nothing else to it.  The
propagators of the library over integer and set variables guarantee more.  A run
keeps every assignment that the propagator accepts, and fails only where it
accepts none.  It ends subsumed only where all that is left is accepted.  And it
ends at its fixpoint in a settled state: as long as no watch hears of a change,
fixing all views leaves an accepted assignment.
-/

namespace ConstraintSpace

namespace Propagator

/-! ## The constraint -/

/-- A propagator of the library for integer or set variables, over created
variables and exact views. -/
def Fit (s : Store) : Propagator → Prop
  | notEqual a b => a.Fit s ∧ b.Fit s
  | lessOrEqual a b => a.Fit s ∧ b.Fit s
  | subset a b _ => a < s.sets.size ∧ b < s.sets.size
  | floatLessOrEqual _ _ => False
  | scripted _ => False

/-- The constraint that the propagator stands for. -/
def Holds (v : Assignment) : Propagator → Prop
  | notEqual a b => a.value v ≠ b.value v
  | lessOrEqual a b => a.value v ≤ b.value v
  | subset a b _ => v.set a ⊆ v.set b
  | floatLessOrEqual _ _ => True
  | scripted _ => True

/-- What the propagator accepts: its constraint, but for two lax views. -/
def Accepts (v : Assignment) : Propagator → Prop
  | lessOrEqual a b => LessOrEqual.Accepts a b v
  | p => p.Holds v

/-- No pass can miss the fixpoint of the propagator. -/
def Steady (s : Store) : Propagator → Prop
  | lessOrEqual a b => ¬LessOrEqual.Staircase a b s
  | _ => True

/-- No two views of the propagator share a variable. -/
def Apart (p : Propagator) : Prop :=
  p.watches.Pairwise fun w w' => ∀ id, w.view.base? = some id → w'.view.base? ≠ some id

/-- What a run that ends at the fixpoint leaves. -/
def Settled (s : Store) : Propagator → Prop
  | notEqual a b => a.isFixed s = false ∧ b.isFixed s = false
  | lessOrEqual a b => LessOrEqual.Settled a b s
  | subset a b _ => (s.set a).glb ⊆ (s.set b).glb
  | floatLessOrEqual _ _ => False
  | scripted _ => False

/-- All that is admitted is accepted. -/
def Entailed (s : Store) (p : Propagator) : Prop := ∀ v, s.Admits v → p.Accepts v

/-- All views of the propagator are fixed. -/
def AllFixed (s : Store) (p : Propagator) : Prop :=
  ∀ w ∈ p.watches, w.view.isFixed s = true

/-- The propagator apart from what it counts. -/
def core : Propagator → Propagator
  | subset a b _ => subset a b ⟨0, 0⟩
  | p => p

theorem holds_accepts {p : Propagator} {v : Assignment} (hholds : p.Holds v) :
    p.Accepts v := by
  cases p with
  | lessOrEqual a b => exact Or.inl hholds
  | _ => exact hholds

theorem accepts_core (p : Propagator) (v : Assignment) :
    p.core.Accepts v ↔ p.Accepts v := by
  cases p <;> rfl

theorem fit_core (p : Propagator) (s : Store) : p.core.Fit s ↔ p.Fit s := by
  cases p <;> rfl

theorem steady_core (p : Propagator) (s : Store) : p.core.Steady s ↔ p.Steady s := by
  cases p <;> rfl

theorem settled_core (p : Propagator) (s : Store) :
    p.core.Settled s ↔ p.Settled s := by
  cases p <;> rfl

theorem entailed_core (p : Propagator) (s : Store) :
    p.core.Entailed s ↔ p.Entailed s :=
  forall₂_congr fun v _ => p.accepts_core v

variable {p : Propagator} {s s' : Store}

theorem Fit.known (hfit : p.Fit s) : p.known s = true := by
  cases p with
  | notEqual a b =>
      simp [Propagator.known, watches, AnyView.known, hfit.1.known, hfit.2.known]
  | lessOrEqual a b =>
      simp [Propagator.known, watches, AnyView.known, hfit.1.known, hfit.2.known]
  | subset a b _ =>
      have hsizes : a < s.sets.size ∧ b < s.sets.size := hfit
      simpa [Propagator.known, watches, AnyView.known, Store.knows] using hsizes
  | floatLessOrEqual a b => exact hfit.elim
  | scripted _ => exact hfit.elim

theorem Fit.refines (hfit : p.Fit s) (hrefines : s.Refines s') : p.Fit s' := by
  cases p with
  | notEqual a b => exact ⟨hfit.1.refines hrefines, hfit.2.refines hrefines⟩
  | lessOrEqual a b => exact ⟨hfit.1.refines hrefines, hfit.2.refines hrefines⟩
  | subset a b _ =>
      exact ⟨hfit.1.trans_le hrefines.sets_size, hfit.2.trans_le hrefines.sets_size⟩
  | floatLessOrEqual a b => exact hfit
  | scripted _ => exact hfit

theorem Steady.refines (hsteady : p.Steady s) (hfit : p.Fit s)
    (hrefines : s.Refines s') : p.Steady s' := by
  cases p with
  | lessOrEqual a b =>
      rintro ⟨hbase, x, hx, y, hy, z, hz, hsteps⟩
      have hdomain := fun w => IntView.domain_refines hrefines hfit.1.known (x := w)
      exact hsteady
        ⟨hbase, x, hdomain x hx, y, hdomain y hy, z, hdomain z hz, hsteps⟩
  | notEqual a b => trivial
  | floatLessOrEqual a b => trivial
  | subset a b _ => trivial
  | scripted _ => trivial

/-- Two views without a common variable have no staircase. -/
theorem Apart.steady {p : Propagator} (hapart : p.Apart) (s : Store) : p.Steady s := by
  cases p with
  | lessOrEqual a b =>
      simp only [Apart, watches, List.pairwise_cons, List.mem_singleton, forall_eq,
        AnyView.base?] at hapart
      rintro ⟨hbase, x, -, y, -, z, -, hxstep, hxy, -, -, -⟩
      cases hnone : a.base? with
      | some id => exact hapart.1 id hnone (hbase ▸ hnone)
      | none =>
          -- a constant has one value
          have hsame := IntView.valueAt_of_base?_none (hbase ▸ hnone : b.base? = none) x y
          omega
  | _ => trivial

theorem Entailed.refines (hentailed : p.Entailed s) (hrefines : s.Refines s') :
    p.Entailed s' :=
  fun v hv => hentailed v (hrefines.admits hv)

/-- A settled propagator stays so where its watches hear nothing. -/
theorem Settled.of_silent (hsettled : p.Settled s) (hfit : p.Fit s)
    (hvalid : s.Valid) (hvalid' : s'.Valid) (hrefines : s.Refines s')
    (hsilent : ∀ w ∈ p.watches, w.Silent s s') : p.Settled s' := by
  cases p with
  | notEqual a b =>
      simp only [watches, List.mem_cons, List.not_mem_nil, or_false,
        forall_eq_or_imp, forall_eq] at hsilent
      exact ⟨hfit.1.isFixed_of_silent hsilent.1 hsettled.1,
        hfit.2.isFixed_of_silent hsilent.2 hsettled.2⟩
  | lessOrEqual a b =>
      simp only [watches, List.mem_cons, List.not_mem_nil, or_false,
        forall_eq_or_imp, forall_eq] at hsilent
      intro v hv hlow hhigh
      refine hsettled v (hrefines.admits hv) ?_ ?_
      · rw [hlow, hfit.1.lower_eq_of_silent hvalid hvalid' hrefines hsilent.1]
      · rw [hhigh, hfit.2.upper_eq_of_silent hvalid hvalid' hrefines hsilent.2]
  | subset a b _ =>
      simp only [watches, List.mem_cons, List.not_mem_nil, or_false,
        forall_eq_or_imp, forall_eq] at hsilent
      simp only [Settled, hsilent.1.set_eq, hsilent.2.set_eq]
      exact hsettled
  | floatLessOrEqual a b => exact hsettled
  | scripted _ => exact hsettled

/-- A settled propagator accepts what is left when its views are fixed. -/
theorem Settled.entailed (hsettled : p.Settled s) (hfit : p.Fit s)
    (hvalid : s.Valid) (hfixed : p.AllFixed s) : p.Entailed s := by
  intro v hv
  cases p with
  | notEqual a b =>
      have := hfixed _ List.mem_cons_self
      simp [AnyView.isFixed, hsettled.1] at this
  | lessOrEqual a b =>
      simp only [AllFixed, watches, List.mem_cons, List.not_mem_nil, or_false,
        forall_eq_or_imp, forall_eq, AnyView.isFixed] at hfixed
      refine hsettled v hv (hfit.1.value_of_isFixed hvalid hfixed.1 hv) ?_
      rw [hfit.2.value_of_isFixed hvalid hfixed.2 hv]
      exact (hfit.2.exact.isFixed_iff hvalid).mp hfixed.2
  | subset a b _ =>
      simp only [AllFixed, watches, List.mem_cons, List.not_mem_nil, or_false,
        forall_eq_or_imp, forall_eq, AnyView.isFixed] at hfixed
      have ha := ((hvalid.set a).mem_iff_of_isFixed hfixed.1).mp (hv.set a hfit.1)
      have hb := ((hvalid.set b).mem_iff_of_isFixed hfixed.2).mp (hv.set b hfit.2)
      intro x hx
      rw [ha, List.mem_toFinset] at hx
      rw [hb, List.mem_toFinset]
      exact hsettled hx
  | floatLessOrEqual a b => exact hfit.elim
  | scripted _ => exact hfit.elim

/-! ## Runs -/

theorem stateless_eq_of_ok {pass : Narrow Status} {status : Status}
    (hknown : p.known s = true) (hrun : pass s = .ok status s') :
    p.stateless pass s =
      { verdict := .ended status, propagator := p, store := s', notes := [] } := by
  simp only [stateless, hknown, if_true, hrun]

theorem stateless_eq_of_error {pass : Narrow Status} {misstep : Misstep}
    (hknown : p.known s = true) (hrun : pass s = .error misstep s') :
    p.stateless pass s =
      { verdict := misstep.verdict, propagator := p, store := s', notes := [] } := by
  simp only [stateless, hknown, if_true, hrun]

/-- What a run of a propagator that fits leaves behind. -/
inductive Outcome (p : Propagator) (s : Store) : Run → Prop where
  | failed {run : Run} (hverdict : run.verdict = .failed .emptyDomain)
      (hnotes : run.notes = [])
      (hempty : ∀ v, s.Admits v → ¬p.Accepts v) : Outcome p s run
  | subsumed {run : Run} (hverdict : run.verdict = .ended .subsumed)
      (hcore : run.propagator.core = p.core) (hnotes : run.notes = [])
      (hkept : ∀ v, s.Admits v → p.Accepts v → run.store.Admits v)
      (hentailed : p.Entailed run.store) : Outcome p s run
  | fix {run : Run} (hverdict : run.verdict = .ended .fix)
      (hcore : run.propagator.core = p.core) (hnotes : run.notes = [])
      (hkept : ∀ v, s.Admits v → p.Accepts v → run.store.Admits v)
      (hsettled : p.Steady s → p.Settled run.store) : Outcome p s run

theorem run_outcome (hfit : p.Fit s) (hvalid : s.Valid) : p.Outcome s (p.run s) := by
  have hknown := hfit.known
  cases p with
  | notEqual a b =>
      rcases NotEqual.propagate_cases hfit.1 hfit.2 hvalid with
        ⟨hrun, hempty⟩ | ⟨s', hrun, hmem⟩ | ⟨hrun, hopen⟩
      · simp only [run, stateless_eq_of_error hknown hrun]
        exact .failed rfl rfl fun v hv hne => hne (hempty v hv)
      · simp only [run, stateless_eq_of_ok hknown hrun]
        exact .subsumed rfl rfl rfl (fun v hv hne => (hmem v).mpr ⟨hv, hne⟩)
          fun v hv => ((hmem v).mp hv).2
      · simp only [run, stateless_eq_of_ok hknown hrun]
        exact .fix rfl rfl rfl (fun v hv _ => hv) fun _ => hopen
  | lessOrEqual a b =>
      rcases LessOrEqual.propagate_cases hfit.1 hfit.2 hvalid with
        ⟨s', hrun, hempty⟩ | ⟨s', hkept, ⟨hrun, hall⟩ | ⟨hrun, hsettled⟩⟩
      · simp only [run, stateless_eq_of_error hknown hrun]
        exact .failed rfl rfl hempty
      · simp only [run, stateless_eq_of_ok hknown hrun]
        exact .subsumed rfl rfl rfl hkept fun v hv => Or.inl (hall v hv)
      · simp only [run, stateless_eq_of_ok hknown hrun]
        exact .fix rfl rfl rfl hkept hsettled
  | subset a b counts =>
      rcases Subset.propagate_ends hvalid hfit.1 hfit.2 counts with
        ⟨s', counts', hrun, _, _, hbars⟩ |
        ⟨status, s', counts', hrun, hvalid', hnarrows, hspares, ⟨rfl, hall⟩ | ⟨rfl, hlevel⟩⟩
      · simp only [run, hknown, if_true, hrun]
        exact .failed rfl rfl fun v => hbars.not_subset
      · simp only [run, hknown, if_true, hrun]
        exact .subsumed rfl rfl rfl (fun v => hspares.admits) hall
      · simp only [run, hknown, if_true, hrun]
        have hfit' : (subset a b counts).Fit s' := hfit.refines hnarrows.refines
        exact .fix rfl rfl rfl (fun v => hspares.admits) fun _ =>
          hlevel.glb_subset hvalid' hfit'.1 hfit'.2
  | floatLessOrEqual a b => exact hfit.elim
  | scripted _ => exact hfit.elim

theorem propagator_stateless (pass : Narrow Status) (s : Store) :
    (p.stateless pass s).propagator = p := by
  unfold stateless
  split
  · split <;> rfl
  · rfl

/-- A run changes nothing of a propagator but its counts. -/
theorem run_core (hfit : p.Fit s) : (p.run s).propagator.core = p.core := by
  cases p with
  | notEqual a b => exact congrArg core (propagator_stateless _ s)
  | lessOrEqual a b => exact congrArg core (propagator_stateless _ s)
  | subset a b counts =>
      simp only [run]
      split
      · split <;> rfl
      · rfl
  | floatLessOrEqual a b => exact hfit.elim
  | scripted _ => exact hfit.elim

theorem Outcome.ne_breached {run : Run} (houtcome : p.Outcome s run) (breach : Breach) :
    run.verdict ≠ .breached breach := by
  cases houtcome <;> simp_all

theorem stateless_narrows {pass : Narrow Status} (hsafe : Narrow.Safe pass)
    (hvalid : s.Valid) :
    (p.stateless pass s).store.Valid ∧ s.Narrows (p.stateless pass s).store := by
  cases hknown : p.known s with
  | false =>
      simp only [stateless, hknown]
      exact ⟨hvalid, Store.Narrows.refl hvalid⟩
  | true =>
      cases hrun : pass s with
      | ok status s' =>
          rw [stateless_eq_of_ok hknown hrun]
          exact hsafe.of_ok hvalid hrun
      | error misstep s' =>
          rw [stateless_eq_of_error hknown hrun]
          exact hsafe.of_error hvalid hrun

theorem perform_narrows (name : String) (narrowings : List Narrowing)
    (hvalid : s.Valid) :
    (Scripted.perform name narrowings s).2.1.Valid ∧
      s.Narrows (Scripted.perform name narrowings s).2.1 := by
  induction narrowings generalizing s with
  | nil => exact ⟨hvalid, Store.Narrows.refl hvalid⟩
  | cons narrowing rest ih =>
      cases hrun : narrowing.apply s with
      | ok change s₁ =>
          simp only [Scripted.perform, hrun]
          obtain ⟨hvalid₁, hnarrows₁⟩ := narrowing.safe_apply.of_ok hvalid hrun
          obtain ⟨hvalid₂, hnarrows₂⟩ := ih hvalid₁
          exact ⟨hvalid₂, hnarrows₁.trans hnarrows₂⟩
      | error misstep s₁ =>
          simp only [Scripted.perform, hrun]
          exact narrowing.safe_apply.of_error hvalid hrun

/-- Whatever the propagator, a run only narrows. -/
theorem run_narrows (p : Propagator) (hvalid : s.Valid) :
    (p.run s).store.Valid ∧ s.Narrows (p.run s).store := by
  cases p with
  | notEqual a b => exact stateless_narrows (NotEqual.safe_propagate a b) hvalid
  | lessOrEqual a b => exact stateless_narrows (LessOrEqual.safe_propagate a b) hvalid
  | floatLessOrEqual a b =>
      exact stateless_narrows (FloatLessOrEqual.safe_propagate a b) hvalid
  | subset a b counts =>
      cases hknown : (subset a b counts).known s with
      | false =>
          simp only [run, hknown]
          exact ⟨hvalid, Store.Narrows.refl hvalid⟩
      | true =>
          have hfit : a < s.sets.size ∧ b < s.sets.size := by
            simpa [known, watches, AnyView.known, Store.knows] using hknown
          rcases Subset.propagate_ends hvalid hfit.1 hfit.2 counts with
            ⟨s', counts', hrun, hvalid', hnarrows, _⟩ |
            ⟨status, s', counts', hrun, hvalid', hnarrows, _⟩ <;>
          · simp only [run, hknown, if_true, hrun]
            exact ⟨hvalid', hnarrows⟩
  | scripted script => exact perform_narrows script.name _ hvalid

end Propagator

end ConstraintSpace
