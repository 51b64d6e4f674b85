import ConstraintSpace.Proofs.Space.Comparisons
import ConstraintSpace.Proofs.View.Shallow

/-!
# Comparisons that leave are entailed

A comparison that a run reports as subsumed is never looked at again, so all assignments
that are left should satisfy it.  Over views of one level they do, up to what saturates.
`a ≠ b` decides on the numbers that the views read: the violations that are left are those
at which a view strays, and none of these is ever taken out.  `a ≤ b` first narrows both
views by bounds, so a violation is left only where a view slips, which a view of a variable
never does.
-/

namespace ConstraintSpace

variable {a b u w : IntView} {s s' : Store} {c : Comparison} {v : Assignment}

namespace NotEqual

/-- Taking out the one number that a view reads leaves the equal pairs of which one strays. -/
theorem remove_leaves {number : Int} {change : Change} (hvalid : s.Valid) (hw : w.Shallow s)
    (hknown : w.known s = true) (hnumber : Fits32 number)
    (hreads : ∀ v, s.Admits v → u.reading (u.point v) = number)
    (hrun : w.remove number s = .ok change s') (v : Assignment) :
    s'.Admits v ∧ u.value v = w.value v ↔
      s.Admits v ∧ u.value v = w.value v ∧ (u.Strays (u.point v) ∨ w.Strays (w.point v)) := by
  have hkeeps := (IntView.restricts_remove_source hvalid hknown number).keepsExactly
    (IntView.safe_remove w number) hvalid hknown
  rw [hkeeps.admits_of_ok hrun v, and_assoc]
  refine and_congr_right fun hv => ?_
  have hnamed := hw.source?_iff hvalid hknown (IntView.point_mem hknown hv) hnumber
  have hstrays : u.Strays (u.point v) ↔ u.value v ≠ number := by
    rw [IntView.Strays, hreads v hv, IntView.value, ne_comm]
  rw [and_comm, hstrays]
  refine and_congr_right fun hequal => ?_
  rw [ne_eq, hnamed, not_and_or, not_not, ne_eq, hequal]
  rfl

theorem subsumed_leaves (ha : a.Shallow s) (hb : b.Shallow s) (hknownA : a.known s = true)
    (hknownB : b.known s = true) (hvalid : s.Valid)
    (hrun : propagate a b s = .ok .subsumed s') (v : Assignment) :
    s'.Admits v ∧ a.value v = b.value v ↔
      s.Admits v ∧ a.value v = b.value v ∧ (a.Strays (a.point v) ∨ b.Strays (b.point v)) := by
  have hbounds : ∀ w : IntView, w.known s = true → ∀ v, s.Admits v →
      w.lower s ≤ w.reading (w.point v) ∧ w.reading (w.point v) ≤ w.upper s := by
    intro w hknown v hv
    have hpoint := IntView.point_mem hknown hv
    exact ⟨IntView.keeps_bound_reading hpoint .lower, IntView.keeps_bound_reading hpoint .upper⟩
  rw [propagate_eq] at hrun
  by_cases hapart : a.upper s < b.lower s ∨ b.upper s < a.lower s
  · rw [if_pos hapart] at hrun
    obtain rfl : s = s' := (EStateM.Result.ok.inj hrun).2
    refine and_congr_right fun hv => (and_iff_left_of_imp fun hequal => ?_).symm
    have hreadA := hbounds a hknownA v hv
    have hreadB := hbounds b hknownB v hv
    unfold IntView.Strays
    unfold IntView.value at hequal
    omega
  rw [if_neg hapart] at hrun
  by_cases hfixed : a.lower s = a.upper s
  · rw [if_pos hfixed] at hrun
    obtain ⟨change, t, hremove, hpure⟩ := Narrow.of_bind_eq_ok hrun
    obtain rfl : t = s' := (EStateM.Result.ok.inj hpure).2
    have hreads : ∀ v, s.Admits v → a.reading (a.point v) = a.lower s := fun v hv => by
      have hread := hbounds a hknownA v hv
      omega
    have hfits : Fits32 (a.bound s .lower) := ha.formed.fits32_bound hvalid
    exact remove_leaves hvalid hb hknownB hfits hreads hremove v
  rw [if_neg hfixed] at hrun
  by_cases hfixed' : b.lower s = b.upper s
  · rw [if_pos hfixed'] at hrun
    obtain ⟨change, t, hremove, hpure⟩ := Narrow.of_bind_eq_ok hrun
    obtain rfl : t = s' := (EStateM.Result.ok.inj hpure).2
    have hreads : ∀ v, s.Admits v → b.reading (b.point v) = b.lower s := fun v hv => by
      have hread := hbounds b hknownB v hv
      omega
    have hfits : Fits32 (b.bound s .lower) := hb.formed.fits32_bound hvalid
    have hleaves := remove_leaves hvalid ha hknownA hfits hreads hremove v
    rwa [eq_comm, or_comm] at hleaves
  · rw [if_neg hfixed'] at hrun
    cases hrun

end NotEqual

namespace LessOrEqual

theorem steps_of_subsumed (hrun : propagate a b s = .ok .subsumed s') :
    ∃ change change' s₁, a.setUpper (b.upper s) s = .ok change s₁ ∧
      b.setLower (a.lower s₁) s₁ = .ok change' s' ∧ a.upper s' ≤ b.lower s' := by
  rw [propagate_eq] at hrun
  obtain ⟨change, s₁, hupper, hrun⟩ := Narrow.of_bind_eq_ok hrun
  obtain ⟨_, _, hget, hrun⟩ := Narrow.of_bind_eq_ok hrun
  obtain ⟨rfl, rfl⟩ := EStateM.Result.ok.inj hget
  obtain ⟨change', s₂, hlower, hrun⟩ := Narrow.of_bind_eq_ok hrun
  obtain ⟨_, _, hget, hrun⟩ := Narrow.of_bind_eq_ok hrun
  obtain ⟨rfl, rfl⟩ := EStateM.Result.ok.inj hget
  obtain ⟨hstatus, rfl⟩ := EStateM.Result.ok.inj hrun
  refine ⟨change, change', s₁, hupper, hlower, ?_⟩
  by_contra hnot
  rw [if_neg hnot] at hstatus
  cases hstatus

theorem subsumed_relates (ha : a.Shallow s) (hb : b.Shallow s) (hknownA : a.known s = true)
    (hknownB : b.known s = true) (hvalid : s.Valid)
    (hrun : propagate a b s = .ok .subsumed s') (hv : s'.Admits v) :
    a.value v ≤ b.value v ∨ a.Slips .upper (a.point v) ∨ b.Slips .lower (b.point v) := by
  obtain ⟨change, change', s₁, hupper, hlower, hordered⟩ := steps_of_subsumed hrun
  obtain ⟨hvalid₁, hnarrows₁⟩ := (IntView.safe_setUpper a _).of_ok hvalid hupper
  obtain ⟨-, hnarrows₂⟩ := (IntView.safe_setLower b _).of_ok hvalid₁ hlower
  have hknownA₁ := IntView.known_refines hnarrows₁.refines hknownA
  have hknownB₁ := IntView.known_refines hnarrows₁.refines hknownB
  have hpointA₂ := IntView.point_mem (IntView.known_refines hnarrows₂.refines hknownA₁) hv
  have hpointB₂ := IntView.point_mem (IntView.known_refines hnarrows₂.refines hknownB₁) hv
  have hpointA₁ := IntView.domain_refines hnarrows₂.refines hknownA₁ hpointA₂
  -- each bound was set to a number that was read, and what it kept is not read short of it
  have htop : Fits32 (b.bound s .upper) := hb.formed.fits32_bound hvalid
  have hbottom : Fits32 (a.bound s₁ .lower) := ha.formed.fits32_bound hvalid₁
  have hb₁ := hb.refines hnarrows₁.refines hknownB
  rcases ha.keeps_reading hvalid hknownA htop hupper hpointA₁ with hreadA | hslips
  · rcases hb₁.keeps_reading hvalid₁ hknownB₁ hbottom hlower hpointB₂ with hreadB | hslips
    · left
      calc a.value v ≤ a.reading (a.point v) := hreadA
        _ ≤ a.upper s' := IntView.keeps_bound_reading hpointA₂ .upper
        _ ≤ b.lower s' := hordered
        _ ≤ b.reading (b.point v) := IntView.keeps_bound_reading hpointB₂ .lower
        _ ≤ b.value v := hreadB
    · exact .inr (.inr hslips)
  · exact .inr (.inl hslips)

end LessOrEqual

namespace Propagator

theorem of_stateless_ended {p : Propagator} {pass : Narrow Status} {status : Status}
    (hverdict : (p.stateless pass s).verdict = .ended status) :
    p.known s = true ∧ pass s = .ok status (p.stateless pass s).store := by
  unfold stateless at hverdict ⊢
  cases hknown : p.known s with
  | false =>
      simp only [hknown, Bool.false_eq_true, if_false] at hverdict
      cases hverdict
  | true =>
      simp only [hknown, if_true] at hverdict ⊢
      cases hpass : pass s with
      | error misstep t => cases misstep <;> simp [hpass, Misstep.verdict] at hverdict
      | ok status' t =>
          simp only [hpass, Verdict.ended.injEq] at hverdict
          subst hverdict
          exact ⟨trivial, rfl⟩

end Propagator

namespace Comparison

/-- Where a violation may be left: one of the views strays there, or slips off its bound. -/
def Blurred : Comparison → IntView → IntView → Assignment → Prop
  | notEqual, a, b, v => a.Strays (a.point v) ∨ b.Strays (b.point v)
  | lessOrEqual, a, b, v => a.Slips .upper (a.point v) ∨ b.Slips .lower (b.point v)

theorem known_propagator :
    (c.propagator a b).known s = true ↔ a.known s = true ∧ b.known s = true := by
  cases c <;> simp [propagator, Propagator.known, Propagator.watches, AnyView.known]

/-- Whatever store a run finds, each assignment that is left where it ends as subsumed
satisfies the comparison or is blurred; every violation of `a ≠ b` that is blurred is left.
Views of one level saturate at the outermost level only.  Exact views are never blurred,
and affine views of variables never slip. -/
theorem subsumed_entails (harises : Space.Arises s) :
    (∀ v : IntView, v.OneLevel → v.Shallow s) ∧
      (∀ v : IntView, v.Exact s → ∀ x ∈ v.domain s,
        ¬v.Strays x ∧ ∀ side, ¬v.Slips side x) ∧
      (∀ (id : Nat) (scale offset : Int) (side : Side), ∀ x ∈ s.int id,
        ¬(IntView.affine (.var id) scale offset).Slips side x) ∧
      ∀ (c : Comparison) (a b : IntView), a.Shallow s → b.Shallow s →
        ((c.propagator a b).run s).verdict = .ended .subsumed →
          (∀ v, ((c.propagator a b).run s).store.Admits v →
            c.Relates (a.value v) (b.value v) ∨ c.Blurred a b v) ∧
          (c = .notEqual → ∀ v, s.Admits v → a.value v = b.value v → c.Blurred a b v →
            ((c.propagator a b).run s).store.Admits v) := by
  have hvalid := harises.valid
  refine ⟨fun v hlevel => hlevel.shallow hvalid,
    fun v hexact x hx => ⟨not_not.mpr (hexact.reading_eq hvalid hx),
      fun side => hexact.not_slips hvalid hx⟩,
    fun id scale offset side x hx => IntView.not_slips_var hvalid hx,
    fun c a b ha hb hverdict => ?_⟩
  cases c with
  | notEqual =>
      obtain ⟨hknown, hrun⟩ := Propagator.of_stateless_ended hverdict
      obtain ⟨hknownA, hknownB⟩ := (known_propagator (c := .notEqual)).mp hknown
      have hleaves := NotEqual.subsumed_leaves ha hb hknownA hknownB hvalid hrun
      constructor
      · intro v hv
        rw [or_iff_not_imp_left]
        intro hequal
        exact ((hleaves v).mp ⟨hv, not_not.mp hequal⟩).2.2
      · intro _ v hv hequal hblurred
        exact ((hleaves v).mpr ⟨hv, hequal, hblurred⟩).1
  | lessOrEqual =>
      obtain ⟨hknown, hrun⟩ := Propagator.of_stateless_ended hverdict
      obtain ⟨hknownA, hknownB⟩ := (known_propagator (c := .lessOrEqual)).mp hknown
      constructor
      · intro v hv
        exact LessOrEqual.subsumed_relates ha hb hknownA hknownB hvalid hrun hv
      · intro hc
        cases hc

/-- Twice 1073741824 is one more than the greatest number of 32 bits, so two views of it
read the same number; it is taken out of neither, and the two equal values are left. -/
theorem doubled_views_left_equal :
    ∃ s, Space.performAll [.newInt 1073741824 1073741824, .newInt 1073741824 1073741824]
        Space.new = some s ∧
      let run := (notEqual.propagator (.affine (.var 0) 2 0) (.affine (.var 1) 2 0)).run s.store
      run.verdict = .ended .subsumed ∧
        ∃ v, run.store.Admits v ∧
          (IntView.affine (.var 0) 2 0).value v = (IntView.affine (.var 1) 2 0).value v := by
  have hrun : (Space.performAll [.newInt 1073741824 1073741824, .newInt 1073741824 1073741824]
        Space.new).map (fun s => (s.store.int 0, s.store.int 1, s.store.ints.size,
          ((notEqual.propagator (.affine (.var 0) 2 0) (.affine (.var 1) 2 0)).run
            s.store).verdict)) =
      some (.interval 1073741824 1073741824, .interval 1073741824 1073741824, 2,
        .ended .subsumed) := by
    decide +kernel
  obtain ⟨s, hperform, hstore⟩ := Option.map_eq_some_iff.mp hrun
  simp only [Prod.mk.injEq] at hstore
  obtain ⟨hfirst, hsecond, hsize, hverdict⟩ := hstore
  have harises : Space.Arises s.store := .reached (Space.reaches_of_performAll hperform)
  obtain ⟨hshallow, -, -, hentails⟩ := subsumed_entails harises
  have hlevel : ∀ id, (IntView.affine (.var id) 2 0).OneLevel :=
    fun _ => ⟨trivial, by decide, by decide⟩
  obtain ⟨v, hv⟩ := harises.valid.exists_admits
  have hx := hv.int 0 (by rw [hsize]; decide)
  have hy := hv.int 1 (by rw [hsize]; decide)
  rw [hfirst, IntDomain.mem_interval] at hx
  rw [hsecond, IntDomain.mem_interval] at hy
  have hpoint : v.int 0 = 1073741824 ∧ v.int 1 = 1073741824 := by omega
  have hvalue : (IntView.affine (.var 0) 2 0).value v =
      (IntView.affine (.var 1) 2 0).value v := by
    simp only [IntView.value, IntView.valueAt, IntView.point, IntView.base?, hpoint]
  have hstrays : (IntView.affine (.var 0) 2 0).Strays (v.int 0) := by
    rw [hpoint.1]
    decide
  refine ⟨s, hperform, hverdict, v, ?_, hvalue⟩
  exact (hentails .notEqual _ _ (hshallow _ (hlevel 0)) (hshallow _ (hlevel 1)) hverdict).2 rfl
    v hv hvalue (.inl hstrays)

end Comparison

end ConstraintSpace
