import ConstraintSpace.Proofs.Space.Entailment

/-!
# One run is domain consistent

Over fitting views of different variables, or of constants, one run of a comparison does
all that can be done: it fails where no two values are related, and otherwise it leaves the
values that have a support and finds nothing more to do.  The run of `a ≤ b` also knows
whether all that it left is related.  There is one exception: where both views are lax at
values that are not related, `a ≤ b` does not fail.
-/

namespace ConstraintSpace

variable {a b v : IntView} {s s' s₁ s₂ : Store} {c : Comparison} {x y : Int}

namespace IntView

theorem mem_domain_iff (hvalid : s.Valid) (hknown : v.known s = true) :
    x ∈ v.domain s ↔ ∃ p, s.Admits p ∧ v.point p = x := by
  constructor
  · exact exists_admits hvalid
  · rintro ⟨p, hp, rfl⟩
    exact point_mem hknown hp

theorem exists_admits_both (hvalid : s.Valid)
    (hapart : ∀ id, a.base? = some id → b.base? ≠ some id)
    (hx : x ∈ a.domain s) (hy : y ∈ b.domain s) :
    ∃ p, s.Admits p ∧ a.point p = x ∧ b.point p = y := by
  obtain ⟨p, hp, hpoint⟩ := exists_admits hvalid hx
  refine ⟨b.place y p, admits_place hp hy, ?_, point_place hy⟩
  rw [point_place_of_apart hapart, hpoint]

/-- Keeping assignments by their point for one view restricts the domain of that view. -/
theorem Fit.mem_domain_of_admits (hfit : v.Fit s) (keep : Int → Prop) (hvalid : s.Valid)
    (hvalid' : s'.Valid) (hrefines : s.Refines s')
    (hadmits : ∀ p, s'.Admits p ↔ s.Admits p ∧ keep (v.point p)) :
    x ∈ v.domain s' ↔ x ∈ v.domain s ∧ keep x := by
  rw [mem_domain_iff hvalid' (hfit.refines hrefines).known]
  constructor
  · rintro ⟨p, hp, rfl⟩
    obtain ⟨hp₀, hkeep⟩ := (hadmits p).mp hp
    exact ⟨hfit.point_mem hp₀, hkeep⟩
  · rintro ⟨hx, hkeep⟩
    obtain ⟨p, hp, rfl⟩ := exists_admits hvalid hx
    exact ⟨p, (hadmits p).mpr ⟨hp, hkeep⟩, rfl⟩

theorem Fit.mem_domain_of_apart (ha : a.Fit s) (hb : b.Fit s) (keep : Int → Prop)
    (hvalid : s.Valid) (hvalid' : s'.Valid) (hrefines : s.Refines s')
    (hapart : ∀ id, a.base? = some id → b.base? ≠ some id)
    (hadmits : ∀ p, s'.Admits p ↔ s.Admits p ∧ keep (a.point p)) :
    y ∈ b.domain s' ↔ y ∈ b.domain s := by
  refine ⟨domain_refines hrefines hb.known, fun hy => ?_⟩
  obtain ⟨q, hq⟩ := hvalid'.exists_admits
  obtain ⟨hq₀, hkeep⟩ := (hadmits q).mp hq
  obtain ⟨p, hp, hpointA, rfl⟩ := exists_admits_both hvalid hapart (ha.point_mem hq₀) hy
  have hp' := (hadmits p).mpr ⟨hp, hpointA ▸ hkeep⟩
  exact (hb.refines hrefines).point_mem hp'

theorem domain_nonempty (hvalid : s.Valid) (v : IntView) : ∃ x, x ∈ v.domain s :=
  ⟨_, (domain_valid hvalid v).lower_mem⟩

/-- A view that is not fixed has a value other than a given one. -/
theorem Fit.exists_other (hfit : v.Fit s) (hvalid : s.Valid) (hopen : v.isFixed s = false)
    (number : Int) : ∃ x ∈ v.domain s, v.valueAt x ≠ number := by
  have hlt := hfit.lower_lt_upper hvalid hopen
  obtain ⟨x, hx, hlower⟩ := hfit.exact.exists_lower hvalid
  obtain ⟨y, hy, hupper⟩ := hfit.exact.exists_upper hvalid
  by_cases hsame : v.valueAt x = number
  · exact ⟨y, hy, by omega⟩
  · exact ⟨x, hx, hsame⟩

end IntView

/-! ## Supports -/

namespace Comparison

def Relating (c : Comparison) (a b : IntView) (s : Store) : Prop :=
  ∃ x ∈ a.domain s, ∃ y ∈ b.domain s, c.Relates (a.valueAt x) (b.valueAt y)

/-- The second store has the values of the first one that have a support there. -/
structure Supported (c : Comparison) (a b : IntView) (s s' : Store) : Prop where
  left : ∀ x, x ∈ a.domain s' ↔
    x ∈ a.domain s ∧ ∃ y ∈ b.domain s, c.Relates (a.valueAt x) (b.valueAt y)
  right : ∀ y, y ∈ b.domain s' ↔
    y ∈ b.domain s ∧ ∃ x ∈ a.domain s, c.Relates (a.valueAt x) (b.valueAt y)

theorem Supported.relating (hsupported : c.Supported a b s s') (hvalid : s'.Valid) :
    c.Relating a b s := by
  obtain ⟨x, hx⟩ := IntView.domain_nonempty hvalid a
  obtain ⟨hx₀, hsupport⟩ := (hsupported.left x).mp hx
  exact ⟨x, hx₀, hsupport⟩

theorem Supported.exists_right (hsupported : c.Supported a b s s') (hx : x ∈ a.domain s') :
    ∃ y ∈ b.domain s', c.Relates (a.valueAt x) (b.valueAt y) := by
  obtain ⟨hx₀, y, hy, hrelates⟩ := (hsupported.left x).mp hx
  exact ⟨y, (hsupported.right y).mpr ⟨hy, x, hx₀, hrelates⟩, hrelates⟩

theorem Supported.exists_left (hsupported : c.Supported a b s s') (hy : y ∈ b.domain s') :
    ∃ x ∈ a.domain s', c.Relates (a.valueAt x) (b.valueAt y) := by
  obtain ⟨hy₀, x, hx, hrelates⟩ := (hsupported.right y).mp hy
  exact ⟨x, (hsupported.left x).mpr ⟨hx, y, hy₀, hrelates⟩, hrelates⟩

/-- Keeping the assignments that are related keeps the values that have a support. -/
theorem supported_of_admits (ha : a.Fit s) (hb : b.Fit s) (hvalid : s.Valid)
    (hvalid' : s'.Valid) (hrefines : s.Refines s')
    (hapart : ∀ id, a.base? = some id → b.base? ≠ some id)
    (hadmits : ∀ p, s'.Admits p ↔ s.Admits p ∧ c.Relates (a.value p) (b.value p)) :
    c.Supported a b s s' where
  left x := by
    rw [IntView.mem_domain_iff hvalid' (ha.refines hrefines).known]
    constructor
    · rintro ⟨p, hp, rfl⟩
      obtain ⟨hp₀, hrelates⟩ := (hadmits p).mp hp
      exact ⟨ha.point_mem hp₀, b.point p, hb.point_mem hp₀, hrelates⟩
    · rintro ⟨hx, y, hy, hrelates⟩
      obtain ⟨p, hp, rfl, rfl⟩ := IntView.exists_admits_both hvalid hapart hx hy
      exact ⟨p, (hadmits p).mpr ⟨hp, hrelates⟩, rfl⟩
  right y := by
    rw [IntView.mem_domain_iff hvalid' (hb.refines hrefines).known]
    constructor
    · rintro ⟨p, hp, rfl⟩
      obtain ⟨hp₀, hrelates⟩ := (hadmits p).mp hp
      exact ⟨hb.point_mem hp₀, a.point p, ha.point_mem hp₀, hrelates⟩
    · rintro ⟨hy, x, hx, hrelates⟩
      obtain ⟨p, hp, rfl, rfl⟩ := IntView.exists_admits_both hvalid hapart hx hy
      exact ⟨p, (hadmits p).mpr ⟨hp, hrelates⟩, rfl⟩

end Comparison

/-! ## Not equal -/

namespace NotEqual

/-- A pass fails where all values are equal, and otherwise leaves what has a support. -/
theorem propagate_supports (ha : a.Fit s) (hb : b.Fit s) (hvalid : s.Valid)
    (hapart : ∀ id, a.base? = some id → b.base? ≠ some id) :
    (propagate a b s = .error .emptied s ∧ ¬Comparison.notEqual.Relating a b s) ∨
      ∃ status s', propagate a b s = .ok status s' ∧
        Comparison.notEqual.Supported a b s s' := by
  rcases propagate_cases ha hb hvalid with ⟨hrun, hequal⟩ | ⟨s', hrun, hadmits⟩ |
    ⟨hrun, hopenA, hopenB⟩
  · refine .inl ⟨hrun, ?_⟩
    rintro ⟨x, hx, y, hy, hdiffers⟩
    obtain ⟨p, hp, rfl, rfl⟩ := IntView.exists_admits_both hvalid hapart hx hy
    exact hdiffers (hequal p hp)
  · obtain ⟨hvalid', hnarrows⟩ := (safe_propagate a b).of_ok hvalid hrun
    exact .inr ⟨_, s', hrun, Comparison.supported_of_admits ha hb hvalid hvalid'
      hnarrows.refines hapart hadmits⟩
  · refine .inr ⟨_, s, hrun, fun x => ?_, fun y => ?_⟩
    · refine (and_iff_left_of_imp fun _ => ?_).symm
      obtain ⟨y, hy, hdiffers⟩ := hb.exists_other hvalid hopenB (a.valueAt x)
      exact ⟨y, hy, hdiffers.symm⟩
    · exact (and_iff_left_of_imp fun _ => ha.exists_other hvalid hopenA (b.valueAt y)).symm

/-- Where the values of the two views differ already, a pass changes nothing. -/
theorem idle_of_differ (ha : a.Fit s) (hb : b.Fit s) (hvalid : s.Valid)
    (hdiffer : ∀ x ∈ a.domain s, ∀ y ∈ b.domain s, a.valueAt x ≠ b.valueAt y) :
    ∃ status, propagate a b s = .ok status s := by
  obtain ⟨x, hx, hlowerA⟩ := ha.exact.exists_lower hvalid
  obtain ⟨y, hy, hlowerB⟩ := hb.exact.exists_lower hvalid
  have hremoveB : b.remove (a.lower s) s = .ok .none s := by
    rw [(hb.exact.restricts_remove hvalid hb.known _).idle_iff (IntView.single_remove _ _) hvalid]
    exact fun z hz => hlowerA ▸ (hdiffer x hx z hz).symm
  have hremoveA : a.remove (b.lower s) s = .ok .none s := by
    rw [(ha.exact.restricts_remove hvalid ha.known _).idle_iff (IntView.single_remove _ _) hvalid]
    exact fun z hz => hlowerB ▸ hdiffer z hz y hy
  rw [propagate_eq]
  split_ifs
  · exact ⟨_, rfl⟩
  · exact ⟨_, Narrow.bind_of_ok hremoveB⟩
  · exact ⟨_, Narrow.bind_of_ok hremoveA⟩
  · exact ⟨_, rfl⟩

theorem propagate_again (ha : a.Fit s) (hb : b.Fit s) (hvalid : s.Valid)
    (hapart : ∀ id, a.base? = some id → b.base? ≠ some id) {status : Status}
    (hrun : propagate a b s = .ok status s') :
    ∃ status', propagate a b s' = .ok status' s' := by
  obtain ⟨hvalid', hnarrows⟩ := (safe_propagate a b).of_ok hvalid hrun
  rcases propagate_cases ha hb hvalid with ⟨hfail, -⟩ | ⟨t, hleaves, hadmits⟩ | ⟨hopen, -⟩
  · simp [hrun] at hfail
  · rw [hrun, EStateM.Result.ok.injEq] at hleaves
    obtain ⟨-, rfl⟩ := hleaves
    refine idle_of_differ (ha.refines hnarrows.refines) (hb.refines hnarrows.refines) hvalid' ?_
    intro x hx y hy
    obtain ⟨p, hp, rfl, rfl⟩ := IntView.exists_admits_both hvalid' hapart hx hy
    exact ((hadmits p).mp hp).2
  · have hagain := hrun
    rw [hopen, EStateM.Result.ok.injEq] at hrun
    obtain ⟨-, rfl⟩ := hrun
    exact ⟨status, hagain⟩

end NotEqual

/-! ## Less or equal -/

namespace LessOrEqual

theorem Capped.mem_left (hcapped : Capped a b s s₁) (ha : a.Fit s) (hvalid : s.Valid) :
    x ∈ a.domain s₁ ↔ x ∈ a.domain s ∧ (a.valueAt x ≤ b.upper s ∨ a.Lax .upper x) :=
  ha.mem_domain_of_admits (fun x => a.valueAt x ≤ b.upper s ∨ a.Lax .upper x) hvalid
    hcapped.valid hcapped.refines hcapped.admits

theorem Capped.mem_right (hcapped : Capped a b s s₁) (ha : a.Fit s) (hb : b.Fit s)
    (hvalid : s.Valid) (hapart : ∀ id, a.base? = some id → b.base? ≠ some id) :
    y ∈ b.domain s₁ ↔ y ∈ b.domain s :=
  ha.mem_domain_of_apart hb (fun x => a.valueAt x ≤ b.upper s ∨ a.Lax .upper x) hvalid
    hcapped.valid hcapped.refines hapart hcapped.admits

theorem Raised.mem_right (hraised : Raised a b s₁ s₂) (hb : b.Fit s₁) (hvalid : s₁.Valid) :
    y ∈ b.domain s₂ ↔ y ∈ b.domain s₁ ∧ (a.lower s₁ ≤ b.valueAt y ∨ b.Lax .lower y) :=
  hb.mem_domain_of_admits (fun y => a.lower s₁ ≤ b.valueAt y ∨ b.Lax .lower y) hvalid
    hraised.valid hraised.refines hraised.admits

theorem Raised.mem_left (hraised : Raised a b s₁ s₂) (ha : a.Fit s₁) (hb : b.Fit s₁)
    (hvalid : s₁.Valid) (hapart : ∀ id, a.base? = some id → b.base? ≠ some id) :
    x ∈ a.domain s₂ ↔ x ∈ a.domain s₁ :=
  hb.mem_domain_of_apart ha (fun y => a.lower s₁ ≤ b.valueAt y ∨ b.Lax .lower y) hvalid
    hraised.valid hraised.refines (fun id hbaseB hbaseA => hapart id hbaseA hbaseB) hraised.admits

/-- The two bounds leave what has a support, as soon as anything has one. -/
theorem supported_of_bounds (ha : a.Fit s) (hb : b.Fit s) (hvalid : s.Valid)
    (hapart : ∀ id, a.base? = some id → b.base? ≠ some id) (hcapped : Capped a b s s₁)
    (hraised : Raised a b s₁ s₂) (hrelating : Comparison.lessOrEqual.Relating a b s) :
    Comparison.lessOrEqual.Supported a b s s₂ := by
  obtain ⟨p, hp, q, hq, hpq⟩ := hrelating
  have hpq : a.valueAt p ≤ b.valueAt q := hpq
  have ha₁ := ha.refines hcapped.refines
  have hb₁ := hb.refines hcapped.refines
  have hbelow : ∀ x ∈ a.domain s, ∀ y ∈ b.domain s, a.valueAt x ≤ b.valueAt y →
      x ∈ a.domain s₁ := by
    intro x hx y hy hle
    exact (hcapped.mem_left ha hvalid).mpr ⟨hx, .inl (hle.trans (hb.exact.le_upper hvalid hy))⟩
  constructor
  · intro x
    rw [hraised.mem_left ha₁ hb₁ hcapped.valid hapart]
    constructor
    · intro hx
      obtain ⟨hx₀, hle | hlax⟩ := (hcapped.mem_left ha hvalid).mp hx
      · obtain ⟨y, hy, hupper⟩ := hb.exact.exists_upper hvalid
        exact ⟨hx₀, y, hy, hle.trans hupper.ge⟩
      · -- a lax value is the least one
        have hleast : a.valueAt x ≤ a.valueAt p := ha.exact.keeps_of_lax hvalid hlax hp
        exact ⟨hx₀, q, hq, hleast.trans hpq⟩
    · rintro ⟨hx, y, hy, hle⟩
      exact hbelow x hx y hy hle
  · intro y
    rw [hraised.mem_right hb₁ hcapped.valid, hcapped.mem_right ha hb hvalid hapart]
    refine and_congr_right fun hy => ?_
    constructor
    · rintro (hle | hlax)
      · obtain ⟨x, hx, hlower⟩ := ha₁.exact.exists_lower hcapped.valid
        exact ⟨x, ((hcapped.mem_left ha hvalid).mp hx).1, hlower.le.trans hle⟩
      · have hgreatest : b.valueAt q ≤ b.valueAt y := hb.exact.keeps_of_lax hvalid hlax hq
        exact ⟨p, hp, hpq.trans hgreatest⟩
    · rintro ⟨x, hx, hle⟩
      have hx₁ := hbelow x hx y hy hle
      exact .inl ((ha₁.exact.lower_le hcapped.valid hx₁).trans hle)

/-- Where nothing is related, two bounds that are let through are both lax. -/
theorem blind_of_bounds (ha : a.Fit s) (hb : b.Fit s) (hvalid : s.Valid)
    (hapart : ∀ id, a.base? = some id → b.base? ≠ some id) (hcapped : Capped a b s s₁)
    (hraised : Raised a b s₁ s₂) (hnone : ¬Comparison.lessOrEqual.Relating a b s) :
    Blind a b s := by
  have ha₁ := ha.refines hcapped.refines
  have hb₁ := hb.refines hcapped.refines
  have hexceeds : ∀ x ∈ a.domain s, ∀ y ∈ b.domain s, b.valueAt y < a.valueAt x :=
    fun x hx y hy => not_le.mp fun hle => hnone ⟨x, hx, y, hy, hle⟩
  obtain ⟨x, hx⟩ := IntView.domain_nonempty hcapped.valid a
  obtain ⟨hx₀, htop⟩ := (hcapped.mem_left ha hvalid).mp hx
  obtain ⟨y, hy⟩ := IntView.domain_nonempty hraised.valid b
  obtain ⟨hy₁, hbottom⟩ := (hraised.mem_right hb₁ hcapped.valid).mp hy
  have hy₀ := (hcapped.mem_right ha hb hvalid hapart).mp hy₁
  refine ⟨x, hx₀, y, hy₀, fun hbase => ?_, htop.resolve_left fun hle => ?_,
    hbottom.resolve_left fun hle => ?_, hexceeds x hx₀ y hy₀⟩
  · cases hbaseA : a.base? with
    | some id => exact absurd (hbase.symm.trans hbaseA) (hapart id hbaseA)
    | none =>
        simp only [IntView.domain, hbaseA, IntDomain.mem_interval] at hx₀
        simp only [IntView.domain, hbase.symm.trans hbaseA, IntDomain.mem_interval] at hy₀
        omega
  · obtain ⟨z, hz, hupper⟩ := hb.exact.exists_upper hvalid
    have := hexceeds x hx₀ z hz
    omega
  · obtain ⟨z, hz, hlower⟩ := ha₁.exact.exists_lower hcapped.valid
    have := hexceeds z ((hcapped.mem_left ha hvalid).mp hz).1 y hy₀
    omega

/-- A pass over values that all have a support changes nothing. -/
theorem idle_of_supported (ha : a.Fit s) (hb : b.Fit s) (hvalid : s.Valid)
    (hleft : ∀ x ∈ a.domain s, ∃ y ∈ b.domain s, a.valueAt x ≤ b.valueAt y)
    (hright : ∀ y ∈ b.domain s, ∃ x ∈ a.domain s, a.valueAt x ≤ b.valueAt y) :
    ∃ status, propagate a b s = .ok status s := by
  have hupper : a.setUpper (b.upper s) s = .ok .none s := by
    have hrestricts := ha.exact.restricts_setBound hvalid ha.known .upper
      (hb.exact.fits32_upper hvalid)
    rw [IntView.setUpper, hrestricts.idle_iff (IntView.single_setBound _ _ _) hvalid]
    intro x hx
    obtain ⟨y, hy, hle⟩ := hleft x hx
    exact .inl (hle.trans (hb.exact.le_upper hvalid hy))
  have hlower : b.setLower (a.lower s) s = .ok .none s := by
    have hrestricts := hb.exact.restricts_setBound hvalid hb.known .lower
      (ha.exact.fits32_lower hvalid)
    rw [IntView.setLower, hrestricts.idle_iff (IntView.single_setBound _ _ _) hvalid]
    intro y hy
    obtain ⟨x, hx, hle⟩ := hright y hy
    exact .inl ((ha.exact.lower_le hvalid hx).trans hle)
  refine ⟨if a.upper s ≤ b.lower s then .subsumed else .fix, ?_⟩
  rw [propagate_eq, Narrow.bind_of_ok hupper]
  exact Narrow.bind_of_ok hlower

/-- The bounds of exact views are in order where all their values are. -/
theorem upper_le_lower_iff (ha : a.Fit s) (hb : b.Fit s) (hvalid : s.Valid) :
    a.upper s ≤ b.lower s ↔ ∀ x ∈ a.domain s, ∀ y ∈ b.domain s, a.valueAt x ≤ b.valueAt y := by
  constructor
  · intro hle x hx y hy
    calc a.valueAt x ≤ a.upper s := ha.exact.le_upper hvalid hx
      _ ≤ b.lower s := hle
      _ ≤ b.valueAt y := hb.exact.lower_le hvalid hy
  · intro hall
    obtain ⟨x, hx, hupper⟩ := ha.exact.exists_upper hvalid
    obtain ⟨y, hy, hlower⟩ := hb.exact.exists_lower hvalid
    rw [← hupper, ← hlower]
    exact hall x hx y hy

/-- A pass that is not blind fails where no two values are in order, and otherwise leaves
what has a support and knows whether all of it is in order. -/
theorem propagate_supports (ha : a.Fit s) (hb : b.Fit s) (hvalid : s.Valid)
    (hapart : ∀ id, a.base? = some id → b.base? ≠ some id) (hsees : ¬Blind a b s) :
    (∃ t, propagate a b s = .error .emptied t ∧ ¬Comparison.lessOrEqual.Relating a b s) ∨
      ∃ status s', propagate a b s = .ok status s' ∧
        Comparison.lessOrEqual.Supported a b s s' ∧
          (status = .subsumed ↔
            ∀ x ∈ a.domain s', ∀ y ∈ b.domain s', a.valueAt x ≤ b.valueAt y) := by
  rcases propagate_steps ha hb hvalid with ⟨hrun, hempty⟩ | ⟨s₁, hcapped, hsecond⟩
  · refine .inl ⟨s, hrun, ?_⟩
    rintro ⟨x, hx, y, hy, hle⟩
    obtain ⟨p, hp, rfl⟩ := IntView.exists_admits hvalid hx
    exact hempty p hp (.inl (hle.trans (hb.exact.le_upper hvalid hy)))
  have ha₁ := ha.refines hcapped.refines
  have hb₁ := hb.refines hcapped.refines
  rcases hsecond with ⟨hrun, hempty⟩ | ⟨s₂, hraised, hrun⟩
  · refine .inl ⟨s₁, hrun, ?_⟩
    rintro ⟨x, hx, y, hy, hle⟩
    have hx₁ := (hcapped.mem_left ha hvalid).mpr
      ⟨hx, .inl (hle.trans (hb.exact.le_upper hvalid hy))⟩
    obtain ⟨p, hp, rfl⟩ := IntView.exists_admits hcapped.valid
      ((hcapped.mem_right ha hb hvalid hapart).mpr hy)
    exact hempty p hp (.inl ((ha₁.exact.lower_le hcapped.valid hx₁).trans hle))
  · have hrelating : Comparison.lessOrEqual.Relating a b s := by
      by_contra hnone
      exact hsees (blind_of_bounds ha hb hvalid hapart hcapped hraised hnone)
    have hsupported := supported_of_bounds ha hb hvalid hapart hcapped hraised hrelating
    have hordered := upper_le_lower_iff (ha₁.refines hraised.refines)
      (hb₁.refines hraised.refines) hraised.valid
    refine .inr ⟨_, s₂, hrun, hsupported, Iff.trans ?_ hordered⟩
    split_ifs with hle
    · exact iff_of_true rfl hle
    · exact iff_of_false (by decide) hle

/-- A blind pass does not fail, although no two values are in order. -/
theorem propagate_blind (ha : a.Fit s) (hb : b.Fit s) (hvalid : s.Valid)
    (hapart : ∀ id, a.base? = some id → b.base? ≠ some id) (hblind : Blind a b s) :
    (∃ status s', propagate a b s = .ok status s') ∧
      ¬Comparison.lessOrEqual.Relating a b s := by
  obtain ⟨x, hx, y, hy, -, hlaxA, hlaxB, hexceeds⟩ := hblind
  constructor
  · rcases propagate_steps ha hb hvalid with ⟨-, hempty⟩ | ⟨s₁, hcapped, hsecond⟩
    · obtain ⟨p, hp, rfl⟩ := IntView.exists_admits hvalid hx
      exact absurd (.inr hlaxA) (hempty p hp)
    rcases hsecond with ⟨-, hempty⟩ | ⟨s₂, -, hrun⟩
    · obtain ⟨p, hp, rfl⟩ := IntView.exists_admits hcapped.valid
        ((hcapped.mem_right ha hb hvalid hapart).mpr hy)
      exact absurd (.inr hlaxB) (hempty p hp)
    · exact ⟨_, s₂, hrun⟩
  · rintro ⟨p, hp, q, hq, hle⟩
    have hleast : a.valueAt x ≤ a.valueAt p := ha.exact.keeps_of_lax hvalid hlaxA hp
    have hgreatest : b.valueAt q ≤ b.valueAt y := hb.exact.keeps_of_lax hvalid hlaxB hq
    have hle : a.valueAt p ≤ b.valueAt q := hle
    omega

end LessOrEqual

/-! ## Runs -/

namespace Comparison

def pass : Comparison → IntView → IntView → Narrow Status
  | notEqual, a, b => NotEqual.propagate a b
  | lessOrEqual, a, b => LessOrEqual.propagate a b

theorem run_eq : (c.propagator a b).run s = (c.propagator a b).stateless (c.pass a b) s := by
  cases c <;> rfl

theorem run_of_ok (ha : a.Fit s) (hb : b.Fit s) {status : Status}
    (hpass : c.pass a b s = .ok status s') :
    (c.propagator a b).run s =
      { verdict := .ended status, propagator := c.propagator a b, store := s', notes := [] } :=
  run_eq.trans (Propagator.stateless_eq_of_ok (known_propagator.mpr ⟨ha.known, hb.known⟩) hpass)

theorem run_of_error (ha : a.Fit s) (hb : b.Fit s)
    (hpass : c.pass a b s = .error .emptied s') :
    (c.propagator a b).run s =
      { verdict := .failed .emptyDomain, propagator := c.propagator a b, store := s'
        notes := [] } :=
  run_eq.trans
    (Propagator.stateless_eq_of_error (known_propagator.mpr ⟨ha.known, hb.known⟩) hpass)

/-- The run ends and leaves what has a support; running again changes nothing, and `a ≤ b`
knows whether all that is left is related. -/
structure Completes (c : Comparison) (a b : IntView) (s : Store) (run : Run) : Prop where
  ended : ∃ status, run.verdict = .ended status
  supported : c.Supported a b s run.store
  again : ∃ status, (c.propagator a b).run run.store =
    { verdict := .ended status, propagator := c.propagator a b, store := run.store, notes := [] }
  subsumed_iff : c = .lessOrEqual → (run.verdict = .ended .subsumed ↔
    ∀ x ∈ a.domain run.store, ∀ y ∈ b.domain run.store, c.Relates (a.valueAt x) (b.valueAt y))

/-- A run fails exactly where no two values are related, and otherwise does all at once. -/
structure Consistent (c : Comparison) (a b : IntView) (s : Store) : Prop where
  failed_iff : ((c.propagator a b).run s).verdict = .failed .emptyDomain ↔ ¬c.Relating a b s
  completes : c.Relating a b s → c.Completes a b s ((c.propagator a b).run s)

theorem consistent_of_error (ha : a.Fit s) (hb : b.Fit s)
    (hpass : c.pass a b s = .error .emptied s') (hnone : ¬c.Relating a b s) :
    c.Consistent a b s where
  failed_iff := by
    rw [run_of_error ha hb hpass]
    exact iff_of_true rfl hnone
  completes hrelating := absurd hrelating hnone

theorem consistent_of_ok (ha : a.Fit s) (hb : b.Fit s) (hvalid : s.Valid) {status : Status}
    (hpass : c.pass a b s = .ok status s') (hsupported : c.Supported a b s s')
    (hagain : ∃ status', c.pass a b s' = .ok status' s')
    (hsubsumed : c = .lessOrEqual → (status = .subsumed ↔
      ∀ x ∈ a.domain s', ∀ y ∈ b.domain s', c.Relates (a.valueAt x) (b.valueAt y))) :
    c.Consistent a b s := by
  have hsafe : Narrow.Safe (c.pass a b) := by
    cases c with
    | notEqual => exact NotEqual.safe_propagate a b
    | lessOrEqual => exact LessOrEqual.safe_propagate a b
  obtain ⟨hvalid', hnarrows⟩ := hsafe.of_ok hvalid hpass
  obtain ⟨status', hagain⟩ := hagain
  have hrun := run_of_ok ha hb hpass
  constructor
  · rw [hrun]
    exact iff_of_false (by simp) (not_not.mpr (hsupported.relating hvalid'))
  · intro _
    rw [hrun]
    refine ⟨⟨status, rfl⟩, hsupported, ⟨status', ?_⟩, fun hc => ?_⟩
    · exact run_of_ok (ha.refines hnarrows.refines) (hb.refines hnarrows.refines) hagain
    · simp only [Verdict.ended.injEq]
      exact hsubsumed hc

/-- Whatever store a run finds, one run of a comparison of fitting views without a common
variable is consistent exactly where it is not blind. -/
theorem consistent_iff_sees (harises : Space.Arises s) (c : Comparison) (ha : a.Fit s)
    (hb : b.Fit s) (hapart : ∀ id, a.base? = some id → b.base? ≠ some id) :
    c.Consistent a b s ↔ (c = .lessOrEqual → ¬LessOrEqual.Blind a b s) := by
  have hvalid := harises.valid
  constructor
  · rintro hconsistent rfl hblind
    obtain ⟨⟨status, s', hpass⟩, hnone⟩ :=
      LessOrEqual.propagate_blind ha hb hvalid hapart hblind
    have hfailed := hconsistent.failed_iff.mpr hnone
    rw [run_of_ok (c := .lessOrEqual) ha hb hpass] at hfailed
    cases hfailed
  intro hsees
  cases c with
  | notEqual =>
      rcases NotEqual.propagate_supports ha hb hvalid hapart with
        ⟨hpass, hnone⟩ | ⟨status, s', hpass, hsupported⟩
      · exact consistent_of_error ha hb hpass hnone
      · have hagain := NotEqual.propagate_again ha hb hvalid hapart hpass
        exact consistent_of_ok ha hb hvalid hpass hsupported hagain fun hc => nomatch hc
  | lessOrEqual =>
      rcases LessOrEqual.propagate_supports ha hb hvalid hapart (hsees rfl) with
        ⟨t, hpass, hnone⟩ | ⟨status, s', hpass, hsupported, hsubsumed⟩
      · exact consistent_of_error ha hb hpass hnone
      · obtain ⟨hvalid', hnarrows⟩ :=
          (LessOrEqual.safe_propagate a b).of_ok hvalid hpass
        have hagain := LessOrEqual.idle_of_supported (ha.refines hnarrows.refines)
          (hb.refines hnarrows.refines) hvalid' (fun _ => hsupported.exists_right)
          fun _ => hsupported.exists_left
        exact consistent_of_ok ha hb hvalid hpass hsupported hagain fun _ => hsubsumed

/-- Over two variables at the greatest value, `x ≤ y` is consistent; two views that pass
through the greatest number of 32 bits are 0 and -1 and are not found out of order. -/
theorem greatest_values_seen_directly :
    let a : IntView := .affine (.affine (.var 0) 1 1) (-1) 2147483647
    let b : IntView := .affine (.affine (.var 1) 1 1) 1 (-2147483648)
    ∃ s, Space.performAll [.newInt 2147483646 2147483646, .newInt 2147483646 2147483646]
        Space.new = some s ∧
      lessOrEqual.Consistent (.var 0) (.var 1) s.store ∧
        a.Fit s.store ∧ b.Fit s.store ∧ ¬lessOrEqual.Consistent a b s.store := by
  intro a b
  have hrun : (Space.performAll [.newInt 2147483646 2147483646, .newInt 2147483646 2147483646]
        Space.new).map (fun s => (s.store.int 0, s.store.int 1, s.store.ints.size)) =
      some (.interval 2147483646 2147483646, .interval 2147483646 2147483646, 2) := by
    decide +kernel
  obtain ⟨s, hperform, hstore⟩ := Option.map_eq_some_iff.mp hrun
  simp only [Prod.mk.injEq] at hstore
  obtain ⟨hfirst, hsecond, hsize⟩ := hstore
  have harises : Space.Arises s.store := .reached (Space.reaches_of_performAll hperform)
  have hknown : ∀ id < 2, (IntView.var id).known s.store = true :=
    fun id hid => IntView.known_var.mpr (hsize ▸ hid)
  have hx : ∀ x, x ∈ s.store.int 0 ↔ x = 2147483646 := by
    intro x
    rw [hfirst, IntDomain.mem_interval]
    omega
  have hy : ∀ y, y ∈ s.store.int 1 ↔ y = 2147483646 := by
    intro y
    rw [hsecond, IntDomain.mem_interval]
    omega
  have hfitA : a.Fit s.store := by
    refine ⟨hknown 0 (by decide), ⟨trivial, by decide, by decide, by decide, fun x hmem => ?_⟩,
      by decide, by decide, by decide, fun x hmem => ?_⟩
    · obtain rfl := (hx x).mp hmem
      decide
    · obtain rfl := (hx x).mp hmem
      decide
  have hfitB : b.Fit s.store := by
    refine ⟨hknown 1 (by decide), ⟨trivial, by decide, by decide, by decide, fun y hmem => ?_⟩,
      by decide, by decide, by decide, fun y hmem => ?_⟩
    · obtain rfl := (hy y).mp hmem
      decide
    · obtain rfl := (hy y).mp hmem
      decide
  have hapart : ∀ id, some 0 = some id → some 1 ≠ some id := by
    rintro id hzero hone
    cases hzero
    cases hone
  have hdirect := consistent_iff_sees harises .lessOrEqual ⟨hknown 0 (by decide), trivial⟩
    ⟨hknown 1 (by decide), trivial⟩ hapart
  have hthrough := consistent_iff_sees harises .lessOrEqual hfitA hfitB hapart
  refine ⟨s, hperform, hdirect.mpr fun _ => ?_, hfitA, hfitB, fun hconsistent => ?_⟩
  · rintro ⟨x, hmem, y, hmem', -, -, -, hexceeds⟩
    obtain rfl := (hx x).mp hmem
    obtain rfl := (hy y).mp hmem'
    exact absurd hexceeds (by decide)
  · exact hthrough.mp hconsistent rfl ⟨2147483646, (hx _).mpr rfl, 2147483646, (hy _).mpr rfl,
      fun _ => rfl, .inr (.inl rfl), .inr (.inl rfl), by decide⟩

end Comparison

end ConstraintSpace
