import ConstraintSpace.Proofs.Store.Assignment
import ConstraintSpace.View.Integer

/-!
# Exact views

The value of a view is a linear function of the value of its variable.  A view
is exact on a store when no coefficient and no image of the domain leaves the
32-bit integers at any level of nesting; then nothing saturates, and what the
view reads from the store is what the linear function says.
-/

namespace ConstraintSpace

namespace IntView

/-- The exact value of the view where its variable has the value `x`. -/
def valueAt : IntView → Int → Int
  | var _, x => x
  | const value, _ => value
  | affine inner scale offset, x => scale * inner.valueAt x + offset
  | literal image, x => image.valueAt x

/-- How much the value changes with its variable. -/
def slope : IntView → Int
  | var _ => 1
  | const _ => 0
  | affine inner scale _ => scale * inner.slope
  | literal image => image.slope

/-- The domain of the variable; a constant reads a domain of one value. -/
def domain (s : Store) (v : IntView) : IntDomain :=
  match v.base? with
  | some id => s.int id
  | none => .interval 0 0

/-- Scale, offset and the images of all values of the domain fit in 32 bits at
every level of nesting, and no scale is zero. -/
def Exact (s : Store) : IntView → Prop
  | var _ => True
  | const value => Fits32 value
  | affine inner scale offset =>
      inner.Exact s ∧ scale ≠ 0 ∧ Fits32 scale ∧ Fits32 offset ∧
        ∀ x ∈ inner.domain s, Fits32 (scale * inner.valueAt x + offset)
  | literal image => image.Exact s

theorem valueAt_eq (v : IntView) (x : Int) :
    v.valueAt x = v.slope * x + v.valueAt 0 := by
  induction v with
  | var id => simp [valueAt, slope]
  | const value => simp [valueAt, slope]
  | affine inner scale offset ih =>
      simp only [valueAt, slope]
      rw [ih]
      ring
  | literal image ih => exact ih

@[simp] theorem domain_var (s : Store) (id : Nat) :
    (var id).domain s = s.int id := rfl

@[simp] theorem domain_affine (s : Store) (inner : IntView) (scale offset : Int) :
    (affine inner scale offset).domain s = inner.domain s := rfl

@[simp] theorem domain_literal (s : Store) (image : IntView) :
    (literal image).domain s = image.domain s := rfl

theorem domain_of_base? {s : Store} {v : IntView} {id : Nat}
    (hbase : v.base? = some id) : v.domain s = s.int id := by
  simp [domain, hbase]

theorem domain_valid {s : Store} (hvalid : s.Valid) (v : IntView) :
    (v.domain s).Valid := by
  unfold domain
  split
  · exact hvalid.int _
  · exact IntDomain.valid_interval (le_refl _)

theorem isFixed_eq (s : Store) (v : IntView) :
    v.isFixed s = (v.domain s).isFixed := by
  unfold isFixed domain
  cases v.base? <;> rfl

theorem size_eq (s : Store) (v : IntView) : v.size s = (v.domain s).size := by
  unfold size domain
  cases v.base? <;> rfl

theorem known_of_base? {s : Store} {v : IntView} {id : Nat}
    (hknown : v.known s = true) (hbase : v.base? = some id) : id < s.ints.size := by
  simpa [known, hbase, Store.knows] using hknown

theorem known_refines {s s' : Store} (hrefines : s.Refines s') {v : IntView}
    (hknown : v.known s = true) : v.known s' = true := by
  cases hbase : v.base? with
  | none => simp [known, hbase]
  | some id =>
      have := (known_of_base? hknown hbase).trans_le hrefines.ints_size
      simpa [known, hbase, Store.knows] using this

theorem domain_refines {s s' : Store} (hrefines : s.Refines s') {v : IntView}
    (hknown : v.known s = true) {x : Int} (hx : x ∈ v.domain s') :
    x ∈ v.domain s := by
  cases hbase : v.base? with
  | none => simpa [domain, hbase] using hx
  | some id =>
      rw [domain_of_base? hbase] at hx ⊢
      exact hrefines.int_subset id (known_of_base? hknown hbase) x hx

/-- A view stays exact where its variable has no other values. -/
theorem Exact.of_domain_subset {s s' : Store} {v : IntView} (hexact : v.Exact s)
    (hsubset : ∀ x ∈ v.domain s', x ∈ v.domain s) : v.Exact s' := by
  induction v with
  | var id => trivial
  | const value => exact hexact
  | affine inner scale offset ih =>
      obtain ⟨hinner, hscale, hfits, hfits', himage⟩ := hexact
      exact ⟨ih hinner hsubset, hscale, hfits, hfits', fun x hx =>
        himage x (hsubset x hx)⟩
  | literal image ih => exact ih hexact hsubset

/-- A refinement keeps views exact. -/
theorem Exact.refines {s s' : Store} {v : IntView} (hexact : v.Exact s)
    (hrefines : s.Refines s') (hknown : v.known s = true) : v.Exact s' :=
  hexact.of_domain_subset fun _ => domain_refines hrefines hknown

theorem Exact.slope_ne_zero {s : Store} {v : IntView} (hexact : v.Exact s)
    {id : Nat} (hbase : v.base? = some id) : v.slope ≠ 0 := by
  induction v with
  | var _ => simp [slope]
  | const _ => simp [base?] at hbase
  | affine inner scale offset ih =>
      exact mul_ne_zero hexact.2.1 (ih hexact.1 hbase)
  | literal image ih => exact ih hexact hbase

theorem slope_const_base {v : IntView} (hbase : v.base? = none) :
    v.slope = 0 := by
  induction v with
  | var _ => simp [base?] at hbase
  | const _ => rfl
  | affine inner scale offset ih =>
      simp [slope, ih hbase]
  | literal image ih => exact ih hbase

theorem valueAt_of_base?_none {v : IntView} (hbase : v.base? = none) (x y : Int) :
    v.valueAt x = v.valueAt y := by
  rw [v.valueAt_eq x, v.valueAt_eq y, slope_const_base hbase]
  ring

/-- The view tells the values of its variable apart. -/
theorem Exact.valueAt_inj {s : Store} {v : IntView} (hexact : v.Exact s)
    {x y : Int} (hx : x ∈ v.domain s) (hy : y ∈ v.domain s)
    (heq : v.valueAt x = v.valueAt y) : x = y := by
  cases hbase : v.base? with
  | none =>
      simp only [domain, hbase, IntDomain.mem_interval] at hx hy
      omega
  | some id =>
      rw [v.valueAt_eq x, v.valueAt_eq y] at heq
      have hslope := hexact.slope_ne_zero hbase
      exact mul_left_cancel₀ hslope (by omega)

theorem fits32_of_inLimits {d : IntDomain} (hlimits : d.InLimits) {x : Int}
    (hx : x ∈ d) : Fits32 x := by
  have hlower := IntDomain.lower_le_of_mem hx
  have hupper := IntDomain.le_upper_of_mem hx
  unfold IntDomain.InLimits Limits.integerMin Limits.integerMax highest32
    at hlimits
  unfold Fits32 lowest32 highest32
  omega

/-- The values of an exact view fit in 32 bits. -/
theorem Exact.fits32 {s : Store} (hvalid : s.Valid) {v : IntView}
    (hexact : v.Exact s) {x : Int} (hx : x ∈ v.domain s) :
    Fits32 (v.valueAt x) := by
  induction v with
  | var id => exact fits32_of_inLimits (hvalid.limits id) hx
  | const value => exact hexact
  | affine inner scale offset ih => exact hexact.2.2.2.2 x hx
  | literal image ih => exact ih hexact hx

theorem fits64_mul {x y : Int} (hx : Fits32 x) (hy : Fits32 y) :
    Fits64 (x * y) ∧ -4611686018427387904 ≤ x * y ∧
      x * y ≤ 4611686018427387904 := by
  unfold Fits32 lowest32 highest32 at hx hy
  have habs : |x * y| ≤ 2147483648 * 2147483648 := by
    rw [abs_mul]
    exact mul_le_mul (abs_le.mpr (by omega)) (abs_le.mpr (by omega))
      (abs_nonneg y) (by omega)
  rw [abs_le] at habs
  unfold Fits64 lowest64 highest64
  omega

theorem image_eq {scale offset x : Int} (hscale : Fits32 scale)
    (hoffset : Fits32 offset) (hx : Fits32 x)
    (himage : Fits32 (scale * x + offset)) :
    image scale offset x = scale * x + offset := by
  obtain ⟨hmul, hlow, hhigh⟩ := fits64_mul hscale hx
  unfold image
  rw [clamp64_of_fits hmul, clamp64_of_fits, clamp32_of_fits himage]
  unfold Fits32 lowest32 highest32 at hoffset
  unfold Fits64 lowest64 highest64
  omega

/-- An exact view reads the images of the bounds of its variable. -/
theorem Exact.bounds_eq {s : Store} (hvalid : s.Valid) {v : IntView}
    (hexact : v.Exact s) :
    v.bounds s =
      if v.slope < 0 then
        (v.valueAt (v.domain s).upper, v.valueAt (v.domain s).lower)
      else (v.valueAt (v.domain s).lower, v.valueAt (v.domain s).upper) := by
  induction v with
  | var id => simp [bounds, slope, valueAt]
  | const value => simp [bounds, slope, valueAt]
  | affine inner scale offset ih =>
      obtain ⟨hinner, hscale, hfits, hfits', himage⟩ := hexact
      have hdomain := domain_valid hvalid inner
      have hlower := image_eq hfits hfits'
        (hinner.fits32 hvalid hdomain.lower_mem) (himage _ hdomain.lower_mem)
      have hupper := image_eq hfits hfits'
        (hinner.fits32 hvalid hdomain.upper_mem) (himage _ hdomain.upper_mem)
      simp only [bounds, ih hinner, slope, valueAt, domain_affine]
      rcases lt_trichotomy inner.slope 0 with hneg | hzero | hpos
      · rcases lt_or_gt_of_ne hscale with hs | hs
        · have : ¬scale * inner.slope < 0 := not_lt.mpr (mul_pos_of_neg_of_neg hs hneg).le
          simp [hneg, hs, this, hlower, hupper]
        · have : scale * inner.slope < 0 := mul_neg_of_pos_of_neg hs hneg
          simp [hneg, hs.le, this, hlower, hupper, not_lt]
      · have hsame : inner.valueAt (inner.domain s).lower =
            inner.valueAt (inner.domain s).upper := by
          rw [inner.valueAt_eq, inner.valueAt_eq (inner.domain s).upper, hzero]
          ring
        simp [hzero, hupper, hsame]
      · rcases lt_or_gt_of_ne hscale with hs | hs
        · have : scale * inner.slope < 0 := mul_neg_of_neg_of_pos hs hpos
          simp [not_lt.mpr hpos.le, hs, this, hlower, hupper]
        · have : ¬scale * inner.slope < 0 := not_lt.mpr (mul_pos hs hpos).le
          simp [not_lt.mpr hpos.le, not_lt.mpr hs.le, this, hlower, hupper]
  | literal image ih => exact ih hexact

/-- The lower bound of an exact view is its least value. -/
theorem Exact.lower_le {s : Store} (hvalid : s.Valid) {v : IntView}
    (hexact : v.Exact s) {x : Int} (hx : x ∈ v.domain s) :
    v.lower s ≤ v.valueAt x := by
  have hlower := IntDomain.lower_le_of_mem hx
  have hupper := IntDomain.le_upper_of_mem hx
  unfold lower
  rw [hexact.bounds_eq hvalid]
  split
  next hneg =>
    simp only
    rw [v.valueAt_eq, v.valueAt_eq x]
    have := mul_le_mul_of_nonpos_left hupper hneg.le
    omega
  next hpos =>
    simp only
    rw [v.valueAt_eq, v.valueAt_eq x]
    have := mul_le_mul_of_nonneg_left hlower (not_lt.mp hpos)
    omega

theorem Exact.le_upper {s : Store} (hvalid : s.Valid) {v : IntView}
    (hexact : v.Exact s) {x : Int} (hx : x ∈ v.domain s) :
    v.valueAt x ≤ v.upper s := by
  have hlower := IntDomain.lower_le_of_mem hx
  have hupper := IntDomain.le_upper_of_mem hx
  unfold upper
  rw [hexact.bounds_eq hvalid]
  split
  next hneg =>
    simp only
    rw [v.valueAt_eq, v.valueAt_eq (v.domain s).lower]
    have := mul_le_mul_of_nonpos_left hlower hneg.le
    omega
  next hpos =>
    simp only
    rw [v.valueAt_eq, v.valueAt_eq (v.domain s).upper]
    have := mul_le_mul_of_nonneg_left hupper (not_lt.mp hpos)
    omega

theorem Exact.exists_lower {s : Store} (hvalid : s.Valid) {v : IntView}
    (hexact : v.Exact s) : ∃ x ∈ v.domain s, v.valueAt x = v.lower s := by
  have hdomain := domain_valid hvalid v
  unfold lower
  rw [hexact.bounds_eq hvalid]
  split
  · exact ⟨_, hdomain.upper_mem, rfl⟩
  · exact ⟨_, hdomain.lower_mem, rfl⟩

theorem Exact.exists_upper {s : Store} (hvalid : s.Valid) {v : IntView}
    (hexact : v.Exact s) : ∃ x ∈ v.domain s, v.valueAt x = v.upper s := by
  have hdomain := domain_valid hvalid v
  unfold upper
  rw [hexact.bounds_eq hvalid]
  split
  · exact ⟨_, hdomain.lower_mem, rfl⟩
  · exact ⟨_, hdomain.upper_mem, rfl⟩

theorem Exact.fits32_lower {s : Store} (hvalid : s.Valid) {v : IntView}
    (hexact : v.Exact s) : Fits32 (v.lower s) := by
  obtain ⟨x, hx, heq⟩ := hexact.exists_lower hvalid
  exact heq ▸ hexact.fits32 hvalid hx

theorem Exact.fits32_upper {s : Store} (hvalid : s.Valid) {v : IntView}
    (hexact : v.Exact s) : Fits32 (v.upper s) := by
  obtain ⟨x, hx, heq⟩ := hexact.exists_upper hvalid
  exact heq ▸ hexact.fits32 hvalid hx

/-- An exact view has equal bounds only where its variable is fixed. -/
theorem Exact.isFixed_iff {s : Store} (hvalid : s.Valid) {v : IntView}
    (hexact : v.Exact s) : v.isFixed s = true ↔ v.lower s = v.upper s := by
  rw [isFixed_eq]
  have hdomain := domain_valid hvalid v
  constructor
  · intro hfixed
    obtain ⟨x, hx, hlower⟩ := hexact.exists_lower hvalid
    obtain ⟨y, hy, hupper⟩ := hexact.exists_upper hvalid
    rw [IntDomain.eq_lower_of_isFixed hfixed hx] at hlower
    rw [IntDomain.eq_lower_of_isFixed hfixed hy] at hupper
    exact hlower.symm.trans hupper
  · intro heq
    rw [IntDomain.isFixed_iff]
    refine hexact.valueAt_inj hdomain.lower_mem hdomain.upper_mem ?_
    have := hexact.lower_le hvalid hdomain.lower_mem
    have := hexact.le_upper hvalid hdomain.lower_mem
    have := hexact.lower_le hvalid hdomain.upper_mem
    have := hexact.le_upper hvalid hdomain.upper_mem
    omega

theorem Exact.values_eq {s : Store} (hvalid : s.Valid) {v : IntView}
    (hexact : v.Exact s) : v.values s = (v.domain s).values.map v.valueAt := by
  induction v with
  | var id => simp [values, valueAt]
  | const value =>
      have hspan : (IntDomain.interval 0 0).values = [0] := by decide
      simp [values, valueAt, domain, base?, hspan]
  | affine inner scale offset ih =>
      obtain ⟨hinner, hscale, hfits, hfits', himage⟩ := hexact
      have hdomain := domain_valid hvalid inner
      simp only [values, ih hinner, List.map_map, domain_affine]
      refine List.map_congr_left fun x hx => ?_
      rw [hdomain.mem_values] at hx
      exact image_eq hfits hfits' (hinner.fits32 hvalid hx) (himage x hx)
  | literal image ih => exact ih hexact

/-- The values of an exact view are the images of the values of its variable. -/
theorem Exact.mem_values {s : Store} (hvalid : s.Valid) {v : IntView}
    (hexact : v.Exact s) {value : Int} :
    value ∈ v.values s ↔ ∃ x ∈ v.domain s, v.valueAt x = value := by
  rw [hexact.values_eq hvalid, List.mem_map]
  simp only [(domain_valid hvalid v).mem_values]

end IntView

end ConstraintSpace
