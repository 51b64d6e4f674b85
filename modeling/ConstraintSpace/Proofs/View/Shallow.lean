import ConstraintSpace.Proofs.View.Idleness
import ConstraintSpace.Proofs.View.Valuation

/-!
# Views that saturate at the outermost level only

An affine view of a variable, a constant or a truth value may have any coefficients, but
below it nothing saturates.  Such a view strays at a value of its variable where the number
it reads is not its exact value there.  Removing a value takes out the places that have it
and do not stray.  A bound keeps the exact values within it, except where it slips: the
inner view takes the outermost 32-bit integer, and the number read falls short.
-/

namespace ConstraintSpace

namespace IntView

variable {s s' : Store} {v : IntView} {side : Side} {scale offset bound value u x : Int}

/-! ## One level -/

/-- A variable, a constant of 32 bits, or a truth value. -/
def Plain : IntView → Prop
  | var _ => True
  | const value => Fits32 value
  | affine _ _ _ => False
  | literal image => ∃ id, image = affine (var id) 1 0 ∨ image = affine (var id) (-1) 1

/-- A plain view or an affine view of one, with any 64-bit coefficients. -/
def OneLevel : IntView → Prop
  | affine inner scale offset => inner.Plain ∧ scale ≠ 0 ∧ Fits64 offset
  | v => v.Plain

/-- Nothing saturates below the outermost level. -/
def Shallow (s : Store) : IntView → Prop
  | affine inner scale offset => inner.Exact s ∧ scale ≠ 0 ∧ Fits64 offset
  | v => v.Exact s

theorem Plain.exact (hplain : v.Plain) (hvalid : s.Valid) : v.Exact s := by
  cases v with
  | var id => trivial
  | const value => exact hplain
  | affine inner scale offset => exact hplain.elim
  | literal image =>
      obtain ⟨id, hpolarity⟩ := hplain
      have hfits : ∀ x ∈ s.int id, Fits32 (1 * x + 0) ∧ Fits32 (-1 * x + 1) := by
        intro x hx
        have hwithin := within_of_limits (hvalid.limits id) hx
        unfold Limits.integerMin Limits.integerMax highest32 at hwithin
        unfold Fits32 lowest32 highest32
        omega
      rcases hpolarity with rfl | rfl
      · exact ⟨trivial, by decide, by decide, by decide, fun x hx => (hfits x hx).1⟩
      · exact ⟨trivial, by decide, by decide, by decide, fun x hx => (hfits x hx).2⟩

theorem OneLevel.shallow (hlevel : v.OneLevel) (hvalid : s.Valid) : v.Shallow s := by
  cases v with
  | affine inner scale offset => exact ⟨hlevel.1.exact hvalid, hlevel.2⟩
  | var id => exact Plain.exact hlevel hvalid
  | const value => exact Plain.exact hlevel hvalid
  | literal image => exact Plain.exact hlevel hvalid

theorem Shallow.exact_or_affine (hshallow : v.Shallow s) :
    v.Exact s ∨ ∃ inner scale offset, v = affine inner scale offset ∧ inner.Exact s ∧
      scale ≠ 0 ∧ Fits64 offset := by
  cases v with
  | affine inner scale offset => exact .inr ⟨inner, scale, offset, rfl, hshallow⟩
  | var id => exact .inl hshallow
  | const value => exact .inl hshallow
  | literal image => exact .inl hshallow

theorem Exact.formed (hexact : v.Exact s) : v.Formed := by
  induction v with
  | var id => trivial
  | const value => exact hexact
  | affine inner scale offset ih =>
      obtain ⟨hinner, hscale, -, hoffset, -⟩ := hexact
      refine ⟨ih hinner, hscale, ?_⟩
      unfold Fits32 lowest32 highest32 at hoffset
      unfold Fits64 lowest64 highest64
      omega
  | literal image ih => exact ih hexact

theorem Shallow.formed (hshallow : v.Shallow s) : v.Formed := by
  rcases hshallow.exact_or_affine with hexact | ⟨inner, scale, offset, rfl, hinner, hcoefficients⟩
  · exact hexact.formed
  · exact ⟨hinner.formed, hcoefficients⟩

theorem Exact.shallow (hexact : v.Exact s) : v.Shallow s := by
  cases v with
  | affine inner scale offset => exact ⟨hexact.1, hexact.formed.2⟩
  | var id => exact hexact
  | const value => exact hexact
  | literal image => exact hexact

theorem Shallow.refines (hshallow : v.Shallow s) (hrefines : s.Refines s')
    (hknown : v.known s = true) : v.Shallow s' := by
  rcases hshallow.exact_or_affine with hexact | ⟨inner, scale, offset, rfl, hinner, hcoefficients⟩
  · exact (hexact.refines hrefines hknown).shallow
  · exact ⟨hinner.refines hrefines hknown, hcoefficients⟩

/-! ## Straying -/

/-- The number read is not the exact value. -/
def Strays (v : IntView) (x : Int) : Prop := v.reading x ≠ v.valueAt x

instance (v : IntView) (x : Int) : Decidable (v.Strays x) :=
  inferInstanceAs (Decidable (v.reading x ≠ v.valueAt x))

theorem Exact.reading_eq (hvalid : s.Valid) (hexact : v.Exact s) (hx : x ∈ v.domain s) :
    v.reading x = v.valueAt x := by
  induction v with
  | var id => rfl
  | const value => rfl
  | affine inner scale offset ih =>
      obtain ⟨hinner, hscale, hfits, hoffset, himage⟩ := hexact
      rw [reading, ih hinner hx, valueAt]
      exact image_eq hfits hoffset (hinner.fits32 hvalid hx) (himage x hx)
  | literal image ih => exact ih hexact hx

/-- The image is exact where the product has 64 bits and the sum has 32. -/
theorem image_eq_iff (hoffset : Fits64 offset) (hvalue : Fits32 (scale * u + offset)) :
    image scale offset u = scale * u + offset ↔ Fits64 (scale * u) := by
  simp only [image, clamp64_eq, clamp32_eq]
  generalize scale * u = product at hvalue ⊢
  unfold Fits32 lowest32 highest32 at hvalue
  unfold Fits64 at *
  simp only [lowest64, highest64, lowest32, highest32] at *
  omega

theorem Exact.source?_iff (hvalid : s.Valid) (hexact : v.Exact s) (hknown : v.known s = true)
    (hx : x ∈ v.domain s) : v.source? value = some (v.bottom x) ↔ v.valueAt x = value :=
  (restricts_fix_source hvalid hknown value).keep_iff
    (hexact.restricts_fix hvalid hknown value) hx

/-- A value names the places that have it and do not stray. -/
theorem Shallow.source?_iff (hvalid : s.Valid) (hshallow : v.Shallow s)
    (hknown : v.known s = true) (hx : x ∈ v.domain s) (hvalue : Fits32 value) :
    v.source? value = some (v.bottom x) ↔ v.valueAt x = value ∧ ¬v.Strays x := by
  rcases hshallow.exact_or_affine with
    hexact | ⟨inner, scale, offset, rfl, hinner, hscale, hoffset⟩
  · rw [hexact.source?_iff hvalid hknown hx, Strays, not_not,
      and_iff_left (hexact.reading_eq hvalid hx)]
  · have hpoint := hinner.fits32 hvalid hx
    have hnamed : (affine inner scale offset).source? value =
        some ((affine inner scale offset).bottom x) ↔
          preimage? scale offset value = some (inner.valueAt x) := by
      simp only [source?, bottom, Option.bind_eq_some_iff]
      constructor
      · rintro ⟨y, hpreimage, hsource⟩
        rw [hinner.source?_iff hvalid hknown hx] at hsource
        rw [hpreimage, hsource]
      · intro hpreimage
        exact ⟨_, hpreimage, (hinner.source?_iff hvalid hknown hx).mpr rfl⟩
    rw [hnamed, preimage?_eq_some_iff_fits64 value hscale hpoint, Strays, not_not, reading,
      hinner.reading_eq hvalid hx, valueAt]
    refine and_congr_right fun heq => ?_
    exact (image_eq_iff hoffset (heq ▸ hvalue)).symm

/-! ## Slipping -/

/-- The value of the inner view is one that any bound lets stand, and the number that is read
falls short of the exact value. -/
def Slips : IntView → Side → Int → Prop
  | affine inner scale offset, side, x =>
      inner.Lax (side.through scale) x ∧
        ¬side.Keeps ((affine inner scale offset).reading x) ((affine inner scale offset).valueAt x)
  | _, _, _ => False

theorem Exact.not_slips (hvalid : s.Valid) (hexact : v.Exact s) (hx : x ∈ v.domain s) :
    ¬v.Slips side x := by
  cases v with
  | affine inner scale offset =>
      intro hslips
      have hread := hexact.reading_eq hvalid hx
      rw [Slips, hread] at hslips
      exact hslips.2 (Side.Keeps.refl _)
  | var _ => exact not_false
  | const value => exact not_false
  | literal image => exact not_false

/-- Views of variables do not slip. -/
theorem not_slips_var (hvalid : s.Valid) {id : Nat} (hx : x ∈ s.int id) :
    ¬(affine (.var id) scale offset).Slips side x := fun hslips =>
  ne_furthest_of_limits (hvalid.limits id) hx (side.through scale) hslips.1

theorem lets_of_setBound {change : Change} (hvalid : s.Valid) (hknown : v.known s = true)
    (hrun : v.setBound side bound s = .ok change s') (hx : x ∈ v.domain s') :
    x ∈ v.domain s ∧ v.Lets side bound x := by
  rcases restricts_setBound_or_breached hvalid hknown side bound with hbreach | hrestricts
  · simp [hrun] at hbreach
  · exact (hrestricts.mem_of_ok hrun x).mp hx

theorem Exact.lets_iff (hvalid : s.Valid) (hexact : v.Exact s) (hknown : v.known s = true)
    (hbound : Fits32 bound) (hx : x ∈ v.domain s) :
    v.Lets side bound x ↔ side.Keeps bound (v.valueAt x) ∨ v.Lax side x := by
  have hrestricts := hexact.restricts_setBound hvalid hknown side hbound
  rcases restricts_setBound_or_breached hvalid hknown side bound with hbreach | hlets
  · -- an exact view is refused only where its domain would be empty
    rcases hrestricts with ⟨hrun, -⟩ | ⟨_, _, hrun, -⟩
    · simp [hrun] at hbreach
    · simp [hrun] at hbreach
  · exact hlets.keep_iff hrestricts hx

/-- After a bound was set, no number is read short unless the view slips there. -/
theorem Shallow.keeps_reading {change : Change} (hvalid : s.Valid) (hshallow : v.Shallow s)
    (hknown : v.known s = true) (hbound : Fits32 bound)
    (hrun : v.setBound side bound s = .ok change s') (hx : x ∈ v.domain s') :
    side.Keeps (v.reading x) (v.valueAt x) ∨ v.Slips side x := by
  have hkept := lets_of_setBound hvalid hknown hrun hx
  rcases hshallow.exact_or_affine with
    hexact | ⟨inner, scale, offset, rfl, hinner, hscale, hoffset⟩
  · left
    rw [hexact.reading_eq hvalid hkept.1]
    exact Side.Keeps.refl _
  · obtain ⟨hmem, y, hpreimage, hlets⟩ := hkept
    have hpoint := hinner.fits32 hvalid hmem
    rw [or_iff_not_imp_left]
    refine fun hshort => ⟨?_, hshort⟩
    by_contra hlax
    have hkeeps := ((hinner.lets_iff hvalid hknown (fits32_of_preimage hpreimage) hmem).mp
      hlets).resolve_right hlax
    have hproduct := ((preimage_keeps_product side hscale hpoint hpreimage).mp
      hkeeps).resolve_right fun hend => hlax (lax_of_valueAt_eq hend)
    rw [reading, hinner.reading_eq hvalid hmem, valueAt] at hshort
    exact hshort (image_keeps_of_product hoffset hbound hproduct)

end IntView

end ConstraintSpace
