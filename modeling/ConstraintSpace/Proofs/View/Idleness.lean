import ConstraintSpace.Proofs.View.Affine

/-!
# Bounds that improve nothing

A bound that the reading of a view already keeps to should change nothing.  It does so
where no level of the view clips the bound that it reads: there the number it reads does
not fall short of the exact image.  Where a level clips its bound, the reading saturates
and the narrowing does not, and the bound that was read takes values away.  Over a variable
this is the only way to fail, apart from the one division that leaves the 64-bit integers.
-/

namespace ConstraintSpace

namespace IntView

variable {s : Store} {v : IntView} {side : Side} {scale offset bound u : Int}

/-! ## Views of 64-bit coefficients -/

/-- No scale is zero, constants have 32 bits and offsets have 64 bits. -/
def Formed : IntView → Prop
  | var _ => True
  | const value => Fits32 value
  | affine inner scale offset => inner.Formed ∧ scale ≠ 0 ∧ Fits64 offset
  | literal image => image.Formed

theorem Formed.nest {w : IntView} (hformed : v.Formed) (hoffset : Fits64 offset)
    (hnest : v.nest scale offset = .ok w) : w.Formed := by
  unfold IntView.nest at hnest
  split at hnest
  next => cases hnest
  next hscale =>
    obtain rfl := Except.ok.inj hnest
    exact ⟨hformed, hscale, hoffset⟩

/-- Multiples of formed views are formed, however far their coefficients saturate. -/
theorem Formed.scaled {factor : Int} {w : IntView} (hformed : v.Formed)
    (hscaled : v.scaled factor = .ok w) : w.Formed := by
  have hzero : Fits64 0 := by decide
  cases v with
  | var id => exact Formed.nest hformed hzero hscaled
  | literal image => exact Formed.nest hformed hzero hscaled
  | const value =>
      simp only [IntView.scaled] at hscaled
      split at hscaled
      next => cases hscaled
      next =>
        split at hscaled
        next hfits =>
          obtain rfl := Except.ok.inj hscaled
          exact hfits
        next => cases hscaled
  | affine inner scale offset =>
      simp only [IntView.scaled] at hscaled
      split at hscaled
      next => cases hscaled
      next hfactor =>
        obtain rfl := Except.ok.inj hscaled
        exact ⟨hformed.1, clamp64_ne_zero (mul_ne_zero hformed.2.1 hfactor),
          fits64_clamp64 _⟩

theorem Formed.plus {shift : Int} (hformed : v.Formed) (hshift : Fits64 shift) :
    (v.plus shift).Formed := by
  cases v with
  | var id => exact ⟨hformed, one_ne_zero, hshift⟩
  | literal image => exact ⟨hformed, one_ne_zero, hshift⟩
  | const value => exact fits32_clamp32 _
  | affine inner scale offset => exact ⟨hformed.1, hformed.2.1, fits64_clamp64 _⟩

theorem Formed.fits32_bound (hformed : v.Formed) (hvalid : s.Valid) :
    Fits32 (v.bound s side) := by
  induction v generalizing side with
  | var id =>
      exact fits32_of_inLimits (hvalid.limits id) (bound_var_mem hvalid id side)
  | const value => cases side <;> exact hformed
  | affine inner scale offset _ =>
      rw [bound_affine]
      exact fits32_image scale offset _
  | literal image ih =>
      have himage : Fits32 (image.bound s side) := ih hformed
      cases side <;> exact himage

/-! ## Bounds that are read unclipped -/

/-- At no level does the bound that is read fall short of the exact image, and no bound of
32 bits is divided out of the 64-bit integers. -/
def Unclipped (s : Store) : IntView → Side → Prop
  | var _, _ => True
  | const _, _ => True
  | affine inner scale offset, side =>
      side.Keeps (image scale offset (inner.bound s (side.through scale)))
          (scale * inner.bound s (side.through scale) + offset) ∧
        (scale = -1 → lowest64 < lowest32 - offset) ∧ inner.Unclipped s (side.through scale)
  | literal image, side => image.Unclipped s side

/-- Every bound that the reading already keeps to changes nothing and reports nothing. -/
def Idle (s : Store) (v : IntView) (side : Side) : Prop :=
  ∀ bound, Fits32 bound → side.Keeps bound (v.bound s side) →
    v.setBound side bound s = .ok .none s

/-- What a bound of 32 bits keeps, shifted back to the product, is not read short. -/
theorem image_keeps_of_product (hoffset : Fits64 offset) (hbound : Fits32 bound)
    (hproduct : side.Keeps (clamp64 (bound - offset)) (scale * u)) :
    side.Keeps (image scale offset u) (scale * u + offset) := by
  simp only [image, clamp64_eq, clamp32_eq] at *
  generalize scale * u = product at hproduct ⊢
  unfold Fits64 at hoffset
  unfold Fits32 at hbound
  cases side with
  | lower =>
      simp only [Side.Keeps, lowest64, highest64, lowest32, highest32] at *
      omega
  | upper =>
      simp only [Side.Keeps, lowest64, highest64, lowest32, highest32] at *
      omega

/-- What is not read short is kept by the number that is read. -/
theorem product_keeps_of_image (hoffset : Fits64 offset)
    (hshort : side.Keeps (image scale offset u) (scale * u + offset)) :
    side.Keeps (clamp64 (image scale offset u - offset)) (scale * u) := by
  simp only [image, clamp64_eq, clamp32_eq] at *
  generalize scale * u = product at hshort ⊢
  unfold Fits64 at hoffset
  cases side with
  | lower =>
      simp only [Side.Keeps, lowest64, highest64, lowest32, highest32] at *
      omega
  | upper =>
      simp only [Side.Keeps, lowest64, highest64, lowest32, highest32] at *
      omega

theorem shift_keeps {x : Int} (offset : Int) (hkeeps : side.Keeps bound x) :
    side.Keeps (clamp64 (bound - offset)) (clamp64 (x - offset)) := by
  cases side with
  | lower => exact clamp64_mono (sub_le_sub_right hkeeps offset)
  | upper => exact clamp64_mono (sub_le_sub_right hkeeps offset)

theorem Unclipped.idle (hvalid : s.Valid) (hformed : v.Formed) (hknown : v.known s = true)
    (hunclipped : v.Unclipped s side) : v.Idle s side := by
  induction v generalizing side with
  | var id =>
      intro bound _ hkeeps
      have hrestricts := restricts_setBound_var hvalid (known_var.mp hknown) side bound
      rw [hrestricts.idle_iff (single_setBound _ side bound) hvalid]
      exact fun x hx => hkeeps.trans (keeps_bound_reading hx side)
  | const value =>
      intro bound _ hkeeps
      cases side with
      | lower =>
          have hge : ¬value < bound := not_lt.mpr hkeeps
          simp only [setBound, hge, if_false]
          rfl
      | upper =>
          have hle : ¬bound < value := not_lt.mpr hkeeps
          simp only [setBound, hle, if_false]
          rfl
  | affine inner scale offset ih =>
      intro bound hbound hkeeps
      obtain ⟨hinner, hscale, hoffset⟩ := hformed
      obtain ⟨hshort, hdivides, hunclipped⟩ := hunclipped
      rw [bound_affine] at hkeeps
      have hguard : scale = -1 → clamp64 (bound - offset) ≠ lowest64 := by
        intro hscale
        have hlowest := hdivides hscale
        rw [clamp64_eq]
        unfold Fits32 lowest32 at *
        unfold lowest64 highest64 at *
        omega
      obtain ⟨y, hpreimage⟩ := exists_preimage (side.through scale) hguard
      -- the bound that arrives is kept by the bound of the inner view
      have harrives : (side.through scale).Keeps y (inner.bound s (side.through scale)) := by
        rw [preimage_keeps_product side hscale (hinner.fits32_bound hvalid) hpreimage]
        exact .inl ((shift_keeps offset hkeeps).trans (product_keeps_of_image hoffset hshort))
      rw [setBound_affine, hpreimage]
      exact ih hinner hknown hunclipped y (fits32_of_preimage hpreimage) harrives
  | literal image ih =>
      intro bound hbound hkeeps
      refine ih hformed hknown hunclipped bound hbound ?_
      cases side <;> exact hkeeps

/-- An exact view reads every bound as it is. -/
theorem Exact.unclipped (hvalid : s.Valid) (hexact : v.Exact s) (side : Side) :
    v.Unclipped s side := by
  induction v generalizing side with
  | var id => trivial
  | const value => trivial
  | affine inner scale offset ih =>
      obtain ⟨hinner, hscale, hfits, hoffset, himage⟩ := hexact
      have hattained : ∃ x ∈ inner.domain s,
          inner.valueAt x = inner.bound s (side.through scale) := by
        cases side.through scale with
        | lower => exact hinner.exists_lower hvalid
        | upper => exact hinner.exists_upper hvalid
      obtain ⟨x, hx, hvalue⟩ := hattained
      have hread := image_eq hfits hoffset (hinner.fits32 hvalid hx) (himage x hx)
      rw [hvalue] at hread
      refine ⟨?_, fun _ => ?_, ih hinner (side.through scale)⟩
      · rw [hread]
        exact Side.Keeps.refl _
      · unfold Fits32 lowest32 highest32 at hoffset
        unfold lowest64 lowest32
        omega
  | literal image ih => exact ih hexact side

/-! ## Views of a variable -/

theorem exists_preimage_of_idle (hvalid : s.Valid) {id : Nat} (hid : id < s.ints.size)
    (hidle : (affine (.var id) scale offset).setBound side bound s = .ok .none s) :
    ∃ y, preimage (side.through scale) scale offset bound = some y ∧
      ∀ x ∈ s.int id, (side.through scale).Keeps y x := by
  rw [setBound_affine] at hidle
  cases hpreimage : preimage (side.through scale) scale offset bound with
  | none =>
      rw [hpreimage] at hidle
      cases hidle
  | some y =>
      rw [hpreimage] at hidle
      have hrestricts := restricts_setBound_var hvalid hid (side.through scale) y
      exact ⟨y, rfl, (hrestricts.idle_iff (single_setBound _ _ y) hvalid).mp hidle⟩

theorem idle_iff_unclipped (hvalid : s.Valid) {id : Nat} (hid : id < s.ints.size)
    (hscale : scale ≠ 0) (hoffset : Fits64 offset) :
    (affine (.var id) scale offset).Idle s side ↔
      (affine (.var id) scale offset).Unclipped s side := by
  have hformed : (affine (.var id) scale offset).Formed := ⟨trivial, hscale, hoffset⟩
  have hknown : (affine (.var id) scale offset).known s = true := known_var.mpr hid
  refine ⟨fun hidle => ?_, fun hunclipped => hunclipped.idle hvalid hformed hknown⟩
  have hread := bound_affine s (.var id) scale offset side
  have hmem := bound_var_mem hvalid id (side.through scale)
  have hfits := fits32_of_inLimits (hvalid.limits id) hmem
  have hshort : side.Keeps (image scale offset ((var id).bound s (side.through scale)))
      (scale * (var id).bound s (side.through scale) + offset) := by
    -- the bound that is read is the tightest that should do nothing
    have hkept := hidle _ (fits32_image scale offset _) (by rw [hread]; exact Side.Keeps.refl _)
    obtain ⟨y, hpreimage, hkeeps⟩ := exists_preimage_of_idle hvalid hid hkept
    have hproduct := (preimage_keeps_product side hscale hfits hpreimage).mp (hkeeps _ hmem)
    rw [or_iff_left (ne_furthest_of_limits (hvalid.limits id) hmem _)] at hproduct
    exact image_keeps_of_product hoffset (fits32_image scale offset _) hproduct
  refine ⟨hshort, ?_, trivial⟩
  rintro rfl
  by_contra hdivides
  cases side with
  | lower =>
      have hkept := hidle lowest32 (by decide) (hread ▸ (fits32_image _ _ _).1)
      obtain ⟨y, hpreimage, -⟩ := exists_preimage_of_idle hvalid hid hkept
      have hlowest : clamp64 (lowest32 - offset) = lowest64 := by
        rw [clamp64_eq]
        unfold lowest64 highest64 lowest32 at *
        omega
      simp [preimage, hlowest] at hpreimage
  | upper =>
      have hthrough : Side.through (-1) .upper = .lower := rfl
      rw [hthrough] at hshort hfits
      -- the image that is read fits, so the offset is far from the 64-bit limits
      have himage := (Side.Keeps.trans (fits32_image _ _ _).2 hshort : Side.upper.Keeps _ _)
      unfold Side.Keeps Fits32 lowest32 highest32 at *
      unfold lowest64 at hdivides
      omega

/-- Whatever store narrowings can find, a bound that the reading of a view keeps to does
nothing where no level clips the bound it reads.  This holds of every exact view, and a view
of a variable does nothing on such bounds only there. -/
theorem nonimproving_bounds_idle (harises : Space.Arises s) (side : Side) :
    (∀ v : IntView, v.Formed → v.known s = true → v.Unclipped s side → v.Idle s side) ∧
      (∀ v : IntView, v.Exact s → v.Unclipped s side) ∧
        ∀ (id : Nat) (scale offset : Int), id < s.ints.size → scale ≠ 0 → Fits64 offset →
          ((affine (.var id) scale offset).Idle s side ↔
            (affine (.var id) scale offset).Unclipped s side) := by
  have hvalid := harises.valid
  refine ⟨fun v hformed hknown hunclipped => ?_, fun v hexact => ?_,
    fun id scale offset hid hscale hoffset => ?_⟩
  · exact hunclipped.idle hvalid hformed hknown
  · exact hexact.unclipped hvalid side
  · exact idle_iff_unclipped hvalid hid hscale hoffset

/-- Twice a variable of all values from 0 on: the lower bound that is read does nothing, and
the upper bound takes values away. -/
theorem doubled_view_idle_below :
    ∃ s, Space.performAll [.newInt 0 2147483646] Space.new = some s ∧
      (affine (.var 0) 2 0).Idle s.store .lower ∧ ¬(affine (.var 0) 2 0).Idle s.store .upper := by
  have hrun : (Space.performAll [.newInt 0 2147483646] Space.new).map
      (fun s => (s.store.int 0, s.store.ints.size)) = some (.interval 0 2147483646, 1) := by
    decide +kernel
  obtain ⟨s, hperform, hstore⟩ := Option.map_eq_some_iff.mp hrun
  obtain ⟨hdomain, hsize⟩ := Prod.mk.inj hstore
  have harises : Space.Arises s.store := .reached (Space.reaches_of_performAll hperform)
  have hid : 0 < s.store.ints.size := by rw [hsize]; exact Nat.zero_lt_one
  have hlower := (nonimproving_bounds_idle harises .lower).2.2 0 2 0 hid (by decide) (by decide)
  have hupper := (nonimproving_bounds_idle harises .upper).2.2 0 2 0 hid (by decide) (by decide)
  refine ⟨s, hperform, hlower.mpr ?_, fun hidle => ?_⟩
  · have hbound : (var 0).bound s.store (Side.through 2 .lower) = 0 :=
      congrArg IntDomain.lower hdomain
    simp only [Unclipped, hbound]
    decide
  · have hbound : (var 0).bound s.store (Side.through 2 .upper) = 2147483646 :=
      congrArg IntDomain.upper hdomain
    have hshort := (hupper.mp hidle).1
    rw [hbound] at hshort
    revert hshort
    decide

end IntView

end ConstraintSpace
