import ConstraintSpace.Proofs.View.Exact
import ConstraintSpace.Proofs.View.Safety

/-!
# Narrowing through exact views

An exact view narrows its variable to the values whose images satisfy the
condition: a value to avoid, a value to take, or a bound.  The division that
carries a bound to the inner view rounds toward the values that are kept, and
its result is clamped to 32 bits.  So a bound is missed in one case: where an
inner view takes the outermost 32-bit integer, the clamped bound keeps it
whatever the bound was.  Such a value of the variable is called lax.
-/

namespace ConstraintSpace

/-- The condition of a bound. -/
def Side.Keeps : Side → Int → Int → Prop
  | .lower, bound, x => bound ≤ x
  | .upper, bound, x => x ≤ bound

instance (side : Side) (bound x : Int) : Decidable (side.Keeps bound x) :=
  match side with
  | .lower => inferInstanceAs (Decidable (bound ≤ x))
  | .upper => inferInstanceAs (Decidable (x ≤ bound))

theorem Side.Keeps.refl {side : Side} (x : Int) : side.Keeps x x := by
  cases side with
  | lower => exact le_refl x
  | upper => exact le_refl x

theorem Side.Keeps.trans {side : Side} {x y z : Int} (hfirst : side.Keeps x y)
    (hsecond : side.Keeps y z) : side.Keeps x z := by
  cases side with
  | lower => exact le_trans hfirst hsecond
  | upper => exact le_trans hsecond hfirst

theorem ceilDiv_le_iff_of_pos {a b x : Int} (hb : 0 < b) :
    ceilDiv a b ≤ x ↔ a ≤ b * x := by
  unfold ceilDiv
  rw [Int.fdiv_eq_ediv_of_nonneg _ hb.le, neg_le, Int.le_ediv_iff_mul_le hb]
  rw [neg_mul, neg_le_neg_iff, mul_comm]

theorem le_floorDiv_iff_of_pos {a b x : Int} (hb : 0 < b) :
    x ≤ floorDiv a b ↔ b * x ≤ a := by
  unfold floorDiv
  rw [Int.fdiv_eq_ediv_of_nonneg _ hb.le, Int.le_ediv_iff_mul_le hb, mul_comm]

theorem floorDiv_neg_neg (a b : Int) : floorDiv (-a) (-b) = floorDiv a b := by
  unfold floorDiv
  simp

theorem ceilDiv_le_iff_of_neg {a b x : Int} (hb : b < 0) :
    ceilDiv a b ≤ x ↔ b * x ≤ a := by
  have hneg : ceilDiv a b = ceilDiv (-a) (-b) := by
    have hfloor := floorDiv_neg_neg (-a) b
    unfold floorDiv at hfloor
    unfold ceilDiv
    rw [hfloor]
  rw [hneg, ceilDiv_le_iff_of_pos (by omega), neg_mul, neg_le_neg_iff]

theorem le_floorDiv_iff_of_neg {a b x : Int} (hb : b < 0) :
    x ≤ floorDiv a b ↔ a ≤ b * x := by
  rw [← floorDiv_neg_neg, le_floorDiv_iff_of_pos (by omega), neg_mul,
    neg_le_neg_iff]

/-- The 32-bit integer that keeps to every bound. -/
def Side.furthest : Side → Int
  | .lower => highest32
  | .upper => lowest32

/-- The bound of an inner view that a bound of an affine view moves. -/
def Side.through (scale : Int) (side : Side) : Side :=
  if scale < 0 then side.opposite else side

theorem Side.keeps_furthest {side : Side} {bound : Int} (hbound : Fits32 bound) :
    side.Keeps bound side.furthest := by
  cases side with
  | lower => exact hbound.2
  | upper => exact hbound.1

theorem Side.keeps_sub {side : Side} {bound offset x : Int} :
    side.Keeps (bound - offset) x ↔ side.Keeps bound (x + offset) := by
  cases side with
  | lower => exact sub_le_iff_le_add
  | upper => exact le_sub_iff_add_le

theorem Side.keeps_clamp32 {side : Side} {bound x : Int} (hx : Fits32 x) :
    side.Keeps (clamp32 bound) x ↔ side.Keeps bound x ∨ x = side.furthest := by
  unfold Fits32 lowest32 highest32 at hx
  unfold clamp32
  cases side <;> simp only [Keeps, furthest, lowest32, highest32] <;>
    split_ifs <;> omega

namespace IntView

/-! ## Preimages -/

/-- The preimage of a bound keeps the values whose product keeps to the shifted bound, and
the outermost value whatever the bound is. -/
theorem preimage_keeps_product (side : Side) {scale offset bound p y : Int}
    (hscale : scale ≠ 0) (hy : Fits32 y)
    (hpreimage : preimage (side.through scale) scale offset bound = some p) :
    (side.through scale).Keeps p y ↔
      side.Keeps (clamp64 (bound - offset)) (scale * y) ∨
        y = (side.through scale).furthest := by
  unfold preimage at hpreimage
  simp only at hpreimage
  split at hpreimage
  next => simp at hpreimage
  next =>
    -- the quotient is rounded toward the values kept, so only its clamping matters
    rcases lt_or_gt_of_ne hscale with hneg | hpos
    · simp only [Side.through, hneg, if_true] at hpreimage ⊢
      cases side with
      | lower =>
          simp only [Side.opposite, Option.some.injEq] at hpreimage ⊢
          rw [← hpreimage, Side.keeps_clamp32 hy]
          exact or_congr_left (le_floorDiv_iff_of_neg hneg)
      | upper =>
          simp only [Side.opposite, Option.some.injEq] at hpreimage ⊢
          rw [← hpreimage, Side.keeps_clamp32 hy]
          exact or_congr_left (ceilDiv_le_iff_of_neg hneg)
    · simp only [Side.through, not_lt.mpr hpos.le, if_false] at hpreimage ⊢
      cases side with
      | lower =>
          simp only [Option.some.injEq] at hpreimage
          rw [← hpreimage, Side.keeps_clamp32 hy]
          exact or_congr_left (ceilDiv_le_iff_of_pos hpos)
      | upper =>
          simp only [Option.some.injEq] at hpreimage
          rw [← hpreimage, Side.keeps_clamp32 hy]
          exact or_congr_left (le_floorDiv_iff_of_pos hpos)

/-- A bound has a preimage unless its shift by the offset is the one dividend that the
quotient by -1 cannot take. -/
theorem exists_preimage (side : Side) {scale offset bound : Int}
    (hguard : scale = -1 → clamp64 (bound - offset) ≠ lowest64) :
    ∃ p, preimage side scale offset bound = some p := by
  have hdivides : ¬(scale = -1 ∧ clamp64 (bound - offset) = lowest64) :=
    fun h => hguard h.1 h.2
  unfold preimage
  simp only [hdivides, if_false]
  cases side with
  | lower => exact ⟨_, rfl⟩
  | upper => exact ⟨_, rfl⟩

theorem fits32_of_preimage {side : Side} {scale offset bound p : Int}
    (hpreimage : preimage side scale offset bound = some p) : Fits32 p := by
  simp only [preimage] at hpreimage
  split at hpreimage
  next => cases hpreimage
  next =>
    cases side with
    | lower =>
        obtain rfl := Option.some.inj hpreimage
        exact fits32_clamp32 _
    | upper =>
        obtain rfl := Option.some.inj hpreimage
        exact fits32_clamp32 _

theorem fits32_of_preimage? {scale offset value y : Int}
    (hpreimage : preimage? scale offset value = some y) : Fits32 y := by
  simp only [preimage?] at hpreimage
  split at hpreimage
  · cases hpreimage
  · split at hpreimage
    next hexact =>
      obtain rfl := Option.some.inj hpreimage
      exact hexact.2
    next => cases hpreimage

/-- The preimage of a bound keeps the values whose image keeps to it, and the
outermost value whatever the bound is. -/
theorem preimage_keeps (side : Side) {scale offset value : Int}
    (hscale : scale ≠ 0) (hoffset : Fits32 offset) (hvalue : Fits32 value) :
    ∃ bound, Fits32 bound ∧
      preimage (side.through scale) scale offset value = some bound ∧
      ∀ y, Fits32 y →
        ((side.through scale).Keeps bound y ↔
          side.Keeps value (scale * y + offset) ∨
            y = (side.through scale).furthest) := by
  have hfits : Fits64 (value - offset) ∧ value - offset ≠ lowest64 := by
    unfold Fits32 lowest32 highest32 at *
    unfold Fits64 lowest64 highest64
    omega
  have hshift := clamp64_of_fits hfits.1
  have hguard : scale = -1 → clamp64 (value - offset) ≠ lowest64 := by
    intro _
    rw [hshift]
    exact hfits.2
  obtain ⟨bound, hpreimage⟩ := exists_preimage (side.through scale) hguard
  refine ⟨bound, fits32_of_preimage hpreimage, hpreimage, fun y hy => ?_⟩
  rw [preimage_keeps_product side hscale hy hpreimage, hshift, Side.keeps_sub]

/-- The exact preimage is the one value with that image whose product has 64 bits. -/
theorem preimage?_eq_some_iff_fits64 (value : Int) {scale offset y : Int}
    (hscale : scale ≠ 0) (hy : Fits32 y) :
    preimage? scale offset value = some y ↔
      scale * y + offset = value ∧ Fits64 (scale * y) := by
  unfold preimage?
  simp only
  split
  next hguard =>
    refine iff_of_false (by simp) ?_
    rintro ⟨heq, hfits⟩
    have hmul : scale * y = value - offset := by omega
    rw [← hmul] at hguard
    obtain hout | ⟨rfl, hlowest⟩ := hguard
    · exact hout hfits
    · -- the quotient would be beyond the 32-bit integers
      unfold Fits32 lowest32 highest32 at hy
      unfold lowest64 at hlowest
      omega
  next hguard =>
    have hfits : Fits64 (value - offset) := by
      by_contra hout
      exact hguard (Or.inl hout)
    constructor
    · intro hsome
      split at hsome
      next hinner =>
        obtain ⟨hmul, -⟩ := hinner
        rw [Option.some.inj hsome, mul_comm] at hmul
        exact ⟨by omega, hmul ▸ hfits⟩
      next => simp at hsome
    · rintro ⟨heq, -⟩
      have hmul : scale * y = value - offset := by omega
      have hdiv : Int.tdiv (value - offset) scale = y := by
        rw [← hmul, Int.mul_tdiv_cancel_left _ hscale]
      rw [hdiv, if_pos ⟨by rw [mul_comm]; exact hmul, hy⟩]

theorem preimage?_eq_some_iff (value : Int) {scale offset y : Int}
    (hscale : scale ≠ 0) (hoffset : Fits32 offset)
    (hy : Fits32 y) (himage : Fits32 (scale * y + offset)) :
    preimage? scale offset value = some y ↔ scale * y + offset = value := by
  rw [preimage?_eq_some_iff_fits64 value hscale hy]
  refine and_iff_left_of_imp fun _ => ?_
  unfold Fits32 lowest32 highest32 at hoffset himage
  unfold Fits64 lowest64 highest64
  omega

/-! ## Lax values -/

/-- A view is lax at a value of its variable where one of its levels takes the
32-bit integer that keeps to every bound on that side. -/
def Lax : IntView → Side → Int → Prop
  | var _, side, x => x = side.furthest
  | const value, side, _ => value = side.furthest
  | affine inner scale offset, side, x =>
      scale * inner.valueAt x + offset = side.furthest ∨
        inner.Lax (side.through scale) x
  | literal image, side, x => image.Lax side x

theorem lax_of_valueAt_eq {v : IntView} {side : Side} {x : Int}
    (hend : v.valueAt x = side.furthest) : v.Lax side x := by
  induction v with
  | var id => exact hend
  | const value => exact hend
  | affine inner scale offset _ => exact Or.inl hend
  | literal image ih => exact ih hend

theorem keeps_affine {side : Side} {scale offset x y : Int} (hscale : scale ≠ 0) :
    side.Keeps (scale * x + offset) (scale * y + offset) ↔
      (side.through scale).Keeps x y := by
  rcases lt_or_gt_of_ne hscale with hneg | hpos
  · cases side <;> simp only [Side.through, hneg, if_true, Side.opposite, Side.Keeps,
      Int.add_le_add_iff_right, mul_le_mul_left_of_neg hneg]
  · cases side <;> simp only [Side.through, not_lt.mpr hpos.le, if_false, Side.Keeps,
      Int.add_le_add_iff_right, mul_le_mul_iff_right₀ hpos]

/-- A lax value is the last one on its side: all others have images within. -/
theorem Exact.keeps_of_lax {s : Store} (hvalid : s.Valid) {v : IntView}
    (hexact : v.Exact s) {side : Side} {x y : Int} (hlax : v.Lax side x)
    (hy : y ∈ v.domain s) : side.Keeps (v.valueAt y) (v.valueAt x) := by
  induction v generalizing side with
  | var id =>
      have hfits := hexact.fits32 hvalid hy
      obtain rfl : x = side.furthest := hlax
      exact Side.keeps_furthest hfits
  | const value =>
      cases side <;> exact le_refl _
  | affine inner scale offset ih =>
      obtain ⟨hinner, hscale, _, _, himage⟩ := hexact
      rcases hlax with hend | hlax
      · simp only [valueAt, hend]
        exact Side.keeps_furthest (himage y hy)
      · exact (keeps_affine hscale).mpr (ih hinner hlax hy)
  | literal image ih => exact ih hexact hlax hy

/-! ## Restrictions -/

/-- The computation narrows the variable of the view to the values that satisfy
`keep` and touches nothing else, or is refused where there is none. -/
def Restricts (v : IntView) (m : Narrow Change) (keep : Int → Prop)
    (s : Store) : Prop :=
  (m s = .error .emptied s ∧ ∀ x ∈ v.domain s, ¬keep x) ∨
    ∃ change s', m s = .ok change s' ∧ s'.sets = s.sets ∧
      (∀ id, v.base? ≠ some id → s'.int id = s.int id) ∧
      ∀ x, x ∈ v.domain s' ↔ x ∈ v.domain s ∧ keep x

theorem restricts_var {op : IntDomain → Option (IntDomain × EventSet)}
    {keep : Int → Prop} (hop : IntDomain.Restricts op keep) {s : Store}
    (hvalid : s.Valid) {id : Nat} (hid : id < s.ints.size) :
    (var id).Restricts (Store.narrowInt id op) keep s := by
  rcases Store.narrowInt_cases hop hvalid hid with ⟨hrun, hempty⟩ | ⟨d, hrun, hd, hmem⟩
  · exact Or.inl ⟨hrun, hempty⟩
  · refine Or.inr ⟨_, _, hrun, rfl, fun other hother => ?_, fun x => ?_⟩
    · have hne : other ≠ id := fun heq => hother (by rw [heq]; rfl)
      rw [Store.int_changeInt hid, if_neg hne]
    · rw [domain_var, Store.int_changeInt hid, if_pos rfl]
      exact hmem x

theorem restricts_const_pure {s : Store} {value : Int} {keep : Int → Prop}
    (change : Change) (hkeep : ∀ x, keep x) :
    (const value).Restricts (pure change) keep s :=
  Or.inr ⟨change, s, rfl, rfl, fun _ _ => rfl,
    fun x => ⟨fun hx => ⟨hx, hkeep x⟩, And.left⟩⟩

theorem restricts_const_throw {s : Store} {value : Int} {keep : Int → Prop}
    (hkeep : ∀ x, ¬keep x) :
    (const value).Restricts (throw .emptied) keep s :=
  Or.inl ⟨rfl, fun x _ => hkeep x⟩

theorem Restricts.congr {s : Store} {v : IntView} {m : Narrow Change}
    {keep keep' : Int → Prop} (hrestricts : v.Restricts m keep s)
    (hsame : ∀ x ∈ v.domain s, keep x ↔ keep' x) : v.Restricts m keep' s := by
  rcases hrestricts with ⟨hrun, hempty⟩ | ⟨change, s', hrun, hsets, hframe, hmem⟩
  · exact Or.inl ⟨hrun, fun x hx hkeep => hempty x hx ((hsame x hx).mpr hkeep)⟩
  · refine Or.inr ⟨change, s', hrun, hsets, hframe, fun x => ?_⟩
    rw [hmem x]
    exact and_congr_right fun hx => hsame x hx

/-- A narrowing of the inner view is one of the outer view. -/
theorem Restricts.affine {s : Store} {inner : IntView} {scale offset : Int}
    {m : Narrow Change} {keep keep' : Int → Prop}
    (hrestricts : inner.Restricts m keep s)
    (hsame : ∀ x ∈ inner.domain s, keep x ↔ keep' x) :
    (IntView.affine inner scale offset).Restricts m keep' s :=
  hrestricts.congr hsame

theorem known_var {s : Store} {id : Nat} :
    (var id).known s = true ↔ id < s.ints.size := by
  simp [known, base?, Store.knows]

/-- A bound keeps the values whose image keeps to it, and the lax ones. -/
theorem Exact.restricts_setBound {s : Store} (hvalid : s.Valid) {v : IntView}
    (hexact : v.Exact s) (hknown : v.known s = true) (side : Side) {value : Int}
    (hvalue : Fits32 value) :
    v.Restricts (v.setBound side value)
      (fun x => side.Keeps value (v.valueAt x) ∨ v.Lax side x) s := by
  induction v generalizing side value with
  | var id =>
      have hop : IntDomain.Restricts (IntDomain.setBound side value)
          (side.Keeps value) := by
        cases side with
        | lower => exact IntDomain.setLower_restricts value
        | upper => exact IntDomain.setUpper_restricts value
      refine (restricts_var hop hvalid (known_var.mp hknown)).congr fun x _ => ?_
      refine ⟨Or.inl, fun h => h.elim (fun hkeep => hkeep) fun hend => ?_⟩
      obtain rfl : x = side.furthest := hend
      exact Side.keeps_furthest hvalue
  | const n =>
      have hlax : (const n).Lax side 0 → side.Keeps value n := fun hend => by
        obtain rfl : n = side.furthest := hend
        exact Side.keeps_furthest hvalue
      cases side <;> simp only [setBound] <;> split
      · exact restricts_const_throw fun _ h =>
          not_le.mpr ‹_› (h.elim id hlax)
      · exact restricts_const_pure _ fun _ => Or.inl (not_lt.mp ‹_›)
      · exact restricts_const_throw fun _ h =>
          not_le.mpr ‹_› (h.elim id hlax)
      · exact restricts_const_pure _ fun _ => Or.inl (not_lt.mp ‹_›)
  | affine inner scale offset ih =>
      obtain ⟨hinner, hscale, _, hoffset, himage⟩ := hexact
      obtain ⟨bound, hbound, hpreimage, hkeeps⟩ :=
        preimage_keeps side hscale hoffset hvalue
      have hrun : (IntView.affine inner scale offset).setBound side value =
          inner.setBound (side.through scale) bound := by
        unfold Side.through at hpreimage ⊢
        simp only [setBound, hpreimage]
      rw [hrun]
      refine (ih hinner hknown _ hbound).affine fun x hx => ?_
      rw [hkeeps _ (hinner.fits32 hvalid hx)]
      constructor
      · rintro ((hkeep | hend) | hlax)
        · exact Or.inl hkeep
        · exact Or.inr (Or.inr (lax_of_valueAt_eq hend))
        · exact Or.inr (Or.inr hlax)
      · rintro (hkeep | hend | hlax)
        · exact Or.inl (Or.inl hkeep)
        · refine Or.inl (Or.inl ?_)
          rw [hend]
          exact Side.keeps_furthest hvalue
        · exact Or.inr hlax
  | literal image ih => exact ih hexact hknown side hvalue

theorem Exact.restricts_remove {s : Store} (hvalid : s.Valid) {v : IntView}
    (hexact : v.Exact s) (hknown : v.known s = true) (value : Int) :
    v.Restricts (v.remove value) (fun x => v.valueAt x ≠ value) s := by
  induction v generalizing value with
  | var id =>
      exact restricts_var (IntDomain.remove_restricts value) hvalid
        (known_var.mp hknown)
  | const n =>
      simp only [remove]
      split
      next heq => exact restricts_const_throw fun _ hne => hne heq.symm
      next hne => exact restricts_const_pure _ fun _ => Ne.symm hne
  | affine inner scale offset ih =>
      obtain ⟨hinner, hscale, _, hoffset, himage⟩ := hexact
      have hpreimage := fun x hx => preimage?_eq_some_iff value hscale hoffset
        (hinner.fits32 hvalid hx) (himage x hx)
      simp only [remove]
      split
      next y hy =>
        refine (ih hinner hknown y).affine fun x hx => not_congr ?_
        rw [valueAt, ← hpreimage x hx, hy, Option.some.injEq, eq_comm]
      next hnone =>
        refine Or.inr ⟨_, s, rfl, rfl, fun _ _ => rfl, fun x =>
          ⟨fun hx => ⟨hx, fun heq => ?_⟩, And.left⟩⟩
        have := (hpreimage x hx).mpr heq
        simp [hnone] at this
  | literal image ih => exact ih hexact hknown value

theorem Exact.restricts_fix {s : Store} (hvalid : s.Valid) {v : IntView}
    (hexact : v.Exact s) (hknown : v.known s = true) (value : Int) :
    v.Restricts (v.fix value) (fun x => v.valueAt x = value) s := by
  induction v generalizing value with
  | var id =>
      exact restricts_var (IntDomain.fix_restricts value) hvalid
        (known_var.mp hknown)
  | const n =>
      simp only [fix]
      split
      next heq => exact restricts_const_pure _ fun _ => heq.symm
      next hne => exact restricts_const_throw fun _ heq => hne heq.symm
  | affine inner scale offset ih =>
      obtain ⟨hinner, hscale, _, hoffset, himage⟩ := hexact
      have hpreimage := fun x hx => preimage?_eq_some_iff value hscale hoffset
        (hinner.fits32 hvalid hx) (himage x hx)
      simp only [fix]
      split
      next y hy =>
        refine (ih hinner hknown y).affine fun x hx => ?_
        rw [valueAt, ← hpreimage x hx, hy, Option.some.injEq, eq_comm]
      next hnone =>
        refine Or.inl ⟨rfl, fun x hx heq => ?_⟩
        have := (hpreimage x hx).mpr heq
        simp [hnone] at this
  | literal image ih => exact ih hexact hknown value

/-- An exact view contains the images of the values of its variable. -/
theorem Exact.contains_iff {s : Store} (hvalid : s.Valid) {v : IntView}
    (hexact : v.Exact s) {value : Int} :
    v.contains s value = true ↔ ∃ x ∈ v.domain s, v.valueAt x = value := by
  induction v generalizing value with
  | var id => simp [contains, valueAt, IntDomain.mem_iff_contains]
  | const n =>
      have hzero : (0 : Int) ∈ (const n).domain s :=
        IntDomain.mem_interval.mpr ⟨le_refl _, le_refl _⟩
      simp only [contains, valueAt, decide_eq_true_eq]
      constructor
      · intro heq
        exact ⟨0, hzero, heq.symm⟩
      · rintro ⟨-, -, heq⟩
        exact heq.symm
  | affine inner scale offset ih =>
      obtain ⟨hinner, hscale, _, hoffset, himage⟩ := hexact
      have hpreimage := fun x hx => preimage?_eq_some_iff value hscale hoffset
        (hinner.fits32 hvalid hx) (himage x hx)
      simp only [contains, valueAt, domain_affine]
      split
      next y hy =>
        rw [ih hinner]
        refine exists_congr fun x => and_congr_right fun hx => ?_
        rw [← hpreimage x hx, hy, Option.some.injEq, eq_comm]
      next hnone =>
        refine ⟨fun h => by simp at h, ?_⟩
        rintro ⟨x, hx, heq⟩
        have := (hpreimage x hx).mpr heq
        simp [hnone] at this
  | literal image ih => exact ih hexact

end IntView

end ConstraintSpace
