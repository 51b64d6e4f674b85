import ConstraintSpace.Proofs.Space.Raising
import ConstraintSpace.Proofs.View.Passage

/-!
# Affine views of a variable

An affine view of a variable is made at once or by multiples and shifts, one after the
other.  Where its coefficients did not saturate on the way they are those of the composed
function, and where the 64-bit arithmetic has room for all values of its variable and all
bounds the view is exact: it contains the images of the domain, and every narrowing keeps
the values whose images satisfy the condition, or is refused where there are none.
-/

namespace ConstraintSpace

namespace IntView

/-! ## Building -/

/-- A multiple of the view so far, or a shift of it. -/
inductive Adjustment where
  | scaled (factor : Int)
  | plus (shift : Int)
deriving DecidableEq, Repr

namespace Adjustment

def apply : Adjustment → IntView → Except SpaceError IntView
  | scaled factor, v => v.scaled factor
  | plus shift, v => .ok (v.plus shift)

def value : Adjustment → Int → Int
  | scaled factor, y => factor * y
  | plus shift, y => y + shift

def coefficients : Adjustment → Int × Int → Int × Int
  | scaled factor, (scale, offset) => (scale * factor, offset * factor)
  | plus shift, (scale, offset) => (scale, offset + shift)

def Unsaturated (adjustment : Adjustment) (before : Int × Int) : Prop :=
  Fits64 (adjustment.coefficients before).1 ∧ Fits64 (adjustment.coefficients before).2

variable {adjustment : Adjustment} {before : Int × Int}

theorem coefficients_value (adjustment : Adjustment) (before : Int × Int) (x : Int) :
    (adjustment.coefficients before).1 * x + (adjustment.coefficients before).2 =
      adjustment.value (before.1 * x + before.2) := by
  cases adjustment with
  | scaled factor =>
      simp only [coefficients, value]
      ring
  | plus shift =>
      simp only [coefficients, value]
      ring

theorem apply_affine (hunsaturated : adjustment.Unsaturated before) (hscale : before.1 ≠ 0)
    (inner : IntView) :
    adjustment.apply (affine inner before.1 before.2) =
      if (adjustment.coefficients before).1 = 0 then .error .zeroScale
      else .ok (affine inner (adjustment.coefficients before).1
        (adjustment.coefficients before).2) := by
  obtain ⟨hfits, hfits'⟩ := hunsaturated
  cases adjustment with
  | scaled factor =>
      simp only [coefficients] at hfits hfits' ⊢
      simp only [apply, IntView.scaled, clamp64_of_fits hfits, clamp64_of_fits hfits',
        mul_eq_zero, hscale, false_or]
  | plus shift =>
      simp only [coefficients] at hfits' ⊢
      simp only [apply, IntView.plus, clamp64_of_fits hfits', hscale, if_false]

end Adjustment

/-- The first step from a variable to an affine view of it. -/
inductive Origin where
  | nested (scale offset : Int)
  | adjusted (adjustment : Adjustment)
deriving DecidableEq, Repr

namespace Origin

def view (id : Nat) : Origin → Except SpaceError IntView
  | nested scale offset => nest scale offset (.var id)
  | adjusted adjustment => adjustment.apply (.var id)

def coefficients : Origin → Int × Int
  | nested scale offset => (scale, offset)
  | adjusted adjustment => adjustment.coefficients (1, 0)

def value : Origin → Int → Int
  | nested scale offset, x => scale * x + offset
  | adjusted adjustment, x => adjustment.value x

theorem view_eq (origin : Origin) (id : Nat) :
    origin.view id =
      if origin.coefficients.1 = 0 then .error .zeroScale
      else .ok (affine (.var id) origin.coefficients.1 origin.coefficients.2) := by
  cases origin with
  | nested scale offset => rfl
  | adjusted adjustment =>
      cases adjustment with
      | scaled factor =>
          simp only [view, coefficients, Adjustment.apply, Adjustment.coefficients,
            IntView.scaled, nest, one_mul, zero_mul]
      | plus shift =>
          simp [view, coefficients, Adjustment.apply, Adjustment.coefficients, IntView.plus]

theorem coefficients_value (origin : Origin) (x : Int) :
    origin.coefficients.1 * x + origin.coefficients.2 = origin.value x := by
  cases origin with
  | nested scale offset => rfl
  | adjusted adjustment =>
      have hvalue := adjustment.coefficients_value (1, 0) x
      simpa only [coefficients, value, one_mul, add_zero] using hvalue

end Origin

/-- How an affine view of a variable is built. -/
structure Recipe where
  origin : Origin
  adjustments : List Adjustment
deriving DecidableEq, Repr

namespace Recipe

def build (recipe : Recipe) (id : Nat) : Except SpaceError IntView := do
  let start ← recipe.origin.view id
  recipe.adjustments.foldlM (fun v adjustment => adjustment.apply v) start

def coefficients (recipe : Recipe) : Int × Int :=
  recipe.adjustments.foldl (fun before adjustment => adjustment.coefficients before)
    recipe.origin.coefficients

def value (recipe : Recipe) (x : Int) : Int :=
  recipe.adjustments.foldl (fun y adjustment => adjustment.value y) (recipe.origin.value x)

def Unsaturates : List Adjustment → Int × Int → Prop
  | [], _ => True
  | adjustment :: rest, before =>
      adjustment.Unsaturated before ∧ Unsaturates rest (adjustment.coefficients before)

def Unsaturated (recipe : Recipe) : Prop :=
  Unsaturates recipe.adjustments recipe.origin.coefficients

theorem foldl_coefficients_value (adjustments : List Adjustment) (before : Int × Int) (x : Int) :
    let after := adjustments.foldl (fun before a => a.coefficients before) before
    after.1 * x + after.2 =
      adjustments.foldl (fun y a => a.value y) (before.1 * x + before.2) := by
  induction adjustments generalizing before with
  | nil => rfl
  | cons adjustment rest ih =>
      have hrest := ih (adjustment.coefficients before)
      rw [adjustment.coefficients_value] at hrest
      exact hrest

theorem foldl_coefficients_zero (adjustments : List Adjustment) {before : Int × Int}
    (hzero : before.1 = 0) :
    (adjustments.foldl (fun before a => a.coefficients before) before).1 = 0 := by
  induction adjustments generalizing before with
  | nil => exact hzero
  | cons adjustment rest ih =>
      apply ih
      cases adjustment <;> simp [Adjustment.coefficients, hzero]

theorem foldlM_apply (inner : IntView) {adjustments : List Adjustment}
    {before after : Int × Int}
    (hafter : adjustments.foldl (fun before a => a.coefficients before) before = after)
    (hunsaturates : Unsaturates adjustments before) (hscale : before.1 ≠ 0) :
    adjustments.foldlM (fun v a => a.apply v) (affine inner before.1 before.2) =
      if after.1 = 0 then .error .zeroScale else .ok (affine inner after.1 after.2) := by
  induction adjustments generalizing before with
  | nil =>
      rw [List.foldl_nil] at hafter
      rw [List.foldlM_nil, ← hafter, if_neg hscale]
      rfl
  | cons adjustment rest ih =>
      obtain ⟨hfirst, hrest⟩ := hunsaturates
      rw [List.foldl_cons] at hafter
      rw [List.foldlM_cons, adjustment.apply_affine hfirst hscale]
      by_cases hzero : (adjustment.coefficients before).1 = 0
      · -- the view is refused here, and the exact scale stays zero to the end
        have hfinal : after.1 = 0 := hafter ▸ foldl_coefficients_zero rest hzero
        rw [if_pos hzero, if_pos hfinal]
        rfl
      · rw [if_neg hzero]
        exact ih hafter hrest hzero

/-- A recipe without saturation gives the view of the composed function, unless one of its
factors is zero. -/
theorem build_eq {recipe : Recipe} (hunsaturated : recipe.Unsaturated) (id : Nat) :
    recipe.build id =
      if recipe.coefficients.1 = 0 then .error .zeroScale
      else .ok (affine (.var id) recipe.coefficients.1 recipe.coefficients.2) := by
  unfold build
  rw [Origin.view_eq]
  by_cases hzero : recipe.origin.coefficients.1 = 0
  · rw [if_pos hzero, coefficients, if_pos (foldl_coefficients_zero _ hzero)]
    rfl
  · rw [if_neg hzero]
    exact foldlM_apply (.var id) rfl hunsaturated hzero

theorem coefficients_value (recipe : Recipe) (x : Int) :
    recipe.coefficients.1 * x + recipe.coefficients.2 = recipe.value x := by
  have hfold := foldl_coefficients_value recipe.adjustments recipe.origin.coefficients x
  rw [Origin.coefficients_value] at hfold
  exact hfold

end Recipe

/-! ## Room in 64 bits -/

def Inside64 (x : Int) : Prop := lowest64 < x ∧ x < highest64

theorem Inside64.fits64 {x : Int} (hinside : Inside64 x) : Fits64 x :=
  ⟨hinside.1.le, hinside.2.le⟩

/-- Neither the value of a variable nor a 32-bit value of the view takes the arithmetic of
the view to the end of the 64-bit integers. -/
structure Roomy (scale offset : Int) : Prop where
  product : ∀ x, Limits.integerMin ≤ x → x ≤ Limits.integerMax → Inside64 (scale * x)
  sum : ∀ x, Limits.integerMin ≤ x → x ≤ Limits.integerMax → Inside64 (scale * x + offset)
  shift : ∀ value, Fits32 value → Inside64 (value - offset)

theorem roomy_of_fits32 {scale offset : Int} (hscale : Fits32 scale)
    (hoffset : Fits32 offset) : Roomy scale offset := by
  have hproduct : ∀ x, Limits.integerMin ≤ x → x ≤ Limits.integerMax →
      -4611686018427387904 ≤ scale * x ∧ scale * x ≤ 4611686018427387904 := by
    intro x hlow hhigh
    have hx : Fits32 x := by
      unfold Limits.integerMin Limits.integerMax highest32 at *
      unfold Fits32 lowest32 highest32
      omega
    exact (fits64_mul hscale hx).2
  unfold Fits32 lowest32 highest32 at hoffset
  constructor
  · intro x hlow hhigh
    have hbounds := hproduct x hlow hhigh
    unfold Inside64 lowest64 highest64
    omega
  · intro x hlow hhigh
    have hbounds := hproduct x hlow hhigh
    unfold Inside64 lowest64 highest64
    omega
  · intro value hvalue
    unfold Fits32 lowest32 highest32 at hvalue
    unfold Inside64 lowest64 highest64
    omega

/-! ## Exact narrowing -/

/-- The computation leaves the values of the variable that satisfy `keep` and touches
nothing else; it is refused, and changes nothing, exactly where there are none. -/
structure Leaves (m : Narrow Change) (id : Nat) (keep : Int → Prop) (s : Store) : Prop where
  refused : m s = .error .emptied s ↔ ∀ x ∈ s.int id, ¬keep x
  kept : (∃ x ∈ s.int id, keep x) → ∃ change s', m s = .ok change s' ∧
    (∀ x, x ∈ s'.int id ↔ x ∈ s.int id ∧ keep x) ∧
    (∀ other, other ≠ id → s'.int other = s.int other) ∧
    s'.floats = s.floats ∧ s'.sets = s.sets

/-- The view shows the values of `f` over the domain of the variable, and its narrowings
leave the values of the variable whose image satisfies the condition. -/
structure NarrowsExactly (v : IntView) (f : Int → Int) (id : Nat) (s : Store) : Prop where
  contains : ∀ value, Fits32 value →
    (v.contains s value = true ↔ ∃ x ∈ s.int id, f x = value)
  setLower : ∀ value, Fits32 value → Leaves (v.setLower value) id (fun x => value ≤ f x) s
  setUpper : ∀ value, Fits32 value → Leaves (v.setUpper value) id (fun x => f x ≤ value) s
  remove : ∀ value, Fits32 value → Leaves (v.remove value) id (fun x => f x ≠ value) s
  fix : ∀ value, Fits32 value → Leaves (v.fix value) id (fun x => f x = value) s
  lower : ∃ x ∈ s.int id, v.lower s = clamp32 (f x) ∧ ∀ y ∈ s.int id, f x ≤ f y
  upper : ∃ x ∈ s.int id, v.upper s = clamp32 (f x) ∧ ∀ y ∈ s.int id, f y ≤ f x
  values : (∀ x ∈ s.int id, Fits32 (f x)) →
    (v.values s).Nodup ∧ ∀ value, value ∈ v.values s ↔ ∃ x ∈ s.int id, f x = value

variable {s : Store} {v : IntView} {m : Narrow Change} {keep : Int → Prop} {id : Nat}
  {scale offset : Int}

theorem Restricts.leaves (hrestricts : v.Restricts m keep s) (hbase : v.base? = some id)
    (hsingle : Narrow.Single v.target? m) (hvalid : s.Valid) : Leaves m id keep s := by
  have hdomain := domain_of_base? (s := s) hbase
  rcases hrestricts with ⟨hrun, hempty⟩ | ⟨change, s', hrun, hsets, hframe, hmem⟩
  · rw [hdomain] at hempty
    refine ⟨iff_of_true hrun hempty, ?_⟩
    rintro ⟨x, hx, hkeep⟩
    exact absurd hkeep (hempty x hx)
  have hvalid' : s'.Valid := by
    have hafter := (hsingle.honest s hvalid).valid
    rwa [Narrow.after_of_ok hrun] at hafter
  have hfloats : s'.floats = s.floats := by
    have hmove := hsingle s hvalid
    rw [hrun] at hmove
    generalize htarget : v.target? = w at hmove
    cases hmove with
    | idle => rfl
    | int _ _ _ => rfl
    | float _ _ _ => simp [target?] at htarget
    | set _ _ _ => rfl
  rw [hdomain, domain_of_base? hbase] at hmem
  constructor
  · refine iff_of_false (by simp [hrun]) fun hnone => ?_
    -- a domain is never empty, so something was kept
    have hlower := (hmem _).mp (hvalid'.int id).lower_mem
    exact hnone _ hlower.1 hlower.2
  · intro _
    refine ⟨change, s', hrun, hmem, fun other hne => hframe other ?_, hfloats, hsets⟩
    rw [hbase]
    exact fun heq => hne (Option.some.inj heq).symm

/-! ## A variable under a roomy function -/

theorem within_of_limits {d : IntDomain} (hlimits : d.InLimits) {x : Int} (hx : x ∈ d) :
    Limits.integerMin ≤ x ∧ x ≤ Limits.integerMax :=
  ⟨hlimits.1.trans (IntDomain.lower_le_of_mem hx),
    (IntDomain.le_upper_of_mem hx).trans hlimits.2⟩

/-- The limits end one short of the value that a clamped bound lets stand. -/
theorem ne_furthest_of_limits {d : IntDomain} (hlimits : d.InLimits) {x : Int} (hx : x ∈ d)
    (side : Side) : x ≠ side.furthest := by
  have hwithin := within_of_limits hlimits hx
  unfold Limits.integerMin Limits.integerMax highest32 at hwithin
  cases side with
  | lower =>
      simp only [Side.furthest, highest32]
      omega
  | upper =>
      simp only [Side.furthest, lowest32]
      omega

theorem Roomy.image_eq (hroomy : Roomy scale offset) {x : Int}
    (hlow : Limits.integerMin ≤ x) (hhigh : x ≤ Limits.integerMax) :
    image scale offset x = clamp32 (scale * x + offset) := by
  have hproduct := (hroomy.product x hlow hhigh).fits64
  have hsum := (hroomy.sum x hlow hhigh).fits64
  rw [image, clamp64_of_fits hproduct, clamp64_of_fits hsum]

section Roomy

variable (hvalid : s.Valid) (hscale : scale ≠ 0) (hroomy : Roomy scale offset)

include hvalid hscale hroomy

theorem source?_of_roomy {value x : Int} (hx : x ∈ s.int id) :
    (affine (.var id) scale offset).source? value =
        some ((affine (.var id) scale offset).bottom x) ↔
      scale * x + offset = value := by
  have hwithin := within_of_limits (hvalid.limits id) hx
  have hproduct := (hroomy.product x hwithin.1 hwithin.2).fits64
  have hfits := fits32_of_inLimits (hvalid.limits id) hx
  have hnamed : (affine (.var id) scale offset).source? value = preimage? scale offset value :=
    Option.bind_fun_some _
  rw [hnamed]
  exact (preimage?_eq_some_iff_fits64 value hscale hfits).trans (and_iff_left hproduct)

theorem contains_of_roomy (value : Int) :
    (affine (.var id) scale offset).contains s value = true ↔
      ∃ x ∈ s.int id, scale * x + offset = value := by
  rw [contains_iff_source]
  refine exists_congr fun x => and_congr_right fun hx => ?_
  exact source?_of_roomy hvalid hscale hroomy hx

theorem bound_of_roomy (side : Side) :
    ∃ x ∈ s.int id, (affine (.var id) scale offset).bound s side = clamp32 (scale * x + offset) ∧
      ∀ y ∈ s.int id, side.Keeps (scale * x + offset) (scale * y + offset) := by
  have hx := bound_var_mem hvalid id (side.through scale)
  have hwithin := within_of_limits (hvalid.limits id) hx
  refine ⟨_, hx, ?_, fun y hy => (keeps_affine hscale).mpr ?_⟩
  · rw [bound_affine, hroomy.image_eq hwithin.1 hwithin.2]
  · exact keeps_bound_reading (v := .var id) hy (side.through scale)

theorem values_of_roomy (hfits : ∀ x ∈ s.int id, Fits32 (scale * x + offset)) :
    ((affine (.var id) scale offset).values s).Nodup ∧
      ∀ value, value ∈ (affine (.var id) scale offset).values s ↔
        ∃ x ∈ s.int id, scale * x + offset = value := by
  have hvalues : (affine (.var id) scale offset).values s =
      (s.int id).values.map fun x => scale * x + offset := by
    refine List.map_congr_left fun x hx => ?_
    have hmem := (hvalid.int id).mem_values.mp hx
    have hwithin := within_of_limits (hvalid.limits id) hmem
    rw [hroomy.image_eq hwithin.1 hwithin.2, clamp32_of_fits (hfits x hmem)]
  rw [hvalues]
  constructor
  · refine (hvalid.int id).nodup_values.map fun x y heq => ?_
    exact mul_left_cancel₀ hscale (add_right_cancel heq)
  · intro value
    simp only [List.mem_map, (hvalid.int id).mem_values]

variable (hid : id < s.ints.size)

include hid

theorem restricts_setBound_of_roomy (side : Side) {value : Int} (hvalue : Fits32 value) :
    (affine (.var id) scale offset).Restricts
      ((affine (.var id) scale offset).setBound side value)
      (fun x => side.Keeps value (scale * x + offset)) s := by
  have hinside := hroomy.shift value hvalue
  have hshift := clamp64_of_fits hinside.fits64
  have hguard : scale = -1 → clamp64 (value - offset) ≠ lowest64 := by
    intro _
    rw [hshift]
    exact hinside.1.ne'
  obtain ⟨bound, hpreimage⟩ := exists_preimage (side.through scale) hguard
  rw [setBound_affine, hpreimage]
  refine (restricts_setBound_var hvalid hid (side.through scale) bound).affine fun x hx => ?_
  have hends := ne_furthest_of_limits (hvalid.limits id) hx (side.through scale)
  have hfits := fits32_of_inLimits (hvalid.limits id) hx
  rw [preimage_keeps_product side hscale hfits hpreimage, hshift, Side.keeps_sub,
    or_iff_left hends]

theorem restricts_remove_of_roomy (value : Int) :
    (affine (.var id) scale offset).Restricts ((affine (.var id) scale offset).remove value)
      (fun x => scale * x + offset ≠ value) s := by
  have hknown : (affine (.var id) scale offset).known s = true := known_var.mpr hid
  refine (restricts_remove_source hvalid hknown value).congr fun x hx => not_congr ?_
  exact source?_of_roomy hvalid hscale hroomy hx

theorem restricts_fix_of_roomy (value : Int) :
    (affine (.var id) scale offset).Restricts ((affine (.var id) scale offset).fix value)
      (fun x => scale * x + offset = value) s := by
  have hknown : (affine (.var id) scale offset).known s = true := known_var.mpr hid
  refine (restricts_fix_source hvalid hknown value).congr fun x hx => ?_
  exact source?_of_roomy hvalid hscale hroomy hx

theorem narrowsExactly_of_roomy :
    (affine (.var id) scale offset).NarrowsExactly (fun x => scale * x + offset) id s := by
  have hbound : ∀ side value, Fits32 value →
      Leaves ((affine (.var id) scale offset).setBound side value) id
        (fun x => side.Keeps value (scale * x + offset)) s := by
    intro side value hvalue
    have hrestricts := restricts_setBound_of_roomy hvalid hscale hroomy hid side hvalue
    exact hrestricts.leaves rfl (single_setBound _ side value) hvalid
  constructor
  case contains => exact fun value _ => contains_of_roomy hvalid hscale hroomy value
  case setLower => exact hbound .lower
  case setUpper => exact hbound .upper
  case remove =>
    intro value _
    have hrestricts := restricts_remove_of_roomy hvalid hscale hroomy hid value
    exact hrestricts.leaves rfl (single_remove _ value) hvalid
  case fix =>
    intro value _
    have hrestricts := restricts_fix_of_roomy hvalid hscale hroomy hid value
    exact hrestricts.leaves rfl (single_fix _ value) hvalid
  case lower => exact bound_of_roomy hvalid hscale hroomy .lower
  case upper => exact bound_of_roomy hvalid hscale hroomy .upper
  case values => exact values_of_roomy hvalid hscale hroomy

end Roomy

/-- Whatever store narrowings can find, a view that was built over a variable without
saturation, and whose arithmetic has room in 64 bits, is the view of the composed function
and narrows exactly.  Coefficients of 32 bits always leave room. -/
theorem affine_views_narrow_exactly (harises : Space.Arises s) (hid : id < s.ints.size) :
    (∀ scale offset, Fits32 scale → Fits32 offset → Roomy scale offset) ∧
      ∀ (recipe : Recipe) (v : IntView), recipe.build id = .ok v → recipe.Unsaturated →
        Roomy recipe.coefficients.1 recipe.coefficients.2 →
          v = affine (.var id) recipe.coefficients.1 recipe.coefficients.2 ∧
            (∀ x, recipe.coefficients.1 * x + recipe.coefficients.2 = recipe.value x) ∧
              v.NarrowsExactly recipe.value id s := by
  refine ⟨fun scale offset => roomy_of_fits32, fun recipe v hbuild hunsaturated hroomy => ?_⟩
  have hvalue := recipe.coefficients_value
  rw [Recipe.build_eq hunsaturated] at hbuild
  split at hbuild
  next => cases hbuild
  next hscale =>
    obtain rfl := Except.ok.inj hbuild
    have hexact := narrowsExactly_of_roomy harises.valid hscale hroomy hid
    exact ⟨rfl, hvalue, funext hvalue ▸ hexact⟩

/-- A bound through a negative scale crosses the gap before the last value. -/
theorem reversed_view_crosses_gap :
    let recipe : Recipe := ⟨.adjusted (.plus 1), [.scaled (-2)]⟩
    ∃ s, Space.performAll [.newSparse [-4, 0, 3]] Space.new = some s ∧
      recipe.build 0 = .ok (affine (.var 0) (-2) (-2)) ∧
        (affine (.var 0) (-2) (-2)).NarrowsExactly recipe.value 0 s.store ∧
          ∃ change s', (affine (.var 0) (-2) (-2)).setUpper (-3) s.store = .ok change s' ∧
            ∀ x, x ∈ s'.int 0 ↔ x = 3 := by
  intro recipe
  have hrun : (Space.performAll [.newSparse [-4, 0, 3]] Space.new).map
      (fun s => ((s.store.int 0).values, s.store.ints.size)) = some ([-4, 0, 3], 1) := by
    decide +kernel
  obtain ⟨s, hperform, hstore⟩ := Option.map_eq_some_iff.mp hrun
  obtain ⟨hvalues, hsize⟩ := Prod.mk.inj hstore
  have harises : Space.Arises s.store := .reached (Space.reaches_of_performAll hperform)
  have hmem : ∀ x, x ∈ s.store.int 0 ↔ x = -4 ∨ x = 0 ∨ x = 3 := by
    intro x
    rw [← (harises.valid.int 0).mem_values, hvalues]
    simp
  obtain ⟨hfit, hexactly⟩ :=
    affine_views_narrow_exactly harises (by rw [hsize]; exact Nat.zero_lt_one)
  obtain ⟨-, -, hnarrows⟩ := hexactly recipe (affine (.var 0) (-2) (-2)) rfl
    ⟨⟨by decide, by decide⟩, trivial⟩ (hfit _ _ (by decide) (by decide))
  have hvalue : ∀ x, recipe.value x = -2 * (x + 1) := fun _ => rfl
  obtain ⟨change, s', hsetUpper, hleft, -⟩ := (hnarrows.setUpper (-3) (by decide)).kept
    ⟨3, (hmem 3).mpr (by decide), by rw [hvalue]; decide⟩
  refine ⟨s, hperform, rfl, hnarrows, change, s', hsetUpper, fun x => ?_⟩
  rw [hleft, hmem, hvalue]
  omega

end IntView

end ConstraintSpace
