import ConstraintSpace.Proofs.Domain.IntegerRuns
import ConstraintSpace.Proofs.View.Idleness

/-!
# Views on machine integers

A view computes with 64-bit integers.  Here every step of its arithmetic is checked against
the type that holds its result: the saturating sums and products, the quotient and the
remainder with which the directed divisions are made, the exact division, and the sign that
the text of a view takes off a negative offset.  On the domains of a store and with bounds
of 32 bits nothing leaves the machine integers while a view is read, while a value is looked
up, removed or fixed.  Two steps can overflow: the division by -1 on the way of a bound, and
the sign of the least offset in a text.  How far a chain of building steps has to go for the
first one is counted.
-/

namespace ConstraintSpace

/-! ## Truncated and directed division -/

theorem tmod_bounds (a : Int) {b : Int} (hb : b ≠ 0) :
    (0 < b → -b < a.tmod b ∧ a.tmod b < b) ∧ (b < 0 → b < a.tmod b ∧ a.tmod b < -b) := by
  have hless : (a.tmod b).natAbs < b.natAbs := by
    rw [Int.natAbs_tmod]
    exact Nat.mod_lt _ (by omega)
  omega

/-- The quotient that is rounded up is the truncated one, or the next number where the
remainder has the sign of the divisor. -/
theorem ceilDiv_eq_tdiv (a : Int) {b : Int} (hb : b ≠ 0) :
    ceilDiv a b =
      if 0 < a.tmod b ∧ 0 < b ∨ a.tmod b < 0 ∧ b < 0 then a.tdiv b + 1 else a.tdiv b := by
  have hdivides : b * a.tdiv b + a.tmod b = a := Int.mul_tdiv_add_tmod a b
  have hbounds := tmod_bounds a hb
  have hcharacterised : ∀ q : Int, (ceilDiv a b ≤ q ∧ ¬ceilDiv a b ≤ q - 1) → ceilDiv a b = q :=
    fun q h => by omega
  refine hcharacterised _ ?_
  rcases lt_or_gt_of_ne hb with hneg | hpos
  · rw [ceilDiv_le_iff_of_neg hneg, ceilDiv_le_iff_of_neg hneg]
    split <;> simp only [mul_add_one, mul_sub_one, add_sub_cancel_right] <;> omega
  · rw [ceilDiv_le_iff_of_pos hpos, ceilDiv_le_iff_of_pos hpos]
    split <;> simp only [mul_add_one, mul_sub_one, add_sub_cancel_right] <;> omega

theorem floorDiv_eq_tdiv (a : Int) {b : Int} (hb : b ≠ 0) :
    floorDiv a b =
      if 0 < a.tmod b ∧ b < 0 ∨ a.tmod b < 0 ∧ 0 < b then a.tdiv b - 1 else a.tdiv b := by
  have hmirror : floorDiv a b = -ceilDiv (-a) b := by
    rw [ceilDiv, floorDiv, neg_neg, neg_neg]
  rw [hmirror, ceilDiv_eq_tdiv (-a) hb, Int.neg_tmod, Int.neg_tdiv]
  split <;> split <;> omega

namespace Machine

/-! ## Checked steps -/

/-- The truncated quotient and the remainder; there are none for the divisor zero and where
the quotient has no 64 bits. -/
def divide64 (a b : Int) : Option (Int × Int) :=
  if b = 0 then none
  else do
    let quotient ← int64 (a.tdiv b)
    some (quotient, a.tmod b)

def ceilDiv (a b : Int) : Option Int := do
  let (quotient, remainder) ← divide64 a b
  if 0 < remainder ∧ 0 < b ∨ remainder < 0 ∧ b < 0 then int64 (quotient + 1) else some quotient

def floorDiv (a b : Int) : Option Int := do
  let (quotient, remainder) ← divide64 a b
  if 0 < remainder ∧ b < 0 ∨ remainder < 0 ∧ 0 < b then int64 (quotient - 1) else some quotient

def image (scale offset x : Int) : Option Int := do
  let product ← int64 (clamp64 (scale * x))
  let sum ← int64 (clamp64 (product + offset))
  int32 (clamp32 sum)

/-- The bound for the inner view. -/
def preimage (side : Side) (scale offset value : Int) : Option Int := do
  let shifted ← int64 (clamp64 (value - offset))
  let quotient ← match side with
    | .lower => ceilDiv shifted scale
    | .upper => floorDiv shifted scale
  int32 (clamp32 quotient)

/-- The value with the image, if there is one.  The difference and the quotient are checked
by the program, which answers that there is none; the product is not. -/
def preimage? (scale offset value : Int) : Option (Option Int) :=
  match int64 (value - offset) with
  | none => some none
  | some shifted =>
    match divide64 shifted scale with
    | none => some none
    | some (inner, _) => do
      let product ← int64 (inner * scale)
      some (if product = shifted then int32 inner else none)

variable {a b x scale offset value : Int}

theorem int64_clamp64 (x : Int) : int64 (clamp64 x) = some (clamp64 x) :=
  if_pos (fits64_clamp64 x)

theorem int32_clamp32 (x : Int) : int32 (clamp32 x) = some (clamp32 x) :=
  if_pos (fits32_clamp32 x)

/-- The one quotient of 64-bit integers that has no 64 bits. -/
theorem fits64_tdiv_iff (ha : Fits64 a) (hb : b ≠ 0) :
    Fits64 (a.tdiv b) ↔ ¬(b = -1 ∧ a = lowest64) := by
  have habs : (a.tdiv b).natAbs = a.natAbs / b.natAbs := Int.natAbs_tdiv a b
  unfold Fits64 lowest64 highest64 at *
  rcases eq_or_ne b.natAbs 1 with hone | hmany
  · rw [hone, Nat.div_one] at habs
    rcases Int.natAbs_eq b with hpos | hneg
    · rw [hone] at hpos
      subst hpos
      simp only [Nat.cast_one, Int.tdiv_one]
      omega
    · rw [hone] at hneg
      subst hneg
      simp only [Nat.cast_one, Int.tdiv_neg, Int.tdiv_one, true_and]
      omega
  · have hhalf : a.natAbs / b.natAbs ≤ a.natAbs / 2 := Nat.div_le_div_left (by omega) (by decide)
    omega

theorem divide64_eq (ha : Fits64 a) (hb : b ≠ 0) :
    divide64 a b =
      if b = -1 ∧ a = lowest64 then none else some (a.tdiv b, a.tmod b) := by
  have hfits := fits64_tdiv_iff ha hb
  rw [divide64, if_neg hb]
  split
  next hlowest => rw [int64, if_neg (fun h => hfits.mp h hlowest)]; rfl
  next hinner => rw [int64, if_pos (hfits.mpr hinner)]; rfl

/-- Where there is a remainder the quotient is far from the limits. -/
theorem int64_next_tdiv (ha : Fits64 a) (hremainder : a.tmod b ≠ 0) :
    int64 (a.tdiv b + 1) = some (a.tdiv b + 1) ∧
      int64 (a.tdiv b - 1) = some (a.tdiv b - 1) := by
  have habs : (a.tdiv b).natAbs = a.natAbs / b.natAbs := Int.natAbs_tdiv a b
  have hmany : b.natAbs ≠ 1 := by
    intro hone
    have hzero : (a.tmod b).natAbs = 0 := by rw [Int.natAbs_tmod, hone, Nat.mod_one]
    omega
  have hhalf : a.natAbs / b.natAbs ≤ a.natAbs / 2 := by
    rcases Nat.eq_zero_or_pos b.natAbs with hzero | hpos
    · rw [hzero, Nat.div_zero]
      exact Nat.zero_le _
    · exact Nat.div_le_div_left (by omega) (by decide)
  unfold Fits64 lowest64 highest64 at ha
  constructor
  · exact int64_eq (by unfold lowest64; omega) (by unfold highest64; omega)
  · exact int64_eq (by unfold lowest64; omega) (by unfold highest64; omega)

theorem ceilDiv_eq (ha : Fits64 a) (hb : b ≠ 0) :
    ceilDiv a b =
      if b = -1 ∧ a = lowest64 then none else some (ConstraintSpace.ceilDiv a b) := by
  rw [ceilDiv, divide64_eq ha hb, ceilDiv_eq_tdiv a hb]
  split
  next => rfl
  next =>
    simp only [Option.bind_eq_bind, Option.bind_some]
    split
    next hround => exact (int64_next_tdiv ha (by omega)).1
    next => rfl

theorem floorDiv_eq (ha : Fits64 a) (hb : b ≠ 0) :
    floorDiv a b =
      if b = -1 ∧ a = lowest64 then none else some (ConstraintSpace.floorDiv a b) := by
  rw [floorDiv, divide64_eq ha hb, floorDiv_eq_tdiv a hb]
  split
  next => rfl
  next =>
    simp only [Option.bind_eq_bind, Option.bind_some]
    split
    next hround => exact (int64_next_tdiv ha (by omega)).2
    next => rfl

theorem image_eq (scale offset x : Int) :
    image scale offset x = some (IntView.image scale offset x) := by
  simp only [image, int64_clamp64, int32_clamp32, Option.bind_eq_bind, Option.bind_some,
    IntView.image]

theorem preimage_eq (side : Side) (hscale : scale ≠ 0) (offset value : Int) :
    preimage side scale offset value = IntView.preimage side scale offset value := by
  have hfits := fits64_clamp64 (value - offset)
  simp only [preimage, int64_clamp64, Option.bind_eq_bind, Option.bind_some, IntView.preimage]
  by_cases hlowest : scale = -1 ∧ clamp64 (value - offset) = lowest64
  · cases side <;>
      simp only [ceilDiv_eq hfits hscale, floorDiv_eq hfits hscale, if_pos hlowest,
        Option.bind_none]
  · cases side <;>
      simp only [ceilDiv_eq hfits hscale, floorDiv_eq hfits hscale, if_neg hlowest,
        Option.bind_some, int32_clamp32]

/-- The product of the truncated quotient is not beyond the number that was divided. -/
theorem int64_tdiv_mul (ha : Fits64 a) (b : Int) :
    int64 (a.tdiv b * b) = some (a.tdiv b * b) := by
  have hdivides : a.tdiv b * b + a.tmod b = a := by
    rw [mul_comm]
    exact Int.mul_tdiv_add_tmod a b
  have habs : (a.tmod b).natAbs ≤ a.natAbs := by
    rw [Int.natAbs_tmod]
    exact Nat.mod_le _ _
  have hsign : (0 ≤ a → 0 ≤ a.tmod b) ∧ (a ≤ 0 → a.tmod b ≤ 0) := by
    refine ⟨fun hnonneg => Int.tmod_nonneg b hnonneg, fun hnonpos => ?_⟩
    have hmirror := Int.tmod_nonneg b (neg_nonneg.mpr hnonpos)
    rw [Int.neg_tmod] at hmirror
    exact neg_nonneg.mp hmirror
  unfold Fits64 lowest64 highest64 at ha
  exact int64_eq (by unfold lowest64; omega) (by unfold highest64; omega)

theorem preimage?_eq (hscale : scale ≠ 0) (offset value : Int) :
    preimage? scale offset value = some (IntView.preimage? scale offset value) := by
  unfold preimage? IntView.preimage?
  by_cases hfits : Fits64 (value - offset)
  · have hshifted : int64 (value - offset) = some (value - offset) := if_pos hfits
    have hguard : (¬Fits64 (value - offset) ∨ scale = -1 ∧ value - offset = lowest64) ↔
        scale = -1 ∧ value - offset = lowest64 := or_iff_right (not_not.mpr hfits)
    simp only [hshifted, divide64_eq hfits hscale, hguard]
    by_cases hlowest : scale = -1 ∧ value - offset = lowest64
    · simp only [if_pos hlowest]
    · simp only [if_neg hlowest, int64_tdiv_mul hfits, Option.bind_eq_bind, Option.bind_some]
      by_cases hproduct : (value - offset).tdiv scale * scale = value - offset
      · simp only [hproduct, true_and, if_true, int32]
      · simp only [hproduct, false_and, if_false]
  · have hshifted : int64 (value - offset) = none := if_neg hfits
    simp only [hshifted]
    rw [if_pos (Or.inl hfits)]

end Machine

/-! ## Views with checked steps -/

/-- The narrowing of a domain on machine integers. -/
def Store.narrowChecked (id : Nat) (move : IntDomain.Move) : Narrow Change := fun s =>
  match s.ints[id]? with
  | none => .error (.breached .missingVariable) s
  | some d =>
    match move.checked d with
    | none => .error (.breached .overflow) s
    | some narrowed => Store.narrowInt id (fun _ => narrowed) s

def Side.move : Side → Int → IntDomain.Move
  | .lower, value => .lower value
  | .upper, value => .upper value

namespace IntView

def bound? (s : Store) : IntView → Side → Option Int
  | var id, .lower => some (s.int id).lower
  | var id, .upper => some (s.int id).upper
  | const value, _ => some value
  | affine inner scale offset, side => do
    let read ← inner.bound? s (side.through scale)
    Machine.image scale offset read
  | literal image, side => image.bound? s side

def values? (s : Store) : IntView → Option (List Int)
  | var id => (s.int id).values?
  | const value => some [value]
  | affine inner scale offset => do
    let values ← inner.values? s
    values.mapM (Machine.image scale offset)
  | literal image => image.values? s

def contains? (s : Store) : IntView → Int → Option Bool
  | var id, value => some ((s.int id).contains value)
  | const n, value => some (value = n)
  | affine inner scale offset, value => do
    match ← Machine.preimage? scale offset value with
    | some x => inner.contains? s x
    | none => some false
  | literal image, value => image.contains? s value

def setBoundChecked : IntView → Side → Int → Narrow Change
  | var id, side, value => Store.narrowChecked id (side.move value)
  | const n, side, value => (const n).setBound side value
  | affine inner scale offset, side, value =>
    match Machine.preimage (side.through scale) scale offset value with
    | some x => inner.setBoundChecked (side.through scale) x
    | none => throw (.breached .overflow)
  | literal image, side, value => image.setBoundChecked side value

def removeChecked : IntView → Int → Narrow Change
  | var id, value => Store.narrowChecked id (.remove value)
  | const n, value => (const n).remove value
  | affine inner scale offset, value =>
    match Machine.preimage? scale offset value with
    | some (some x) => inner.removeChecked x
    | some none => pure .none
    | none => throw (.breached .overflow)
  | literal image, value => image.removeChecked value

def fixChecked : IntView → Int → Narrow Change
  | var id, value => Store.narrowChecked id (.fix value)
  | const n, value => (const n).fix value
  | affine inner scale offset, value =>
    match Machine.preimage? scale offset value with
    | some (some x) => inner.fixChecked x
    | some none => throw .emptied
    | none => throw (.breached .overflow)
  | literal image, value => image.fixChecked value

/-- The text, where the sign is taken off a negative offset by a checked negation. -/
def textChecked : IntView → Option String
  | var id => some ("x" ++ toString id)
  | const value => some (toString value)
  | affine inner scale offset => do
    let body ← inner.textChecked
    let head :=
      if scale = -1 then "-"
      else if scale = 1 then ""
      else toString scale ++ " * "
    let tail ←
      if offset < 0 then do
        let positive ← Machine.int64 (-offset)
        some (" - " ++ toString positive)
      else if offset = 0 then some ""
      else some (" + " ++ toString offset)
    some (head ++ "(" ++ body ++ ")" ++ tail)
  | literal image => do
    let body ← image.textChecked
    some ("Literal \x7b integer_variable: " ++ body ++ " \x7d")

variable {s : Store} {v : IntView}

theorem onMachine_of_limits {d : IntDomain} (hlimits : d.InLimits) : d.OnMachine := by
  unfold IntDomain.InLimits Limits.integerMin Limits.integerMax highest32 at hlimits
  unfold IntDomain.OnMachine lowest32 highest32
  omega

theorem narrowChecked_eq (hvalid : s.Valid) (id : Nat) (move : IntDomain.Move) :
    Store.narrowChecked id move s = Store.narrowInt id move.apply s := by
  unfold Store.narrowChecked
  cases hread : s.ints[id]? with
  | none => simp only [Store.narrowInt, hread]
  | some d =>
      have hint : s.int id = d := by rw [Store.int, hread, Option.getD_some]
      have hmachine := onMachine_of_limits (hvalid.limits id)
      rw [hint] at hmachine
      have hchecked := move.checked_eq hmachine (hint ▸ hvalid.int id)
      simp only [hchecked, Store.narrowInt, hread]

theorem bound?_eq (s : Store) (v : IntView) (side : Side) :
    v.bound? s side = some (v.bound s side) := by
  induction v generalizing side with
  | var id => cases side <;> rfl
  | const value => cases side <;> rfl
  | affine inner scale offset ih =>
      simp only [bound?, ih, Option.bind_eq_bind, Option.bind_some, Machine.image_eq, bound_affine]
  | literal image ih =>
      rw [bound?, ih]
      cases side <;> rfl

theorem values?_eq (hvalid : s.Valid) (v : IntView) : v.values? s = some (v.values s) := by
  induction v with
  | var id => exact (onMachine_of_limits (hvalid.limits id)).values?_eq (hvalid.int id)
  | const value => rfl
  | affine inner scale offset ih =>
      have himage : Machine.image scale offset = fun x => some (image scale offset x) :=
        funext (Machine.image_eq scale offset)
      simp only [values?, ih, Option.bind_eq_bind, Option.bind_some, himage]
      exact List.mapM_pure
  | literal image ih => exact ih

theorem Formed.contains?_eq (hformed : v.Formed) (s : Store) (value : Int) :
    v.contains? s value = some (v.contains s value) := by
  induction v generalizing value with
  | var id => rfl
  | const n => rfl
  | affine inner scale offset ih =>
      obtain ⟨hinner, hscale, -⟩ := hformed
      simp only [contains?, Machine.preimage?_eq hscale, Option.bind_eq_bind, Option.bind_some,
        contains]
      cases preimage? scale offset value with
      | none => rfl
      | some x => exact ih hinner x
  | literal image ih => exact ih hformed value

theorem Formed.setBoundChecked_eq (hformed : v.Formed) (hvalid : s.Valid) (side : Side)
    (value : Int) : v.setBoundChecked side value s = v.setBound side value s := by
  induction v generalizing side value with
  | var id =>
      have hchecked := narrowChecked_eq hvalid id (side.move value)
      cases side <;> exact hchecked
  | const n => rfl
  | affine inner scale offset ih =>
      obtain ⟨hinner, hscale, -⟩ := hformed
      rw [setBound_affine]
      simp only [setBoundChecked, Machine.preimage_eq _ hscale]
      cases preimage (side.through scale) scale offset value with
      | none => rfl
      | some x => exact ih hinner _ x
  | literal image ih => exact ih hformed side value

theorem Formed.removeChecked_eq (hformed : v.Formed) (hvalid : s.Valid) (value : Int) :
    v.removeChecked value s = v.remove value s := by
  induction v generalizing value with
  | var id => exact narrowChecked_eq hvalid id (.remove value)
  | const n => rfl
  | affine inner scale offset ih =>
      obtain ⟨hinner, hscale, -⟩ := hformed
      simp only [removeChecked, Machine.preimage?_eq hscale, remove]
      cases preimage? scale offset value with
      | none => rfl
      | some x => exact ih hinner x
  | literal image ih => exact ih hformed value

theorem Formed.fixChecked_eq (hformed : v.Formed) (hvalid : s.Valid) (value : Int) :
    v.fixChecked value s = v.fix value s := by
  induction v generalizing value with
  | var id => exact narrowChecked_eq hvalid id (.fix value)
  | const n => rfl
  | affine inner scale offset ih =>
      obtain ⟨hinner, hscale, -⟩ := hformed
      simp only [fixChecked, Machine.preimage?_eq hscale, fix]
      cases preimage? scale offset value with
      | none => rfl
      | some x => exact ih hinner x
  | literal image ih => exact ih hformed value

theorem Formed.textChecked_eq (hformed : v.Formed) : v.textChecked = v.text? := by
  induction v with
  | var id => rfl
  | const value => rfl
  | affine inner scale offset ih =>
      obtain ⟨hinner, -, hoffset⟩ := hformed
      simp only [textChecked, text?, ih hinner]
      cases inner.text? with
      | none => rfl
      | some body =>
          by_cases hlowest : offset = lowest64
          · rw [hlowest]
            rfl
          rcases lt_trichotomy offset 0 with hneg | rfl | hpos
          · have hpositive : Machine.int64 (-offset) = some (-offset) :=
              Machine.int64_eq (by unfold lowest64; omega)
                (by unfold Fits64 lowest64 highest64 at *; omega)
            simp only [hneg, if_true, hpositive, hlowest, if_false, Option.bind_eq_bind,
              Option.bind_some]
          · rfl
          · simp only [not_lt.mpr hpos.le, hpos.ne', hlowest, if_false, Option.bind_eq_bind,
              Option.bind_some]
  | literal image ih => simp only [textChecked, text?, ih hformed]

end IntView
end ConstraintSpace
