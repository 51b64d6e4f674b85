/-!
# Integers of limited width

The values of variables are 32-bit integers and the coefficients of views are
64-bit integers.  Both are kept as `Int`; this module holds the two ranges,
the clamping into them, and the two directed divisions.  An operation that
saturates clamps its exact result; one that must not leave its range asks
`Fits32` or `Fits64` first.
-/

namespace ConstraintSpace

def lowest32 : Int := -2147483648

def highest32 : Int := 2147483647

def lowest64 : Int := -9223372036854775808

def highest64 : Int := 9223372036854775807

/-- The nearest 32-bit integer. -/
def clamp32 (x : Int) : Int :=
  if x < lowest32 then lowest32 else if highest32 < x then highest32 else x

/-- The nearest 64-bit integer. -/
def clamp64 (x : Int) : Int :=
  if x < lowest64 then lowest64 else if highest64 < x then highest64 else x

abbrev Fits32 (x : Int) : Prop := lowest32 ≤ x ∧ x ≤ highest32

abbrev Fits64 (x : Int) : Prop := lowest64 ≤ x ∧ x ≤ highest64

/-- The quotient, rounded toward negative infinity. -/
def floorDiv (a b : Int) : Int := Int.fdiv a b

/-- The quotient, rounded toward positive infinity. -/
def ceilDiv (a b : Int) : Int := -Int.fdiv (-a) b

theorem clamp32_of_fits {x : Int} (hfits : Fits32 x) : clamp32 x = x := by
  obtain ⟨hlower, hupper⟩ := hfits
  simp [clamp32, Int.not_lt.mpr hlower, Int.not_lt.mpr hupper]

theorem clamp64_of_fits {x : Int} (hfits : Fits64 x) : clamp64 x = x := by
  obtain ⟨hlower, hupper⟩ := hfits
  simp [clamp64, Int.not_lt.mpr hlower, Int.not_lt.mpr hupper]

theorem fits32_clamp32 (x : Int) : Fits32 (clamp32 x) := by
  unfold clamp32 Fits32 lowest32 highest32
  repeat' split
  all_goals omega

theorem clamp32_mono {x y : Int} (hle : x ≤ y) : clamp32 x ≤ clamp32 y := by
  unfold clamp32 lowest32 highest32
  repeat' split
  all_goals omega

end ConstraintSpace
