/-!
# Shortest decimal digits

The digits of a binary number `mantissa * 2 ^ exponent`: the fewest that lie in
the interval of reals which round to that number.  For one digit, two digits
and so on, the two neighbours of the number on that decimal grid are tested in
exact arithmetic; the first grid with a neighbour inside the interval wins, of
two neighbours the nearer one, and an exact tie goes up.
-/

namespace ConstraintSpace.Decimal

/-- A positive number `mantissa * 2 ^ exponent`.  `narrowBelow` says that the
gap to the number below is half of the gap to the number above. -/
structure Binary where
  mantissa : Nat
  exponent : Int
  narrowBelow : Bool

/-- The number `digits * 10 ^ exponent`. -/
structure Digits where
  digits : Nat
  exponent : Int

namespace Binary

/-- The exponent of the leading decimal digit. -/
def leading (b : Binary) : Int :=
  if 0 ≤ b.exponent then
    ((toString (b.mantissa * Nat.pow 2 b.exponent.toNat)).length : Int) - 1
  else
    ((toString (b.mantissa * Nat.pow 5 (-b.exponent).toNat)).length : Int) - 1 + b.exponent

/-- The neighbours of the number on the grid of multiples of `10 ^ k`, where one
of them rounds to the number.  All quantities are quarters of the unit of the
mantissa, over the common denominator `grid`. -/
def onGrid? (b : Binary) (k : Int) : Option Nat :=
  let unit := Nat.pow 2 (b.exponent - 2).toNat * Nat.pow 10 (-k).toNat
  let grid := Nat.pow 2 (2 - b.exponent).toNat * Nat.pow 10 k.toNat
  let exact := 4 * b.mantissa * unit
  let low := (4 * b.mantissa - if b.narrowBelow then 1 else 2) * unit
  let high := (4 * b.mantissa + 2) * unit
  let inside := fun d : Nat =>
    if b.mantissa % 2 = 0 then low ≤ d * grid && d * grid ≤ high
    else low < d * grid && d * grid < high
  let below := exact / grid
  if inside below then
    if inside (below + 1) && (2 * below + 1) * grid ≤ 2 * exact then some (below + 1)
    else some below
  else if inside (below + 1) then some (below + 1)
  else none

/-- Tries the grids of `10 ^ k`, `10 ^ (k - 1)`, and so on. -/
def fromGrid (b : Binary) (k : Int) : Nat → Digits
  | 0 => { digits := b.mantissa, exponent := 0 }
  | more + 1 =>
    match b.onGrid? k with
    | some d => { digits := d, exponent := k }
    | none => b.fromGrid (k - 1) more

/-- Seventeen digits tell apart any two numbers with mantissas below `2 ^ 53`. -/
def shortest (b : Binary) : Digits := b.fromGrid b.leading 17

end Binary

namespace Digits

/-- Drops zeros at the end of digits that stand after the point. -/
def trim (d : Digits) : Nat → Digits
  | 0 => d
  | more + 1 =>
    if d.exponent < 0 ∧ d.digits % 10 = 0 then
      ({ digits := d.digits / 10, exponent := d.exponent + 1 } : Digits).trim more
    else d

def zeros (n : Nat) : String := String.ofList (List.replicate n '0')

/-- Writes the number by place, with no exponent and with no digit after the
point that is not needed. -/
def positional (d : Digits) : String :=
  let d := d.trim 20
  let text := toString d.digits
  if 0 ≤ d.exponent then text ++ zeros d.exponent.toNat
  else
    let places := (-d.exponent).toNat
    let padded := zeros (places + 1 - text.length) ++ text
    let whole := padded.toList.take (padded.length - places)
    let fraction := padded.toList.drop (padded.length - places)
    String.ofList whole ++ "." ++ String.ofList fraction

end Digits

end ConstraintSpace.Decimal
