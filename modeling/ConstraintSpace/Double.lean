import ConstraintSpace.Decimal.Shortest

/-!
# Doubles as bit patterns

A double is its 64-bit pattern: a sign, eleven bits of exponent and fifty-two
bits of mantissa.  The order reads the pattern below the sign as a magnitude, so
both zeros are equal, and a pattern that is not a number is comparable with
nothing.  Negation flips the sign, and the successor is the next pattern in the
order.  Only sums, differences and halves go through the machine's arithmetic.
-/

namespace ConstraintSpace

structure Double where
  bits : UInt64
deriving DecidableEq, Repr

namespace Double

def ofFloat (x : Float) : Double := ⟨x.toBits⟩

def toFloat (x : Double) : Float := Float.ofBits x.bits

/-- The highest bit, which is the sign. -/
def signBit : Nat := 0x8000000000000000

/-- The lowest bit of the exponent, above the bits of the mantissa. -/
def exponentBit : Nat := 0x10000000000000

def negative (x : Double) : Bool := signBit ≤ x.bits.toNat

def magnitude (x : Double) : Nat := x.bits.toNat % signBit

/-- The magnitude of both infinities. -/
def infinite : Nat := 0x7FF0000000000000

def isNaN (x : Double) : Bool := infinite < x.magnitude

def isFinite (x : Double) : Bool := x.magnitude < infinite

/-- The place in the order; both zeros stand at zero. -/
def ordinal (x : Double) : Int :=
  if x.negative then -(x.magnitude : Int) else x.magnitude

def lt (x y : Double) : Bool :=
  !x.isNaN && !y.isNaN && x.ordinal < y.ordinal

def le (x y : Double) : Bool :=
  !x.isNaN && !y.isNaN && x.ordinal ≤ y.ordinal

/-- Equality in the order: both zeros are equal, and what is not a number is
unequal to itself. -/
def eqv (x y : Double) : Bool :=
  !x.isNaN && !y.isNaN && x.ordinal = y.ordinal

/-- Flips the sign, the highest bit of the pattern. -/
def neg (x : Double) : Double := ⟨x.bits + 0x8000000000000000⟩

/-- The least double above `x`; infinity and what is not a number stay. -/
def successor (x : Double) : Double :=
  if x.isNaN || x.ordinal = infinite then x
  else if x.ordinal = 0 then ⟨1⟩
  else if x.negative then ⟨x.bits - 1⟩
  else ⟨x.bits + 1⟩

def sub (x y : Double) : Double := ofFloat (x.toFloat - y.toFloat)

/-- The middle of two bounds, or the lower one where the middle does not lie
strictly below the upper one. -/
def midpoint (lower upper : Double) : Double :=
  let middle := ofFloat (lower.toFloat + (upper.toFloat - lower.toFloat) / 2.0)
  if upper.le middle then lower else middle

/-- The double of a count; exact below `2 ^ 53`, which no count of this library
reaches, and cut to its leading bits above. -/
def ofNat (n : Nat) : Double :=
  if n = 0 then ⟨0⟩
  else
    let e := Nat.log2 n
    let leading := if e ≤ 52 then n <<< (52 - e) else n >>> (e - 52)
    ⟨UInt64.ofNat ((e + 1022) * exponentBit + leading)⟩

def ofInt (n : Int) : Double :=
  if n < 0 then (ofNat n.natAbs).neg else ofNat n.natAbs

def hexValue (c : Char) : Nat :=
  if c.isDigit then c.toNat - 48 else c.toNat - 87

/-- The double of a pattern in lower case hexadecimal digits. -/
def ofHex (digits : String) : Double :=
  ⟨UInt64.ofNat (digits.toList.foldl (fun n c => 16 * n + hexValue c) 0)⟩

/-- The pattern in sixteen lower case hexadecimal digits. -/
def hex (x : Double) : String :=
  let digits := String.ofList (Nat.toDigits 16 x.bits.toNat)
  Decimal.Digits.zeros (16 - digits.length) ++ digits

/-- The mantissa and exponent of a finite magnitude that is not zero. -/
def toBinary (x : Double) : Decimal.Binary :=
  let field : Nat := x.magnitude / exponentBit
  let fraction : Nat := x.magnitude % exponentBit
  if field = 0 then
    { mantissa := fraction, exponent := -1074, narrowBelow := false }
  else
    { mantissa := exponentBit + fraction, exponent := Int.ofNat field - 1075,
      narrowBelow := fraction = 0 && 1 < field }

/-- The fewest digits that read back, written by place; a zero keeps its sign. -/
def text (x : Double) : String :=
  if x.isNaN then "NaN"
  else
    let body :=
      if x.magnitude = infinite then "inf"
      else if x.magnitude = 0 then "0"
      else x.toBinary.shortest.positional
    if x.negative then "-" ++ body else body

end Double

end ConstraintSpace
