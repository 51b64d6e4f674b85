import ConstraintSpace.Double
import ConstraintSpace.Fault
import ConstraintSpace.Saturation

/-!
# Random numbers

A generator of 64-bit words with 256 bits of state (xoshiro256++), seeded with
eight words of a 32-bit permuted congruential generator.  Numbers in a range
are the high halves of products with the size of the range; a draw whose low
half lies above the largest multiple of the range is repeated, so that all
numbers are equally likely.
-/

namespace ConstraintSpace

structure Generator where
  s0 : UInt64
  s1 : UInt64
  s2 : UInt64
  s3 : UInt64
deriving DecidableEq, Repr

namespace Generator

def rotateLeft (x : UInt64) (n : UInt64) : UInt64 := (x <<< n) ||| (x >>> (64 - n))

def rotateRight32 (x : UInt32) (n : UInt32) : UInt32 :=
  (x >>> n) ||| (x <<< ((32 - n) % 32))

/-- One step of the seeding sequence: the next state and its word. -/
def seedStep (state : UInt64) : UInt64 × UInt32 :=
  let state := state * 6364136223846793005 + 11634580027462260723
  let word := (((state >>> 18) ^^^ state) >>> 27).toUInt32
  (state, rotateRight32 word (state >>> 59).toUInt32)

/-- Two steps of the seeding sequence, the first word in the low half. -/
def seedWord (state : UInt64) : UInt64 × UInt64 :=
  let (state, low) := seedStep state
  let (state, high) := seedStep state
  (state, low.toUInt64 ||| (high.toUInt64 <<< 32))

/-- Scrambles a counter; it fills the state where the seeding gives only zeros. -/
def scramble (counter : UInt64) : UInt64 :=
  let z := (counter ^^^ (counter >>> 30)) * 0xbf58476d1ce4e5b9
  let z := (z ^^^ (z >>> 27)) * 0x94d049bb133111eb
  z ^^^ (z >>> 31)

def golden : UInt64 := 0x9e3779b97f4a7c15

def ofSeed (seed : UInt64) : Generator :=
  let (state, s0) := seedWord seed
  let (state, s1) := seedWord state
  let (state, s2) := seedWord state
  let (_, s3) := seedWord state
  if s0 = 0 ∧ s1 = 0 ∧ s2 = 0 ∧ s3 = 0 then
    { s0 := scramble golden, s1 := scramble (2 * golden)
      s2 := scramble (3 * golden), s3 := scramble (4 * golden) }
  else { s0, s1, s2, s3 }

def next (g : Generator) : UInt64 × Generator :=
  let word := rotateLeft (g.s0 + g.s3) 23 + g.s0
  let s2 := g.s2 ^^^ g.s0
  let s3 := g.s3 ^^^ g.s1
  (word,
    { s0 := g.s0 ^^^ s3
      s1 := g.s1 ^^^ s2
      s2 := s2 ^^^ (g.s1 <<< 17)
      s3 := rotateLeft s3 45 })

/-- The high half of a word of 64 bits. -/
def next32 (g : Generator) : UInt32 × Generator :=
  let (word, g) := g.next
  ((word >>> 32).toUInt32, g)

/-- The largest low half that is accepted: the range is shifted up to the width. -/
def zone (width range : Nat) : Nat := range * Nat.pow 2 (width - 1 - range.log2) - 1

/-- Draws words of `width` bits until a low half lies in the zone, at most
`fuel` times. -/
def scaled (width range : Nat) (draw : Generator → Nat × Generator) :
    Nat → Generator → Nat × Generator
  | 0, g => (0, g)
  | fuel + 1, g =>
    let (word, g) := draw g
    if word * range % Nat.pow 2 width ≤ zone width range then
      (word * range / Nat.pow 2 width, g)
    else scaled width range draw fuel g

/-- More repetitions than any run of a program performs. -/
def patience : Nat := 1 <<< 62

/-- A number of at least `low` and below `high`. -/
def natBelow (low high : Nat) (g : Generator) : Except Breach (Nat × Generator) :=
  if low < high then
    let (n, g) := scaled 64 (high - low) (fun g => let (w, g) := g.next; (w.toNat, g)) patience g
    .ok (low + n, g)
  else .error .emptyRange

/-- A 32-bit integer from `low` to `high`. -/
def intWithin (low high : Int) (g : Generator) : Except Breach (Int × Generator) :=
  if high < low then .error .emptyRange
  else
    let range := (high - low + 1).toNat
    if range = Nat.pow 2 32 then
      let (word, g) := g.next32
      .ok (Int.bmod word.toNat (Nat.pow 2 32), g)
    else
      let (n, g) := scaled 32 range (fun g => let (w, g) := g.next32; (w.toNat, g)) patience g
      .ok (low + Int.ofNat n, g)

/-- True with the given probability; a certain event draws nothing. -/
def chance (probability : Double) (g : Generator) : Except Breach (Bool × Generator) :=
  let one := Double.ofNat 1
  if probability.eqv one then .ok (true, g)
  else if (Double.ofNat 0).le probability && probability.lt one then
    let bound := (probability.toFloat * 18446744073709551616.0).toUInt64
    let (word, g) := g.next
    .ok (word < bound, g)
  else .error .outOfRange

/-- A double of at least zero and below one, a multiple of `2 ^ -52`. -/
def fraction (g : Generator) : Double × Generator :=
  let (word, g) := g.next
  let bits := (0x3ff0000000000000 : UInt64) ||| (word >>> 12)
  (Double.ofFloat (Float.ofBits bits - 1.0), g)

end Generator

end ConstraintSpace
