import ConstraintSpace.Event

/-!
# Integer domains

A domain of an integer variable is a finite set of integers, held as its two
bounds and the holes strictly between them.  The holes ascend, are disjoint and
leave at least one value between each other, and their total size is kept, so
that equal sets are equal domains.  A narrowing gives no domain where it would
leave no value.
-/

namespace ConstraintSpace

/-- The removed values from `first` to `last`. -/
structure Hole where
  first : Int
  last : Int
deriving DecidableEq, Repr

namespace Hole

def size (hole : Hole) : Nat := (hole.last - hole.first + 1).toNat

def covers (hole : Hole) (value : Int) : Bool := hole.first ≤ value && value ≤ hole.last

/-- The number of values in disjoint holes. -/
def total : List Hole → Nat
  | [] => 0
  | hole :: rest => hole.size + total rest

end Hole

/-- The integers from `first` to `last`. -/
def span (first last : Int) : List Int :=
  (List.range (last + 1 - first).toNat).map fun i => first + Int.ofNat i

/-- One of the two bounds of a domain. -/
inductive Side where
  | lower
  | upper
deriving DecidableEq, Repr

def Side.opposite : Side → Side
  | lower => upper
  | upper => lower

structure IntDomain where
  lower : Int
  upper : Int
  holes : List Hole
  removed : Nat
deriving DecidableEq, Repr

namespace IntDomain

def interval (lower upper : Int) : IntDomain :=
  { lower, upper, holes := [], removed := 0 }

/-- The holes between the members of an ascending list. -/
def gaps : List Int → List Hole
  | x :: y :: rest =>
    if x + 1 < y then { first := x + 1, last := y - 1 } :: gaps (y :: rest)
    else gaps (y :: rest)
  | _ => []

/-- The domain of the members of an ascending list; there is none of no values. -/
def ofAscending? (values : List Int) : Option IntDomain :=
  match values.head?, values.getLast? with
  | some lower, some upper =>
    let holes := gaps values
    some { lower, upper, holes, removed := Hole.total holes }
  | _, _ => none

def holeAt? (d : IntDomain) (value : Int) : Option Hole :=
  d.holes.find? (·.covers value)

def contains (d : IntDomain) (value : Int) : Bool :=
  d.lower ≤ value && value ≤ d.upper && (d.holeAt? value).isNone

def isFixed (d : IntDomain) : Bool := d.lower = d.upper

def size (d : IntDomain) : Nat := (d.upper - d.lower + 1).toNat - d.removed

/-- The members of the runs between the holes, from `start` on. -/
def valuesFrom (start upper : Int) : List Hole → List Int
  | [] => span start upper
  | hole :: rest => span start (hole.first - 1) ++ valuesFrom (hole.last + 1) upper rest

/-- The members in ascending order. -/
def values (d : IntDomain) : List Int := valuesFrom d.lower d.upper d.holes

/-- Keeps the holes that satisfy `keep` and accounts for the others. -/
def dropHoles (d : IntDomain) (keep : Hole → Bool) : IntDomain :=
  { d with
    holes := d.holes.filter keep
    removed := d.removed - Hole.total (d.holes.filter fun hole => !keep hole) }

def withAssign (d : IntDomain) (events : EventSet) : IntDomain × EventSet :=
  (d, if d.isFixed then events.insert .assign else events)

/-- Removes the members below `value`; a bound inside a hole moves past it. -/
def setLower (value : Int) (d : IntDomain) : Option (IntDomain × EventSet) :=
  if value ≤ d.lower then some (d, .empty)
  else if d.upper < value then none
  else
    let bound := match d.holeAt? value with
      | some hole => hole.last + 1
      | none => value
    let narrowed := d.dropHoles fun hole => bound ≤ hole.first
    some ({ narrowed with lower := bound }.withAssign
      { EventSet.empty with lowerBound := true, removal := true })

/-- Removes the members above `value`; a bound inside a hole moves before it. -/
def setUpper (value : Int) (d : IntDomain) : Option (IntDomain × EventSet) :=
  if d.upper ≤ value then some (d, .empty)
  else if value < d.lower then none
  else
    let bound := match d.holeAt? value with
      | some hole => hole.first - 1
      | none => value
    let narrowed := d.dropHoles fun hole => hole.first < bound
    some ({ narrowed with upper := bound }.withAssign
      { EventSet.empty with upperBound := true, removal := true })

def setBound : Side → Int → IntDomain → Option (IntDomain × EventSet)
  | .lower => setLower
  | .upper => setUpper

/-- Adds one value to the holes and joins it to the holes that touch it. -/
def pierce (value : Int) : List Hole → List Hole
  | [] => [{ first := value, last := value }]
  | hole :: rest =>
    if hole.last + 1 < value then hole :: pierce value rest
    else if hole.last + 1 = value then
      match rest with
      | [] => [{ hole with last := value }]
      | next :: later =>
        if next.first = value + 1 then { first := hole.first, last := next.last } :: later
        else { hole with last := value } :: next :: later
    else if hole.first = value + 1 then { hole with first := value } :: rest
    else { first := value, last := value } :: hole :: rest

/-- Removes one value; at a bound the bound moves. -/
def remove (value : Int) (d : IntDomain) : Option (IntDomain × EventSet) :=
  if !d.contains value then some (d, .empty)
  else if d.isFixed then none
  else if value = d.lower then d.setLower (value + 1)
  else if value = d.upper then d.setUpper (value - 1)
  else
    some ({ d with holes := pierce value d.holes, removed := d.removed + 1 },
      { EventSet.empty with removal := true })

/-- Removes all values but one. -/
def fix (value : Int) (d : IntDomain) : Option (IntDomain × EventSet) :=
  if !d.contains value then none
  else if d.isFixed then some (d, .empty)
  else
    some (interval value value,
      { assign := true, lowerBound := value ≠ d.lower, upperBound := value ≠ d.upper,
        removal := true })

end IntDomain

end ConstraintSpace
