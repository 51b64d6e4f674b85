import ConstraintSpace.Domain.Ascending
import ConstraintSpace.Event

/-!
# Set domains

A domain of a set variable is a family of finite sets, held as the elements
that every set has (`glb`), the elements that some set may have (`lub`), and
the two bounds on the number of elements.  Where the bounds on the number leave
only one of the two element sets, the domain collapses to it.
-/

namespace ConstraintSpace

structure SetDomain where
  glb : List Int
  lub : List Int
  cardLower : Nat
  cardUpper : Nat
deriving DecidableEq, Repr

namespace SetDomain

def isFixed (d : SetDomain) : Bool := d.glb.length = d.lub.length

/-- The elements that are neither required nor excluded, in ascending order. -/
def unknown (d : SetDomain) : List Int := d.lub.filter fun x => !d.glb.contains x

/-- The number of undecided elements. -/
def size (d : SetDomain) : Nat := d.lub.length - d.glb.length

/-- Lets the bounds on the number of elements decide the open elements where
they can, and the decided elements fix the number. -/
def collapse (d : SetDomain) (events : EventSet) : SetDomain × EventSet :=
  let (d, events) :=
    if d.glb.length = d.cardUpper ∧ d.glb.length < d.lub.length then
      ({ d with lub := d.glb }, events.insert .upperBound)
    else if d.lub.length = d.cardLower ∧ d.glb.length < d.lub.length then
      ({ d with glb := d.lub }, events.insert .lowerBound)
    else (d, events)
  if d.isFixed then
    ({ d with cardLower := d.glb.length, cardUpper := d.glb.length }, events.insert .assign)
  else (d, events)

/-- The domain of the sets between `glb` and `lub` with a number of elements
between the two bounds. -/
def create (glb lub : List Int) (cardLower cardUpper : Nat) : SetDomain :=
  ({ glb, lub, cardLower := max cardLower glb.length,
     cardUpper := min cardUpper lub.length : SetDomain }.collapse .empty).1

/-- Requires an element. -/
def require (value : Int) (d : SetDomain) : Option (SetDomain × EventSet) :=
  if d.glb.contains value then some (d, .empty)
  else if !d.lub.contains value || d.cardUpper < d.glb.length + 1 then none
  else
    let glb := Ascending.insert value d.glb
    some ({ d with glb, cardLower := max d.cardLower glb.length }.collapse
      { EventSet.empty with lowerBound := true, removal := true })

/-- Forbids an element. -/
def forbid (value : Int) (d : SetDomain) : Option (SetDomain × EventSet) :=
  if !d.lub.contains value then some (d, .empty)
  else if d.glb.contains value || d.lub.length < d.cardLower + 1 then none
  else
    let lub := d.lub.filter (· ≠ value)
    some ({ d with lub, cardUpper := min d.cardUpper lub.length }.collapse
      { EventSet.empty with upperBound := true, removal := true })

def setCardLower (count : Nat) (d : SetDomain) : Option (SetDomain × EventSet) :=
  if count ≤ d.cardLower then some (d, .empty)
  else if d.cardUpper < count then none
  else some ({ d with cardLower := count }.collapse { EventSet.empty with removal := true })

def setCardUpper (count : Nat) (d : SetDomain) : Option (SetDomain × EventSet) :=
  if d.cardUpper ≤ count then some (d, .empty)
  else if count < d.cardLower then none
  else some ({ d with cardUpper := count }.collapse { EventSet.empty with removal := true })

/-- Drops with every narrowing that changes the domain. -/
def measure (d : SetDomain) : Nat :=
  (d.lub.length - d.glb.length) + (d.cardUpper - d.cardLower)

end SetDomain

end ConstraintSpace
