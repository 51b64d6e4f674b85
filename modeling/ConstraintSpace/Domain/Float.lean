import ConstraintSpace.Double
import ConstraintSpace.Event

/-!
# Float domains

A domain of a float variable is the interval between two doubles, in the order
in which both zeros are equal.  The bounds are numbers; a new bound is one too.
-/

namespace ConstraintSpace

structure FloatDomain where
  lower : Double
  upper : Double
deriving DecidableEq, Repr

namespace FloatDomain

def isFixed (d : FloatDomain) : Bool := d.lower.eqv d.upper

def width (d : FloatDomain) : Double := d.upper.sub d.lower

def withAssign (d : FloatDomain) (events : EventSet) : FloatDomain × EventSet :=
  (d, if d.isFixed then events.insert .assign else events)

def setLower (value : Double) (d : FloatDomain) : Option (FloatDomain × EventSet) :=
  if value.le d.lower then some (d, .empty)
  else if d.upper.lt value then none
  else
    some ({ d with lower := value }.withAssign
      { EventSet.empty with lowerBound := true, removal := true })

def setUpper (value : Double) (d : FloatDomain) : Option (FloatDomain × EventSet) :=
  if d.upper.le value then some (d, .empty)
  else if value.lt d.lower then none
  else
    some ({ d with upper := value }.withAssign
      { EventSet.empty with upperBound := true, removal := true })

def fix (value : Double) (d : FloatDomain) : Option (FloatDomain × EventSet) :=
  if !(d.lower.le value && value.le d.upper) then none
  else if d.isFixed then some (d, .empty)
  else
    some ({ lower := value, upper := value },
      { assign := true, lowerBound := !value.eqv d.lower, upperBound := !value.eqv d.upper,
        removal := true })

/-- The number of doubles above the lower bound; drops with every narrowing
that changes the domain. -/
def measure (d : FloatDomain) : Nat := (d.upper.ordinal - d.lower.ordinal).toNat

end FloatDomain

end ConstraintSpace
