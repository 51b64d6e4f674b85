import ConstraintSpace.Fault
import ConstraintSpace.Saturation

/-!
# Limits of domains

The values a variable may be created with.  They stay so far inside the 32-bit
integers that the neighbours of a value, and the sum of two set elements, are
again 32-bit integers.
-/

namespace ConstraintSpace.Limits

def integerMax : Int := highest32 - 1

def integerMin : Int := -integerMax

def elementMax : Int := integerMax / 2 - 1

def elementMin : Int := -elementMax

def checkInteger (value : Int) : Except SpaceError Unit :=
  if integerMin ≤ value ∧ value ≤ integerMax then .ok () else .error .outOfLimits

def checkElement (value : Int) : Except SpaceError Unit :=
  if elementMin ≤ value ∧ value ≤ elementMax then .ok () else .error .outOfLimits

def checkFloat (value : Double) : Except SpaceError Unit :=
  if value.isFinite then .ok () else .error .outOfLimits

/-- Runs a check on every value; the first refusal wins. -/
def checkAll (check : Int → Except SpaceError Unit) : List Int → Except SpaceError Unit
  | [] => .ok ()
  | value :: rest =>
    match check value with
    | .ok _ => checkAll check rest
    | .error e => .error e

end ConstraintSpace.Limits
