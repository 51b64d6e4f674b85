import ConstraintSpace.Domain.Float
import ConstraintSpace.Domain.Integer
import ConstraintSpace.Domain.Limits
import ConstraintSpace.Domain.Set

/-!
# Domains of new variables

A variable is created with bounds in order and within the limits of its kind.
The checks of the limits come before the check of the order.
-/

namespace ConstraintSpace

namespace IntDomain

def ofBounds (lower upper : Int) : Except SpaceError IntDomain := do
  Limits.checkInteger lower
  Limits.checkInteger upper
  if upper < lower then .error (.boundsOrder (.ofInt lower) (.ofInt upper))
  else .ok (interval lower upper)

def ofValues (values : List Int) : Except SpaceError IntDomain := do
  let values := Ascending.ofList values
  Limits.checkAll Limits.checkInteger values
  match ofAscending? values with
  | some domain => .ok domain
  | none => .error .tooFewArguments

end IntDomain

namespace FloatDomain

def ofBounds (lower upper : Double) : Except SpaceError FloatDomain := do
  Limits.checkFloat lower
  Limits.checkFloat upper
  if upper.lt lower then .error (.boundsOrder lower upper)
  else .ok { lower, upper }

end FloatDomain

namespace SetDomain

/-- The bounds on the number of elements of a set variable created without. -/
def anyCount : Nat × Nat := (0, 4294967295)

def ofBounds (glb lub : List Int) (cardLower cardUpper : Nat) :
    Except SpaceError SetDomain := do
  let glb := Ascending.ofList glb
  let lub := Ascending.ofList lub
  Limits.checkAll Limits.checkElement (glb ++ lub)
  if !glb.all fun x => lub.contains x then
    .error (.illegalOperation .lowerSetOutsideUpper)
  else
    let lower := max cardLower glb.length
    let upper := min cardUpper lub.length
    if upper < lower then .error (.boundsOrder (.ofNat lower) (.ofNat upper))
    else .ok (create glb lub lower upper)

end SetDomain

end ConstraintSpace
