import ConstraintSpace.Propagator.Status
import ConstraintSpace.View.Float
import ConstraintSpace.View.Integer

/-!
# Comparisons of two views

One pass of the propagators for `a ≠ b` and `a ≤ b` over integer views, and for
`a ≤ b` over float views.  Each pass reaches its own fixpoint where its two views
are of different variables.
-/

namespace ConstraintSpace

namespace NotEqual

/-- Waits until one view is fixed and then removes its value from the other. -/
def propagate (a b : IntView) : Narrow Status := do
  let s ← get
  let (aLower, aUpper) := a.bounds s
  let (bLower, bUpper) := b.bounds s
  if aUpper < bLower ∨ bUpper < aLower then
    pure .subsumed
  else if aLower = aUpper then do
    let _ ← b.remove aLower
    pure .subsumed
  else if bLower = bUpper then do
    let _ ← a.remove bLower
    pure .subsumed
  else
    pure .fix

end NotEqual

namespace LessOrEqual

/-- Keeps `a` below the upper bound of `b`, and `b` above the lower bound of `a`. -/
def propagate (a b : IntView) : Narrow Status := do
  let top := b.upper (← get)
  let _ ← a.setUpper top
  let bottom := a.lower (← get)
  let _ ← b.setLower bottom
  let s ← get
  pure (if a.upper s ≤ b.lower s then .subsumed else .fix)

end LessOrEqual

namespace FloatLessOrEqual

def propagate (a b : FloatView) : Narrow Status := do
  let top := b.upper (← get)
  let _ ← a.setUpper top
  let bottom := a.lower (← get)
  let _ ← b.setLower bottom
  let s ← get
  pure (if (a.upper s).le (b.lower s) then .subsumed else .fix)

end FloatLessOrEqual

end ConstraintSpace
