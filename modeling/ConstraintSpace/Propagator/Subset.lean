import ConstraintSpace.Propagator.Status
import ConstraintSpace.Store

/-!
# Inclusion of one set variable in another

The propagator for `a ⊆ b` moves required elements from `a` to `b`, forbids in
`a` what `b` cannot have, and passes the bounds on the number of elements, until
a round changes nothing.  It counts the elements it required and forbade.
-/

namespace ConstraintSpace

/-- What the propagator of an inclusion has done so far. -/
structure SubsetCounts where
  included : Nat
  excluded : Nat
deriving DecidableEq, Repr

namespace Subset

/-- A computation that narrows domains and counts. -/
abbrev Work := EStateM Misstep (Store × SubsetCounts)

def narrow {α : Type} (step : Narrow α) : Work α :=
  fun (s, counts) =>
    match step s with
    | .ok x s => .ok x (s, counts)
    | .error misstep s => .error misstep (s, counts)

def requireAll (b : Nat) : List Int → Work Unit
  | [] => pure ()
  | x :: rest => do
    let _ ← narrow (Store.narrowSet b (SetDomain.require x))
    modify fun (s, counts) => (s, { counts with included := counts.included + 1 })
    requireAll b rest

def forbidAll (a : Nat) : List Int → Work Unit
  | [] => pure ()
  | x :: rest => do
    let _ ← narrow (Store.narrowSet a (SetDomain.forbid x))
    modify fun (s, counts) => (s, { counts with excluded := counts.excluded + 1 })
    forbidAll a rest

/-- The elements required of `a` and not of `b`. -/
def missing (s : Store) (a b : Nat) : List Int :=
  (s.set a).glb.filter fun x => !(s.set b).glb.contains x

/-- The elements possible in `a` and not in `b`. -/
def surplus (s : Store) (a b : Nat) : List Int :=
  (s.set a).lub.filter fun x => !(s.set b).lub.contains x

/-- One round; says whether it changed anything. -/
def round (a b : Nat) : Work Bool := do
  let toRequire := missing (← get).1 a b
  requireAll b toRequire
  let toForbid := surplus (← get).1 a b
  forbidAll a toForbid
  let top := ((← get).1.set b).cardUpper
  let fewer ← narrow (Store.narrowSet a (SetDomain.setCardUpper top))
  let bottom := ((← get).1.set a).cardLower
  let more ← narrow (Store.narrowSet b (SetDomain.setCardLower bottom))
  pure (!toRequire.isEmpty || !toForbid.isEmpty || fewer ≠ .none || more ≠ .none)

/-- Rounds until one changes nothing, at most `fuel` of them. -/
def rounds (a b : Nat) : Nat → Work Unit
  | 0 => pure ()
  | fuel + 1 => do
    if ← round a b then rounds a b fuel else pure ()

/-- Every round but the last lowers the measure of one of the two domains. -/
def enough (s : Store) (a b : Nat) : Nat := (s.set a).measure + (s.set b).measure + 1

def entailed (s : Store) (a b : Nat) : Bool :=
  (s.set a).lub.all fun x => (s.set b).glb.contains x

def propagate (a b : Nat) : Work Status := do
  rounds a b (enough (← get).1 a b)
  pure (if entailed (← get).1 a b then .subsumed else .fix)

end Subset

end ConstraintSpace
