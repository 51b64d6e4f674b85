import ConstraintSpace.Store

/-!
# Float views

A float view is a variable or the negation of another float view, whose bounds
are the negated and exchanged bounds of the inner one.
-/

namespace ConstraintSpace

inductive FloatView where
  | var (id : Nat)
  | neg (inner : FloatView)
deriving DecidableEq, Repr

namespace FloatView

def base : FloatView → Nat
  | var id => id
  | neg inner => inner.base

def known (s : Store) (v : FloatView) : Bool := s.knows (.float v.base)

def bounds (s : Store) : FloatView → Double × Double
  | var id => ((s.float id).lower, (s.float id).upper)
  | neg inner =>
    let (lower, upper) := inner.bounds s
    (upper.neg, lower.neg)

def lower (s : Store) (v : FloatView) : Double := (v.bounds s).1

def upper (s : Store) (v : FloatView) : Double := (v.bounds s).2

def isFixed (s : Store) (v : FloatView) : Bool := (s.float v.base).isFixed

def size (s : Store) (v : FloatView) : Double := (s.float v.base).width

def setBound : FloatView → Side → Double → Narrow Change
  | var id, side, value => Store.narrowFloatBound id side value
  | neg inner, side, value => inner.setBound side.opposite value.neg

def setLower (v : FloatView) (value : Double) : Narrow Change := v.setBound .lower value

def setUpper (v : FloatView) (value : Double) : Narrow Change := v.setBound .upper value

def fix : FloatView → Double → Narrow Change
  | var id, value => Store.narrowFloat id (FloatDomain.fix value)
  | neg inner, value => inner.fix value.neg

def watch (events : EventSet) : FloatView → Nat × EventSet
  | var id => (id, events)
  | neg inner => inner.watch events.flip

def unpack (event : Event) : FloatView → Event
  | var _ => event
  | neg inner => (inner.unpack event).flip

def depth : FloatView → Nat
  | var _ => 0
  | neg inner => inner.depth + 1

def text : FloatView → String
  | var id => "FloatDomainId \x7b id: " ++ toString id ++ " \x7d"
  | neg inner => "FloatNegationView \x7b inner: " ++ inner.text ++ " \x7d"

/-- The `n`-fold negation of a variable. -/
def negated (id : Nat) : Nat → FloatView
  | 0 => .var id
  | n + 1 => .neg (negated id n)

end FloatView

end ConstraintSpace
