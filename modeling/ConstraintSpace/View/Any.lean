import ConstraintSpace.View.Float
import ConstraintSpace.View.Integer

/-!
# Views of any kind

What propagators and branchers ask of a view whatever its values are: whether
it is fixed, how large its domain is, and how the events of its variable look
through it.  A set view is the set variable itself.
-/

namespace ConstraintSpace

inductive AnyView where
  | int (view : IntView)
  | float (view : FloatView)
  | set (id : Nat)
deriving DecidableEq, Repr

namespace AnyView

/-- The number of the variable; a constant has none. -/
def base? : AnyView → Option Nat
  | int view => view.base?
  | float view => some view.base
  | set id => some id

def known (s : Store) : AnyView → Bool
  | int view => view.known s
  | float view => view.known s
  | set id => s.knows (.set id)

def isFixed (s : Store) : AnyView → Bool
  | int view => view.isFixed s
  | float view => view.isFixed s
  | set id => (s.set id).isFixed

/-- The size of the domain: a number of values, the width of an interval, or a
number of undecided elements. -/
def size (s : Store) : AnyView → Double
  | int view => .ofNat (view.size s)
  | float view => view.size s
  | set id => .ofNat (s.set id).size

def watch (events : EventSet) : AnyView → Option (Variable × EventSet)
  | int view => (view.watch events).map fun (id, events) => (.int id, events)
  | float view => let (id, events) := view.watch events; some (.float id, events)
  | set id => some (.set id, events)

def unpack (event : Event) : AnyView → Option Event
  | int view => view.unpack event
  | float view => some (view.unpack event)
  | set _ => some event

def text? : AnyView → Option String
  | int view => view.text?
  | float view => some view.text
  | set id => some ("SetDomainId \x7b id: " ++ toString id ++ " \x7d")

end AnyView

end ConstraintSpace
