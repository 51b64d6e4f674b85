import ConstraintSpace.Store

/-!
# Who watches what

For every variable and every event, the propagators to notify, each with the
number it gave to the view it watches the variable through.  A watcher stands
in a list at most once, in the order of subscription.
-/

namespace ConstraintSpace

structure Watcher where
  propagator : Nat
  localId : Nat
deriving DecidableEq, Repr

/-- The watchers of one variable by event. -/
structure Watchers where
  assign : List Watcher
  lowerBound : List Watcher
  upperBound : List Watcher
  removal : List Watcher
deriving DecidableEq, Repr

namespace Watchers

def empty : Watchers := { assign := [], lowerBound := [], upperBound := [], removal := [] }

def of (w : Watchers) : Event → List Watcher
  | .assign => w.assign
  | .lowerBound => w.lowerBound
  | .upperBound => w.upperBound
  | .removal => w.removal

def enlist (watcher : Watcher) (wanted : Bool) (list : List Watcher) : List Watcher :=
  if wanted && !list.contains watcher then list ++ [watcher] else list

def subscribe (w : Watchers) (events : EventSet) (watcher : Watcher) : Watchers :=
  { assign := enlist watcher events.assign w.assign
    lowerBound := enlist watcher events.lowerBound w.lowerBound
    upperBound := enlist watcher events.upperBound w.upperBound
    removal := enlist watcher events.removal w.removal }

def unsubscribe (w : Watchers) (propagator : Nat) : Watchers :=
  { assign := w.assign.filter (·.propagator ≠ propagator)
    lowerBound := w.lowerBound.filter (·.propagator ≠ propagator)
    upperBound := w.upperBound.filter (·.propagator ≠ propagator)
    removal := w.removal.filter (·.propagator ≠ propagator) }

/-- Changes the entry of a variable, which is made where there is none yet. -/
def update (table : Array Watchers) (id : Nat) (change : Watchers → Watchers) :
    Array Watchers :=
  let table :=
    if id < table.size then table else table ++ Array.replicate (id + 1 - table.size) empty
  table.modify id change

end Watchers

/-- A wish to hear of some events of a variable. -/
structure Subscription where
  target : Variable
  events : EventSet
  watcher : Watcher
deriving DecidableEq, Repr

structure WatchList where
  ints : Array Watchers
  floats : Array Watchers
  sets : Array Watchers
deriving DecidableEq, Repr

namespace WatchList

def empty : WatchList := { ints := #[], floats := #[], sets := #[] }

def of (w : WatchList) : Variable → Watchers
  | .int id => w.ints[id]?.getD .empty
  | .float id => w.floats[id]?.getD .empty
  | .set id => w.sets[id]?.getD .empty

/-- The watchers to notify of an event of a variable. -/
def watchers (w : WatchList) (event : Event) (v : Variable) : List Watcher := (w.of v).of event

def update (w : WatchList) (v : Variable) (change : Watchers → Watchers) : WatchList :=
  match v with
  | .int id => { w with ints := Watchers.update w.ints id change }
  | .float id => { w with floats := Watchers.update w.floats id change }
  | .set id => { w with sets := Watchers.update w.sets id change }

def subscribe (w : WatchList) (subscription : Subscription) : WatchList :=
  w.update subscription.target (·.subscribe subscription.events subscription.watcher)

def unsubscribe (w : WatchList) (propagator : Nat) (v : Variable) : WatchList :=
  w.update v (·.unsubscribe propagator)

end WatchList

end ConstraintSpace
