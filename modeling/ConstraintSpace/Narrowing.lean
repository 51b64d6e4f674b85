import ConstraintSpace.View.Any

/-!
# Narrowings as data

One step of narrowing a view.  Scripts of propagators and the posts of a model
are lists of them.
-/

namespace ConstraintSpace

inductive Narrowing where
  | lower (view : IntView) (value : Int)
  | upper (view : IntView) (value : Int)
  | remove (view : IntView) (value : Int)
  | fix (view : IntView) (value : Int)
  | floatLower (view : FloatView) (value : Double)
  | floatUpper (view : FloatView) (value : Double)
  | floatFix (view : FloatView) (value : Double)
  | require (set : Nat) (element : Int)
  | forbid (set : Nat) (element : Int)
  | cardLower (set : Nat) (count : Nat)
  | cardUpper (set : Nat) (count : Nat)
deriving DecidableEq, Repr

namespace Narrowing

def apply : Narrowing → Narrow Change
  | lower view value => view.setLower value
  | upper view value => view.setUpper value
  | remove view value => view.remove value
  | fix view value => view.fix value
  | floatLower view value => view.setLower value
  | floatUpper view value => view.setUpper value
  | floatFix view value => view.fix value
  | require set element => Store.narrowSet set (SetDomain.require element)
  | forbid set element => Store.narrowSet set (SetDomain.forbid element)
  | cardLower set count => Store.narrowSet set (SetDomain.setCardLower count)
  | cardUpper set count => Store.narrowSet set (SetDomain.setCardUpper count)

end Narrowing

/-- How one narrowing of a post ended. -/
inductive Outcome where
  | changed (change : Change)
  | emptied
deriving DecidableEq, Repr

def Outcome.name : Outcome → String
  | changed change => change.name
  | emptied => "EmptyDomain"

namespace Narrowing

/-- Applies narrowings in order.  One that would empty a domain ends the post,
unless it keeps going.  The outcomes stand in order; a breach ends everything. -/
def applyAll (keepGoing : Bool) :
    List Narrowing → Store → List Outcome × Except Misstep Unit × Store
  | [], s => ([], .ok (), s)
  | narrowing :: rest, s =>
    match narrowing.apply s with
    | .ok change s =>
      let (outcomes, result) := applyAll keepGoing rest s
      (.changed change :: outcomes, result)
    | .error .emptied s =>
      if keepGoing then
        let (outcomes, result) := applyAll keepGoing rest s
        (.emptied :: outcomes, result)
      else ([.emptied], .error .emptied, s)
    | .error (.breached breach) s => ([], .error (.breached breach), s)

end Narrowing

end ConstraintSpace
