import ConstraintSpace.View.Any

/-!
# Questions about domains

What a model may ask of a view: its bounds, its values, whether it is fixed, and
how an event looks through it.  A view of a variable that was never created has
no answer.
-/

namespace ConstraintSpace

inductive Query where
  | lower (view : IntView)
  | upper (view : IntView)
  | contains (view : IntView) (value : Int)
  | value (view : IntView)
  | values (view : IntView)
  | isTrue (view : IntView)
  | isFalse (view : IntView)
  | fixed (view : AnyView)
  | size (view : AnyView)
  | unpack (view : AnyView) (event : Event)
  | text (view : AnyView)
  | identity (view : AnyView)
  | floatLower (view : FloatView)
  | floatUpper (view : FloatView)
  | required (set : Nat) (element : Int)
  | possible (set : Nat) (element : Int)
  | glb (set : Nat)
  | lub (set : Nat)
  | unknown (set : Nat)
  | cardLower (set : Nat)
  | cardUpper (set : Nat)
deriving DecidableEq, Repr

inductive Reply where
  | int (value : Int)
  | maybe (value : Option Int)
  | list (values : List Int)
  | bool (value : Bool)
  | float (value : Double)
  | event (event : Event)
  | text (text : String)
  | identity (id : Option Nat) (text : String)
deriving DecidableEq, Repr

namespace Query

/-- The view that has to be of a created variable.  A value that is no image
under the view is not contained, whatever the variable. -/
def view? : Query → Option AnyView
  | lower v | upper v | value v | values v | isTrue v | isFalse v => some (.int v)
  | contains v x => if (v.source? x).isSome then some (.int v) else none
  | fixed v | size v => some v
  | floatLower v | floatUpper v => some (.float v)
  | required id _ | possible id _ | glb id | lub id | unknown id | cardLower id
  | cardUpper id => some (.set id)
  | unpack _ _ | text _ | identity _ => none

def reply (s : Store) : Query → Except Breach Reply
  | lower v => .ok (.int (v.lower s))
  | upper v => .ok (.int (v.upper s))
  | contains v x => .ok (.bool (v.contains s x))
  | value v => .ok (.maybe (v.value? s))
  | values v => .ok (.list (v.values s))
  | isTrue v => .ok (.bool (v.isTrue s))
  | isFalse v => .ok (.bool (v.isFalse s))
  | fixed v => .ok (.bool (v.isFixed s))
  | size v => .ok (.float (v.size s))
  | unpack v event =>
    match v.unpack event with
    | some event => .ok (.event event)
    | none => .error .silentView
  | text v =>
    match v.text? with
    | some shown => .ok (.text shown)
    | none => .error .overflow
  | identity v =>
    match v.text? with
    | some shown => .ok (.identity v.base? shown)
    | none => .error .overflow
  | floatLower v => .ok (.float (v.lower s))
  | floatUpper v => .ok (.float (v.upper s))
  | required id element => .ok (.bool ((s.set id).glb.contains element))
  | possible id element => .ok (.bool ((s.set id).lub.contains element))
  | glb id => .ok (.list (s.set id).glb)
  | lub id => .ok (.list (s.set id).lub)
  | unknown id => .ok (.list (s.set id).unknown)
  | cardLower id => .ok (.int (s.set id).cardLower)
  | cardUpper id => .ok (.int (s.set id).cardUpper)

def answer (s : Store) (q : Query) : Except Breach Reply :=
  match q.view? with
  | some view => if view.known s then q.reply s else .error .missingVariable
  | none => q.reply s

end Query

end ConstraintSpace
