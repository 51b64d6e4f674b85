import ConstraintSpace.Saturation
import ConstraintSpace.Store

/-!
# Integer views

A view reads and narrows an integer variable through a transformation.  A view
is a variable, a constant, an affine image `scale * x + offset` of another view
with a scale that is not zero, or a truth value over a variable of 0 and 1.
Coefficients saturate at the 64-bit limits and images are clamped to 32 bits.
-/

namespace ConstraintSpace

inductive IntView where
  | var (id : Nat)
  | const (value : Int)
  | affine (inner : IntView) (scale offset : Int)
  | literal (image : IntView)
deriving DecidableEq, Repr

namespace IntView

/-- The image of a value under a scale and an offset. -/
def image (scale offset x : Int) : Int :=
  clamp32 (clamp64 (clamp64 (scale * x) + offset))

/-- The bound of the inner view that keeps exactly the values whose image keeps
to `value`; there is none where the division leaves the 64-bit range. -/
def preimage (side : Side) (scale offset value : Int) : Option Int :=
  let shifted := clamp64 (value - offset)
  if scale = -1 ∧ shifted = lowest64 then none
  else
    match side with
    | .lower => some (clamp32 (ceilDiv shifted scale))
    | .upper => some (clamp32 (floorDiv shifted scale))

/-- The value of the inner view whose image is exactly `value`. -/
def preimage? (scale offset value : Int) : Option Int :=
  let shifted := value - offset
  if ¬Fits64 shifted ∨ (scale = -1 ∧ shifted = lowest64) then none
  else
    let inner := Int.tdiv shifted scale
    if inner * scale = shifted ∧ Fits32 inner then some inner else none

/-- The variable under the view; a constant has none. -/
def base? : IntView → Option Nat
  | var id => some id
  | const _ => none
  | affine inner _ _ => inner.base?
  | literal image => image.base?

def known (s : Store) (v : IntView) : Bool :=
  match v.base? with
  | some id => s.knows (.int id)
  | none => true

def bounds (s : Store) : IntView → Int × Int
  | var id => ((s.int id).lower, (s.int id).upper)
  | const value => (value, value)
  | affine inner scale offset =>
    let (lower, upper) := inner.bounds s
    if scale < 0 then (image scale offset upper, image scale offset lower)
    else (image scale offset lower, image scale offset upper)
  | literal image => image.bounds s

def lower (s : Store) (v : IntView) : Int := (v.bounds s).1

def upper (s : Store) (v : IntView) : Int := (v.bounds s).2

def isFixed (s : Store) (v : IntView) : Bool :=
  match v.base? with
  | some id => (s.int id).isFixed
  | none => true

def size (s : Store) (v : IntView) : Nat :=
  match v.base? with
  | some id => (s.int id).size
  | none => 1

def value? (s : Store) (v : IntView) : Option Int :=
  if v.isFixed s then some (v.lower s) else none

def contains (s : Store) : IntView → Int → Bool
  | var id, value => (s.int id).contains value
  | const n, value => value = n
  | affine inner scale offset, value =>
    match preimage? scale offset value with
    | some x => inner.contains s x
    | none => false
  | literal image, value => image.contains s value

/-- The value at the bottom of the view whose image is exactly `value`. -/
def source? : IntView → Int → Option Int
  | var _, value => some value
  | const _, value => some value
  | affine inner scale offset, value => (preimage? scale offset value).bind inner.source?
  | literal image, value => image.source? value

/-- The values in the order of the values of the variable. -/
def values (s : Store) : IntView → List Int
  | var id => (s.int id).values
  | const value => [value]
  | affine inner scale offset => (inner.values s).map (image scale offset)
  | literal image => image.values s

/-- Moves one bound; through a negative scale it is the opposite bound of the
inner view that moves. -/
def setBound : IntView → Side → Int → Narrow Change
  | var id, side, value => Store.narrowInt id (IntDomain.setBound side value)
  | const n, .lower, value => if n < value then throw .emptied else pure .none
  | const n, .upper, value => if value < n then throw .emptied else pure .none
  | affine inner scale offset, side, value =>
    let side := if scale < 0 then side.opposite else side
    match preimage side scale offset value with
    | some x => inner.setBound side x
    | none => throw (.breached .overflow)
  | literal image, side, value => image.setBound side value

def setLower (v : IntView) (value : Int) : Narrow Change := v.setBound .lower value

def setUpper (v : IntView) (value : Int) : Narrow Change := v.setBound .upper value

def remove : IntView → Int → Narrow Change
  | var id, value => Store.narrowInt id (IntDomain.remove value)
  | const n, value => if value = n then throw .emptied else pure .none
  | affine inner scale offset, value =>
    match preimage? scale offset value with
    | some x => inner.remove x
    | none => pure .none
  | literal image, value => image.remove value

def fix : IntView → Int → Narrow Change
  | var id, value => Store.narrowInt id (IntDomain.fix value)
  | const n, value => if value = n then pure .none else throw .emptied
  | affine inner scale offset, value =>
    match preimage? scale offset value with
    | some x => inner.fix x
    | none => throw .emptied
  | literal image, value => image.fix value

/-- What to watch of which variable to hear of the events of the view. -/
def watch (events : EventSet) : IntView → Option (Nat × EventSet)
  | var id => some (id, events)
  | const _ => none
  | affine inner scale _ => inner.watch (if scale < 0 then events.flip else events)
  | literal image => image.watch events

/-- The event of the view behind an event of its variable. -/
def unpack (event : Event) : IntView → Option Event
  | var _ => some event
  | const _ => none
  | affine inner scale _ =>
    if scale < 0 then (inner.unpack event).map Event.flip else inner.unpack event
  | literal image => image.unpack event

/-- Text of a view; there is none where an offset has no positive counterpart
of 64 bits. -/
def text? : IntView → Option String
  | var id => some ("x" ++ toString id)
  | const value => some (toString value)
  | affine inner scale offset => do
    let body ← inner.text?
    let head :=
      if scale = -1 then "-"
      else if scale = 1 then ""
      else toString scale ++ " * "
    if offset = lowest64 then none
    else
      let tail :=
        if offset < 0 then " - " ++ toString (-offset)
        else if offset = 0 then ""
        else " + " ++ toString offset
      some (head ++ "(" ++ body ++ ")" ++ tail)
  | literal image => do
    let body ← image.text?
    some ("Literal \x7b integer_variable: " ++ body ++ " \x7d")

/-! ### Building views -/

def identity (v : IntView) : IntView := .affine v 1 0

/-- A view over a variable of 0 and 1 that is true at 1. -/
def truth (id : Nat) : IntView := .literal (identity (.var id))

/-- Nests a view in an affine one. -/
def nest (scale offset : Int) (v : IntView) : Except SpaceError IntView :=
  if scale = 0 then .error .zeroScale else .ok (.affine v scale offset)

/-- The multiple of a view: within one affine view it multiplies out, and a
constant is multiplied itself. -/
def scaled (factor : Int) : IntView → Except SpaceError IntView
  | affine inner scale offset =>
    if factor = 0 then .error .zeroScale
    else .ok (.affine inner (clamp64 (scale * factor)) (clamp64 (offset * factor)))
  | const value =>
    if factor = 0 then .error .zeroScale
    else if Fits32 (value * factor) then .ok (.const (value * factor))
    else .error .outOfLimits
  | var id => nest factor 0 (.var id)
  | literal image => nest factor 0 (.literal image)

def plus (shift : Int) : IntView → IntView
  | affine inner scale offset => .affine inner scale (clamp64 (offset + shift))
  | const value => .const (clamp32 (value + shift))
  | var id => .affine (.var id) 1 shift
  | literal image => .affine (.literal image) 1 shift

/-- The opposite truth value. -/
def negation : IntView → IntView
  | literal (affine inner scale offset) =>
    .literal (.affine inner (clamp64 (-scale)) (clamp64 (clamp64 (-offset) + 1)))
  | v => v

def isTrue (s : Store) (v : IntView) : Bool := v.lower s = 1

def isFalse (s : Store) (v : IntView) : Bool := v.upper s = 0

/-- How a view is built, without its numbers. -/
inductive Shape where
  | var
  | const
  | affine (inner : Shape)
  | literal
deriving DecidableEq, Repr

def shape : IntView → Shape
  | var _ => .var
  | const _ => .const
  | affine inner _ _ => .affine inner.shape
  | literal _ => .literal

/-- Views of one shape: where plain variables stand beside affine views of
variables, all become affine. -/
def alike (views : List IntView) : List IntView :=
  if views.all fun v => v.shape = .var then views
  else views.map fun v => if v.shape = .var then identity v else v

end IntView

end ConstraintSpace
