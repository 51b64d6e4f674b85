import ConstraintSpace.Branching.Choice
import ConstraintSpace.Branching.Strategy
import ConstraintSpace.Random
import ConstraintSpace.Shared
import ConstraintSpace.View.Any

/-!
# Selecting a view and a value

A selector picks a view that is not fixed: the first one, or the earliest one
whose size or bound is extreme.  A value selection then picks a value of its
domain.  Selections that draw or look up carry the state they need.
-/

namespace ConstraintSpace

namespace Selector

/-- The earliest of the best, among those that have a measure. -/
def bestFrom {α : Type} (better : α → α → Bool) :
    Nat → Option (Nat × α) → List (Option α) → Option (Nat × α)
  | _, best, [] => best
  | index, best, none :: rest => bestFrom better (index + 1) best rest
  | index, none, some measure :: rest =>
    bestFrom better (index + 1) (some (index, measure)) rest
  | index, some best, some measure :: rest =>
    bestFrom better (index + 1)
      (some (if better measure best.2 then (index, measure) else best)) rest

def best? {α : Type} (better : α → α → Bool) (measures : List (Option α)) : Option Nat :=
  (bestFrom better 0 none measures).map Prod.fst

/-- The measure of every view that is not fixed. -/
def measures {α : Type} (s : Store) (measure : AnyView → α) (views : List AnyView) :
    List (Option α) :=
  views.map fun view => if view.isFixed s then none else some (measure view)

def lowerOf (s : Store) : AnyView → Int
  | .int view => view.lower s
  | _ => 0

def upperOf (s : Store) : AnyView → Int
  | .int view => view.upper s
  | _ => 0

/-- The position of the view to branch on; there is none where all are fixed. -/
def select (selector : Selector) (s : Store) (views : List AnyView) : Option Nat :=
  match selector with
  | inputOrder => views.findIdx? fun view => !view.isFixed s
  | firstFail =>
    best? (Direction.minimum.prefers Double.lt) (measures s (AnyView.size s) views)
  | antiFirstFail =>
    best? (Direction.maximum.prefers Double.lt) (measures s (AnyView.size s) views)
  | smallest =>
    best? (Direction.minimum.prefers fun x y => x < y) (measures s (lowerOf s) views)
  | largest =>
    best? (Direction.maximum.prefers fun x y => x < y) (measures s (upperOf s) views)

/-- Whether the selection looks at created variables only. -/
def sound (selector : Selector) (s : Store) (views : List AnyView) : Bool :=
  match selector with
  | inputOrder =>
    match views.find? fun view => !view.isFixed s with
    | some view => view.known s
    | none => true
  | _ => views.all (·.known s)

end Selector

/-- How to pick a value of an integer view. -/
inductive IntSelection where
  | min
  | max
  | median
  | split
  | random (generator : Generator)
  | drawn (draws : List Nat) (position : Nat)
  | preferred (table : Shared (List (IntView × Int)))
deriving DecidableEq, Repr

namespace IntSelection

/-- The selections that carry nothing. -/
def ofName? : String → Option IntSelection
  | "min" => some .min
  | "max" => some .max
  | "median" => some .median
  | "split" => some .split
  | _ => none

/-- The value of the table for a view; a later entry overrides. -/
def preference? (view : IntView) (table : List (IntView × Int)) : Option Int :=
  table.reverse.lookup view

/-- The value and the selection to use next. -/
def select (selection : IntSelection) (s : Store) (view : IntView) :
    Except Breach (Int × IntSelection) :=
  match selection with
  | min => .ok (view.lower s, .min)
  | max => .ok (view.upper s, .max)
  | median =>
    let values := view.values s
    .ok (values[values.length / 2]?.getD 0, .median)
  | split => .ok ((view.lower s + view.upper s).fdiv 2, .split)
  | random generator =>
    let values := view.values s
    match generator.natBelow 0 values.length with
    | .ok (index, generator) => .ok (values[index]?.getD 0, .random generator)
    | .error breach => .error breach
  | drawn draws position =>
    let values := view.values s
    match draws[position % draws.length]? with
    | some draw =>
      .ok (values[draw % values.length]?.getD 0, .drawn draws (position + 1))
    | none => .error .scriptEnded
  | preferred table =>
    match preference? view table.content with
    | some value =>
      .ok (if view.contains s value then value else view.lower s, .preferred table)
    | none => .ok (view.lower s, .preferred table)

/-- Whether the selection is told of copies and of its disposal. -/
def notices : IntSelection → Bool
  | preferred _ => true
  | _ => false

def onCopy (selection : IntSelection) (context : CopyContext) : IntSelection × CopyContext :=
  match selection with
  | preferred table =>
    let (table, context) := context.copyShared table
    (.preferred table, context)
  | selection => (selection, context)

end IntSelection

/-- How to pick an undecided element of a set variable. -/
inductive SetSelection where
  | minUnknown
  | maxUnknown
deriving DecidableEq, Repr

namespace SetSelection

def ofName? : String → Option SetSelection
  | "min-unknown" => some minUnknown
  | "max-unknown" => some maxUnknown
  | _ => none

def select (selection : SetSelection) (s : Store) (id : Nat) : Except Breach Int :=
  let candidate :=
    match selection with
    | minUnknown => (s.set id).unknown.head?
    | maxUnknown => (s.set id).unknown.getLast?
  match candidate with
  | some element => .ok element
  | none => .error .nothingToSelect

end SetSelection

/-- The middle of the domain of a float view. -/
def FloatView.midpoint (s : Store) (view : FloatView) : Double :=
  Double.midpoint (view.lower s) (view.upper s)

end ConstraintSpace
