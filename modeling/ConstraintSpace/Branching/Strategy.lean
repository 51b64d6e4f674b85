/-!
# Strategies

The ways to select the view to branch on, and the named ways to select its
value.
-/

namespace ConstraintSpace

inductive Selector where
  | inputOrder
  | firstFail
  | antiFirstFail
  | smallest
  | largest
deriving DecidableEq, Repr

namespace Selector

def all : List Selector := [inputOrder, firstFail, antiFirstFail, smallest, largest]

def standard : Selector := inputOrder

def name : Selector → String
  | inputOrder => "input-order"
  | firstFail => "first-fail"
  | antiFirstFail => "anti-first-fail"
  | smallest => "smallest"
  | largest => "largest"

def ofName? (text : String) : Option Selector := all.find? (·.name = text)

/-- The selector of a name, where the standard one may be asked for. -/
def ofNameOrStandard? (text : String) : Option Selector :=
  if text = "default" then some standard else ofName? text

end Selector

inductive ValueStrategy where
  | min
  | max
  | median
  | split
  | random
deriving DecidableEq, Repr

namespace ValueStrategy

def all : List ValueStrategy := [min, max, median, split, random]

def standard : ValueStrategy := min

def name : ValueStrategy → String
  | min => "min"
  | max => "max"
  | median => "median"
  | split => "split"
  | random => "random"

def ofName? (text : String) : Option ValueStrategy := all.find? (·.name = text)

/-- The strategy of a name, where the standard one may be asked for. -/
def ofNameOrStandard? (text : String) : Option ValueStrategy :=
  if text = "default" then some standard else ofName? text

end ValueStrategy

/-- Which of two measures is better. -/
inductive Direction where
  | maximum
  | minimum
deriving DecidableEq, Repr

namespace Direction

def ofName? : String → Option Direction
  | "Maximum" => some maximum
  | "Minimum" => some minimum
  | _ => none

/-- Whether a candidate is strictly better than an incumbent in the order `lt`. -/
def prefers {α : Type} (lt : α → α → Bool) : Direction → α → α → Bool
  | maximum, candidate, incumbent => lt incumbent candidate
  | minimum, candidate, incumbent => lt candidate incumbent

end Direction

end ConstraintSpace
