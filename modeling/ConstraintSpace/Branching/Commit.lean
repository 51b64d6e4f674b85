import ConstraintSpace.View.Any

/-!
# Committing to an alternative

A commit narrows the branched view according to the alternative.  Alternative 0
and alternative 1 split the domain at the selected value; a commit with more
alternatives repeats the last part.
-/

namespace ConstraintSpace

inductive IntCommit where
  | assignOrExclude
  | splitLower
  | splitUpper
  | multi (alternatives : Nat)
deriving DecidableEq, Repr

namespace IntCommit

/-- The commits to one of two parts. -/
def ofName? : String → Option IntCommit
  | "assign-or-exclude" => some assignOrExclude
  | "split-lower" => some splitLower
  | "split-upper" => some splitUpper
  | _ => none

def alternatives : IntCommit → Nat
  | multi n => n
  | _ => 2

/-- A part beyond the selected value starts at its neighbour, which has to be a
32-bit integer. -/
def commit (c : IntCommit) (alternative : Nat) (view : IntView) (value : Int) :
    Narrow Change :=
  match c with
  | assignOrExclude => if alternative = 0 then view.fix value else view.remove value
  | splitLower =>
    if alternative = 0 then view.setUpper value
    else if value = highest32 then throw (.breached .overflow)
    else view.setLower (value + 1)
  | splitUpper =>
    if alternative = 0 then view.setLower value
    else if value = lowest32 then throw (.breached .overflow)
    else view.setUpper (value - 1)
  | multi _ =>
    match alternative with
    | 0 => view.fix value
    | 1 => view.setUpper (clamp32 (value - 1))
    | _ => view.setLower (clamp32 (value + 1))

end IntCommit

inductive FloatCommit where
  | lowerFirst
  | upperFirst
deriving DecidableEq, Repr

namespace FloatCommit

def ofName? : String → Option FloatCommit
  | "float-lower-first" => some lowerFirst
  | "float-upper-first" => some upperFirst
  | _ => none

/-- The part above the selected value starts at its successor. -/
def commit (c : FloatCommit) (alternative : Nat) (view : FloatView) (value : Double) :
    Narrow Change :=
  match c with
  | lowerFirst =>
    if alternative = 0 then view.setUpper value else view.setLower value.successor
  | upperFirst =>
    if alternative = 0 then view.setLower value.successor else view.setUpper value

end FloatCommit

inductive SetCommit where
  | includeOrExclude
  | excludeOrInclude
deriving DecidableEq, Repr

namespace SetCommit

def ofName? : String → Option SetCommit
  | "include-or-exclude" => some includeOrExclude
  | "exclude-or-include" => some excludeOrInclude
  | _ => none

def commit (c : SetCommit) (alternative : Nat) (id : Nat) (element : Int) : Narrow Change :=
  let included :=
    match c with
    | includeOrExclude => decide (alternative = 0)
    | excludeOrInclude => decide (alternative ≠ 0)
  if included then Store.narrowSet id (SetDomain.require element)
  else Store.narrowSet id (SetDomain.forbid element)

end SetCommit

end ConstraintSpace
