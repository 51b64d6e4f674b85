import ConstraintSpace.Search
import ConstraintSpace.Space.Modeling

/-!
# The queens puzzle

A board of `n` columns has one variable for each column, the row of its queen.
No two queens share a row or a diagonal: for any two columns the rows differ,
and so do the rows shifted by the numbers of the columns, up and down.
-/

namespace ConstraintSpace

/-- How to branch on the queens. -/
structure QueensBranching where
  selector : Selector
  value : ValueStrategy
  seed : Nat
deriving DecidableEq, Repr

structure Queens where
  space : Space
  size : Nat

namespace Queens

def addRows (size : Nat) : Nat → Operation Unit
  | 0 => pure ()
  | more + 1 => do
    let _ ← Space.newInt 0 (Int.ofNat size - 1)
    addRows size more

/-- The constraints between the queens of two columns. -/
def apart (i j : Nat) : List Propagator :=
  let a := IntView.var i
  let b := IntView.var j
  [.notEqual a b,
    .notEqual (a.plus i) (b.plus j),
    .notEqual (a.plus (-(i : Int))) (b.plus (-(j : Int)))]

/-- All pairs of columns in order. -/
def pairs (size : Nat) : List (Nat × Nat) :=
  (List.range size).flatMap fun i =>
    (List.range' (i + 1) (size - (i + 1))).map fun j => (i, j)

def constraints (size : Nat) : List Propagator :=
  (pairs size).flatMap fun (i, j) => apart i j

def addAll : List Propagator → Operation Unit
  | [] => pure ()
  | p :: rest => do
    let _ ← Space.addPropagator p none
    addAll rest

def branching (size : Nat) (b : QueensBranching) : Branching :=
  let rows := (List.range size).map IntView.var
  match b.value with
  | .min => .int rows .min .assignOrExclude
  | .max => .int rows .max .assignOrExclude
  | .median => .int rows .median .assignOrExclude
  | .split => .int rows .split .splitLower
  | .random => .int rows (.random (.ofSeed (UInt64.ofNat b.seed))) .assignOrExclude

def build (size : Nat) (b : QueensBranching) : Operation Unit := do
  addRows size size
  addAll (constraints size)
  let brancher ←
    Space.permit (ViewBrancher.create b.selector (branching size b) none false false)
  let _ ← Space.addBrancher (.viewValue brancher)

/-- The puzzle on a board of the given size. -/
def create (size : Nat) (b : QueensBranching) : Except SearchFault Queens :=
  if highest32 < size then
    .error (.refused (.invalidOption "size" "does not fit in an integer"))
  else if size = 0 then
    .error (.refused (.invalidOption "size" "must be at least 1"))
  else
    match build size b Space.new with
    | .ok _ space => .ok { space, size }
    | .error fault _ => .error fault.inSearch

/-- The row of every queen, where it is known. -/
def placement (q : Queens) (solution : Space) : List (Option Int) :=
  (List.range q.size).map fun id => (IntView.var id).value? solution.store

def rowText : Option Int → String
  | some row => toString row
  | none => "_"

def format (q : Queens) (solution : Space) : String :=
  "queens = [" ++ ", ".intercalate ((q.placement solution).map rowText) ++ "];"

/-- Every alternative shrinks a domain, so no branch is longer than the number of
values of all rows and the tree has fewer nodes than this. -/
def enoughNodes (q : Queens) : Nat := 1 <<< (q.size * q.size + 1)

end Queens

/-- What an enumeration produces, in order. -/
inductive Report (α : Type) where
  | happening (happening : Happening)
  | solution (solution : α)

namespace Search

/-- Solutions one after the other, at most `more` of them, each found within
`nodes` nodes, with what happened in between; and how the enumeration ends. -/
def enumerate {α : Type} (read : Space → α) (nodes : Nat) :
    Nat → Search → List (Report α) × Except SearchFault Found × Search
  | 0, s => ([], .ok .unfinished, s)
  | more + 1, s =>
    match nextSolution nodes s with
    | .error fault s =>
      let (happenings, s) := s.readJournal
      (happenings.map .happening, .error fault, s)
    | .ok (.solution space) s =>
      let (happenings, s) := s.readJournal
      let (rest, ending) := enumerate read nodes more s
      (happenings.map .happening ++ .solution (read space) :: rest, ending)
    | .ok found s =>
      let (happenings, s) := s.readJournal
      (happenings.map .happening, .ok found, s)

end Search

end ConstraintSpace
