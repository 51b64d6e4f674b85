import ConstraintSpace.Path

/-!
# Depth-first search

The search explores the tree of choices from left to right.  A node on the stack
keeps a copy of its space when its depth is a multiple of the copy distance; a
space in between is recomputed from the nearest copy above it.  Limits on the
numbers of nodes and solutions cut the search short.
-/

namespace ConstraintSpace

inductive SearchError where
  | space (error : SpaceError)
  | invalidOption (option reason : String)
deriving DecidableEq, Repr

namespace SearchError

def name : SearchError → String
  | space _ => "Space"
  | invalidOption _ _ => "InvalidOption"

def message : SearchError → String
  | space error =>
    "The model could not be built or searched, more details: " ++ error.message
  | invalidOption option reason =>
    "The option `" ++ option ++ "`: " ++ reason ++ " is invalid."

end SearchError

inductive SearchFault where
  | refused (error : SearchError)
  | breached (breach : Breach)
deriving DecidableEq, Repr

def Fault.inSearch : Fault → SearchFault
  | .refused error => .refused (.space error)
  | .breached breach => .breached breach

/-- How to search, and which happenings to keep in the journal of the search. -/
structure SearchOptions where
  copyDistance : Nat
  solutionLimit : Option Nat
  nodeLimit : Option Nat
  keeps : Happening → Bool

structure SearchCounts where
  nodes : Nat
  failures : Nat
  solutions : Nat
  clones : Nat
  recomputations : Nat
  peakDepth : Nat
deriving DecidableEq, Repr

/-- A node on the way to the current one: its choice, the next alternative to
take, and maybe a copy of its space from before the choice. -/
structure Frame where
  choice : Choice
  next : Nat
  copy : Option Space

/-- The state of a search.  The stack starts with the deepest node. -/
structure Search where
  options : SearchOptions
  stack : List Frame
  current : Option Space
  counts : SearchCounts
  journal : List Happening

/-- What a call for the next solution finds. -/
inductive Found where
  | solution (space : Space)
  | exhausted
  | limitReached
  | unfinished

def Found.name : Found → String
  | solution _ => "Solution"
  | exhausted => "Exhausted"
  | limitReached => "LimitReached"
  | unfinished => "Unfinished"

abbrev Searching := EStateM SearchFault Search

namespace Search

def create (root : Space) (options : SearchOptions) : Except SearchError Search :=
  if options.copyDistance = 0 then
    .error (.invalidOption "copy-distance" "must be at least 1")
  else
    .ok
      { options, stack := [], current := some root, journal := []
        counts :=
          { nodes := 0, failures := 0, solutions := 0, clones := 0, recomputations := 0
            peakDepth := 0 } }

def depth (s : Search) : Nat := s.stack.length

def reached (limit : Option Nat) (count : Nat) : Bool :=
  match limit with
  | some limit => limit ≤ count
  | none => false

/-- Moves the journal of a space to the journal of the search. -/
def absorb (space : Space) (s : Search) : Space × Search :=
  let (happenings, space) := space.readJournal
  (space, { s with journal := (happenings.filter s.options.keeps).reverse ++ s.journal })

/-- What the search noted since its journal was last read, in order. -/
def readJournal (s : Search) : List Happening × Search :=
  (s.journal.reverse, { s with journal := [] })

/-- Takes over the space at which an operation ended. -/
def settle {α : Type} (result : EStateM.Result Fault Space α) : Searching (α × Space) :=
  fun s =>
    match result with
    | .ok x space =>
      let (space, s) := s.absorb space
      .ok (x, space) s
    | .error fault space => .error fault.inSearch (s.absorb space).2

/-- The copy that a new frame keeps. -/
def keepCopy (space : Space) : Searching (Option Space) := fun s =>
  if s.depth % s.options.copyDistance = 0 then
    let (copy, s) := s.absorb space.clone
    .ok (some copy) { s with counts := { s.counts with clones := s.counts.clones + 1 } }
  else .ok none s

def push (frame : Frame) (space : Space) (s : Search) : Search :=
  { s with
    stack := frame :: s.stack
    current := some space
    counts := { s.counts with peakDepth := max s.counts.peakDepth (s.depth + 1) } }

/-- Takes the first alternative of a node with a choice. -/
def descend (space : Space) : Searching Unit := do
  let copy ← keepCopy space
  let (choice, space) ← settle (Space.choice space)
  let (_, space) ← settle (Space.commit choice 0 space)
  modify (push { choice, next := 1, copy } space)

/-- Explores one node; gives its space where it is a solution. -/
def visit (space : Space) : Searching (Option Space) := do
  modify fun s => { s with counts := { s.counts with nodes := s.counts.nodes + 1 } }
  let (status, space) ← settle (Space.status space)
  match status with
  | .failed =>
    modify fun s => { s with counts := { s.counts with failures := s.counts.failures + 1 } }
    pure none
  | .solved =>
    modify fun s => { s with counts := { s.counts with solutions := s.counts.solutions + 1 } }
    pure (some space)
  | .branching =>
    descend space
    pure none

/-- The nearest copy at or above the first frame, and the edges from it down. -/
def lineage : List Frame → Option (Space × List (Choice × Nat))
  | [] => none
  | frame :: above =>
    let edge := (frame.choice, frame.next - 1)
    match frame.copy with
    | some copy => some (copy, [edge])
    | none => (lineage above).map fun (copy, edges) => (copy, edges ++ [edge])

/-- The space below the deepest frame on the alternative it has come to. -/
def restore : Searching Space := fun s =>
  match lineage s.stack with
  | none => .error (.refused (.invalidOption "copy-distance" "no ancestor keeps a copy")) s
  | some (copy, edges) =>
    let s :=
      if edges.length = 1 then
        { s with counts := { s.counts with clones := s.counts.clones + 1 } }
      else
        let note :=
          Happening.recomputing (s.depth - 1) (s.depth - edges.length) (edges.length - 1)
        { s with
          counts := { s.counts with recomputations := s.counts.recomputations + 1 }
          journal := if s.options.keeps note then note :: s.journal else s.journal }
    match settle (Path.recompute { edges } copy) s with
    | .ok (_, space) s => .ok space s
    | .error fault s => .error fault s

/-- The space of the next alternative that is left on the stack. -/
def backtrack : Searching (Option Space) := fun s =>
  match s.stack.dropWhile fun frame => frame.choice.alternatives ≤ frame.next with
  | [] => .ok none { s with stack := [] }
  | frame :: above =>
    match restore { s with stack := { frame with next := frame.next + 1 } :: above } with
    | .ok space s => .ok (some space) s
    | .error fault s => .error fault s

/-- The space to explore next: the current one, or the next one on the stack. -/
def takeNode : Searching (Option Space) := fun s =>
  match s.current with
  | some space => .ok (some space) { s with current := none }
  | none => backtrack s

/-- Explores nodes up to the next solution, at most `fuel` of them. -/
def exploreFor : Nat → Searching Found
  | 0 => pure .unfinished
  | fuel + 1 => fun s =>
    if reached s.options.nodeLimit s.counts.nodes then .ok .limitReached s
    else
      match takeNode s with
      | .error fault s => .error fault s
      | .ok none s => .ok .exhausted s
      | .ok (some space) s =>
        match visit space s with
        | .error fault s => .error fault s
        | .ok (some solution) s => .ok (.solution solution) s
        | .ok none s => exploreFor fuel s

/-- More nodes than any search explores in the time there is. -/
def patience : Nat := 1 <<< 62

/-- The next solution, found within `fuel` nodes. -/
def nextSolution (fuel : Nat) : Searching Found := fun s =>
  if reached s.options.solutionLimit s.counts.solutions then .ok .limitReached s
  else exploreFor fuel s

end Search

end ConstraintSpace
