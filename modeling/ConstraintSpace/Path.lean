import ConstraintSpace.Space.Copy
import ConstraintSpace.Space.Exploration

/-!
# Paths

A path holds the choices from an ancestor to a descendant, each with the
alternative taken.  Replaying it on a copy of the ancestor recomputes the
descendant; the branchers have to propose the same choices again.
-/

namespace ConstraintSpace

structure Path where
  edges : List (Choice × Nat)
deriving DecidableEq, Repr

namespace Path

def empty : Path := { edges := [] }

def length (p : Path) : Nat := p.edges.length

def push (p : Path) (choice : Choice) (alternative : Nat) : Path :=
  { edges := p.edges ++ [(choice, alternative)] }

def pop (p : Path) : Option (Choice × Nat) × Path :=
  (p.edges.getLast?, { edges := p.edges.dropLast })

def truncate (p : Path) (length : Nat) : Path := { edges := p.edges.take length }

/-- Repeats the choices on a space and commits to the recorded alternatives. -/
def replay : List (Choice × Nat) → Operation Unit
  | [] => pure ()
  | (choice, alternative) :: rest => do
    let _ ← Space.status
    let replayed ← Space.choice
    if choice.agrees replayed then do
      Space.commit choice alternative
      replay rest
    else throw (.breached .replayDiffers)

/-- The descendant of a copy of the ancestor; where the replay is refused, the
space at which it stopped. -/
def recompute (p : Path) (ancestor : Space) : EStateM.Result Fault Space Unit :=
  replay p.edges ancestor.clone

end Path

end ConstraintSpace
