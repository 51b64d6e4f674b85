import ConstraintSpace.Space.Modeling

/-!
# Status, choice and commit

The status of a space is the result of propagation and of asking the branchers
in order for one with alternatives.  The first such brancher makes the choice,
and a commit narrows the space to one alternative of it.
-/

namespace ConstraintSpace

inductive SpaceStatus where
  | failed
  | solved
  | branching
deriving DecidableEq, Repr

def SpaceStatus.name : SpaceStatus → String
  | failed => "Failed"
  | solved => "Solved"
  | branching => "Branching"

namespace Space

/-- Moves past branchers without alternatives, at most `fuel` of them; says
whether one is left. -/
def advanceBy : Nat → Operation Bool
  | 0 => pure false
  | fuel + 1 => fun s =>
    match s.branchers[s.active]? with
    | none => .ok false s
    | some b =>
      match b.status s.store with
      | .error breach => .error (.breached breach) s
      | .ok (branches, b, notes) =>
        let s := { s with branchers := s.branchers.setIfInBounds s.active b }.noteAll notes
        if branches then .ok true s else advanceBy fuel { s with active := s.active + 1 }

def advance : Operation Bool := fun s => advanceBy (s.branchers.size - s.active) s

def status : Operation SpaceStatus := do
  match ← propagate with
  | some _ => pure .failed
  | none => pure (if ← advance then .branching else .solved)

/-- The status of a space to which an observer was added. -/
def observe (observer : Observer) : Operation SpaceStatus := do
  let _ ← addBrancher (.observer observer)
  status

def isStable (s : Space) : Bool := s.queue.isEmpty && s.store.isQuiet

/-- The choice of the first brancher with alternatives, asked for when nothing
waits and nothing is pending. -/
def choice : Operation Choice := fun s =>
  if s.isFailed then .error (.refused .spaceFailed) s
  else if !s.isStable then .error (.refused .notStable) s
  else
    match advance s with
    | .error fault s => .error fault s
    | .ok false s => .error (.refused .noBrancher) s
    | .ok true s =>
      match s.branchers[s.active]? with
      | none => .error (.refused .noBrancher) s
      | some b =>
        match b.choice s.store with
        | .error breach => .error (.breached breach) s
        | .ok (proposed, b, notes) =>
          let s := { s with branchers := s.branchers.setIfInBounds s.active b }.noteAll notes
          match proposed with
          | none => .error (.refused .noBrancher) s
          | some choice => .ok { choice with brancher := s.active } s

/-- Narrows the space to an alternative of a choice.  On a failed space nothing
is left to narrow. -/
def commit (choice : Choice) (alternative : Nat) : Operation Unit := fun s =>
  if s.isFailed then .ok () s
  else if choice.alternatives ≤ alternative then
    .error (.refused (.illegalAlternative alternative choice.alternatives)) s
  else
    match s.branchers[choice.brancher]? with
    | none => .error (.refused .unknownBrancher) s
    | some b =>
      match b.commit choice alternative with
      | .error error => .error (.refused error) s
      | .ok narrowing =>
        let counts := { s.counts with commits := s.counts.commits + 1 }
        match narrowing s.store with
        | .ok _ store => schedule none { s with store, counts }
        | .error .emptied store => .ok () ({ s with store, counts }.failWith .emptyDomain)
        | .error (.breached breach) store => .error (.breached breach) { s with store }

end Space

end ConstraintSpace
