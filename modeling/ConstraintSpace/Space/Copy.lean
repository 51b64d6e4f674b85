import ConstraintSpace.Space.Basic

/-!
# Copies and disposal

A copy starts where the copied space stands, with counts at zero.  The actors
that notice are told in the order of their registration and pass their shared data
through the copy.  Of a failed space only the variables and the failure are
copied.  When a space is dropped, the actors that notice are disposed.
-/

namespace ConstraintSpace.Space

/-- Tells one actor of the copy. -/
def tellCopy (mode : CopyMode) (state : Space × CopyContext) (actor : Noticed) :
    Space × CopyContext :=
  let (s, context) := state
  match actor with
  | .propagator id =>
    match s.propagator? id with
    | none => (s, context)
    | some p =>
      let (p', context) := p.onCopy context
      ((s.setPropagator id p').note (.copied (.propagator id p.name) mode), context)
  | .brancher id =>
    match s.branchers[id]? with
    | none => (s, context)
    | some b =>
      let (b', context) := b.onCopy context
      ({ s with branchers := s.branchers.setIfInBounds id b' }.note
        (.copied (.brancher id b.label) mode), context)

/-- A copy, and the next number that no shared instance has. -/
def copy (mode : CopyMode) (next : Nat) (s : Space) : Space × Nat :=
  match s.failure with
  | some reason => ({ new with store := s.store, failure := some reason }, next)
  | none =>
    let (s, context) :=
      s.noticed.foldl (tellCopy mode)
        ({ s with counts := .zero, journal := [] }, .begin mode next)
    (s, context.next)

/-- The copy that keeps the shared instances. -/
def clone (s : Space) : Space := (s.copy .sharing 0).1

/-- The disposals when the space is dropped. -/
def drop (s : Space) : List Happening :=
  s.noticed.filterMap fun
    | .propagator id => (s.propagator? id).map fun p => .disposed (.propagator id p.name)
    | .brancher id => s.branchers[id]?.map fun b => .disposed (.brancher id b.label)

end ConstraintSpace.Space
