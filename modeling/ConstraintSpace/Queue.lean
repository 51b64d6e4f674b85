/-!
# The queue of propagators

Propagators wait in four bands of priority, each first in, first out; one that
waits is not queued again.  Beside the bands the queue keeps a flag for every
propagator, the number of those that wait, and the priorities of the bands that
are not empty, the most urgent first.
-/

namespace ConstraintSpace

inductive Priority where
  | high
  | medium
  | low
  | veryLow
deriving DecidableEq, Repr

namespace Priority

/-- Urgency; zero is the most urgent. -/
def rank : Priority → Nat
  | high => 0
  | medium => 1
  | low => 2
  | veryLow => 3

def standard : Priority := veryLow

def ofName? : String → Option Priority
  | "High" => some high
  | "Medium" => some medium
  | "Low" => some low
  | "VeryLow" => some veryLow
  | "default" => some standard
  | _ => none

end Priority

/-- A sequence that is pushed to at its end and popped at its start. -/
structure Fifo (α : Type) where
  front : List α
  back : List α
deriving DecidableEq, Repr

namespace Fifo

variable {α : Type}

def empty : Fifo α := { front := [], back := [] }

def toList (f : Fifo α) : List α := f.front ++ f.back.reverse

def isEmpty (f : Fifo α) : Bool := f.front.isEmpty && f.back.isEmpty

def push (f : Fifo α) (x : α) : Fifo α := { f with back := x :: f.back }

def pop? (f : Fifo α) : Option (α × Fifo α) :=
  match f.front with
  | x :: front => some (x, { f with front })
  | [] =>
    match f.back.reverse with
    | x :: front => some (x, { front, back := [] })
    | [] => none

@[simp]
theorem toList_empty : (empty : Fifo α).toList = [] := rfl

@[simp]
theorem toList_push (f : Fifo α) (x : α) : (f.push x).toList = f.toList ++ [x] := by
  simp [push, toList]

theorem isEmpty_eq (f : Fifo α) : f.isEmpty = f.toList.isEmpty := by
  unfold isEmpty toList
  cases f.front <;> cases hback : f.back <;> simp

theorem pop?_eq_none_iff (f : Fifo α) : f.pop? = none ↔ f.toList = [] := by
  unfold pop? toList
  split
  · simp_all
  · split <;> simp_all

theorem toList_of_pop? {f g : Fifo α} {x : α} (hpop : f.pop? = some (x, g)) :
    f.toList = x :: g.toList := by
  unfold pop? at hpop
  unfold toList
  split at hpop
  next front hfront =>
    simp only [Option.some.injEq, Prod.mk.injEq] at hpop
    obtain ⟨rfl, rfl⟩ := hpop
    simp [hfront]
  next hfront =>
    split at hpop
    next front hback =>
      simp only [Option.some.injEq, Prod.mk.injEq] at hpop
      obtain ⟨rfl, rfl⟩ := hpop
      simp [hfront, hback]
    next => simp at hpop

end Fifo

structure Queue where
  high : Fifo Nat
  medium : Fifo Nat
  low : Fifo Nat
  veryLow : Fifo Nat
  queued : Array Bool
  count : Nat
  present : List Priority
deriving DecidableEq, Repr

namespace Queue

def empty : Queue :=
  { high := .empty, medium := .empty, low := .empty, veryLow := .empty
    queued := #[], count := 0, present := [] }

def band (q : Queue) : Priority → Fifo Nat
  | .high => q.high
  | .medium => q.medium
  | .low => q.low
  | .veryLow => q.veryLow

def setBand (q : Queue) (p : Priority) (f : Fifo Nat) : Queue :=
  match p with
  | .high => { q with high := f }
  | .medium => { q with medium := f }
  | .low => { q with low := f }
  | .veryLow => { q with veryLow := f }

def isEmpty (q : Queue) : Bool := q.count = 0

def isQueued (q : Queue) (id : Nat) : Bool := q.queued[id]?.getD false

/-- Adds a priority before the first that is not more urgent. -/
def insertPresent (p : Priority) : List Priority → List Priority
  | [] => [p]
  | r :: rest => if p.rank ≤ r.rank then p :: r :: rest else r :: insertPresent p rest

/-- Raises the flag of a propagator, which is made where there is none yet. -/
def flag (flags : Array Bool) (id : Nat) : Array Bool :=
  let flags :=
    if id < flags.size then flags else flags ++ Array.replicate (id + 1 - flags.size) false
  flags.setIfInBounds id true

def enqueue (q : Queue) (id : Nat) (p : Priority) : Queue :=
  if q.isQueued id then q
  else
    let present := if (q.band p).isEmpty then insertPresent p q.present else q.present
    { q.setBand p ((q.band p).push id) with
      queued := flag q.queued id
      count := q.count + 1
      present }

/-- The propagator that waits longest in the most urgent band. -/
def pop? (q : Queue) : Option (Nat × Queue) :=
  match q.present with
  | [] => none
  | p :: rest =>
    match (q.band p).pop? with
    | none => none
    | some (id, remaining) =>
      some (id,
        { q.setBand p remaining with
          queued := q.queued.setIfInBounds id false
          count := q.count - 1
          present := if remaining.isEmpty then rest else q.present })

def clear (q : Queue) : Queue :=
  { q.present.foldl (fun q p => q.setBand p .empty) q with
    queued := q.queued.map fun _ => false
    count := 0
    present := [] }

end Queue

end ConstraintSpace
