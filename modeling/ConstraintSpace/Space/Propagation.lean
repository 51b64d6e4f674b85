import ConstraintSpace.Space.Basic

/-!
# Propagation to the fixpoint

Pending events are passed to the propagators that watch them, which then wait in
the queue.  The queue is run until it is empty or a propagator fails.  Every run
either leaves the domains as they are and shortens the queue, or lowers the
measure of the store, so a number of rounds computed from both is enough.
-/

namespace ConstraintSpace.Space

/-- Makes the space failed.  The first reason stays, and nothing is left to do. -/
def failWith (reason : Inconsistency) (s : Space) : Space :=
  let s :=
    if s.failure.isSome then s
    else
      { s.note (.failed reason) with
        failure := some reason
        counts := { s.counts with failures := s.counts.failures + 1 } }
  { s with queue := s.queue.clear, store := s.store.silence }

def fail (s : Space) : Space := s.failWith .conflict

/-- Notifies one propagator of an event, if it is still there. -/
def notify (event : Event) (watcher : Watcher) : Operation Unit := fun s =>
  match s.propagator? watcher.propagator with
  | none => .ok () s
  | some p =>
    match p.notify s.store watcher.localId event with
    | .error breach => .error (.breached breach) s
    | .ok (wanted, notes) =>
      let s := s.noteAll (.notified watcher.propagator watcher.localId event :: notes)
      if wanted then .ok () { s with queue := s.queue.enqueue watcher.propagator p.priority }
      else .ok () s

def notifyAll : List (Event × Watcher) → Operation Unit
  | [] => pure ()
  | (event, watcher) :: rest => do
    notify event watcher
    notifyAll rest

/-- The notifications for the pending events, all but those for `skip`. -/
def notifications (s : Space) (skip : Option Nat) : List (Event × Watcher) :=
  s.store.pending.toList.flatMap fun (event, v) =>
    ((s.watches.watchers event v).filter fun w => some w.propagator ≠ skip).map fun w =>
      (event, w)

/-- Passes the pending events on, after which none is pending. -/
def schedule (skip : Option Nat) : Operation Unit := fun s =>
  notifyAll (s.notifications skip) { s with store := s.store.silence }

/-- Empties the slot of a propagator, which is told so if it notices. -/
def subsume (id : Nat) (s : Space) : Space :=
  match s.slots[id]? with
  | none => s
  | some slot =>
    match slot.propagator with
    | none => s
    | some p =>
      let s :=
        { s with
          watches := slot.subscribed.foldl (·.unsubscribe id) s.watches
          slots := s.slots.setIfInBounds id { propagator := none, subscribed := [] } }
      let s :=
        if s.noticed.contains (.propagator id) then
          { s.note (.disposed (.propagator id p.name)) with
            noticed := s.noticed.erase (.propagator id) }
        else s
      { s.note (.subsumed id p.name) with
        counts := { s.counts with subsumptions := s.counts.subsumptions + 1 } }

/-- Runs one propagator and passes on what it changed.  One at its own fixpoint
does not hear of its own events. -/
def runOne (id : Nat) : Operation Unit := fun s =>
  match s.propagator? id with
  | none => .ok () s
  | some p =>
    let s :=
      { s.note (.propagating id p.name) with
        counts := { s.counts with propagations := s.counts.propagations + 1 } }
    let run := p.run s.store
    let s := ({ s with store := run.store }.setPropagator id run.propagator).noteAll run.notes
    match run.verdict with
    | .ended .fix => schedule (some id) s
    | .ended .noFixpoint => schedule none s
    | .ended .subsumed => schedule none (s.subsume id)
    | .failed reason => .ok () (s.failWith reason)
    | .breached breach => .error (.breached breach) s

/-- Runs waiting propagators, at most `fuel` of them. -/
def runQueue : Nat → Operation Unit
  | 0 => pure ()
  | fuel + 1 => fun s =>
    match s.queue.pop? with
    | none => .ok () s
    | some (id, queue) =>
      match runOne id { s with queue } with
      | .ok _ s => runQueue fuel s
      | .error fault s => .error fault s

/-- A bound on the runs to the fixpoint: between two runs that narrow nothing
new, every propagator waits at most once. -/
def enoughRuns (s : Space) : Nat :=
  s.store.measure * (s.slots.size + 1) + s.queue.count

/-- Propagates to the fixpoint; gives the reason where the space is failed. -/
def propagate : Operation (Option Inconsistency) := fun s =>
  match s.failure with
  | some reason => .ok (some reason) s
  | none =>
    match schedule none s with
    | .error fault s => .error fault s
    | .ok _ s =>
      match runQueue s.enoughRuns s with
      | .error fault s => .error fault s
      | .ok _ s => .ok s.failure s

end ConstraintSpace.Space
