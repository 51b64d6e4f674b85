import ConstraintSpace.Domain.Creation
import ConstraintSpace.Space.Propagation

/-!
# Building a model

Creation of variables, posting of narrowings, and registration of propagators
and branchers.  A refused operation leaves the space as it was.
-/

namespace ConstraintSpace.Space

def addInt (domain : Except SpaceError IntDomain) : Operation Nat := do
  checkNotFailed
  let domain ← permit domain
  modifyGet fun s =>
    let (id, store) := s.store.addInt domain
    (id, { s with store })

def newInt (lower upper : Int) : Operation Nat := addInt (IntDomain.ofBounds lower upper)

def newSparse (values : List Int) : Operation Nat := addInt (IntDomain.ofValues values)

/-- A new truth value. -/
def newBool : Operation IntView := do
  let id ← newInt 0 1
  pure (.truth id)

def newFloat (lower upper : Double) : Operation Nat := do
  checkNotFailed
  let domain ← permit (FloatDomain.ofBounds lower upper)
  modifyGet fun s =>
    let (id, store) := s.store.addFloat domain
    (id, { s with store })

def newSet (glb lub : List Int) (card : Nat × Nat) : Operation Nat := do
  checkNotFailed
  let domain ← permit (SetDomain.ofBounds glb lub card.1 card.2)
  modifyGet fun s =>
    let (id, store) := s.store.addSet domain
    (id, { s with store })

/-- Performs narrowings in order; where one would empty a domain and the post
does not keep going, the space fails. -/
def post (keepGoing : Bool) (narrowings : List Narrowing) : Operation (List Outcome) := fun s =>
  if s.isFailed then .error (.refused .spaceFailed) s
  else
    match Narrowing.applyAll keepGoing narrowings s.store with
    | (outcomes, .ok _, store) =>
      match schedule none { s with store } with
      | .ok _ s => .ok outcomes s
      | .error fault s => .error fault s
    | (outcomes, .error .emptied, store) =>
      .ok outcomes ({ s with store }.failWith .emptyDomain)
    | (_, .error (.breached breach), store) => .error (.breached breach) { s with store }

/-- The subscriptions of a propagator: the events that matter of the variables
under its views.  Views without variables have none. -/
def subscriptions (id : Nat) (watches : List Watch) : List Subscription :=
  watches.filterMap fun watch =>
    match watch.view.watch watch.events with
    | none => none
    | some (target, events) =>
      if events.isEmpty then none
      else some { target, events, watcher := { propagator := id, localId := watch.localId } }

/-- Notes the watches of a scripted propagator in order. -/
def announce (name : String) : Nat → List Watch → Operation Unit
  | _, [] => pure ()
  | position, watch :: rest => fun s =>
    if watch.view.known s.store then
      announce name (position + 1) rest
        (s.note (.registered name position (watch.view.isFixed s.store)))
    else .error (.breached .missingVariable) s

def present (p : Propagator) : Operation Unit :=
  match p with
  | .scripted script => announce script.name 0 script.watches
  | _ => pure ()

/-- Adds a propagator, which then waits to run; one that is rejected only had
its watches noted. -/
def addPropagator (p : Propagator) (rejection : Option SpaceError) : Operation Nat := do
  checkNotFailed
  present p
  match rejection with
  | some error => throw (.refused error)
  | none =>
    modifyGet fun s =>
      let id := s.slots.size
      let wishes := subscriptions id p.watches
      let slot : Slot :=
        { propagator := some p, subscribed := (wishes.map (·.target)).eraseDups }
      (id,
        { s with
          watches := wishes.foldl WatchList.subscribe s.watches
          slots := s.slots.push slot
          noticed := if p.notices then s.noticed ++ [.propagator id] else s.noticed
          queue := s.queue.enqueue id p.priority })

def addBrancher (b : Brancher) : Operation Nat := do
  checkNotFailed
  modifyGet fun s =>
    let id := s.branchers.size
    (id,
      { s with
        branchers := s.branchers.push b
        noticed := if b.notices then s.noticed ++ [.brancher id] else s.noticed })

end ConstraintSpace.Space
