import ConstraintSpace.Journal
import ConstraintSpace.Narrowing
import ConstraintSpace.Propagator.Status
import ConstraintSpace.Queue

/-!
# Scripted propagators

A scripted propagator stands for any propagator a model may bring along.  Its
script says, for every run and every store, which narrowings to perform and how
to end; it may veto notifications, it may notice copies and its disposal, and
it may hold shared data.
-/

namespace ConstraintSpace

/-- A view that a propagator watches, with the number it gives to it. -/
structure Watch where
  view : AnyView
  events : EventSet
  localId : Nat
deriving DecidableEq, Repr

/-- What a script does in one run, where no narrowing empties a domain. -/
structure Step where
  narrowings : List Narrowing
  verdict : Verdict
deriving DecidableEq, Repr

structure Scripted where
  name : String
  priority : Priority
  notices : Bool
  watches : List Watch
  script : Nat → Store → Step
  vetoes : Nat → Store → Nat → Event → Bool
  runs : Nat
  shared : List (Shared (List Int))

namespace Scripted

/-- The script of a list of steps, the last of which repeats. -/
def scriptOf (steps : List Step) (run : Nat) (_ : Store) : Step :=
  steps[min run (steps.length - 1)]?.getD
    { narrowings := [], verdict := .breached .scriptEnded }

/-- Performs narrowings in order and notes what each did. -/
def perform (name : String) :
    List Narrowing → Store → Except Misstep Unit × Store × List Happening
  | [], s => (.ok (), s, [])
  | narrowing :: rest, s =>
    match narrowing.apply s with
    | .error misstep s => (.error misstep, s, [])
    | .ok change s =>
      let (result, s, notes) := perform name rest s
      (result, s, .narrowed name change :: notes)

/-- One run: what it ends with, the propagator and the store after it, and what
happened. -/
def propagate (p : Scripted) (s : Store) : Verdict × Scripted × Store × List Happening :=
  let step := p.script p.runs s
  let (result, s, notes) := perform p.name step.narrowings s
  let verdict :=
    match result with
    | .ok _ => step.verdict
    | .error misstep => misstep.verdict
  (verdict, { p with runs := p.runs + 1 }, s, .stepped p.name p.runs :: notes)

/-- Whether a notification is to be followed by a run.  The number tells through
which watch the event is seen. -/
def notify (p : Scripted) (s : Store) (localId : Nat) (event : Event) :
    Except Breach (Bool × List Happening) :=
  match p.watches[localId]? with
  | none => .error .unknownWatch
  | some watch =>
    match watch.view.unpack event with
    | none => .error .silentView
    | some seen =>
      if watch.view.known s then
        .ok (!p.vetoes p.runs s localId seen,
          [.heard p.name localId seen (watch.view.isFixed s)])
      else .error .missingVariable

end Scripted

end ConstraintSpace
