import ConstraintSpace.Branching.Commit
import ConstraintSpace.Branching.Selection
import ConstraintSpace.Journal

/-!
# Branchers

A brancher proposes choices over its views and commits to their alternatives.
It keeps a cursor before which all views are fixed.  An observer is a brancher
that only looks: it says whether it would branch and never proposes a choice.
-/

namespace ConstraintSpace

/-- The views of a brancher, how it selects a value, and how it commits. -/
inductive Branching where
  | int (views : List IntView) (selection : IntSelection) (commit : IntCommit)
  | float (views : List FloatView) (commit : FloatCommit)
  | set (views : List Nat) (selection : SetSelection) (commit : SetCommit)
deriving DecidableEq, Repr

namespace Branching

def views : Branching → List AnyView
  | int views _ _ => views.map .int
  | float views _ => views.map .float
  | set views _ _ => views.map .set

def alternatives : Branching → Nat
  | int _ _ commit => commit.alternatives
  | float _ _ => 2
  | set _ _ _ => 2

/-- A value of the view at a position, and the state of the selection after it. -/
def selectValue (b : Branching) (s : Store) (position : Nat) :
    Except Breach (BranchValue × Branching) :=
  match b with
  | int views selection commit =>
    match views[position]? with
    | some view =>
      match selection.select s view with
      | .ok (value, selection) => .ok (.int value, .int views selection commit)
      | .error breach => .error breach
    | none => .error .outOfRange
  | float views _ =>
    match views[position]? with
    | some view => .ok (.float (view.midpoint s), b)
    | none => .error .outOfRange
  | set views selection _ =>
    match views[position]? with
    | some id =>
      match selection.select s id with
      | .ok element => .ok (.int element, b)
      | .error breach => .error breach
    | none => .error .outOfRange

/-- The narrowing for an alternative of a choice.  A choice is refused where it
names no view of the brancher, or a value of another kind. -/
def commit (b : Branching) (choice : Choice) (alternative : Nat) :
    Except SpaceError (Narrow Change) :=
  match b with
  | int views _ commit =>
    match views[choice.position]? with
    | none => .error (.illegalOperation .foreignPosition)
    | some view => choice.value.int?.map (commit.commit alternative view)
  | float views commit =>
    match views[choice.position]? with
    | none => .error (.illegalOperation .foreignPosition)
    | some view => choice.value.float?.map (commit.commit alternative view)
  | set views _ commit =>
    match views[choice.position]? with
    | none => .error (.illegalOperation .foreignPosition)
    | some id => choice.value.int?.map (commit.commit alternative id)

def selectionNotices : Branching → Bool
  | int _ selection _ => selection.notices
  | _ => false

def onCopy (b : Branching) (context : CopyContext) : Branching × CopyContext :=
  match b with
  | int views selection commit =>
    let (selection, context) := selection.onCopy context
    (.int views selection commit, context)
  | b => (b, context)

/-- The table of preferred values, where the brancher has one. -/
def table? : Branching → Option (Shared (List (IntView × Int)))
  | int _ (.preferred table) _ => some table
  | _ => none

/-- Whether two branchers look up one and the same table. -/
def sameTable (a b : Branching) : Bool :=
  match a.table?, b.table? with
  | some x, some y => x.id = y.id
  | _, _ => false

end Branching

structure ViewBrancher where
  start : Nat
  selector : Selector
  branching : Branching
  label : Option String
  selectionNotices : Bool
  commitNotices : Bool
deriving DecidableEq, Repr

namespace ViewBrancher

def name : String := "ViewValueBrancher"

/-- A brancher has at least one view. -/
def create (selector : Selector) (branching : Branching) (label : Option String)
    (selectionNotices commitNotices : Bool) : Except SpaceError ViewBrancher :=
  if branching.views.isEmpty then .error .tooFewArguments
  else .ok { start := 0, selector, branching, label, selectionNotices, commitNotices }

/-- The type of a brancher: the kind of its views and how they are built.  The
selector is part of it except over integers, where all selectors share a type. -/
inductive Kind where
  | int (shape : Option IntView.Shape)
  | float (depth : Option Nat) (selector : Selector)
  | set (selector : Selector)
deriving DecidableEq, Repr

def kind (b : ViewBrancher) : Kind :=
  match b.branching with
  | .int views _ _ => .int (views.head?.map IntView.shape)
  | .float views _ => .float (views.head?.map FloatView.depth) b.selector
  | .set _ _ _ => .set b.selector

/-- The cursor moved past fixed views. -/
def cursor (b : ViewBrancher) (s : Store) : Nat :=
  b.start + ((b.branching.views.drop b.start).takeWhile fun view => view.isFixed s).length

/-- Moves the cursor and says whether a view is left to branch on. -/
def status (b : ViewBrancher) (s : Store) : Except Breach (Bool × ViewBrancher) :=
  let start := b.cursor s
  match b.branching.views[start]? with
  | none => .ok (false, { b with start })
  | some view => if view.known s then .ok (true, { b with start }) else .error .missingVariable

/-- Proposes a choice, with the warnings of its selector. -/
def choice (b : ViewBrancher) (s : Store) :
    Except Breach (Option Choice × ViewBrancher × List Happening) :=
  let views := b.branching.views.drop b.start
  let notes := if views.isEmpty then [Happening.unsupplied b.selector] else []
  if b.selector.sound s views then
    match b.selector.select s views with
    | none => .ok (none, b, notes)
    | some offset =>
      let position := b.start + offset
      match b.branching.selectValue s position with
      | .error breach => .error breach
      | .ok (value, branching) =>
        .ok (some { brancher := 0, alternatives := branching.alternatives, position, value },
          { b with branching }, notes)
  else .error .missingVariable

def notices (b : ViewBrancher) : Bool :=
  b.branching.selectionNotices || b.selectionNotices || b.commitNotices

def onCopy (b : ViewBrancher) (context : CopyContext) : ViewBrancher × CopyContext :=
  let (branching, context) := b.branching.onCopy context
  ({ b with branching }, context)

end ViewBrancher

/-- A brancher that only looks at the domains. -/
structure Observer where
  branches : Bool
  observe : Store → Except Breach (List Happening)

namespace Observer

/-- Claims to have alternatives and never proposes any. -/
def liar : Observer :=
  { branches := true, observe := fun _ => .ok [.inspected .nothing] }

/-- Notes which view a selector picks. -/
def ofSelector (selector : Selector) (views : List AnyView) : Observer :=
  { branches := false
    observe := fun s =>
      let notes := if views.isEmpty then [Happening.unsupplied selector] else []
      if selector.sound s views then
        match selector.select s views with
        | some index => .ok (notes ++ [.inspected (.position index)])
        | none => .ok (notes ++ [.inspected .nothing])
      else .error .missingVariable }

/-- The values that the selection picks for the views from `position` on. -/
def valuesOf (s : Store) (branching : Branching) (position : Nat) :
    Nat → Except Breach (List BranchValue)
  | 0 => .ok []
  | more + 1 => do
    let (value, branching) ← branching.selectValue s position
    let rest ← valuesOf s branching (position + 1) more
    pure (value :: rest)

/-- Notes the values that a selection picks for all its views, in order. -/
def ofBranching (branching : Branching) : Observer :=
  { branches := false
    observe := fun s =>
      let views := branching.views
      if views.all (·.known s) then
        match valuesOf s branching 0 views.length with
        | .ok values => .ok [.inspected (.values values)]
        | .error breach => .error breach
      else .error .missingVariable }

end Observer

inductive Brancher where
  | viewValue (brancher : ViewBrancher)
  | observer (observer : Observer)

namespace Brancher

def status (b : Brancher) (s : Store) : Except Breach (Bool × Brancher × List Happening) :=
  match b with
  | viewValue b =>
    match b.status s with
    | .ok (branches, b) => .ok (branches, .viewValue b, [])
    | .error breach => .error breach
  | observer o =>
    match o.observe s with
    | .ok notes => .ok (o.branches, .observer o, notes)
    | .error breach => .error breach

def choice (b : Brancher) (s : Store) :
    Except Breach (Option Choice × Brancher × List Happening) :=
  match b with
  | viewValue b =>
    match b.choice s with
    | .ok (choice, b, notes) => .ok (choice, .viewValue b, notes)
    | .error breach => .error breach
  | observer o => .ok (none, .observer o, [])

def commit (b : Brancher) (choice : Choice) (alternative : Nat) :
    Except SpaceError (Narrow Change) :=
  match b with
  | viewValue b => b.branching.commit choice alternative
  | observer _ => .ok (pure .none)

/-- Whether the brancher is told of copies and of its disposal. -/
def notices : Brancher → Bool
  | viewValue b => b.notices
  | observer _ => false

def label : Brancher → Option String
  | viewValue b => b.label
  | observer _ => none

def onCopy (b : Brancher) (context : CopyContext) : Brancher × CopyContext :=
  match b with
  | viewValue b =>
    let (b, context) := b.onCopy context
    (.viewValue b, context)
  | observer o => (.observer o, context)

end Brancher

end ConstraintSpace
