import ConstraintSpace.Proofs.Space.Effects

/-!
# The actors of a space

The propagators and branchers of a space are its actors.  Each declares whether it is to be
told of copies and of its disposal, and holds handles of shared data.  Running a propagator
or asking a brancher leaves both as they are; a copy leaves what is declared and may change
the handles.
-/

namespace ConstraintSpace

/-- What an instance of shared data holds. -/
inductive Content where
  | values (values : List Int)
  | table (table : List (IntView × Int))
deriving DecidableEq, Repr

def Shared.map {α β : Type} (f : α → β) (handle : Shared α) : Shared β :=
  { id := handle.id, content := f handle.content }

/-! ## What an actor declares and holds -/

namespace Propagator

def handles : Propagator → List (Shared Content)
  | scripted script => script.shared.map fun handle => handle.map .values
  | _ => []

theorem notices_eq_of_guise {p q : Propagator} (hguise : q.guise = p.guise) :
    q.notices = p.notices := by
  have hnotices : ∀ p : Propagator, p.guise.notices = p.notices := fun p => by cases p <;> rfl
  rw [← hnotices q, hguise, hnotices p]

theorem handles_run (p : Propagator) (s : Store) : (p.run s).propagator.handles = p.handles := by
  cases p with
  | notEqual a b => exact congrArg handles (propagator_stateless _ s)
  | lessOrEqual a b => exact congrArg handles (propagator_stateless _ s)
  | floatLessOrEqual a b => exact congrArg handles (propagator_stateless _ s)
  | subset a b counts =>
      simp only [run]
      split
      · split <;> rfl
      · rfl
  | scripted script => rfl

end Propagator

namespace Branching

theorem selectionNotices_eq (b : Branching) : b.selectionNotices = b.table?.isSome := by
  cases b with
  | int views selection commit => cases selection <;> rfl
  | float views commit => rfl
  | set views selection commit => rfl

theorem table?_select {selection selection' : IntSelection} {s : Store} {view : IntView}
    {value : Int} {views : List IntView} {commit : IntCommit}
    (hselect : selection.select s view = .ok (value, selection')) :
    (int views selection' commit).table? = (int views selection commit).table? := by
  cases selection <;> simp only [IntSelection.select] at hselect
  case random generator =>
    split at hselect
    · simp only [Except.ok.injEq, Prod.mk.injEq] at hselect
      rw [← hselect.2]
      rfl
    · simp at hselect
  case drawn draws position =>
    split at hselect
    · simp only [Except.ok.injEq, Prod.mk.injEq] at hselect
      rw [← hselect.2]
      rfl
    · simp at hselect
  case preferred table =>
    split at hselect <;>
    · simp only [Except.ok.injEq, Prod.mk.injEq] at hselect
      rw [← hselect.2]
  all_goals
    simp only [Except.ok.injEq, Prod.mk.injEq] at hselect
    rw [← hselect.2]

theorem table?_selectValue {b b' : Branching} {s : Store} {position : Nat} {value : BranchValue}
    (hselect : b.selectValue s position = .ok (value, b')) : b'.table? = b.table? := by
  cases b with
  | int views selection commit =>
      simp only [selectValue] at hselect
      split at hselect
      · split at hselect
        next hvalue =>
          simp only [Except.ok.injEq, Prod.mk.injEq] at hselect
          rw [← hselect.2]
          exact table?_select hvalue
        next => simp at hselect
      · simp at hselect
  | float views commit =>
      simp only [selectValue] at hselect
      split at hselect
      · simp only [Except.ok.injEq, Prod.mk.injEq] at hselect
        rw [← hselect.2]
      · simp at hselect
  | set views selection commit =>
      simp only [selectValue] at hselect
      split at hselect
      · split at hselect
        · simp only [Except.ok.injEq, Prod.mk.injEq] at hselect
          rw [← hselect.2]
        · simp at hselect
      · simp at hselect

end Branching

namespace Brancher

variable {b b' : Brancher} {s : Store} {notes : List Happening}

def handles : Brancher → List (Shared Content)
  | viewValue b => b.branching.table?.toList.map fun handle => handle.map .table
  | observer _ => []

/-- The brancher declares the same, and is the same observer if it is one. -/
structure Same (b b' : Brancher) : Prop where
  notices : b'.notices = b.notices
  observes : ∀ o, b' = .observer o → b = .observer o

/-- It also holds the same handles. -/
structure Still (b b' : Brancher) : Prop extends b.Same b' where
  handles : b'.handles = b.handles

theorem Still.refl (b : Brancher) : b.Still b := ⟨⟨rfl, fun _ heq => heq⟩, rfl⟩

theorem still_viewValue {b b' : ViewBrancher} (htable : b'.branching.table? = b.branching.table?)
    (hselection : b'.selectionNotices = b.selectionNotices)
    (hcommit : b'.commitNotices = b.commitNotices) :
    (Brancher.viewValue b).Still (.viewValue b') where
  notices := by
    simp only [Brancher.notices, ViewBrancher.notices, Branching.selectionNotices_eq, htable,
      hselection, hcommit]
  observes := by simp
  handles := by simp only [Brancher.handles, htable]

theorem still_status {branches : Bool} (hstatus : b.status s = .ok (branches, b', notes)) :
    b.Still b' := by
  cases b with
  | viewValue b =>
      simp only [status, ViewBrancher.status] at hstatus
      split at hstatus
      next hview =>
        simp only [Except.ok.injEq, Prod.mk.injEq] at hstatus
        obtain ⟨-, rfl, -⟩ := hstatus
        split at hview
        · simp only [Except.ok.injEq, Prod.mk.injEq] at hview
          rw [← hview.2]
          exact still_viewValue rfl rfl rfl
        · split at hview
          · simp only [Except.ok.injEq, Prod.mk.injEq] at hview
            rw [← hview.2]
            exact still_viewValue rfl rfl rfl
          · simp at hview
      next => simp at hstatus
  | observer o =>
      simp only [status] at hstatus
      split at hstatus
      · simp only [Except.ok.injEq, Prod.mk.injEq] at hstatus
        obtain ⟨-, rfl, -⟩ := hstatus
        exact .refl _
      · simp at hstatus

theorem still_choice {proposed : Option Choice}
    (hchoice : b.choice s = .ok (proposed, b', notes)) : b.Still b' := by
  cases b with
  | viewValue b =>
      simp only [choice, ViewBrancher.choice] at hchoice
      split at hchoice
      next hview =>
        simp only [Except.ok.injEq, Prod.mk.injEq] at hchoice
        obtain ⟨-, rfl, -⟩ := hchoice
        split at hview
        · split at hview
          · simp only [Except.ok.injEq, Prod.mk.injEq] at hview
            obtain ⟨-, rfl, -⟩ := hview
            exact .refl _
          · split at hview
            · simp at hview
            next hselect =>
              simp only [Except.ok.injEq, Prod.mk.injEq] at hview
              obtain ⟨-, rfl, -⟩ := hview
              exact still_viewValue (Branching.table?_selectValue hselect) rfl rfl
        · simp at hview
      next => simp at hchoice
  | observer o =>
      simp only [choice, Except.ok.injEq, Prod.mk.injEq] at hchoice
      obtain ⟨-, rfl, -⟩ := hchoice
      exact .refl _

theorem same_onCopy (b : Brancher) (context : CopyContext) : b.Same (b.onCopy context).1 := by
  cases b with
  | observer o => exact (Still.refl _).toSame
  | viewValue b =>
      refine ⟨?_, by simp [onCopy]⟩
      obtain ⟨start, selector, branching, label, selectionNotices, commitNotices⟩ := b
      cases branching with
      | int views selection commit => cases selection <;> rfl
      | float views commit => rfl
      | set views selection commit => rfl

end Brancher

namespace Space

variable {s t u : Space} {a : Noticed} {id : Nat}

/-! ## Who is there -/

/-- The actors of the space, each with whether it declared that it is to be told. -/
def notices? (s : Space) : Noticed → Option Bool
  | .propagator id => (s.propagator? id).map Propagator.notices
  | .brancher id => s.branchers[id]?.map Brancher.notices

/-- The handles of shared data that an actor of the space holds. -/
def handles (s : Space) : Noticed → List (Shared Content)
  | .propagator id => (s.propagator? id).elim [] Propagator.handles
  | .brancher id => s.branchers[id]?.elim [] Brancher.handles

/-- The number was given to an actor of the space, which may have left it. -/
def Numbers (s : Space) : Noticed → Prop
  | .propagator id => id < s.slots.size
  | .brancher id => id < s.branchers.size

theorem lt_size_of_brancher {b : Brancher} (hb : s.branchers[id]? = some b) :
    id < s.branchers.size := by
  by_contra hge
  rw [Array.getElem?_eq_none (not_lt.mp hge)] at hb
  simp at hb

theorem numbers_of_notices? {b : Bool} (ha : s.notices? a = some b) : s.Numbers a := by
  cases a with
  | propagator id =>
      obtain ⟨p, hp, -⟩ := Option.map_eq_some_iff.mp ha
      exact lt_size_of_propagator? hp
  | brancher id =>
      obtain ⟨c, hc, -⟩ := Option.map_eq_some_iff.mp ha
      exact lt_size_of_brancher hc

/-- The same actors are there and in the registry, and each declares the same. -/
structure Kindred (s t : Space) : Prop where
  noticed : t.noticed = s.noticed
  notices? : ∀ a, t.notices? a = s.notices? a
  numbers : ∀ a, t.Numbers a ↔ s.Numbers a
  observers : ∀ (id : Nat) (o : Observer), t.branchers[id]? = some (.observer o) →
    s.branchers[id]? = some (.observer o)

/-- The actors also hold the same handles. -/
structure Steady (s t : Space) : Prop extends s.Kindred t where
  handles : ∀ a, t.handles a = s.handles a

theorem Kindred.of_actors (hnoticed : t.noticed = s.noticed) (hslots : t.slots = s.slots)
    (hbranchers : t.branchers = s.branchers) : s.Kindred t where
  noticed := hnoticed
  notices? := fun a => by
    cases a <;> simp only [Space.notices?, propagator?, hslots, hbranchers]
  numbers := fun a => by
    cases a <;> simp only [Numbers, hslots, hbranchers]
  observers := fun id o ho => hbranchers ▸ ho

theorem Steady.of_actors (hnoticed : t.noticed = s.noticed) (hslots : t.slots = s.slots)
    (hbranchers : t.branchers = s.branchers) : s.Steady t where
  toKindred := .of_actors hnoticed hslots hbranchers
  handles := fun a => by
    cases a <;> simp only [Space.handles, propagator?, hslots, hbranchers]

theorem Steady.refl (s : Space) : s.Steady s := .of_actors rfl rfl rfl

theorem Kindred.trans (hfirst : s.Kindred t) (hsecond : t.Kindred u) : s.Kindred u where
  noticed := hsecond.noticed.trans hfirst.noticed
  notices? := fun a => (hsecond.notices? a).trans (hfirst.notices? a)
  numbers := fun a => (hsecond.numbers a).trans (hfirst.numbers a)
  observers := fun id o ho => hfirst.observers id o (hsecond.observers id o ho)

theorem Steady.trans (hfirst : s.Steady t) (hsecond : t.Steady u) : s.Steady u where
  toKindred := hfirst.toKindred.trans hsecond.toKindred
  handles := fun a => (hsecond.handles a).trans (hfirst.handles a)

theorem handles_setPropagator {p : Propagator} (hp : s.propagator? id = some p)
    (q : Propagator) (a : Noticed) :
    (s.setPropagator id q).handles a = if a = .propagator id then q.handles else s.handles a := by
  cases a with
  | brancher j => rfl
  | propagator j =>
      simp only [handles, propagator?_setPropagator (lt_size_of_propagator? hp),
        Noticed.propagator.injEq]
      split <;> rfl

/-- Another propagator in a slot that declares the same. -/
theorem Kindred.setPropagator {p q : Propagator} (hp : s.propagator? id = some p)
    (hnotices : q.notices = p.notices) : s.Kindred (s.setPropagator id q) where
  noticed := rfl
  notices? := fun a => by
    cases a with
    | brancher j => rfl
    | propagator j =>
        simp only [Space.notices?, propagator?_setPropagator (lt_size_of_propagator? hp)]
        split
        next heq => rw [heq, hp, Option.map_some, Option.map_some, hnotices]
        next => rfl
  numbers := fun a => by cases a <;> simp [Numbers, Space.setPropagator]
  observers := fun _ _ ho => ho

theorem Steady.setPropagator {p q : Propagator} (hp : s.propagator? id = some p)
    (hnotices : q.notices = p.notices) (hhandles : q.handles = p.handles) :
    s.Steady (s.setPropagator id q) where
  toKindred := .setPropagator hp hnotices
  handles := fun a => by
    rw [handles_setPropagator hp]
    split
    next heq =>
      rw [heq, hhandles]
      simp only [Space.handles, hp, Option.elim_some]
    next => rfl

theorem handles_setBrancher {b : Brancher} (hb : s.branchers[id]? = some b) (b' : Brancher)
    (a : Noticed) :
    ({ s with branchers := s.branchers.setIfInBounds id b' } : Space).handles a =
      if a = .brancher id then b'.handles else s.handles a := by
  cases a with
  | propagator j => rfl
  | brancher j =>
      simp only [handles, Array.getElem?_setIfInBounds, if_pos (lt_size_of_brancher hb),
        Noticed.brancher.injEq, eq_comm]
      split <;> rfl

/-- Another brancher at its place that declares the same. -/
theorem Kindred.setBrancher {b b' : Brancher} (hb : s.branchers[id]? = some b)
    (hsame : b.Same b') :
    s.Kindred { s with branchers := s.branchers.setIfInBounds id b' } := by
  have hread : ∀ j, (s.branchers.setIfInBounds id b')[j]? =
      if id = j then some b' else s.branchers[j]? := by
    intro j
    rw [Array.getElem?_setIfInBounds, if_pos (lt_size_of_brancher hb)]
  refine ⟨rfl, fun a => ?_, fun a => ?_, fun j o ho => ?_⟩
  · cases a with
    | propagator j => rfl
    | brancher j =>
        simp only [Space.notices?, hread]
        split
        next heq => rw [← heq, hb, Option.map_some, Option.map_some, hsame.notices]
        next => rfl
  · cases a <;> simp [Numbers]
  · rw [hread] at ho
    split at ho
    next heq =>
      rw [← heq, hb, hsame.observes o (Option.some.inj ho)]
    next => exact ho

theorem Steady.setBrancher {b b' : Brancher} (hb : s.branchers[id]? = some b)
    (hstill : b.Still b') :
    s.Steady { s with branchers := s.branchers.setIfInBounds id b' } where
  toKindred := .setBrancher hb hstill.toSame
  handles := fun a => by
    rw [handles_setBrancher hb]
    split
    next heq =>
      rw [heq, hstill.handles]
      simp only [Space.handles, hb, Option.elim_some]
    next => rfl

end Space

end ConstraintSpace
