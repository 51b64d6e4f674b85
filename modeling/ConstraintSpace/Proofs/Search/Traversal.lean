import ConstraintSpace.Proofs.Search.Branches
import ConstraintSpace.Proofs.Search.Exploration

/-!
# The traversal of the tree of choices

A turn of a search takes the next node and visits it, whatever the limits are.  The
traversal is turn after turn until nothing is left.  It is defined for every search, also
for one over spaces that refuse what they are asked: such a node has no nodes below it,
and an alternative whose space cannot be restored is lost.  A turn never reads the
limits, so searches that differ in their limits only take the same turns.
-/

namespace ConstraintSpace

/-- A node that was explored: the alternatives on the way from the root to it, its space
before it was asked for its status, what became of it, and how many alternatives the
search went down to. -/
structure Visit where
  path : List Nat
  space : Space
  found : Except SearchFault (Option Space)
  width : Nat

namespace Visit

def node (visit : Visit) : Node := ⟨visit.path.length, visit.space⟩

/-- The space of a visited node that is a solution. -/
def solution? (visit : Visit) : Option Space :=
  match visit.found with
  | .ok solution? => solution?
  | .error _ => none

end Visit

inductive Turn where
  | exhausted
  | lost (path : List Nat) (fault : SearchFault)
  | visited (visit : Visit)

namespace Turn

def visit? : Turn → Option Visit
  | visited visit => some visit
  | exhausted | lost _ _ => none

/-- What the turn was refused. -/
def fault? : Turn → Option SearchFault
  | exhausted => none
  | lost _ fault => some fault
  | visited visit =>
    match visit.found with
    | .ok _ => none
    | .error fault => some fault

/-- The alternatives on the way to the node that the turn is about. -/
def path? : Turn → Option (List Nat)
  | exhausted => none
  | lost path _ => some path
  | visited visit => some visit.path

end Turn

namespace Search

/-- What a computation gives, and the search that it leaves. -/
def outcome {α : Type} : EStateM.Result SearchFault Search α → Except SearchFault α × Search
  | .ok x s => (.ok x, s)
  | .error fault s => (.error fault, s)

/-- The alternatives that the frames of a stack have come to, from the root on. -/
def route (stack : List Frame) : List Nat := (stack.map fun frame => frame.next - 1).reverse

/-- The number of alternatives of the node that the search has just gone down from. -/
def offered (s : Search) : Nat :=
  match s.current, s.stack with
  | some _, frame :: _ => frame.choice.alternatives
  | _, _ => 0

/-- Takes the next node and visits it. -/
def turn (s : Search) : Turn × Search :=
  match takeNode s with
  | .error fault t => (.lost (route t.stack) fault, t)
  | .ok none t => (.exhausted, t)
  | .ok (some space) t =>
    let (found, u) := outcome (visit space t)
    (.visited { path := route t.stack, space, found, width := u.offered }, u)

/-- The first turns of a search, and the search after them. -/
def traverse : Nat → Search → List Turn × Search
  | 0, s => ([], s)
  | turns + 1, s =>
    let (first, t) := turn s
    let (rest, u) := traverse turns t
    (first :: rest, u)

/-- The nodes that the search explores in its first turns. -/
def visits (turns : Nat) (s : Search) : List Visit := (traverse turns s).1.filterMap Turn.visit?

variable {s t u : Search} {space : Space}

theorem eq_ok_of_outcome {α : Type} {result : EStateM.Result SearchFault Search α} {x : α}
    (hresult : outcome result = (.ok x, s)) : result = .ok x s := by
  cases result with
  | ok y t =>
      simp only [outcome, Prod.mk.injEq, Except.ok.injEq] at hresult
      obtain ⟨rfl, rfl⟩ := hresult
      rfl
  | error fault t => simp [outcome] at hresult

@[simp] theorem route_cons (frame : Frame) (above : List Frame) :
    route (frame :: above) = route above ++ [frame.next - 1] := by
  simp [route]

theorem traverse_succ (turns : Nat) (s : Search) :
    traverse (turns + 1) s =
      ((turn s).1 :: (traverse turns (turn s).2).1, (traverse turns (turn s).2).2) := rfl

theorem traverse_add (turns more : Nat) (s : Search) :
    traverse (turns + more) s =
      ((traverse turns s).1 ++ (traverse more (traverse turns s).2).1,
        (traverse more (traverse turns s).2).2) := by
  induction turns generalizing s with
  | zero => simp [traverse]
  | succ turns ih =>
      rw [Nat.succ_add, traverse_succ, ih, traverse_succ]
      rfl

theorem visits_add (turns more : Nat) (s : Search) :
    visits (turns + more) s = visits turns s ++ visits more (traverse turns s).2 := by
  rw [visits, traverse_add, List.filterMap_append]
  rfl

theorem visits_succ (turns : Nat) (s : Search) :
    visits (turns + 1) s = (turn s).1.visit?.toList ++ visits turns (turn s).2 := by
  rw [visits, traverse_succ]
  cases hvisit : (turn s).1.visit? with
  | none => rw [List.filterMap_cons_none hvisit]; rfl
  | some visit => rw [List.filterMap_cons_some hvisit]; rfl

/-! ## What a turn does -/

theorem Resembles.refl (s : Search) : s.Resembles s := ⟨_, _, _, rfl⟩

theorem Resembles.trans (hfirst : s.Resembles t) (hsecond : t.Resembles u) : s.Resembles u := by
  obtain ⟨clones, recomputations, journal, rfl⟩ := hfirst
  obtain ⟨clones', recomputations', journal', rfl⟩ := hsecond
  exact ⟨clones', recomputations', journal', rfl⟩

theorem resembles_settle {α : Type} (result : EStateM.Result Fault Space α) (s : Search) :
    s.Resembles (outcome (settle result s)).2 := by
  cases result with
  | ok x space => exact ⟨_, _, _, rfl⟩
  | error fault space => exact ⟨_, _, _, rfl⟩

theorem of_settle_ok {α : Type} {result : EStateM.Result Fault Space α} {x : α}
    (hrun : settle result s = .ok (x, space) t) :
    ∃ given, result = .ok x given ∧ given.failure = space.failure := by
  cases result with
  | ok y given =>
      cases hrun
      exact ⟨given, rfl, rfl⟩
  | error fault given => cases hrun

theorem resembles_restore (s : Search) : s.Resembles (outcome (restore s)).2 := by
  unfold restore
  split
  · exact .refl s
  next copy edges hlineage =>
    generalize hnote : (if edges.length = 1 then _ else _ : Search) = noted
    have hnoted : s.Resembles noted := by
      rw [← hnote]
      split <;> exact ⟨_, _, _, rfl⟩
    have hsettled := resembles_settle (Path.recompute { edges } copy) noted
    cases hrun : settle (Path.recompute { edges } copy) noted with
    | ok found t =>
        rw [hrun] at hsettled
        simp only [hrun]
        exact hnoted.trans hsettled
    | error fault t =>
        rw [hrun] at hsettled
        simp only [hrun]
        exact hnoted.trans hsettled

/-- The search has taken the next alternative of a frame, whether its space could be
restored or not. -/
structure Moved (s : Search) (frame : Frame) (above : List Frame) (t : Search) : Prop where
  stack : t.stack = { frame with next := frame.next + 1 } :: above
  current : t.current = none
  options : t.options = s.options
  nodes : t.counts.nodes = s.counts.nodes
  solutions : t.counts.solutions = s.counts.solutions

/-- The frames of the stack from the deepest one on that has an alternative left. -/
def open? (s : Search) : List Frame :=
  s.stack.dropWhile fun frame => frame.choice.alternatives ≤ frame.next

/-- What the search takes: the space that it has, the next alternative that is left on
the stack, or nothing. -/
theorem takeNode_cases (s : Search) :
    (∃ space, s.current = some space ∧
        takeNode s = .ok (some space) { s with current := none }) ∨
      (s.current = none ∧ s.open? = [] ∧ takeNode s = .ok none { s with stack := [] }) ∨
      s.current = none ∧ ∃ frame above t, s.open? = frame :: above ∧ s.Moved frame above t ∧
        ((∃ space, takeNode s = .ok (some space) t) ∨ ∃ fault, takeNode s = .error fault t) := by
  cases hcurrent : s.current with
  | some space => exact Or.inl ⟨space, rfl, by simp only [takeNode, hcurrent]⟩
  | none =>
      have htake : takeNode s = backtrack s := by simp only [takeNode, hcurrent]
      cases hopen : s.open? with
      | nil =>
          refine Or.inr (Or.inl ⟨rfl, rfl, ?_⟩)
          unfold open? at hopen
          rw [htake, backtrack, hopen, hcurrent]
      | cons frame above =>
          refine Or.inr (Or.inr ⟨rfl, frame, above, ?_⟩)
          unfold open? at hopen
          let moved : Search := { s with stack := { frame with next := frame.next + 1 } :: above }
          have hmoved : ∀ t, moved.Resembles t → s.Moved frame above t := by
            rintro t ⟨clones, recomputations, journal, rfl⟩
            exact ⟨rfl, hcurrent, rfl, rfl, rfl⟩
          have hresembles := resembles_restore moved
          cases hrestore : restore moved with
          | ok space t =>
              rw [hrestore] at hresembles
              refine ⟨t, rfl, hmoved t hresembles, Or.inl ⟨space, ?_⟩⟩
              simp only [htake, backtrack, hopen]
              exact hrestore ▸ rfl
          | error fault t =>
              rw [hrestore] at hresembles
              refine ⟨t, rfl, hmoved t hresembles, Or.inr ⟨fault, ?_⟩⟩
              simp only [htake, backtrack, hopen]
              exact hrestore ▸ rfl

theorem resembles_keepCopy (space : Space) (s : Search) :
    ∃ copy t, keepCopy space s = .ok copy t ∧ s.Resembles t := by
  unfold keepCopy
  split
  · exact ⟨_, _, rfl, _, _, _, rfl⟩
  · exact ⟨none, s, rfl, .refl s⟩

/-- Going down either adds a frame that has taken its first alternative, or is refused and
leaves the stack as it was. -/
theorem descend_cases (space : Space) (s : Search) :
    (∃ fault t, descend space s = .error fault t ∧ s.Resembles t) ∨
      ∃ frame next t, descend space s = .ok () (push frame next t) ∧ frame.next = 1 ∧
        0 < frame.choice.alternatives ∧ s.Resembles t := by
  obtain ⟨copy, t, hkeep, hkept⟩ := resembles_keepCopy space s
  have hchosen := resembles_settle (Space.choice space) t
  cases hchoice : settle (Space.choice space) t with
  | error fault u =>
      rw [hchoice] at hchosen
      refine Or.inl ⟨fault, u, ?_, hkept.trans hchosen⟩
      simp only [descend, bind, EStateM.bind, hkeep, hchoice]
  | ok offer u =>
      obtain ⟨chosen, offering⟩ := offer
      rw [hchoice] at hchosen
      have htaken := resembles_settle (Space.commit chosen 0 offering) u
      cases hcommit : settle (Space.commit chosen 0 offering) u with
      | error fault v =>
          rw [hcommit] at htaken
          refine Or.inl ⟨fault, v, ?_, (hkept.trans hchosen).trans htaken⟩
          simp only [descend, bind, EStateM.bind, hkeep, hchoice, hcommit]
      | ok taken v =>
          rw [hcommit] at htaken
          refine Or.inr ⟨⟨chosen, 1, copy⟩, taken.2, v, ?_, rfl, ?_,
            (hkept.trans hchosen).trans htaken⟩
          · simp only [descend, bind, EStateM.bind, hkeep, hchoice, hcommit]
            rfl
          · obtain ⟨given, hgiven, hfailure⟩ := of_settle_ok hchoice
            obtain ⟨-, -, -, hok, -⟩ := Space.of_choice hgiven
            obtain ⟨left, hleft, -⟩ := of_settle_ok hcommit
            exact Space.lt_alternatives_of_commit (hfailure.symm.trans hok) hleft

/-- What a visit does to a search that has taken its node: the node is counted, and either
the search has gone down from it, or nothing is left of it. -/
structure Visited (s : Search) (found : Except SearchFault (Option Space)) (t : Search) :
    Prop where
  options : t.options = s.options
  nodes : t.counts.nodes = s.counts.nodes + 1
  solutions : t.counts.solutions =
    s.counts.solutions + match found with
      | .ok (some _) => 1
      | _ => 0
  stack : (t.stack = s.stack ∧ t.current = none) ∨
    ∃ frame space, t.stack = frame :: s.stack ∧ frame.next = 1 ∧
      0 < frame.choice.alternatives ∧ t.current = some space ∧ found = .ok none

theorem visited_visit (hcurrent : s.current = none) (space : Space) :
    s.Visited (outcome (visit space s)).1 (outcome (visit space s)).2 := by
  let counted : Search := { s with counts := { s.counts with nodes := s.counts.nodes + 1 } }
  have hcount : (modify fun s : Search =>
      { s with counts := { s.counts with nodes := s.counts.nodes + 1 } } : Searching PUnit) s =
        .ok () counted := rfl
  have hsettled := resembles_settle (Space.status space) counted
  cases hstatus : settle (Space.status space) counted with
  | error fault t =>
      rw [hstatus] at hsettled
      have hrun : visit space s = .error fault t := by
        simp only [visit, bind, EStateM.bind, hcount, hstatus]
      obtain ⟨clones, recomputations, journal, rfl⟩ := hsettled
      rw [hrun]
      exact ⟨rfl, rfl, rfl, Or.inl ⟨rfl, hcurrent⟩⟩
  | ok answered t =>
      obtain ⟨answer, next⟩ := answered
      rw [hstatus] at hsettled
      cases answer with
      | failed =>
          have hrun : visit space s = .ok none
              { t with counts := { t.counts with failures := t.counts.failures + 1 } } := by
            simp only [visit, bind, EStateM.bind, hcount, hstatus]
            rfl
          obtain ⟨clones, recomputations, journal, rfl⟩ := hsettled
          rw [hrun]
          exact ⟨rfl, rfl, rfl, Or.inl ⟨rfl, hcurrent⟩⟩
      | solved =>
          have hrun : visit space s = .ok (some next)
              { t with counts := { t.counts with solutions := t.counts.solutions + 1 } } := by
            simp only [visit, bind, EStateM.bind, hcount, hstatus]
            rfl
          obtain ⟨clones, recomputations, journal, rfl⟩ := hsettled
          rw [hrun]
          exact ⟨rfl, rfl, rfl, Or.inl ⟨rfl, hcurrent⟩⟩
      | branching =>
          rcases descend_cases next t with ⟨fault, u, hdescend, hrefused⟩ |
            ⟨frame, below, u, hdescend, hnext, hsome, hpushed⟩
          · have hrun : visit space s = .error fault u := by
              simp only [visit, bind, EStateM.bind, hcount, hstatus, hdescend]
            obtain ⟨clones, recomputations, journal, rfl⟩ := hsettled.trans hrefused
            rw [hrun]
            exact ⟨rfl, rfl, rfl, Or.inl ⟨rfl, hcurrent⟩⟩
          · have hrun : visit space s = .ok none (push frame below u) := by
              simp only [visit, bind, EStateM.bind, hcount, hstatus, hdescend]
              rfl
            obtain ⟨clones, recomputations, journal, rfl⟩ := hsettled.trans hpushed
            rw [hrun]
            exact ⟨rfl, rfl, rfl, Or.inr ⟨frame, below, rfl, hnext, hsome, rfl, rfl⟩⟩

/-- The search has taken its next node: the one that it had, or the next alternative that
is left on its stack. -/
inductive Taken (s : Search) : Search → Prop where
  | current {space : Space} (hcurrent : s.current = some space) :
      Taken s { s with current := none }
  | moved {frame : Frame} {above : List Frame} {t : Search} (hcurrent : s.current = none)
      (hopen : s.open? = frame :: above) (hmoved : s.Moved frame above t) : Taken s t

theorem Taken.current_eq (htaken : s.Taken t) : t.current = none := by
  cases htaken with
  | current _ => rfl
  | moved _ _ hmoved => exact hmoved.current

theorem Taken.options (htaken : s.Taken t) : t.options = s.options := by
  cases htaken with
  | current _ => rfl
  | moved _ _ hmoved => exact hmoved.options

theorem Taken.nodes (htaken : s.Taken t) : t.counts.nodes = s.counts.nodes := by
  cases htaken with
  | current _ => rfl
  | moved _ _ hmoved => exact hmoved.nodes

theorem Taken.solutions (htaken : s.Taken t) : t.counts.solutions = s.counts.solutions := by
  cases htaken with
  | current _ => rfl
  | moved _ _ hmoved => exact hmoved.solutions

/-- What a turn can come to: nothing is left, the next alternative is lost, or the next
node is visited. -/
inductive Turns (s : Search) : Turn → Search → Prop where
  | exhausted (hcurrent : s.current = none) (hopen : s.open? = []) :
      Turns s .exhausted { s with stack := [] }
  | lost {frame : Frame} {above : List Frame} {t : Search} (fault : SearchFault)
      (hcurrent : s.current = none) (hopen : s.open? = frame :: above)
      (hmoved : s.Moved frame above t) : Turns s (.lost (route t.stack) fault) t
  | visited {taken t : Search} {visit : Visit} (htaken : s.Taken taken)
      (hpath : visit.path = route taken.stack) (hwidth : visit.width = t.offered)
      (hvisited : taken.Visited visit.found t) : Turns s (.visited visit) t

theorem turns_turn (s : Search) : s.Turns (turn s).1 (turn s).2 := by
  have hvisit : ∀ {space taken}, takeNode s = .ok (some space) taken → s.Taken taken →
      s.Turns (turn s).1 (turn s).2 := by
    intro space taken htake htaken
    simp only [turn, htake]
    exact .visited htaken rfl rfl (visited_visit htaken.current_eq space)
  rcases takeNode_cases s with ⟨space, hcurrent, htake⟩ | ⟨hcurrent, hopen, htake⟩ |
    ⟨hcurrent, frame, above, t, hopen, hmoved, ⟨space, htake⟩ | ⟨fault, htake⟩⟩
  · exact hvisit htake (.current hcurrent)
  · simp only [turn, htake]
    exact .exhausted hcurrent hopen
  · exact hvisit htake (.moved hcurrent hopen hmoved)
  · simp only [turn, htake]
    exact .lost fault hcurrent hopen hmoved

theorem Turns.options {x : Turn} (hturns : s.Turns x t) : t.options = s.options := by
  cases hturns with
  | exhausted _ _ => rfl
  | lost _ _ _ hmoved => exact hmoved.options
  | visited htaken _ _ hvisited => exact hvisited.options.trans htaken.options

theorem Turns.nodes {x : Turn} (hturns : s.Turns x t) :
    t.counts.nodes = s.counts.nodes + x.visit?.toList.length := by
  cases hturns with
  | exhausted _ _ => rfl
  | lost _ _ _ hmoved => exact hmoved.nodes
  | visited htaken _ _ hvisited =>
      rw [hvisited.nodes, htaken.nodes]
      rfl

theorem Turns.solutions {x : Turn} (hturns : s.Turns x t) :
    t.counts.solutions =
      s.counts.solutions + (x.visit?.toList.filterMap Visit.solution?).length := by
  cases hturns with
  | exhausted _ _ => rfl
  | lost _ _ _ hmoved => exact hmoved.solutions
  | @visited _ _ visit htaken _ _ hvisited =>
      rw [hvisited.solutions, htaken.solutions]
      obtain ⟨path, space, found, width⟩ := visit
      rcases found with fault | _ | solution <;> rfl

theorem traverse_options (turns : Nat) (s : Search) :
    (traverse turns s).2.options = s.options := by
  induction turns generalizing s with
  | zero => rfl
  | succ turns ih => exact (ih _).trans (turns_turn s).options

theorem traverse_nodes (turns : Nat) (s : Search) :
    (traverse turns s).2.counts.nodes = s.counts.nodes + (visits turns s).length := by
  induction turns generalizing s with
  | zero => rfl
  | succ turns ih =>
      rw [traverse_succ, ih, (turns_turn s).nodes, visits_succ, List.length_append,
        Nat.add_assoc]

theorem traverse_solutions (turns : Nat) (s : Search) :
    (traverse turns s).2.counts.solutions =
      s.counts.solutions + ((visits turns s).filterMap Visit.solution?).length := by
  induction turns generalizing s with
  | zero => rfl
  | succ turns ih =>
      rw [traverse_succ, ih, (turns_turn s).solutions, visits_succ, List.filterMap_append,
        List.length_append, Nat.add_assoc]

/-! ## Turns do not read the limits -/

/-- The search with other limits. -/
def limited (nodeLimit solutionLimit : Option Nat) (s : Search) : Search :=
  { s with options := { s.options with nodeLimit, solutionLimit } }

/-- The computation does with any limits what it does without them. -/
def Limitless {α : Type} (m : Searching α) : Prop :=
  ∀ (nodeLimit solutionLimit : Option Nat) (s : Search),
    outcome (m (s.limited nodeLimit solutionLimit)) =
      (outcome (m s)).map id (limited nodeLimit solutionLimit)

theorem Limitless.cases {α : Type} {m : Searching α} (hm : Limitless m)
    (nodeLimit solutionLimit : Option Nat) (s : Search) :
    (∃ x t, m s = .ok x t ∧
        m (s.limited nodeLimit solutionLimit) = .ok x (t.limited nodeLimit solutionLimit)) ∨
      ∃ fault t, m s = .error fault t ∧
        m (s.limited nodeLimit solutionLimit) =
          .error fault (t.limited nodeLimit solutionLimit) := by
  have hsame := hm nodeLimit solutionLimit s
  cases hrun : m s with
  | ok x t =>
      rw [hrun] at hsame
      cases hlimited : m (s.limited nodeLimit solutionLimit) with
      | ok y u =>
          rw [hlimited] at hsame
          simp only [outcome, Prod.map_apply, id, Prod.mk.injEq, Except.ok.injEq] at hsame
          obtain ⟨rfl, rfl⟩ := hsame
          exact Or.inl ⟨y, t, rfl, rfl⟩
      | error fault u =>
          rw [hlimited] at hsame
          simp [outcome] at hsame
  | error fault t =>
      rw [hrun] at hsame
      cases hlimited : m (s.limited nodeLimit solutionLimit) with
      | ok y u =>
          rw [hlimited] at hsame
          simp [outcome] at hsame
      | error fault' u =>
          rw [hlimited] at hsame
          simp only [outcome, Prod.map_apply, id, Prod.mk.injEq, Except.error.injEq] at hsame
          obtain ⟨rfl, rfl⟩ := hsame
          exact Or.inr ⟨fault', t, rfl, rfl⟩

theorem limitless_pure {α : Type} (x : α) : Limitless (pure x : Searching α) :=
  fun _ _ _ => rfl

theorem Limitless.bind {α β : Type} {m : Searching α} {k : α → Searching β}
    (hm : Limitless m) (hk : ∀ x, Limitless (k x)) : Limitless (m >>= k) := by
  intro nodeLimit solutionLimit s
  rcases hm.cases nodeLimit solutionLimit s with ⟨x, t, hrun, hlimited⟩ |
    ⟨fault, t, hrun, hlimited⟩
  · simp only [Bind.bind, EStateM.bind, hrun, hlimited]
    exact hk x nodeLimit solutionLimit t
  · simp only [Bind.bind, EStateM.bind, hrun, hlimited]
    rfl

theorem limitless_settle {α : Type} (result : EStateM.Result Fault Space α) :
    Limitless (settle result) := by
  intro nodeLimit solutionLimit s
  cases result with
  | ok x space => rfl
  | error fault space => rfl

theorem limitless_keepCopy (space : Space) : Limitless (keepCopy space) := by
  intro nodeLimit solutionLimit s
  have hkeep : ∀ t : Search, keepCopy space (t.limited nodeLimit solutionLimit) =
      if t.depth % t.options.copyDistance = 0 then
        let kept := (t.limited nodeLimit solutionLimit).absorb space.clone
        .ok (some kept.1)
          { kept.2 with counts := { kept.2.counts with clones := kept.2.counts.clones + 1 } }
      else .ok none (t.limited nodeLimit solutionLimit) := fun _ => rfl
  rw [hkeep]
  unfold keepCopy
  split <;> rfl

theorem limitless_descend (space : Space) : Limitless (descend space) := by
  refine (limitless_keepCopy space).bind fun copy? => ?_
  refine (limitless_settle _).bind fun chosen => ?_
  refine (limitless_settle _).bind fun taken => ?_
  exact fun _ _ _ => rfl

theorem limitless_visit (space : Space) : Limitless (visit space) := by
  have hcount : ∀ count : SearchCounts → SearchCounts,
      Limitless (modify fun s : Search => { s with counts := count s.counts }) :=
    fun _ _ _ _ => rfl
  refine (hcount fun counts => { counts with nodes := counts.nodes + 1 }).bind fun _ => ?_
  refine (limitless_settle _).bind fun answered => ?_
  obtain ⟨answer, next⟩ := answered
  cases answer with
  | failed =>
      exact (hcount fun counts => { counts with failures := counts.failures + 1 }).bind
        fun _ => limitless_pure none
  | solved =>
      exact (hcount fun counts => { counts with solutions := counts.solutions + 1 }).bind
        fun _ => limitless_pure (some next)
  | branching => exact (limitless_descend next).bind fun _ => limitless_pure none

theorem limitless_restore : Limitless restore := by
  intro nodeLimit solutionLimit s
  have hlineage : lineage (s.limited nodeLimit solutionLimit).stack = lineage s.stack := rfl
  unfold restore
  rw [hlineage]
  cases lineage s.stack with
  | none => rfl
  | some found =>
      obtain ⟨copy, edges⟩ := found
      simp only
      generalize hnote : (if edges.length = 1 then _ else _ : Search) = noted'
      generalize hnote' : (if edges.length = 1 then _ else _ : Search) = noted
      have hnoted : noted' = noted.limited nodeLimit solutionLimit := by
        rw [← hnote, ← hnote']
        split <;> rfl
      rw [hnoted]
      cases Path.recompute { edges } copy with
      | ok x space => rfl
      | error fault space => rfl

theorem limitless_backtrack : Limitless backtrack := by
  intro nodeLimit solutionLimit s
  have hopen : (s.limited nodeLimit solutionLimit).stack = s.stack := rfl
  unfold backtrack
  rw [hopen]
  cases s.stack.dropWhile fun frame => frame.choice.alternatives ≤ frame.next with
  | nil => rfl
  | cons frame above =>
      let moved : Search := { s with stack := { frame with next := frame.next + 1 } :: above }
      rcases limitless_restore.cases nodeLimit solutionLimit moved with
        ⟨space, t, hrestore, hlimited⟩ | ⟨fault, t, hrestore, hlimited⟩
      · simp only [limited, moved] at hrestore hlimited ⊢
        simp only [hrestore, hlimited]
        rfl
      · simp only [limited, moved] at hrestore hlimited ⊢
        simp only [hrestore, hlimited]
        rfl

theorem limitless_takeNode : Limitless takeNode := by
  intro nodeLimit solutionLimit s
  have hcurrent : (s.limited nodeLimit solutionLimit).current = s.current := rfl
  unfold takeNode
  rw [hcurrent]
  cases s.current with
  | some space => rfl
  | none => exact limitless_backtrack nodeLimit solutionLimit s

/-- Searches that differ in their limits only take the same turn. -/
theorem turn_limited (nodeLimit solutionLimit : Option Nat) (s : Search) :
    turn (s.limited nodeLimit solutionLimit) =
      ((turn s).1, (turn s).2.limited nodeLimit solutionLimit) := by
  rcases limitless_takeNode.cases nodeLimit solutionLimit s with
    ⟨space?, t, htake, hlimited⟩ | ⟨fault, t, htake, hlimited⟩
  · cases space? with
    | none => simp only [turn, htake, hlimited]
    | some space =>
        have hvisit := limitless_visit space nodeLimit solutionLimit t
        simp only [turn, htake, hlimited, hvisit]
        rfl
  · simp only [turn, htake, hlimited]
    rfl

theorem traverse_limited (nodeLimit solutionLimit : Option Nat) (turns : Nat) (s : Search) :
    traverse turns (s.limited nodeLimit solutionLimit) =
      ((traverse turns s).1, (traverse turns s).2.limited nodeLimit solutionLimit) := by
  induction turns generalizing s with
  | zero => rfl
  | succ turns ih => rw [traverse_succ, turn_limited, ih, traverse_succ]

theorem visits_limited (nodeLimit solutionLimit : Option Nat) (turns : Nat) (s : Search) :
    visits turns (s.limited nodeLimit solutionLimit) = visits turns s := by
  rw [visits, traverse_limited]
  rfl

end Search

end ConstraintSpace
