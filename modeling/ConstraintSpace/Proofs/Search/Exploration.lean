import ConstraintSpace.Proofs.Search.Backtracking
import ConstraintSpace.Proofs.Space.Building

/-!
# Exploration

A search explores one node after the other: it takes the next node from its stack, asks
it for its status, and where the node is branching, it goes down to the first
alternative.  What the search still has to explore is what the plain enumeration would
list next.  So the search explores the nodes of the plain enumeration in their order,
whatever copies it keeps, and its counts and solutions are those of the enumeration.
-/

namespace ConstraintSpace

namespace Node

/-- The nodes have one depth, and their spaces are alike. -/
def Alike (x y : Node) : Prop := x.depth = y.depth ∧ x.space.Alike y.space

/-- How deep the search has to go for the node. -/
def reach (node : Node) : Nat :=
  if node.answer? = some .branching then node.depth + 1 else 0

end Node

/-- Between the two counts the nodes were explored. -/
structure Counted (before : SearchCounts) (visited : List Node) (after : SearchCounts) :
    Prop where
  nodes : after.nodes = before.nodes + visited.length
  failures : after.failures =
    before.failures + visited.countP fun node => node.answer? = some .failed
  solutions : after.solutions =
    before.solutions + visited.countP fun node => node.answer? = some .solved
  peakDepth : after.peakDepth = max before.peakDepth ((visited.map Node.reach).foldr max 0)

theorem Counted.refl (counts : SearchCounts) : Counted counts [] counts where
  nodes := rfl
  failures := rfl
  solutions := rfl
  peakDepth := (Nat.max_zero _).symm

theorem Counted.append {before between after : SearchCounts} {first second : List Node}
    (hfirst : Counted before first between) (hsecond : Counted between second after) :
    Counted before (first ++ second) after where
  nodes := by
    rw [hsecond.nodes, hfirst.nodes, List.length_append, Nat.add_assoc]
  failures := by
    rw [hsecond.failures, hfirst.failures, List.countP_append, Nat.add_assoc]
  solutions := by
    rw [hsecond.solutions, hfirst.solutions, List.countP_append, Nat.add_assoc]
  peakDepth := by
    have hmax : ∀ (depths : List Nat) (least : Nat),
        depths.foldr max least = max (depths.foldr max 0) least := by
      intro depths least
      induction depths with
      | nil => exact (Nat.zero_max least).symm
      | cons depth rest ih => rw [List.foldr_cons, List.foldr_cons, ih, Nat.max_assoc]
    rw [hsecond.peakDepth, hfirst.peakDepth, List.map_append, List.foldr_append,
      hmax (first.map Node.reach) (List.foldr max 0 _), Nat.max_assoc]

namespace Search

variable {root space : Space} {s t : Search} {node : Node} {work rest : List Node}

/-- The nodes that the search has left to explore, in order. -/
inductive Pending (root : Space) (s : Search) : List Node → Prop where
  | current {space w : Space} {rest : List Node} (htracks : Tracks root s.stack w rest)
      (hcurrent : s.current = some space) (halike : w.Alike space) :
      Pending root s (⟨s.depth, w⟩ :: rest)
  | backtrack {w : Space} {rest : List Node} (htracks : Tracks root s.stack w rest)
      (hcurrent : s.current = none) : Pending root s rest

/-- A search that has not taken its root yet. -/
def start (root : Space) (options : SearchOptions) : Search :=
  { options, stack := [], current := some root, counts := ⟨0, 0, 0, 0, 0, 0⟩, journal := [] }

theorem create_eq_start (root : Space) {options : SearchOptions}
    (hdistance : 1 ≤ options.copyDistance) : create root options = .ok (start root options) := by
  rw [create, if_neg (Nat.ne_of_gt hdistance)]
  rfl

theorem pending_start (root : Space) (options : SearchOptions) :
    Pending root (start root options) [⟨0, root⟩] := .current .root rfl (.refl root)

/-! ## Taking a node -/

theorem settle_ok {α : Type} (x : α) (space : Space) (s : Search) :
    ∃ space' journal, settle (.ok x space) s = .ok (x, space') { s with journal } ∧
      space.Alike space' :=
  ⟨_, _, rfl, space.counts, [], rfl⟩

/-- The search is the other one but for its journal and for how often it cloned and
recomputed. -/
def Resembles (s t : Search) : Prop :=
  ∃ clones recomputations journal,
    t = { s with counts := { s.counts with clones, recomputations }, journal }

theorem Tracks.restore {w : Space} (htracks : Tracks root s.stack w rest)
    (hroot : root.Kernel) (hstack : s.stack ≠ []) :
    ∃ space t, Search.restore s = .ok space t ∧ w.Alike space ∧ s.Resembles t := by
  obtain ⟨copy, edges, w', hlineage, hrecompute, halike⟩ := htracks.recompute hroot hstack
  unfold Search.restore
  simp only [hlineage, hrecompute]
  generalize hnoted : (if edges.length = 1 then _ else _ : Search) = noted
  have hresembles : s.Resembles noted := by
    rw [← hnoted]
    split <;> exact ⟨_, _, _, rfl⟩
  obtain ⟨clones, recomputations, journal, rfl⟩ := hresembles
  obtain ⟨space, journal', hsettle, halike'⟩ := settle_ok () w'
    { s with counts := { s.counts with clones, recomputations }, journal }
  rw [hsettle]
  exact ⟨space, _, rfl, halike.trans halike', clones, recomputations, journal', rfl⟩

theorem Resembles.counted (hresembles : s.Resembles t) : Counted s.counts [] t.counts := by
  obtain ⟨clones, recomputations, journal, rfl⟩ := hresembles
  exact ⟨rfl, rfl, rfl, (Nat.max_zero _).symm⟩

/-- The node that the search explores next is the first one that is left. -/
structure Takes (root : Space) (s : Search) (node : Node) (rest : List Node) (space : Space)
    (t : Search) : Prop where
  run : takeNode s = .ok (some space) t
  depth : node.depth = t.depth
  alike : node.space.Alike space
  tracks : Tracks root t.stack node.space rest
  current : t.current = none
  options : t.options = s.options
  counted : Counted s.counts [] t.counts

theorem Pending.takes (hpending : Pending root s work) (hroot : root.Kernel) :
    (work = [] ∧ ∃ t, takeNode s = .ok none t) ∨
      ∃ node rest space t, work = node :: rest ∧ s.Takes root node rest space t := by
  cases hpending with
  | @current space w rest htracks hcurrent halike =>
      have hrun : takeNode s = .ok (some space) { s with current := none } := by
        simp only [takeNode, hcurrent]
      exact Or.inr ⟨_, rest, space, _, rfl, hrun, rfl, halike, htracks, rfl, rfl, .refl _⟩
  | backtrack htracks hcurrent =>
      rcases htracks.backtrack hroot with
        ⟨rfl, hspent⟩ | ⟨frame, above, w, rest', hleft, rfl, htracks'⟩
      · refine Or.inl ⟨rfl, { s with stack := [] }, ?_⟩
        simp only [takeNode, hcurrent, Search.backtrack, hspent]
      · let moved : Search := { s with stack := { frame with next := frame.next + 1 } :: above }
        have hmoved : Tracks root moved.stack w rest' := htracks'
        obtain ⟨space, t, hrestore, halike, hresembles⟩ := hmoved.restore hroot (by simp [moved])
        have hbacktrack : Search.backtrack s = .ok (some space) t := by
          have hrestore' : Search.restore
              { s with stack := { frame with next := frame.next + 1 } :: above } =
                .ok space t := hrestore
          simp only [Search.backtrack, hleft, hrestore']
        have hrun : takeNode s = .ok (some space) t := by simp only [takeNode, hcurrent, hbacktrack]
        have hcounted : Counted s.counts [] t.counts := hresembles.counted
        obtain ⟨clones, recomputations, journal, rfl⟩ := hresembles
        exact Or.inr ⟨_, rest', space, _, rfl, hrun, rfl, halike, hmoved, hcurrent, rfl, hcounted⟩

/-! ## Visiting a node -/

theorem keepCopy_cases (hok : space.failure = none) (s : Search) :
    ∃ copy t, keepCopy space s = .ok copy t ∧ s.Resembles t ∧
      (∀ kept, copy = some kept → space.Alike kept) ∧ (s.stack = [] → copy ≠ none) := by
  unfold keepCopy
  split
  · refine ⟨_, _, rfl, ⟨_, _, _, rfl⟩, ?_, by simp⟩
    intro kept hkept
    obtain rfl := Option.some.inj hkept
    exact (Space.alike_clone hok).trans ⟨space.clone.counts, [], rfl⟩
  next hbetween =>
    refine ⟨none, s, rfl, ⟨_, _, _, rfl⟩, by simp, ?_⟩
    intro hempty
    simp [depth, hempty] at hbetween

/-- Going down from a branching node leaves its alternatives to explore, before the
other nodes. -/
theorem Tracks.descend {w t : Space} (htracks : Tracks root s.stack w rest)
    (hroot : root.Kernel) (hstatus : Space.status w = .ok .branching t)
    (halike : t.Alike space) :
    ∃ u, Search.descend space s = .ok () u ∧
      Pending root u ((⟨s.depth, w⟩ : Node).children ++ rest) ∧
      u.options = s.options ∧ u.counts.nodes = s.counts.nodes ∧
      u.counts.failures = s.counts.failures ∧ u.counts.solutions = s.counts.solutions ∧
      u.counts.peakDepth = max s.counts.peakDepth (s.depth + 1) := by
  obtain ⟨answer, t', hstatus', -, -, hanswered⟩ := (htracks.kernel hroot).status
  obtain ⟨rfl, rfl⟩ := EStateM.Result.ok.inj (hstatus.symm.trans hstatus')
  have hready : t.Ready := hanswered
  obtain ⟨chosen, u, hchoice, hoffers, -⟩ := hready.choice
  obtain ⟨v, hcommit, halternatives⟩ := hoffers.alternatives_eq (s.depth + 1) Nat.zero_lt_two
  -- the same on the space that the search has
  obtain ⟨copy, s₁, hkeep, hresembles, hcopy, hbottom⟩ :=
    keepCopy_cases (halike.failure.trans hready.ok) s
  obtain ⟨y, hchoice', halike_y⟩ := Space.oblivious_choice.of_ok halike hchoice
  obtain ⟨y', journal, hsettle, halike_y'⟩ := settle_ok chosen y s₁
  have hclone : u.clone.Alike y' :=
    (Space.alike_clone hoffers.ok).symm.trans (halike_y.trans halike_y')
  obtain ⟨z, hcommit', halike_z⟩ := (Space.oblivious_commit chosen 0).of_ok hclone hcommit
  obtain ⟨z', journal', hsettle', halike_z'⟩ := settle_ok () z { s₁ with journal }
  have hrun : Search.descend space s =
      .ok () (push ⟨chosen, 1, copy⟩ z' { s₁ with journal := journal' }) := by
    simp only [Search.descend, bind, EStateM.bind, hkeep, hchoice', hsettle, hcommit', hsettle']
    rfl
  have hchildren : (⟨s.depth, w⟩ : Node).children =
      ⟨s.depth + 1, v⟩ :: Node.alternatives (s.depth + 1) chosen u 1 := by
    simp only [Node.children, hstatus, hchoice, halternatives]
  have hpushed : Tracks root (⟨chosen, 1, copy⟩ :: s.stack) v
      (Node.alternatives (s.depth + 1) chosen u 1 ++ rest) :=
    .frame htracks hstatus hchoice (fun kept hkept => halike.trans (hcopy kept hkept)) hbottom
      Nat.zero_lt_two hcommit
  obtain ⟨clones, recomputations, journal₁, rfl⟩ := hresembles
  refine ⟨_, hrun, ?_, rfl, rfl, rfl, rfl, rfl⟩
  rw [hchildren]
  exact .current hpushed rfl (halike_z.trans halike_z')

/-- Visiting a node leaves the nodes below it to explore, before the others. -/
theorem Takes.visit (htakes : s.Takes root node rest space t) (hroot : root.Kernel) :
    ∃ found u, Search.visit space t = .ok found u ∧
      Option.Rel Space.Alike node.solution? found ∧
      Pending root u (node.children ++ rest) ∧ u.options = s.options ∧
      Counted s.counts [node] u.counts := by
  obtain ⟨answer, w, hstatus, -, -, -⟩ := (htakes.tracks.kernel hroot).status
  obtain ⟨x, hstatus', halike⟩ := Space.oblivious_status.of_ok htakes.alike hstatus
  have hanswer : node.answer? = some answer := by simp only [Node.answer?, hstatus]
  let counted : Search := { t with counts := { t.counts with nodes := t.counts.nodes + 1 } }
  obtain ⟨x', journal, hsettle, halike'⟩ := settle_ok answer x counted
  have hcount : (modify fun s : Search =>
      { s with counts := { s.counts with nodes := s.counts.nodes + 1 } } : Searching PUnit) t =
        .ok () counted := rfl
  have hbefore := htakes.counted
  cases answer with
  | failed =>
      have hnone : node.children = [] := by simp only [Node.children, hstatus]
      refine ⟨none, { counted with
        counts := { counted.counts with failures := counted.counts.failures + 1 }, journal },
        ?_, ?_, ?_, htakes.options, ?_⟩
      · simp only [Search.visit, bind, EStateM.bind, hcount, hstatus', hsettle]
        rfl
      · simp only [Node.solution?, hstatus]
        exact .none
      · rw [hnone]
        exact .backtrack htakes.tracks htakes.current
      · refine hbefore.append ⟨rfl, ?_, ?_, ?_⟩
        · simp [hanswer, counted]
        · simp [hanswer, counted]
        · simp [Node.reach, hanswer, counted]
  | solved =>
      have hnone : node.children = [] := by simp only [Node.children, hstatus]
      refine ⟨some x', { counted with
        counts := { counted.counts with solutions := counted.counts.solutions + 1 }, journal },
        ?_, ?_, ?_, htakes.options, ?_⟩
      · simp only [Search.visit, bind, EStateM.bind, hcount, hstatus', hsettle]
        rfl
      · simp only [Node.solution?, hstatus]
        exact .some (halike.trans halike')
      · rw [hnone]
        exact .backtrack htakes.tracks htakes.current
      · refine hbefore.append ⟨rfl, ?_, ?_, ?_⟩
        · simp [hanswer, counted]
        · simp [hanswer, counted]
        · simp [Node.reach, hanswer, counted]
  | branching =>
      have htracks : Tracks root { counted with journal }.stack node.space rest := htakes.tracks
      obtain ⟨u, hdescend, hpending, hoptions, hnodes, hfailures, hsolutions, hpeak⟩ :=
        htracks.descend hroot hstatus (halike.trans halike')
      refine ⟨none, u, ?_, ?_, ?_, hoptions.trans htakes.options, ?_⟩
      · simp only [Search.visit, bind, EStateM.bind, hcount, hstatus', hsettle, hdescend]
        rfl
      · simp only [Node.solution?, hstatus]
        exact .none
      · have hnode : node = ⟨t.depth, node.space⟩ := by
          rw [← htakes.depth]
        rw [hnode]
        exact hpending
      · refine hbefore.append ⟨hnodes, ?_, ?_, ?_⟩
        · simp [hanswer, hfailures, counted]
        · simp [hanswer, hsolutions, counted]
        · have hreach : node.reach = t.depth + 1 := by
            rw [Node.reach, if_pos hanswer, htakes.depth]
          rw [hpeak, List.map_singleton, hreach, List.foldr_cons, List.foldr_nil, Nat.max_zero]
          rfl

/-! ## Exploring node after node -/

/-- The node that the search explores next. -/
def node? (s : Search) : Option Node :=
  match takeNode s with
  | .ok (some space) t => some ⟨t.depth, space⟩
  | _ => none

end Search

def SearchOptions.Unlimited (options : SearchOptions) : Prop :=
  options.nodeLimit = none ∧ options.solutionLimit = none

namespace Search

variable {root space : Space} {s t u : Search} {node : Node} {work rest : List Node}

theorem nextSolution_eq (hfree : s.options.Unlimited) (fuel : Nat) :
    nextSolution fuel s = exploreFor fuel s := by
  simp [nextSolution, hfree.2, reached]

theorem exploreFor_of_none (hfree : s.options.nodeLimit = none)
    (htake : takeNode s = .ok none t) (fuel : Nat) :
    exploreFor (fuel + 1) s = .ok .exhausted t := by
  simp only [exploreFor, hfree, reached, Bool.false_eq_true, if_false, htake]

theorem exploreFor_of_some (hfree : s.options.nodeLimit = none)
    (htake : takeNode s = .ok (some space) t) {found : Option Space}
    (hvisit : visit space t = .ok found u) (fuel : Nat) :
    exploreFor (fuel + 1) s =
      found.elim (exploreFor fuel u) fun solution => .ok (.solution solution) u := by
  cases found <;>
    simp only [exploreFor, hfree, reached, Bool.false_eq_true, if_false, htake, hvisit,
      Option.elim]

/-- Exploring one node of those that are left.  A call may go on with the next one as
long as none is a solution. -/
structure Step (root : Space) (s : Search) (node : Node) (rest : List Node) (seen : Node)
    (found : Option Space) (t : Search) : Prop where
  shows : s.node? = some seen
  alike : node.Alike seen
  run : ∀ fuel, exploreFor (fuel + 1) s =
    found.elim (exploreFor fuel t) fun solution => .ok (.solution solution) t
  solves : Option.Rel Space.Alike node.solution? found
  pending : Pending root t (node.children ++ rest)
  options : t.options = s.options
  counted : Counted s.counts [node] t.counts

theorem Step.solution?_eq_none {seen : Node} (hstep : s.Step root node rest seen none t) :
    node.solution? = none := by
  have hsolves := hstep.solves
  cases hsolution : node.solution? with
  | none => rfl
  | some x =>
      rw [hsolution] at hsolves
      cases hsolves

theorem Step.exists_solution {seen : Node} {solution : Space}
    (hstep : s.Step root node rest seen (some solution) t) :
    ∃ x, node.solution? = some x ∧ x.Alike solution := by
  have hsolves := hstep.solves
  cases hsolution : node.solution? with
  | none =>
      rw [hsolution] at hsolves
      cases hsolves
  | some x =>
      rw [hsolution] at hsolves
      cases hsolves with
      | some halike => exact ⟨x, rfl, halike⟩

/-- Either nothing is left to explore, or the search explores what is left first. -/
theorem Pending.step (hpending : Pending root s work) (hroot : root.Kernel)
    (hfree : s.options.nodeLimit = none) :
    (work = [] ∧ ∃ t, ∀ fuel, exploreFor (fuel + 1) s = .ok .exhausted t) ∨
      ∃ node rest seen found t, work = node :: rest ∧ s.Step root node rest seen found t := by
  rcases hpending.takes hroot with ⟨rfl, t, htake⟩ | ⟨node, rest, space, t, rfl, htakes⟩
  · exact Or.inl ⟨rfl, t, exploreFor_of_none hfree htake⟩
  · obtain ⟨found, u, hvisit, hfound, hpending', hoptions, hcounted⟩ := htakes.visit hroot
    have hseen : s.node? = some ⟨t.depth, space⟩ := by simp only [node?, htakes.run]
    exact Or.inr ⟨node, rest, _, found, u, rfl, hseen, ⟨htakes.depth, htakes.alike⟩,
      exploreFor_of_some hfree htakes.run hvisit, hfound, hpending', hoptions, hcounted⟩

/-- The search explores the nodes one after the other, each with a call that may explore
one node, and returns the solutions. -/
inductive Explores : Search → List Node → List Space → Search → Prop where
  | refl {s : Search} : Explores s [] [] s
  | unfinished {s t u : Search} {node : Node} {visited : List Node} {solutions : List Space}
      (hnode : s.node? = some node) (hrun : nextSolution 1 s = .ok .unfinished t)
      (hrest : Explores t visited solutions u) : Explores s (node :: visited) solutions u
  | solution {s t u : Search} {node : Node} {visited : List Node} {solution : Space}
      {solutions : List Space} (hnode : s.node? = some node)
      (hrun : nextSolution 1 s = .ok (.solution solution) t)
      (hrest : Explores t visited solutions u) :
      Explores s (node :: visited) (solution :: solutions) u

/-- What the search explores in a number of nodes is a survey of what it has left. -/
theorem Pending.explores (hpending : Pending root s work) (hroot : root.Kernel)
    (hfree : s.options.Unlimited) (n : Nat) :
    ∃ visited solutions t, Explores s visited solutions t ∧
      List.Forall₂ Node.Alike (Node.survey n work) visited ∧
      List.Forall₂ Space.Alike ((Node.survey n work).filterMap Node.solution?) solutions ∧
      Counted s.counts (Node.survey n work) t.counts ∧
      ((Node.survey n work).length < n → ∃ u, nextSolution 1 t = .ok .exhausted u) := by
  induction n generalizing s work with
  | zero => exact ⟨[], [], s, .refl, .nil, .nil, .refl _, by simp⟩
  | succ n ih =>
      rcases hpending.step hroot hfree.1 with
        ⟨rfl, t, hexhausted⟩ | ⟨node, rest, seen, found, t, rfl, hstep⟩
      · refine ⟨[], [], s, .refl, .nil, .nil, .refl _, fun _ => ⟨t, ?_⟩⟩
        rw [nextSolution_eq hfree, hexhausted]
      · have hfree' : t.options.Unlimited := hstep.options ▸ hfree
        obtain ⟨visited, solutions, u, hexplores, hvisited, hsolutions, hcounted, hend⟩ :=
          ih hstep.pending hfree'
        have hend' : (node :: Node.survey n (node.children ++ rest)).length < n + 1 →
            ∃ v, nextSolution 1 u = .ok .exhausted v :=
          fun hlength => hend (Nat.lt_of_succ_lt_succ hlength)
        have hrun := hstep.run 0
        rw [← nextSolution_eq hfree] at hrun
        rw [Node.survey]
        cases found with
        | none =>
            refine ⟨seen :: visited, solutions, u, .unfinished hstep.shows hrun hexplores,
              .cons hstep.alike hvisited, ?_, hstep.counted.append hcounted, hend'⟩
            rwa [List.filterMap_cons_none hstep.solution?_eq_none]
        | some solution =>
            obtain ⟨x, hsome, halike⟩ := hstep.exists_solution
            refine ⟨seen :: visited, solution :: solutions, u,
              .solution hstep.shows hrun hexplores, .cons hstep.alike hvisited, ?_,
              hstep.counted.append hcounted, hend'⟩
            rw [List.filterMap_cons_some hsome]
            exact .cons halike hsolutions

theorem map_store_eq {first second : List Space} (halike : List.Forall₂ Space.Alike first second) :
    second.map Space.store = first.map Space.store := by
  induction halike with
  | nil => rfl
  | cons halike _ ih => rw [List.map_cons, List.map_cons, halike.store, ih]

/-- Whatever copies it keeps, a search without limits explores the nodes of the plain
enumeration in their order, returns the solutions among them, and counts them as they
are; it is exhausted where the enumeration ends. -/
theorem search_refines_enumeration {posted : List (Nat × Propagator)}
    (hbuilt : Space.Built posted root) (n : Nat) {options : SearchOptions}
    (hdistance : 1 ≤ options.copyDistance) (hfree : options.Unlimited) :
    ∃ search visited solutions t, create root options = .ok search ∧
      Explores search visited solutions t ∧
      List.Forall₂ Node.Alike (Node.firstNodes n root) visited ∧
      solutions.map Space.store =
        ((Node.firstNodes n root).filterMap Node.solution?).map Space.store ∧
      Counted ⟨0, 0, 0, 0, 0, 0⟩ (Node.firstNodes n root) t.counts ∧
      ((Node.firstNodes n root).length < n → ∃ u, nextSolution 1 t = .ok .exhausted u) := by
  have hkernel := hbuilt.kernel
  obtain ⟨visited, solutions, t, hexplores, hvisited, hsolutions, hcounted, hend⟩ :=
    (pending_start root options).explores hkernel hfree n
  rw [Node.survey_root] at hvisited hsolutions hcounted hend
  exact ⟨_, visited, solutions, t, create_eq_start root hdistance, hexplores, hvisited,
    map_store_eq hsolutions, hcounted, hend⟩

/-- Over x and y between 0 and 1 the search finds the three solutions of x ≤ y, where it
keeps every third space. -/
theorem three_solutions_of_lessOrEqual :
    ∃ posted root search visited solutions t, Space.Built posted root ∧
      create root ⟨3, none, none, fun _ => false⟩ = .ok search ∧
      Explores search visited solutions t ∧ solutions.length = 3 ∧
        ∃ u, nextSolution 1 t = .ok .exhausted u := by
  let modeled : Space :=
    { Space.new with store := { Store.empty with ints := #[.interval 0 1, .interval 0 1] } }
  let p : Propagator := .lessOrEqual (.var 0) (.var 1)
  let b : ViewBrancher :=
    { start := 0, selector := .inputOrder
      branching := .int [.var 0, .var 1] .min .assignOrExclude
      label := none, selectionNotices := false, commitNotices := false }
  let root : Space := { modeled.register p with branchers := #[.viewValue b] }
  have hfits : ∀ v ∈ [IntView.var 0, .var 1], v.Fit modeled.store := by
    intro v hv
    simp only [List.mem_cons, List.not_mem_nil, or_false] at hv
    rcases hv with rfl | rfl <;> exact ⟨rfl, trivial⟩
  obtain ⟨posted, hbuilt⟩ : ∃ posted, Space.Built posted root := by
    refine ⟨_, .act (.addBrancher (.viewValue b)) (.act (.addPropagator p none)
      (.act (.newInt 0 1) (.act (.newInt 0 1) .new trivial rfl) trivial rfl)
      ⟨hfits _ (by simp), hfits _ (by simp)⟩ rfl) ⟨⟨hfits, trivial, Or.inl rfl⟩, ?_⟩ rfl⟩
    rintro v hv
    obtain rfl := Brancher.viewValue.inj hv
    rfl
  let options : SearchOptions := ⟨3, none, none, fun _ => false⟩
  have hdistance : 1 ≤ options.copyDistance := by decide
  have hcount : ((Node.firstNodes 9 root).filterMap Node.solution?).length = 3 := by
    decide +kernel
  have hfew : (Node.firstNodes 9 root).length < 9 := by
    decide +kernel
  obtain ⟨search, visited, solutions, t, hcreate, hexplores, -, hsolutions, -, hend⟩ :=
    search_refines_enumeration hbuilt 9 hdistance ⟨rfl, rfl⟩
  refine ⟨posted, root, search, visited, solutions, t, hbuilt, hcreate, hexplores, ?_, hend hfew⟩
  have hlength := congrArg List.length hsolutions
  rwa [List.length_map, List.length_map, hcount] at hlength

end Search

end ConstraintSpace
