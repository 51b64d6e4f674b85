import ConstraintSpace.Proofs.Search.Traversal

/-!
# The traversal covers the tree

The nodes that a search takes form a tree of paths: the root is one of them, and so is
every alternative of a node that the search went down from.  The search takes each path
once, before those to the right of it and before those below it.  While some of the tree
is left, the stack tells what: its frames are the nodes that still have alternatives, and
all alternatives that a frame has come to were taken.
-/

namespace ConstraintSpace

/-- The paths are those of a tree with the visited nodes as its inner ones: they are the
root, and the alternatives of the visited nodes. -/
structure Whole (paths : List (List Nat)) (visited : List Visit) : Prop where
  root : [] ∈ paths
  closed : ∀ visit ∈ visited, ∀ i < visit.width, visit.path ++ [i] ∈ paths
  within : ∀ path ∈ paths,
    path = [] ∨ ∃ visit ∈ visited, ∃ i < visit.width, path = visit.path ++ [i]

namespace Search

variable {s t u : Search} {x : Turn} {trodden : List (List Nat)} {visited : List Visit}

/-- The paths that the search takes in its first turns. -/
def paths (turns : Nat) (s : Search) : List (List Nat) :=
  (traverse turns s).1.filterMap Turn.path?

theorem paths_succ (turns : Nat) (s : Search) :
    paths (turns + 1) s = (turn s).1.path?.toList ++ paths turns (turn s).2 := by
  rw [paths, traverse_succ]
  cases hpath : (turn s).1.path? with
  | none => rw [List.filterMap_cons_none hpath]; rfl
  | some path => rw [List.filterMap_cons_some hpath]; rfl

/-! ## Frames of a stack -/

theorem route_of_suffix {frame : Frame} {above stack : List Frame}
    (hsuffix : frame :: above <:+ stack) :
    ∃ rest, route stack = route above ++ (frame.next - 1) :: rest := by
  obtain ⟨deeper, rfl⟩ := hsuffix
  refine ⟨route deeper, ?_⟩
  simp [route]

/-- A frame of the stack has no alternative left, or lies in the part of the stack that
is still open. -/
theorem suffix_open_or_spent {frame : Frame} {above : List Frame}
    (hsuffix : frame :: above <:+ s.stack) :
    frame :: above <:+ s.open? ∨ frame.choice.alternatives ≤ frame.next := by
  unfold open?
  generalize s.stack = stack at hsuffix
  induction stack with
  | nil => simp at hsuffix
  | cons top below ih =>
      by_cases hspent : top.choice.alternatives ≤ top.next
      · rw [List.dropWhile_cons_of_pos (by simpa using hspent)]
        rcases List.suffix_cons_iff.mp hsuffix with heq | hbelow
        · obtain ⟨rfl, rfl⟩ := List.cons.inj heq
          exact Or.inr hspent
        · exact ih hbelow
      · rw [List.dropWhile_cons_of_neg (by simpa using hspent)]
        exact Or.inl hsuffix

theorem open?_suffix (s : Search) : s.open? <:+ s.stack := List.dropWhile_suffix _

theorem lt_alternatives_of_open {frame : Frame} {above : List Frame}
    (hopen : s.open? = frame :: above) : frame.next < frame.choice.alternatives := by
  have hkept := List.head?_dropWhile_not
    (fun frame : Frame => decide (frame.choice.alternatives ≤ frame.next)) s.stack
  unfold open? at hopen
  rw [hopen] at hkept
  simpa using hkept

/-! ## The order in which paths are taken -/

/-- Every frame has come to an alternative. -/
def Begun (s : Search) : Prop := ∀ frame ∈ s.stack, 1 ≤ frame.next

theorem Begun.taken (hbegun : s.Begun) (htaken : s.Taken t) : t.Begun := by
  cases htaken with
  | current hcurrent => exact hbegun
  | @moved frame above _ hcurrent hopen hmoved =>
      intro other hother
      rw [hmoved.stack] at hother
      rcases List.mem_cons.mp hother with rfl | habove
      · exact Nat.le_add_left 1 frame.next
      · refine hbegun other ((open?_suffix s).subset ?_)
        rw [hopen]
        exact List.mem_cons_of_mem _ habove

theorem Begun.turns (hbegun : s.Begun) (hturns : s.Turns x t) : t.Begun := by
  cases hturns with
  | exhausted _ _ => simp [Begun]
  | lost fault hcurrent hopen hmoved => exact hbegun.taken (.moved hcurrent hopen hmoved)
  | visited htaken hpath hwidth hvisited =>
      have hbegun' := hbegun.taken htaken
      rcases hvisited.stack with ⟨hstack, -⟩ | ⟨frame, space, hstack, hnext, -⟩
      · unfold Begun
        rwa [hstack]
      · intro other hother
        rw [hstack] at hother
        rcases List.mem_cons.mp hother with rfl | hbelow
        · exact hnext.ge
        · exact hbegun' other hbelow

/-- The path is the last one that the search has taken. -/
def Last (s : Search) (path : List Nat) : Prop :=
  (s.current = none ∧ route s.stack = path) ∨ (s.current ≠ none ∧ route s.stack = path ++ [0])

theorem Last.lt_of_taken {path : List Nat} (hlast : s.Last path) (hbegun : s.Begun)
    (htaken : s.Taken t) : path < route t.stack := by
  cases htaken with
  | current hcurrent =>
      rcases hlast with ⟨hnone, -⟩ | ⟨-, hroute⟩
      · rw [hnone] at hcurrent
        cases hcurrent
      · show path < route s.stack
        rw [hroute]
        have hlonger : path ++ [] < path ++ [0] := List.append_left_lt (List.nil_lt_cons 0 [])
        rwa [List.append_nil] at hlonger
  | @moved frame above _ hcurrent hopen hmoved =>
      rcases hlast with ⟨-, hroute⟩ | ⟨hsome, -⟩
      · have hsuffix : frame :: above <:+ s.stack := hopen ▸ open?_suffix s
        have hone := hbegun frame (hsuffix.subset List.mem_cons_self)
        obtain ⟨rest, hrest⟩ := route_of_suffix hsuffix
        rw [← hroute, hrest, hmoved.stack, route_cons]
        refine List.append_left_lt (List.cons_lt_cons_iff.mpr (Or.inl ?_))
        show frame.next - 1 < frame.next + 1 - 1
        omega
      · exact absurd hcurrent hsome

/-- What a turn takes comes after what was taken before it. -/
theorem Last.lt_of_turns {path next : List Nat} (hlast : s.Last path) (hbegun : s.Begun)
    (hturns : s.Turns x t) (hnext : x.path? = some next) : path < next := by
  cases hturns with
  | exhausted _ _ => cases hnext
  | lost fault hcurrent hopen hmoved =>
      obtain rfl := Option.some.inj hnext
      exact hlast.lt_of_taken hbegun (.moved hcurrent hopen hmoved)
  | visited htaken hpath _ _ =>
      obtain rfl := Option.some.inj hnext
      rw [hpath]
      exact hlast.lt_of_taken hbegun htaken

theorem Turns.last {next : List Nat} (hturns : s.Turns x t) (hnext : x.path? = some next) :
    t.Last next := by
  cases hturns with
  | exhausted _ _ => cases hnext
  | lost fault _ _ hmoved =>
      obtain rfl := Option.some.inj hnext
      exact Or.inl ⟨hmoved.current, rfl⟩
  | visited htaken hpath _ hvisited =>
      obtain rfl := Option.some.inj hnext
      rw [hpath]
      rcases hvisited.stack with ⟨hstack, hcurrent⟩ |
        ⟨frame, space, hstack, hone, -, hcurrent, -⟩
      · exact Or.inl ⟨hcurrent, by rw [hstack]⟩
      · refine Or.inr ⟨by simp [hcurrent], ?_⟩
        rw [hstack, route_cons, hone]

/-- Nothing is left to take. -/
def Spent (s : Search) : Prop := s.current = none ∧ s.stack = []

theorem Turns.spent (hturns : s.Turns x t) (hnone : x.path? = none) : t.Spent := by
  cases hturns with
  | exhausted hcurrent _ => exact ⟨hcurrent, rfl⟩
  | lost _ _ _ _ => cases hnone
  | visited _ _ _ _ => cases hnone

theorem Spent.turn (hspent : s.Spent) : turn s = (.exhausted, s) := by
  obtain ⟨options, stack, current, counts, journal⟩ := s
  obtain ⟨rfl, rfl⟩ : current = none ∧ stack = [] := hspent
  rfl

theorem Spent.traverse (hspent : s.Spent) (turns : Nat) :
    traverse turns s = (List.replicate turns .exhausted, s) := by
  induction turns with
  | zero => rfl
  | succ turns ih => rw [traverse_succ, hspent.turn, ih, List.replicate_succ]

theorem Spent.paths (hspent : s.Spent) (turns : Nat) : paths turns s = [] := by
  rw [Search.paths, hspent.traverse]
  exact List.filterMap_replicate_of_none rfl

theorem Spent.visits (hspent : s.Spent) (turns : Nat) : visits turns s = [] := by
  rw [Search.visits, hspent.traverse]
  exact List.filterMap_replicate_of_none rfl

theorem Last.pairwise_paths {path : List Nat} (hlast : s.Last path) (hbegun : s.Begun)
    (turns : Nat) : (path :: paths turns s).Pairwise (· < ·) := by
  induction turns generalizing s path with
  | zero => exact List.pairwise_singleton _ path
  | succ turns ih =>
      have hturns := turns_turn s
      rw [paths_succ]
      cases hpath : (turn s).1.path? with
      | none =>
          rw [(hturns.spent hpath).paths]
          exact List.pairwise_singleton _ path
      | some next =>
          have hless := hlast.lt_of_turns hbegun hturns hpath
          have hrest := ih (hturns.last hpath) (hbegun.turns hturns)
          refine List.pairwise_cons.mpr ⟨fun later hlater => ?_, hrest⟩
          rcases List.mem_cons.mp hlater with rfl | hlater
          · exact hless
          · exact hless.trans ((List.pairwise_cons.mp hrest).1 later hlater)

/-- The search takes each path once, before those to the right of it and those below it. -/
theorem Begun.pairwise_paths (hbegun : s.Begun) (turns : Nat) :
    (paths turns s).Pairwise (· < ·) := by
  cases turns with
  | zero => exact .nil
  | succ turns =>
      have hturns := turns_turn s
      rw [paths_succ]
      cases hpath : (turn s).1.path? with
      | none =>
          rw [(hturns.spent hpath).paths]
          exact .nil
      | some next => exact (hturns.last hpath).pairwise_paths (hbegun.turns hturns) turns

/-! ## Progress -/

/-- The alternatives that the frames of a stack have not come to. -/
def untaken (stack : List Frame) : Nat :=
  (stack.map fun frame => frame.choice.alternatives - frame.next).sum

theorem untaken_open? (s : Search) : untaken s.open? = untaken s.stack := by
  unfold open?
  generalize s.stack = stack
  induction stack with
  | nil => rfl
  | cons top below ih =>
      by_cases hspent : top.choice.alternatives ≤ top.next
      · rw [List.dropWhile_cons_of_pos (by simpa using hspent), ih]
        simp [untaken, Nat.sub_eq_zero_of_le hspent]
      · rw [List.dropWhile_cons_of_neg (by simpa using hspent)]

theorem Moved.untaken_lt {frame : Frame} {above : List Frame} (hmoved : s.Moved frame above t)
    (hopen : s.open? = frame :: above) : untaken t.stack < untaken s.stack := by
  have hless := lt_alternatives_of_open hopen
  rw [← untaken_open? s, hopen, hmoved.stack]
  simp only [untaken, List.map_cons, List.sum_cons]
  omega

/-- A search can lose only so many alternatives in a row: it comes to a further node, or
nothing is left. -/
theorem exists_visit_or_spent (s : Search) :
    ∃ turns, visits turns s ≠ [] ∨ (traverse turns s).2.Spent := by
  induction hleft : untaken s.stack using Nat.strong_induction_on generalizing s with
  | _ left ih =>
      have hturns := turns_turn s
      have hone : visits 1 s = (turn s).1.visit?.toList := by
        rw [visits_succ]
        exact List.append_nil _
      cases hturn : (turn s).1 with
      | exhausted => exact ⟨1, Or.inr (hturns.spent (by rw [hturn]; rfl))⟩
      | visited visit =>
          refine ⟨1, Or.inl ?_⟩
          rw [hone, hturn]
          exact List.cons_ne_nil _ _
      | lost path fault =>
          have hless : untaken (turn s).2.stack < left := by
            generalize hresult : (turn s).2 = t at hturns ⊢
            rw [hturn] at hturns
            cases hturns with
            | lost _ _ hopen hmoved => exact hleft ▸ hmoved.untaken_lt hopen
          obtain ⟨turns, hrest⟩ := ih _ hless (turn s).2 rfl
          refine ⟨turns + 1, ?_⟩
          rw [visits_succ, traverse_succ, hturn]
          exact hrest

/-- The traversal visits as many nodes as one likes, unless nothing is left before. -/
theorem exists_visits_or_spent (count : Nat) (s : Search) :
    ∃ turns, count ≤ (visits turns s).length ∨ (traverse turns s).2.Spent := by
  induction count generalizing s with
  | zero => exact ⟨0, Or.inl (Nat.zero_le _)⟩
  | succ count ih =>
      obtain ⟨turns, hvisit | hspent⟩ := exists_visit_or_spent s
      · obtain ⟨later, hrest⟩ := ih (traverse turns s).2
        refine ⟨turns + later, hrest.imp (fun hcount => ?_) fun hspent => ?_⟩
        · have hsome := List.length_pos_iff.mpr hvisit
          rw [visits_add, List.length_append]
          omega
        · rwa [traverse_add]
      · exact ⟨turns, Or.inr hspent⟩

/-! ## What the stack knows -/

/-- The path was taken, or it is the one that the search has a space of. -/
def Meets (s : Search) (trodden : List (List Nat)) (path : List Nat) : Prop :=
  path ∈ trodden ∨ (s.current ≠ none ∧ route s.stack = path)

/-- The path is the root or an alternative of a visited node. -/
def Stems (visited : List Visit) (path : List Nat) : Prop :=
  path = [] ∨ ∃ visit ∈ visited, ∃ i < visit.width, path = visit.path ++ [i]

theorem Stems.mono {path : List Nat} (hstems : Stems visited path) (more : List Visit) :
    Stems (visited ++ more) path :=
  hstems.imp_right fun ⟨visit, hvisit, hi⟩ => ⟨visit, List.mem_append_left _ hvisit, hi⟩

/-- All that was taken are paths of the tree, and all of the tree that is left can be told
from the stack: the frames have come to what was taken of them, and a visited node with
alternatives is on the stack until all of them were taken. -/
structure Covers (s : Search) (trodden : List (List Nat)) (visited : List Visit) : Prop where
  within : ∀ path ∈ trodden, Stems visited path
  pending : s.current ≠ none → Stems visited (route s.stack)
  root : s.Meets trodden []
  frames : ∀ frame above, frame :: above <:+ s.stack →
    (∃ visit ∈ visited, visit.path = route above ∧
        visit.width = frame.choice.alternatives) ∧
      ∀ i < frame.next, s.Meets trodden (route above ++ [i])
  inner : ∀ visit ∈ visited, (∀ i < visit.width, s.Meets trodden (visit.path ++ [i])) ∨
    ∃ frame above, frame :: above <:+ s.stack ∧ route above = visit.path ∧
      frame.choice.alternatives = visit.width

theorem Meets.take {path : List Nat} (hmeets : s.Meets trodden path) (htaken : s.Taken t) :
    t.Meets (trodden ++ [route t.stack]) path := by
  rcases hmeets with hpath | ⟨hsome, hroute⟩
  · exact Or.inl (List.mem_append_left _ hpath)
  · cases htaken with
    | current hcurrent => exact Or.inl (by simp [hroute])
    | moved hcurrent hopen hmoved => exact absurd hcurrent hsome

/-- What is taken is the root or an alternative of a visited node. -/
theorem Covers.stems_of_taken (hcovers : s.Covers trodden visited) (htaken : s.Taken t) :
    Stems visited (route t.stack) := by
  cases htaken with
  | current hcurrent => exact hcovers.pending (by simp [hcurrent])
  | @moved frame above _ hcurrent hopen hmoved =>
      have hsuffix : frame :: above <:+ s.stack := hopen ▸ open?_suffix s
      obtain ⟨⟨visit, hvisit, hpath, hwidth⟩, -⟩ := hcovers.frames frame above hsuffix
      refine Or.inr ⟨visit, hvisit, frame.next, ?_, ?_⟩
      · rw [hwidth]
        exact lt_alternatives_of_open hopen
      · rw [hmoved.stack, route_cons, hpath]
        rfl

/-- The frames stand for visited nodes, and what they have passed is met with. -/
theorem Covers.frames_of_taken (hcovers : s.Covers trodden visited) (htaken : s.Taken t)
    {frame : Frame} {above : List Frame} (hsuffix : frame :: above <:+ t.stack) :
    (∃ visit ∈ visited, visit.path = route above ∧
        visit.width = frame.choice.alternatives) ∧
      ∀ i < frame.next, t.Meets (trodden ++ [route t.stack]) (route above ++ [i]) := by
  have hkept : frame :: above <:+ s.stack →
      (∃ visit ∈ visited, visit.path = route above ∧
          visit.width = frame.choice.alternatives) ∧
        ∀ i < frame.next, t.Meets (trodden ++ [route t.stack]) (route above ++ [i]) := by
    intro hold
    obtain ⟨hvisit, hmeets⟩ := hcovers.frames frame above hold
    exact ⟨hvisit, fun i hi => (hmeets i hi).take htaken⟩
  cases htaken with
  | current hcurrent => exact hkept hsuffix
  | @moved top below _ hcurrent hopen hmoved =>
      have hsuffix' : top :: below <:+ s.stack := hopen ▸ open?_suffix s
      rw [hmoved.stack] at hsuffix
      rcases List.suffix_cons_iff.mp hsuffix with heq | hbelow
      · -- the frame that was moved now meets with the alternative that is taken
        obtain ⟨rfl, rfl⟩ := List.cons.inj heq
        obtain ⟨hvisit, hmeets⟩ := hcovers.frames top above hsuffix'
        refine ⟨hvisit, fun i hi => ?_⟩
        rcases Nat.lt_succ_iff_lt_or_eq.mp hi with hless | rfl
        · exact (hmeets i hless).take (.moved hcurrent hopen hmoved)
        · refine Or.inl (List.mem_append_right _ ?_)
          rw [hmoved.stack, route_cons]
          exact List.mem_singleton_self _
      · exact hkept (hbelow.trans ((List.suffix_cons top below).trans hsuffix'))

/-- A visited node is done with, or it is still on the stack. -/
theorem Covers.inner_of_taken (hcovers : s.Covers trodden visited) (htaken : s.Taken t)
    {visit : Visit} (hvisit : visit ∈ visited) :
    (∀ i < visit.width, t.Meets (trodden ++ [route t.stack]) (visit.path ++ [i])) ∨
      ∃ frame above, frame :: above <:+ t.stack ∧ route above = visit.path ∧
        frame.choice.alternatives = visit.width := by
  rcases hcovers.inner visit hvisit with hmeets | ⟨frame, above, hsuffix, hroute, hwidth⟩
  · exact Or.inl fun i hi => (hmeets i hi).take htaken
  cases htaken with
  | current hcurrent => exact Or.inr ⟨frame, above, hsuffix, hroute, hwidth⟩
  | @moved top below _ hcurrent hopen hmoved =>
      rcases suffix_open_or_spent hsuffix with hleft | hspent
      · rw [hopen] at hleft
        rcases List.suffix_cons_iff.mp hleft with heq | hbelow
        · obtain ⟨rfl, rfl⟩ := List.cons.inj heq
          refine Or.inr ⟨{ frame with next := frame.next + 1 }, above, ?_, hroute, hwidth⟩
          rw [hmoved.stack]
        · refine Or.inr ⟨frame, above, ?_, hroute, hwidth⟩
          rw [hmoved.stack]
          exact hbelow.trans (List.suffix_cons _ _)
      · refine Or.inl fun i hi => ?_
        rw [← hroute]
        have hmeets := (hcovers.frames frame above hsuffix).2 i (by omega)
        exact hmeets.take (.moved hcurrent hopen hmoved)

/-- Taking the next node keeps the rest of the tree in sight. -/
theorem Covers.taken (hcovers : s.Covers trodden visited) (htaken : s.Taken t) :
    t.Covers (trodden ++ [route t.stack]) visited where
  within := by
    intro path hpath
    rcases List.mem_append.mp hpath with hpath | hpath
    · exact hcovers.within path hpath
    · rw [List.mem_singleton.mp hpath]
      exact hcovers.stems_of_taken htaken
  pending := fun hsome => absurd htaken.current_eq hsome
  root := hcovers.root.take htaken
  frames := fun _ _ => hcovers.frames_of_taken htaken
  inner := fun _ => hcovers.inner_of_taken htaken

/-- A visited node that the search went down from is on the stack. -/
theorem Covers.visit (hcovers : s.Covers trodden visited) (hcurrent : s.current = none)
    {visit : Visit} (hpath : visit.path = route s.stack)
    (hwidth : visit.width = t.offered) (hvisited : s.Visited visit.found t) :
    t.Covers trodden (visited ++ [visit]) := by
  have hmeets : ∀ path, s.Meets trodden path → path ∈ trodden := fun path hmeets =>
    hmeets.resolve_right fun hpending => hpending.1 hcurrent
  have hstems : ∀ path ∈ trodden, Stems (visited ++ [visit]) path :=
    fun path htrodden => (hcovers.within path htrodden).mono [visit]
  have hkept : ∀ frame above, frame :: above <:+ s.stack →
      (∃ other ∈ visited ++ [visit], other.path = route above ∧
          other.width = frame.choice.alternatives) ∧
        ∀ i < frame.next, t.Meets trodden (route above ++ [i]) := by
    intro frame above hsuffix
    obtain ⟨⟨other, hother, heq⟩, htaken⟩ := hcovers.frames frame above hsuffix
    exact ⟨⟨other, List.mem_append_left _ hother, heq⟩,
      fun i hi => Or.inl (hmeets _ (htaken i hi))⟩
  have hroot : t.Meets trodden [] := Or.inl (hmeets _ hcovers.root)
  rcases hvisited.stack with ⟨hstack, hnone⟩ |
    ⟨frame, space, hstack, hnext, hsome, hspace, -⟩
  · refine ⟨hstems, fun hsome => absurd hnone hsome, hroot, ?_, ?_⟩
    · rw [hstack]
      exact hkept
    · intro other hother
      rcases List.mem_append.mp hother with hold | hnew
      · rw [hstack]
        exact (hcovers.inner other hold).imp_left fun hall i hi =>
          Or.inl (hmeets _ (hall i hi))
      · obtain rfl := List.mem_singleton.mp hnew
        refine Or.inl fun i hi => ?_
        rw [hwidth, offered, hnone] at hi
        exact absurd hi (Nat.not_lt_zero i)
  · have hoffered : visit.width = frame.choice.alternatives := by
      rw [hwidth, offered, hspace, hstack]
    have hbelow : route t.stack = visit.path ++ [0] := by
      rw [hstack, route_cons, hnext, hpath]
    refine ⟨hstems, fun _ => ?_, hroot, ?_, ?_⟩
    · exact Or.inr ⟨visit, by simp, 0, by rwa [hoffered], hbelow⟩
    · intro other above hsuffix
      rw [hstack] at hsuffix
      rcases List.suffix_cons_iff.mp hsuffix with heq | hold
      · obtain ⟨rfl, rfl⟩ := List.cons.inj heq
        refine ⟨⟨visit, by simp, hpath, hoffered⟩, fun i hi => ?_⟩
        obtain rfl : i = 0 := by omega
        exact Or.inr ⟨by simp [hspace], by rw [hbelow, hpath]⟩
      · exact hkept other above hold
    · intro other hother
      rw [hstack]
      rcases List.mem_append.mp hother with hold | hnew
      · rcases hcovers.inner other hold with hall | ⟨top, above, hsuffix, heq⟩
        · exact Or.inl fun i hi => Or.inl (hmeets _ (hall i hi))
        · exact Or.inr ⟨top, above, hsuffix.trans (List.suffix_cons _ _), heq⟩
      · obtain rfl := List.mem_singleton.mp hnew
        exact Or.inr ⟨frame, s.stack, List.suffix_refl _, hpath.symm, hoffered.symm⟩

theorem Covers.turns (hcovers : s.Covers trodden visited) (hturns : s.Turns x t) :
    t.Covers (trodden ++ x.path?.toList) (visited ++ x.visit?.toList) := by
  cases hturns with
  | exhausted hcurrent hopen =>
      have hmeets : ∀ path, s.Meets trodden path → path ∈ trodden := fun path hmeets =>
        hmeets.resolve_right fun hpending => hpending.1 hcurrent
      simp only [Turn.path?, Turn.visit?, Option.toList_none, List.append_nil]
      refine ⟨hcovers.within, fun hsome => absurd hcurrent hsome, Or.inl (hmeets _ hcovers.root),
        fun frame above hsuffix => by simp at hsuffix, fun visit hvisit => Or.inl fun i hi => ?_⟩
      rcases hcovers.inner visit hvisit with hall | ⟨frame, above, hsuffix, hroute, hwidth⟩
      · exact Or.inl (hmeets _ (hall i hi))
      · have hspent := (suffix_open_or_spent hsuffix).resolve_left (by simp [hopen])
        rw [← hroute]
        exact Or.inl (hmeets _ ((hcovers.frames frame above hsuffix).2 i (by omega)))
  | lost fault hcurrent hopen hmoved =>
      simp only [Turn.path?, Turn.visit?, Option.toList_some, Option.toList_none,
        List.append_nil]
      exact hcovers.taken (.moved hcurrent hopen hmoved)
  | @visited taken _ visit htaken hpath hwidth hvisited =>
      simp only [Turn.path?, Turn.visit?, Option.toList_some, hpath]
      exact (hcovers.taken htaken).visit htaken.current_eq hpath hwidth hvisited

theorem Covers.traverse (hcovers : s.Covers trodden visited) (turns : Nat) :
    (traverse turns s).2.Covers (trodden ++ paths turns s) (visited ++ visits turns s) := by
  induction turns generalizing s trodden visited with
  | zero => simpa [Search.traverse, paths, visits] using hcovers
  | succ turns ih =>
      have hrest := ih (hcovers.turns (turns_turn s))
      rwa [List.append_assoc, List.append_assoc, ← paths_succ, ← visits_succ] at hrest

/-- Where nothing is left, the whole tree was taken. -/
theorem Covers.whole (hcovers : s.Covers trodden visited) (hspent : s.Spent) :
    Whole trodden visited := by
  have hmeets : ∀ path, s.Meets trodden path → path ∈ trodden := fun path hmeets =>
    hmeets.resolve_right fun hpending => hpending.1 hspent.1
  refine ⟨hmeets _ hcovers.root, fun visit hvisit i hi => ?_, hcovers.within⟩
  rcases hcovers.inner visit hvisit with hall | ⟨frame, above, hsuffix, -⟩
  · exact hmeets _ (hall i hi)
  · simp [hspent.2] at hsuffix

theorem covers_start (root : Space) (options : SearchOptions) :
    (start root options).Covers [] [] where
  within := by simp
  pending := fun _ => Or.inl rfl
  root := Or.inr ⟨by simp [start], rfl⟩
  frames := by simp [start]
  inner := by simp

theorem begun_start (root : Space) (options : SearchOptions) :
    (start root options).Begun := by
  simp [Begun, start]

/-! ## The tree of a kernel space -/

/-- Over kernel spaces a turn visits the first of the nodes that are left. -/
theorem Pending.turn {root : Space} {work : List Node} (hpending : Pending root s work)
    (hroot : root.Kernel) :
    (work = [] ∧ (Search.turn s).1 = .exhausted) ∨
      ∃ node rest visit t, work = node :: rest ∧ Search.turn s = (.visited visit, t) ∧
        node.Alike visit.node ∧ (∃ found, visit.found = .ok found) ∧
        Pending root t (node.children ++ rest) := by
  rcases hpending.takes hroot with ⟨rfl, t, htake⟩ | ⟨node, rest, space, t, rfl, htakes⟩
  · exact Or.inl ⟨rfl, by simp only [Search.turn, htake]⟩
  · obtain ⟨found, u, hvisit, -, hleft, -, -⟩ := htakes.visit hroot
    refine Or.inr ⟨node, rest, ⟨route t.stack, space, .ok found, u.offered⟩, u, rfl, ?_,
      ⟨?_, htakes.alike⟩, ⟨found, rfl⟩, hleft⟩
    · simp only [Search.turn, htakes.run, hvisit]
      rfl
    · rw [htakes.depth]
      simp [Visit.node, route, depth]

/-- Over kernel spaces the traversal visits the nodes that are left, as the plain
enumeration lists them, and no turn is refused. -/
theorem Pending.traverse {root : Space} {work : List Node} (hpending : Pending root s work)
    (hroot : root.Kernel) (turns : Nat) :
    List.Forall₂ Node.Alike (Node.survey turns work) ((visits turns s).map Visit.node) ∧
      (Search.traverse turns s).1.filterMap Turn.fault? = [] := by
  induction turns generalizing s work with
  | zero => exact ⟨.nil, rfl⟩
  | succ turns ih =>
      rcases hpending.turn hroot with
        ⟨rfl, hexhausted⟩ | ⟨node, rest, visit, t, rfl, hturn, halike, ⟨found, hfound⟩, hleft⟩
      · have hspent := (turns_turn s).spent (by rw [hexhausted]; rfl)
        refine ⟨?_, ?_⟩
        · rw [visits_succ, hspent.visits, hexhausted]
          exact .nil
        · rw [traverse_succ, hspent.traverse,
            List.filterMap_cons_none (by rw [hexhausted]; rfl)]
          exact List.filterMap_replicate_of_none rfl
      · obtain ⟨hvisits, hfaults⟩ := ih hleft
        refine ⟨?_, ?_⟩
        · rw [visits_succ, hturn]
          exact .cons halike hvisits
        · rw [traverse_succ, hturn, List.filterMap_cons_none (by simp [Turn.fault?, hfound]),
            hfaults]

end Search

end ConstraintSpace
