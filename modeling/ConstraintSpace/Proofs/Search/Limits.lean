import ConstraintSpace.Proofs.Search.Coverage
import ConstraintSpace.Proofs.Search.Reports

/-!
# Searches with limits

Calls for the next solution take the turns of the traversal without limits, as many as
the limits let through.  So the solutions they return are those among the first nodes of
that traversal, cut after the first so many.  A call that finds a limit reached, or
nothing left, leaves the search as it is, and so do all calls after it.
-/

namespace ConstraintSpace

/-- The limits taken away. -/
def SearchOptions.unlimited (options : SearchOptions) : SearchOptions :=
  { options with nodeLimit := none, solutionLimit := none }

/-- The first elements of a list, as many as a limit lets through. -/
def cut {α : Type} (limit : Option Nat) (xs : List α) : List α :=
  match limit with
  | none => xs
  | some limit => xs.take limit

namespace Search

/-- What a call for the next solution answers, be it a fault. -/
abbrev Answer := Except SearchFault Found

namespace Answer

def solution? : Answer → Option Space
  | .ok (.solution solution) => some solution
  | _ => none

def fault? : Answer → Option SearchFault
  | .error fault => some fault
  | .ok _ => none

/-- The answer says that the call found no further solution to return. -/
def Ends (answer : Answer) : Prop := answer = .ok .limitReached ∨ answer = .ok .exhausted

end Answer

end Search

namespace Turn

/-- What a call answers where it comes to this turn; without an answer it goes on. -/
def answer? : Turn → Option Search.Answer
  | exhausted => some (.ok .exhausted)
  | lost _ fault => some (.error fault)
  | visited visit =>
    match visit.found with
    | .error fault => some (.error fault)
    | .ok (some solution) => some (.ok (.solution solution))
    | .ok none => none

variable (x : Turn)

theorem solutions_answer? : x.answer?.toList.filterMap Search.Answer.solution? =
    x.visit?.toList.filterMap Visit.solution? := by
  rcases x with _ | ⟨path, fault⟩ | ⟨path, space, fault | _ | solution, width⟩ <;> rfl

theorem faults_answer? :
    x.answer?.toList.filterMap Search.Answer.fault? = [x].filterMap Turn.fault? := by
  rcases x with _ | ⟨path, fault⟩ | ⟨path, space, fault | _ | solution, width⟩ <;> rfl

theorem answer?_ne_limitReached : x.answer? ≠ some (.ok .limitReached) := by
  rcases x with _ | ⟨path, fault⟩ | ⟨path, space, fault | _ | solution, width⟩ <;>
    simp [answer?]

theorem eq_exhausted_of_answer? (hanswer : x.answer? = some (.ok .exhausted)) :
    x = .exhausted := by
  rcases x with _ | ⟨path, fault⟩ | ⟨path, space, fault | _ | solution, width⟩ <;>
    simp [answer?] at hanswer ⊢

end Turn

namespace Search

/-- Calls for the next solution, one after the other whatever they answer. -/
def calls (fuel : Nat) : Nat → Search → List Answer × Search
  | 0, s => ([], s)
  | count + 1, s =>
    let (answer, t) := outcome (nextSolution fuel s)
    let (answers, u) := calls fuel count t
    (answer :: answers, u)

variable {s t u : Search} {answers more : List Answer} {turns later : Nat}

/-- Some limit is reached. -/
def Stopped (s : Search) : Prop :=
  reached s.options.nodeLimit s.counts.nodes = true ∨
    reached s.options.solutionLimit s.counts.solutions = true

/-- A search whose limits or whose tree leave nothing for a call to take. -/
def Closed (s : Search) : Prop := s.Stopped ∨ s.Spent

/-- Answers of calls that took so many turns: they returned the solutions of these turns
and reported their faults, kept within the limit on the nodes, and ended only where a
limit is reached or nothing is left.  A call that did not end took a turn, or it had no
fuel left. -/
structure Advances (s : Search) (answers : List Answer) (turns : Nat) (t : Search) : Prop where
  state : (traverse turns s).2 = t
  solutions : answers.filterMap Answer.solution? = (visits turns s).filterMap Visit.solution?
  faults : answers.filterMap Answer.fault? = (traverse turns s).1.filterMap Turn.fault?
  nodes : ∀ limit, s.options.nodeLimit = some limit → s.counts.nodes ≤ limit →
    t.counts.nodes ≤ limit
  stopped : .ok .limitReached ∈ answers → t.Stopped
  exhausted : .ok .exhausted ∈ answers →
    t.Spent ∧ reached t.options.nodeLimit t.counts.nodes = false
  taken : answers.length ≤ turns ∨ ∃ answer ∈ answers, answer.Ends ∨ answer = .ok .unfinished

/-- Answers for which no turn was taken. -/
theorem advances_zero {found : Found} (hsolution : ∀ x, found ≠ .solution x)
    (hstopped : found = .limitReached → s.Stopped) (hleft : found ≠ .exhausted) :
    s.Advances [.ok found] 0 s where
  state := rfl
  solutions := by
    cases found with
    | solution x => exact absurd rfl (hsolution x)
    | _ => rfl
  faults := rfl
  nodes := fun _ _ hle => hle
  stopped := fun hmem => hstopped (by simpa [eq_comm] using hmem)
  exhausted := fun hmem => absurd (by simpa [eq_comm] using hmem) hleft
  taken := by
    refine Or.inr ⟨.ok found, List.mem_singleton_self _, ?_⟩
    cases found with
    | solution x => exact absurd rfl (hsolution x)
    | exhausted => exact absurd rfl hleft
    | limitReached => exact Or.inl (Or.inl rfl)
    | unfinished => exact Or.inr rfl

/-- One turn, below the limit on the nodes. -/
theorem advances_turn (hopen : reached s.options.nodeLimit s.counts.nodes = false) :
    s.Advances (turn s).1.answer?.toList 1 (turn s).2 := by
  have hturns := turns_turn s
  have hvisits : visits 1 s = (turn s).1.visit?.toList := by
    rw [visits_succ]
    exact List.append_nil _
  refine ⟨rfl, ?_, Turn.faults_answer? _, ?_, ?_, ?_, Or.inl ?_⟩
  · rw [hvisits]
    exact Turn.solutions_answer? _
  · intro limit hlimit hle
    have hless : s.counts.nodes < limit := by
      simpa [hlimit, reached] using hopen
    have hone : (turn s).1.visit?.toList.length ≤ 1 := by
      cases (turn s).1.visit? <;> simp
    rw [hturns.nodes]
    omega
  · intro hmem
    exact absurd (Option.mem_toList.mp hmem) (Turn.answer?_ne_limitReached _)
  · intro hmem
    have hexhausted := Turn.eq_exhausted_of_answer? _ (Option.mem_toList.mp hmem)
    have hnodes := hturns.nodes
    rw [hexhausted] at hnodes
    refine ⟨hturns.spent (by rw [hexhausted]; rfl), ?_⟩
    rw [hturns.options, hnodes]
    exact hopen
  · cases (turn s).1.answer? <;> simp

theorem Advances.options (hadvances : s.Advances answers turns t) : t.options = s.options := by
  rw [← hadvances.state, traverse_options]

theorem Advances.stopped_mono (hadvances : s.Advances answers turns t) (hstopped : s.Stopped) :
    t.Stopped := by
  unfold Stopped
  rw [hadvances.options, ← hadvances.state, traverse_nodes, traverse_solutions]
  exact hstopped.imp (fun hreached => reached_mono hreached _)
    fun hreached => reached_mono hreached _

theorem Advances.append (hfirst : s.Advances answers turns t)
    (hsecond : t.Advances more later u) : s.Advances (answers ++ more) (turns + later) u where
  state := by rw [traverse_add, hfirst.state, hsecond.state]
  solutions := by
    rw [visits_add, List.filterMap_append, List.filterMap_append, hfirst.solutions, hfirst.state,
      hsecond.solutions]
  faults := by
    rw [traverse_add, List.filterMap_append, List.filterMap_append, hfirst.faults, hfirst.state,
      hsecond.faults]
  nodes := fun limit hlimit hle =>
    hsecond.nodes limit (hfirst.options ▸ hlimit) (hfirst.nodes limit hlimit hle)
  stopped := fun hmem => (List.mem_append.mp hmem).elim
    (fun hmem => hsecond.stopped_mono (hfirst.stopped hmem)) hsecond.stopped
  exhausted := fun hmem => by
    rcases List.mem_append.mp hmem with hmem | hmem
    · have hleft := hfirst.exhausted hmem
      have hstate := hsecond.state
      rw [hleft.1.traverse] at hstate
      exact hstate ▸ hleft
    · exact hsecond.exhausted hmem
  taken := by
    rcases hfirst.taken with hfew | ⟨answer, hmem, hend⟩
    · refine hsecond.taken.imp (fun hmore => ?_) fun ⟨answer, hmem, hend⟩ =>
        ⟨answer, List.mem_append_right _ hmem, hend⟩
      rw [List.length_append]
      exact Nat.add_le_add hfew hmore
    · exact Or.inr ⟨answer, List.mem_append_left _ hmem, hend⟩

/-! ## One call -/

theorem outcome_exploreFor_succ (fuel : Nat) (s : Search) :
    outcome (exploreFor (fuel + 1) s) =
      if reached s.options.nodeLimit s.counts.nodes then (.ok .limitReached, s)
      else match (turn s).1.answer? with
        | some answer => (answer, (turn s).2)
        | none => outcome (exploreFor fuel (turn s).2) := by
  simp only [exploreFor]
  split
  · rfl
  · cases htake : takeNode s with
    | error fault t => simp only [turn, htake]; rfl
    | ok space? t =>
        cases space? with
        | none => simp only [turn, htake]; rfl
        | some space =>
            cases hvisit : visit space t with
            | error fault u => simp only [turn, htake, hvisit]; rfl
            | ok found u =>
                cases found with
                | none => simp only [turn, htake, hvisit]; rfl
                | some solution => simp only [turn, htake, hvisit]; rfl

/-- A call takes some turns, of which only the last one has an answer. -/
theorem exploreFor_advances (fuel : Nat) (s : Search) :
    ∃ turns,
      s.Advances [(outcome (exploreFor fuel s)).1] turns (outcome (exploreFor fuel s)).2 := by
  induction fuel generalizing s with
  | zero => exact ⟨0, advances_zero (by simp) (by simp) (by simp)⟩
  | succ fuel ih =>
      rw [outcome_exploreFor_succ]
      split
      next hreached => exact ⟨0, advances_zero (by simp) (fun _ => Or.inl hreached) (by simp)⟩
      next hopen =>
        have hturn := advances_turn (Bool.eq_false_iff.mpr hopen)
        cases hanswer : (turn s).1.answer? with
        | some answer =>
            rw [hanswer] at hturn
            exact ⟨1, hturn⟩
        | none =>
            rw [hanswer] at hturn
            obtain ⟨turns, hrest⟩ := ih (turn s).2
            exact ⟨1 + turns, hturn.append hrest⟩

theorem nextSolution_advances (fuel : Nat) (s : Search) :
    ∃ turns, s.Advances [(outcome (nextSolution fuel s)).1] turns
      (outcome (nextSolution fuel s)).2 := by
  unfold nextSolution
  split
  next hreached => exact ⟨0, advances_zero (by simp) (fun _ => Or.inr hreached) (by simp)⟩
  next => exact exploreFor_advances fuel s

theorem nextSolution_of_open
    (hopen : reached s.options.solutionLimit s.counts.solutions = false) (fuel : Nat) :
    nextSolution fuel s = exploreFor fuel s := by
  rw [nextSolution, hopen]
  rfl

/-- A call returns at most one solution, and none where the limit is reached. -/
theorem nextSolution_solutions_le {fuel limit : Nat} (hlimit : s.options.solutionLimit = some limit)
    (hle : s.counts.solutions ≤ limit) :
    (outcome (nextSolution fuel s)).2.counts.solutions ≤ limit := by
  cases hreached : reached s.options.solutionLimit s.counts.solutions with
  | true =>
      rw [nextSolution, if_pos hreached]
      exact hle
  | false =>
      obtain ⟨turns, hadvances⟩ := nextSolution_advances fuel s
      have hone : ([(outcome (nextSolution fuel s)).1].filterMap Answer.solution?).length ≤ 1 :=
        List.length_filterMap_le _ _
      have hless : s.counts.solutions < limit := by
        simpa [hlimit, reached] using hreached
      rw [← hadvances.state, traverse_solutions, ← hadvances.solutions]
      omega

/-- With more fuel than nodes up to the limit a call comes to an end. -/
theorem exploreFor_nodes_of_unfinished {fuel : Nat}
    (hunfinished : (outcome (exploreFor fuel s)).1 = .ok .unfinished) :
    (outcome (exploreFor fuel s)).2.counts.nodes = s.counts.nodes + fuel := by
  induction fuel generalizing s with
  | zero => rfl
  | succ fuel ih =>
      rw [outcome_exploreFor_succ] at hunfinished ⊢
      split at hunfinished
      next => cases hunfinished
      next hopen =>
        rw [if_neg hopen]
        have hnodes := (turns_turn s).nodes
        generalize turn s = turned at *
        obtain ⟨x, t⟩ := turned
        rcases x with _ | ⟨path, fault⟩ | ⟨path, space, fault | _ | solution, width⟩ <;>
          simp only [Turn.answer?, reduceCtorEq, Except.ok.injEq] at hunfinished ⊢
        rw [ih hunfinished, hnodes]
        simp only [Turn.visit?, Option.toList_some, List.length_singleton]
        omega

theorem nextSolution_finishes {fuel limit : Nat} (hlimit : s.options.nodeLimit = some limit)
    (hle : s.counts.nodes ≤ limit) (hfuel : limit < fuel) :
    (outcome (nextSolution fuel s)).1 ≠ .ok .unfinished := by
  intro hunfinished
  cases hreached : reached s.options.solutionLimit s.counts.solutions with
  | true =>
      rw [nextSolution, if_pos hreached] at hunfinished
      cases hunfinished
  | false =>
      rw [nextSolution_of_open hreached] at hunfinished
      obtain ⟨turns, hadvances⟩ := exploreFor_advances fuel s
      have hnodes := hadvances.nodes limit hlimit hle
      rw [exploreFor_nodes_of_unfinished hunfinished] at hnodes
      omega

/-! ## Calls one after the other -/

theorem calls_advances (fuel count : Nat) (s : Search) :
    ∃ turns, s.Advances (calls fuel count s).1 turns (calls fuel count s).2 := by
  induction count generalizing s with
  | zero =>
      exact ⟨0, rfl, rfl, rfl, fun _ _ hle => hle, by simp [calls], by simp [calls],
        Or.inl (Nat.le_refl 0)⟩
  | succ count ih =>
      obtain ⟨turns, hfirst⟩ := nextSolution_advances fuel s
      obtain ⟨later, hrest⟩ := ih (outcome (nextSolution fuel s)).2
      exact ⟨turns + later, hfirst.append hrest⟩

theorem calls_solutions_le {fuel limit : Nat} (count : Nat)
    (hlimit : s.options.solutionLimit = some limit) (hle : s.counts.solutions ≤ limit) :
    (calls fuel count s).2.counts.solutions ≤ limit := by
  induction count generalizing s with
  | zero => exact hle
  | succ count ih =>
      obtain ⟨turns, hfirst⟩ := nextSolution_advances fuel s
      exact ih (hfirst.options ▸ hlimit) (nextSolution_solutions_le hlimit hle)

theorem calls_finish {fuel limit : Nat} (count : Nat) (hlimit : s.options.nodeLimit = some limit)
    (hle : s.counts.nodes ≤ limit) (hfuel : limit < fuel) :
    .ok .unfinished ∉ (calls fuel count s).1 := by
  induction count generalizing s with
  | zero => simp [calls]
  | succ count ih =>
      obtain ⟨turns, hfirst⟩ := nextSolution_advances fuel s
      have hrest := ih (hfirst.options ▸ hlimit) (hfirst.nodes limit hlimit hle)
      intro hmem
      rcases List.mem_cons.mp hmem with heq | hmem
      · exact nextSolution_finishes hlimit hle hfuel heq.symm
      · exact hrest hmem

theorem length_calls (fuel count : Nat) (s : Search) : (calls fuel count s).1.length = count := by
  induction count generalizing s with
  | zero => rfl
  | succ count ih => exact congrArg (· + 1) (ih _)

theorem calls_add (fuel count more : Nat) (s : Search) :
    calls fuel (count + more) s =
      ((calls fuel count s).1 ++ (calls fuel more (calls fuel count s).2).1,
        (calls fuel more (calls fuel count s).2).2) := by
  induction count generalizing s with
  | zero => simp [calls]
  | succ count ih => 
      rw [Nat.add_right_comm]
      simp [calls, ih]

/-- Where a limit is reached or nothing is left, a call finds the search as it is. -/
theorem Closed.nextSolution_eq (hclosed : s.Closed) {fuel : Nat} (hfuel : 1 ≤ fuel) :
    nextSolution fuel s = .ok .limitReached s ∨ nextSolution fuel s = .ok .exhausted s := by
  obtain ⟨fuel, rfl⟩ := Nat.exists_eq_succ_of_ne_zero (Nat.ne_of_gt hfuel)
  cases hreached : reached s.options.solutionLimit s.counts.solutions with
  | true => exact Or.inl (if_pos hreached)
  | false =>
      have hrun := outcome_exploreFor_succ fuel s
      rw [nextSolution_of_open hreached]
      cases hnodes : reached s.options.nodeLimit s.counts.nodes with
      | true =>
          rw [if_pos hnodes] at hrun
          exact Or.inl (eq_ok_of_outcome hrun)
      | false =>
          have hspent : s.Spent := by
            refine hclosed.resolve_left ?_
            simp [Stopped, hnodes, hreached]
          rw [hnodes, hspent.turn] at hrun
          exact Or.inr (eq_ok_of_outcome hrun)

theorem Advances.closed (hadvances : s.Advances answers turns t)
    (hends : ∃ answer ∈ answers, answer.Ends) : t.Closed := by
  obtain ⟨answer, hmem, rfl | rfl⟩ := hends
  · exact Or.inl (hadvances.stopped hmem)
  · exact Or.inr (hadvances.exhausted hmem).1

/-- With a limit on the nodes and more fuel than that, only so many calls go on. -/
theorem calls_end {limit : Nat} (hlimit : s.options.nodeLimit = some limit)
    (hle : s.counts.nodes ≤ limit) :
    ∃ enough, ∀ fuel > limit, ∀ count ≥ enough,
      ∃ answer ∈ (calls fuel count s).1, answer.Ends := by
  obtain ⟨turns, hturns⟩ := exists_visits_or_spent limit s
  refine ⟨turns + 1, fun fuel hfuel count hcount => ?_⟩
  obtain ⟨rest, rfl⟩ : ∃ rest, count = turns + (rest + 1) :=
    ⟨count - turns - 1, by omega⟩
  rw [calls_add]
  obtain ⟨taken, hadvances⟩ := calls_advances fuel turns s
  have hfinished := calls_finish turns hlimit hle hfuel
  rcases hadvances.taken with hmany | ⟨answer, hmem, hend | rfl⟩
  · have hclosed : (calls fuel turns s).2.Closed := by
      obtain ⟨later, rfl⟩ := Nat.exists_eq_add_of_le (length_calls fuel turns s ▸ hmany)
      rw [← hadvances.state]
      rcases hturns with hvisits | hspent
      · refine Or.inl (Or.inl ?_)
        rw [traverse_options, hlimit, traverse_nodes, visits_add, List.length_append]
        simp only [reached, decide_eq_true_eq]
        omega
      · rw [traverse_add, hspent.traverse]
        exact Or.inr hspent
    rcases hclosed.nextSolution_eq (Nat.one_le_of_lt hfuel) with hcall | hcall
    · exact ⟨.ok .limitReached, by simp [calls, hcall, outcome], Or.inl rfl⟩
    · exact ⟨.ok .exhausted, by simp [calls, hcall, outcome], Or.inr rfl⟩
  · exact ⟨answer, List.mem_append_left _ hmem, hend⟩
  · exact absurd hmem hfinished

/-! ## The solutions that the limits let through -/

/-- What calls of a search with limits come to, seen from the traversal without limits:
they took so many of its turns, and no more than the limits allow.  Once a call has found
the end, the solutions that were returned are those that the limits leave of the whole
traversal, and further calls find the search as it is; it is exhausted only where the whole
tree was taken. -/
structure CutShort (options : SearchOptions) (free : Search) (answers : List Answer)
    (t : Search) (turns : Nat) : Prop where
  state : t = (traverse turns free).2.limited options.nodeLimit options.solutionLimit
  solutions : answers.filterMap Answer.solution? = (visits turns free).filterMap Visit.solution?
  nodes_eq : t.counts.nodes = (visits turns free).length
  nodes_le : ∀ limit, options.nodeLimit = some limit → t.counts.nodes ≤ limit
  solutions_eq : t.counts.solutions = (answers.filterMap Answer.solution?).length
  solutions_le : ∀ limit, options.solutionLimit = some limit → t.counts.solutions ≤ limit
  ended : (∃ answer ∈ answers, answer.Ends) → ∀ more ≥ turns,
    answers.filterMap Answer.solution? =
      cut options.solutionLimit
        ((cut options.nodeLimit (visits more free)).filterMap Visit.solution?)
  rests : (∃ answer ∈ answers, answer.Ends) → ∀ fuel ≥ 1,
    nextSolution fuel t = .ok .limitReached t ∨ nextSolution fuel t = .ok .exhausted t
  whole : .ok .exhausted ∈ answers → Whole (paths turns free) (visits turns free) ∧
    ∀ more ≥ turns, traverse more free =
      ((traverse turns free).1 ++ List.replicate (more - turns) .exhausted,
        (traverse turns free).2)
  reported : answers.filterMap Answer.fault? = (traverse turns free).1.filterMap Turn.fault?
  faultless : answers.filterMap Answer.fault? = [] →
    paths turns free = (visits turns free).map Visit.path

theorem cut_append {α : Type} {limit : Option Nat} {xs : List α}
    (hle : ∀ n, limit = some n → xs.length ≤ n) (ys : List α) :
    ∃ zs, cut limit (xs ++ ys) = xs ++ zs := by
  cases limit with
  | none => exact ⟨ys, rfl⟩
  | some n =>
      refine ⟨ys.take (n - xs.length), ?_⟩
      rw [cut, List.take_append, List.take_of_length_le (hle n rfl)]

theorem cut_of_le {α : Type} {limit : Option Nat} {xs : List α}
    (hle : ∀ n, limit = some n → xs.length ≤ n) : cut limit xs = xs := by
  cases limit with
  | none => rfl
  | some n => exact List.take_of_length_le (hle n rfl)

/-- A list that reaches the limit is all that the limit lets through. -/
theorem cut_append_of_reached {α : Type} {limit : Option Nat} {xs : List α}
    (hle : ∀ n, limit = some n → xs.length ≤ n) (hreached : reached limit xs.length = true)
    (ys : List α) : cut limit (xs ++ ys) = xs := by
  cases limit with
  | none => simp [reached] at hreached
  | some n =>
      have hlength : xs.length = n := by
        have := hle n rfl
        simp only [reached, decide_eq_true_eq] at hreached
        omega
      rw [cut, ← hlength, List.take_left]

/-- What was taken up to a limit that is reached, or up to the end, is what the limits let
through of the whole. -/
theorem filterMap_eq_cut {α β : Type} {f : α → Option β} {limit limit' : Option Nat}
    {xs ys : List α} (hle : ∀ n, limit = some n → xs.length ≤ n)
    (hle' : ∀ n, limit' = some n → (xs.filterMap f).length ≤ n)
    (hends : (reached limit xs.length = true ∨ reached limit' (xs.filterMap f).length = true) ∨
      ys = []) :
    xs.filterMap f = cut limit' ((cut limit (xs ++ ys)).filterMap f) := by
  rcases hends with (hreached | hreached) | rfl
  · rw [cut_append_of_reached hle hreached, cut_of_le hle']
  · obtain ⟨rest, hrest⟩ := cut_append hle ys
    rw [hrest, List.filterMap_append, cut_append_of_reached hle' hreached]
  · rw [List.append_nil, cut_of_le hle, cut_of_le hle']

/-- Where no turn was refused, every path that was taken was visited. -/
theorem paths_eq_of_faultless (hfaults : (traverse turns s).1.filterMap Turn.fault? = []) :
    paths turns s = (visits turns s).map Visit.path := by
  unfold paths visits
  rw [List.map_filterMap]
  refine List.filterMap_congr fun x hx => ?_
  have hnone := List.filterMap_eq_nil_iff.mp hfaults x hx
  cases x with
  | lost path fault => cases hnone
  | _ => rfl

theorem Advances.cutShort {options : SearchOptions} {free search : Search}
    (hsearch : search = free.limited options.nodeLimit options.solutionLimit)
    (hnodes : free.counts.nodes = 0) (hsolutions : free.counts.solutions = 0)
    (hcovers : free.Covers [] []) (hadvances : search.Advances answers turns t)
    (hmost : ∀ limit, options.solutionLimit = some limit → t.counts.solutions ≤ limit) :
    CutShort options free answers t turns := by
  have hvisits : ∀ more, visits more search = visits more free := by
    intro more
    rw [hsearch, visits_limited]
  have htraverse : ∀ more, traverse more search = ((traverse more free).1,
      (traverse more free).2.limited options.nodeLimit options.solutionLimit) := by
    intro more
    rw [hsearch, traverse_limited]
  have hstate : t = (traverse turns free).2.limited options.nodeLimit options.solutionLimit := by
    rw [← hadvances.state, htraverse]
  have hreturned := hadvances.solutions
  rw [hvisits] at hreturned
  have hfaults := hadvances.faults
  rw [htraverse] at hfaults
  have hcount : t.counts.nodes = (visits turns free).length := by
    rw [hstate, limited, traverse_nodes, hnodes, Nat.zero_add]
  have hnumber : t.counts.solutions = (answers.filterMap Answer.solution?).length := by
    rw [hstate, limited, traverse_solutions, hsolutions, Nat.zero_add, hreturned]
  have hnodesLe : ∀ limit, options.nodeLimit = some limit → t.counts.nodes ≤ limit := by
    intro limit hlimit
    refine hadvances.nodes limit ?_ ?_
    · rw [hsearch]
      exact hlimit
    · rw [hsearch, limited, hnodes]
      exact Nat.zero_le limit
  have hoptions : t.options.nodeLimit = options.nodeLimit ∧
      t.options.solutionLimit = options.solutionLimit := by
    rw [hstate]
    exact ⟨rfl, rfl⟩
  have hlater : ∀ more ≥ turns, visits more free =
      visits turns free ++ visits (more - turns) (traverse turns free).2 := by
    intro more hmore
    rw [← visits_add, Nat.add_sub_cancel' hmore]
  -- a spent search stays so when the limits are taken away
  have hspent : .ok .exhausted ∈ answers → (traverse turns free).2.Spent := by
    intro hmem
    have hend := (hadvances.exhausted hmem).1
    rw [hstate] at hend
    exact hend
  have hfit : ∀ limit, options.nodeLimit = some limit → (visits turns free).length ≤ limit :=
    fun limit hlimit => hcount ▸ hnodesLe limit hlimit
  have hfew : ∀ limit, options.solutionLimit = some limit →
      ((visits turns free).filterMap Visit.solution?).length ≤ limit :=
    fun limit hlimit => by
      rw [← hreturned, ← hnumber]
      exact hmost limit hlimit
  refine ⟨hstate, hreturned, hcount, hnodesLe, hnumber, hmost, ?_,
    fun hends fuel hfuel => (hadvances.closed hends).nextSolution_eq hfuel, ?_, hfaults, ?_⟩
  · rintro ⟨answer, hmem, hend⟩ more hmore
    rw [hreturned, hlater more hmore]
    refine filterMap_eq_cut hfit hfew ?_
    rcases hend with rfl | rfl
    · have hstopped := hadvances.stopped hmem
      rw [Stopped, hoptions.1, hoptions.2, hcount, hnumber, hreturned] at hstopped
      exact .inl hstopped
    · exact .inr ((hspent hmem).visits _)
  · intro hmem
    have hall := hcovers.traverse turns
    simp only [List.nil_append] at hall
    refine ⟨hall.whole (hspent hmem), fun more hmore => ?_⟩
    have hsum := traverse_add turns (more - turns) free
    rwa [Nat.add_sub_cancel' hmore, (hspent hmem).traverse] at hsum
  · intro hnone
    rw [hfaults] at hnone
    exact paths_eq_of_faultless hnone

theorem calls_cutShort (root : Space) (options : SearchOptions) (fuel count : Nat) :
    let run := calls fuel count (start root options)
    ∃ turns, (start root options).Advances run.1 turns run.2 ∧
      CutShort options (start root options.unlimited) run.1 run.2 turns := by
  obtain ⟨turns, hadvances⟩ := calls_advances fuel count (start root options)
  exact ⟨turns, hadvances, hadvances.cutShort rfl rfl rfl (covers_start root options.unlimited)
    fun limit hlimit => calls_solutions_le count hlimit (Nat.zero_le limit)⟩

/-- Limits cut a search short: over every root and copy distance, calls for the next
solution take the turns of the search without limits, each path of the tree once, as many
as the limits let through.  With a limit on the nodes the calls come to an end.  Over the
roots that a model builds, the turns visit the nodes of the plain enumeration. -/
theorem limits_cut_search (root : Space) {options : SearchOptions}
    (hdistance : 1 ≤ options.copyDistance) :
    ∃ search free, create root options = .ok search ∧
      create root options.unlimited = .ok free ∧
      (∀ fuel count, ∃ turns,
        CutShort options free (calls fuel count search).1 (calls fuel count search).2 turns) ∧
      (∀ turns, (paths turns free).Pairwise (· < ·)) ∧
      (∀ limit, options.nodeLimit = some limit →
        (∀ fuel > limit, ∀ count, .ok .unfinished ∉ (calls fuel count search).1) ∧
        ∃ enough, ∀ fuel > limit, ∀ count ≥ enough,
          ∃ answer ∈ (calls fuel count search).1, answer.Ends) ∧
      ∀ posted, Space.Built posted root → ∀ turns,
        List.Forall₂ Node.Alike (Node.firstNodes turns root)
            ((visits turns free).map Visit.node) ∧
          (traverse turns free).1.filterMap Turn.fault? = [] := by
  have hdistance' : 1 ≤ options.unlimited.copyDistance := hdistance
  refine ⟨_, _, create_eq_start root hdistance, create_eq_start root hdistance',
    fun fuel count => ?_,
    (begun_start root options.unlimited).pairwise_paths, fun limit hlimit => ⟨?_, ?_⟩,
    fun posted hbuilt turns => ?_⟩
  · obtain ⟨turns, -, hcut⟩ := calls_cutShort root options fuel count
    exact ⟨turns, hcut⟩
  · exact fun fuel hfuel count => calls_finish count hlimit (Nat.zero_le limit) hfuel
  · exact calls_end hlimit (Nat.zero_le limit)
  · have hpending := pending_start root options.unlimited
    exact Node.survey_root turns root ▸ hpending.traverse hbuilt.kernel turns

/-- Over x and y between 0 and 1 a search for x ≤ y within four nodes returns two of the
three solutions, and then says that a limit is reached. -/
theorem two_solutions_within_four_nodes :
    ∃ root search free turns, create root ⟨3, none, some 4, fun _ => false⟩ = .ok search ∧
      (calls 5 4 search).1.map (Except.map Found.name) =
        [.ok "Solution", .ok "Solution", .ok "LimitReached", .ok "LimitReached"] ∧
      CutShort ⟨3, none, some 4, fun _ => false⟩ free (calls 5 4 search).1 (calls 5 4 search).2
        turns ∧ (visits turns free).length = 4 := by
  let modeled : Space :=
    { Space.new with store := { Store.empty with ints := #[.interval 0 1, .interval 0 1] } }
  let b : ViewBrancher :=
    { start := 0, selector := .inputOrder
      branching := .int [.var 0, .var 1] .min .assignOrExclude
      label := none, selectionNotices := false, commitNotices := false }
  let root : Space :=
    { modeled.register (.lessOrEqual (.var 0) (.var 1)) with branchers := #[.viewValue b] }
  let options : SearchOptions := ⟨3, none, some 4, fun _ => false⟩
  have hdistance : 1 ≤ options.copyDistance := by decide
  obtain ⟨search, free, hcreate, -, hcalls, -⟩ := limits_cut_search root hdistance
  obtain rfl : start root options = search :=
    Except.ok.inj ((create_eq_start root hdistance).symm.trans hcreate)
  obtain ⟨turns, hcut⟩ := hcalls 5 4
  have hnames : (calls 5 4 (start root options)).1.map (Except.map Found.name) =
      [.ok "Solution", .ok "Solution", .ok "LimitReached", .ok "LimitReached"] := by
    decide +kernel
  have hnodes : (calls 5 4 (start root options)).2.counts.nodes = 4 := by
    decide +kernel
  exact ⟨root, _, free, turns, hcreate, hnames, hcut, hcut.nodes_eq ▸ hnodes⟩

end Search

end ConstraintSpace
