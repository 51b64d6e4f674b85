import ConstraintSpace.Proofs.Search.Completeness
import ConstraintSpace.Queens

/-!
# What an enumeration reports

An enumeration asks for one solution after the other until the search is exhausted or its
solution limit is reached.  It reports what it reads from the solutions, in their order, as
many as the limit lets through, with what happened in between.  This goes by induction over
the calls: after a call that returns a solution the search has one solution less to give.
-/

namespace ConstraintSpace

/-- What was read from a solution, where the report is of one. -/
def Report.solution? {α : Type} : Report α → Option α
  | .solution x => some x
  | .happening _ => none

namespace Report

variable {α : Type}

/-- What was read from the solutions, in order. -/
def solutions (reports : List (Report α)) : List α := reports.filterMap solution?

@[simp] theorem solutions_append (reports more : List (Report α)) :
    solutions (reports ++ more) = solutions reports ++ solutions more :=
  List.filterMap_append

@[simp] theorem solutions_cons (x : α) (reports : List (Report α)) :
    solutions (.solution x :: reports) = x :: solutions reports := rfl

@[simp] theorem solutions_happening (h : Happening) (reports : List (Report α)) :
    solutions (.happening h :: reports) = solutions reports := rfl

@[simp] theorem solutions_happenings (happenings : List Happening) :
    solutions (happenings.map (.happening : Happening → Report α)) = [] := by
  simp [solutions, solution?]

end Report

namespace Search

variable {α : Type} {root : Space} {s t : Search} {work : List Node}

/-- Of the solutions that are left, those that the solution limit lets through. -/
def allowed (s : Search) (solutions : List α) : List α :=
  match s.options.solutionLimit with
  | none => solutions
  | some limit => solutions.take (limit - s.counts.solutions)

/-- How the search ends that has so many solutions left. -/
def verdict (s : Search) (left : Nat) : Found :=
  if reached s.options.solutionLimit (s.counts.solutions + left) then .limitReached
  else .exhausted

theorem reached_mono {limit : Option Nat} {count : Nat} (hreached : reached limit count = true)
    (more : Nat) : reached limit (count + more) = true := by
  cases limit with
  | none => exact hreached
  | some limit =>
      simp only [reached, decide_eq_true_eq] at hreached ⊢
      omega

theorem allowed_of_reached (hreached : reached s.options.solutionLimit s.counts.solutions = true)
    (solutions : List α) : s.allowed solutions = [] := by
  unfold allowed
  cases hlimit : s.options.solutionLimit with
  | none => simp [hlimit, reached] at hreached
  | some limit =>
      simp only [hlimit, reached, decide_eq_true_eq] at hreached
      simp only [Nat.sub_eq_zero_of_le hreached, List.take_zero]

theorem allowed_nil (s : Search) : s.allowed ([] : List α) = [] := by
  unfold allowed
  cases s.options.solutionLimit <;> simp

theorem mem_of_mem_allowed {x : α} {solutions : List α} (hx : x ∈ s.allowed solutions) :
    x ∈ solutions := by
  unfold allowed at hx
  split at hx
  · exact hx
  · exact List.mem_of_mem_take hx

/-- A solution below the limit is let through, and leaves room for one less. -/
theorem allowed_cons (hopen : reached s.options.solutionLimit s.counts.solutions = false)
    (hoptions : t.options = s.options) (hcounts : t.counts.solutions = s.counts.solutions + 1)
    (x : α) (solutions : List α) : s.allowed (x :: solutions) = x :: t.allowed solutions := by
  unfold allowed
  rw [hoptions, hcounts]
  cases hlimit : s.options.solutionLimit with
  | none => rfl
  | some limit =>
      simp only [hlimit, reached, decide_eq_false_iff_not, not_le] at hopen
      have hroom : limit - s.counts.solutions = limit - (s.counts.solutions + 1) + 1 := by omega
      simp only [hroom, List.take_succ_cons]

theorem verdict_succ (hoptions : t.options = s.options)
    (hcounts : t.counts.solutions = s.counts.solutions + 1) (left : Nat) :
    s.verdict (left + 1) = t.verdict left := by
  unfold verdict
  rw [hoptions, hcounts, Nat.add_right_comm, Nat.add_assoc]

/-! ## The enumeration -/

/-- Reading the journal leaves the nodes to explore. -/
theorem Pending.readJournal (hpending : Pending root s work) :
    Pending root s.readJournal.2 work := by
  cases hpending with
  | current htracks hcurrent halike => exact .current htracks hcurrent halike
  | backtrack htracks hcurrent => exact .backtrack htracks hcurrent

theorem enumerate_of_solution {read : Space → α} {nodes more : Nat} {x : Space}
    (hrun : nextSolution nodes s = .ok (.solution x) t) :
    enumerate read nodes (more + 1) s =
      (t.readJournal.1.map .happening ++
          .solution (read x) :: (enumerate read nodes more t.readJournal.2).1,
        (enumerate read nodes more t.readJournal.2).2) := by
  simp only [enumerate, hrun]

theorem enumerate_of_end {read : Space → α} {nodes more : Nat} {found : Found}
    (hrun : nextSolution nodes s = .ok found t) (hend : ∀ x, found ≠ .solution x) :
    enumerate read nodes (more + 1) s =
      (t.readJournal.1.map .happening, .ok found, t.readJournal.2) := by
  cases found with
  | solution x => exact absurd rfl (hend x)
  | _ => simp only [enumerate, hrun]

/-- An enumeration with more calls than solutions reports those that the limit of the
search lets through, and ends accordingly. -/
theorem Pending.enumerate (hpending : Pending root s work) (hroot : root.Kernel)
    (hfree : s.options.nodeLimit = none) {n nodes more : Nat}
    (hn : (Node.survey n work).length < n) (hnodes : n ≤ nodes)
    (hmore : ((Node.survey n work).filterMap Node.solution?).length < more) {read : Space → α}
    (hread : ∀ x y, x.Alike y → read y = read x) :
    ∃ reports t, enumerate read nodes more s =
        (reports, .ok (s.verdict ((Node.survey n work).filterMap Node.solution?).length), t) ∧
      Report.solutions reports =
        s.allowed (((Node.survey n work).filterMap Node.solution?).map read) := by
  induction more generalizing n s work with
  | zero => exact absurd hmore (Nat.not_lt_zero _)
  | succ more ih =>
      cases hlimit : reached s.options.solutionLimit s.counts.solutions with
      | true =>
          have hverdict : ∀ left, s.verdict left = .limitReached :=
            fun left => if_pos (reached_mono hlimit left)
          have hrun : nextSolution nodes s = .ok .limitReached s := if_pos hlimit
          rw [hverdict, allowed_of_reached hlimit]
          exact ⟨_, _, enumerate_of_end hrun (by simp), Report.solutions_happenings _⟩
      | false =>
          have hcall : nextSolution nodes s = exploreFor nodes s := by
            rw [nextSolution, hlimit]
            rfl
          rcases hpending.returns hroot hfree hn with
            ⟨hnil, t, hexhausted⟩ | ⟨x, solution, t, m, left, hcons, halike, hreturns⟩
          · have hverdict : s.verdict 0 = .exhausted := by
              rw [verdict, Nat.add_zero, hlimit]
              rfl
            rw [hnil, List.length_nil, hverdict, List.map_nil, allowed_nil]
            have hrun : nextSolution nodes s = .ok .exhausted t := by
              rw [hcall, hexhausted nodes hnodes]
            exact ⟨_, _, enumerate_of_end hrun (by simp), Report.solutions_happenings _⟩
          · have hrun : nextSolution nodes s = .ok (.solution solution) t := by
              rw [hcall, hreturns.run nodes hnodes]
            rw [hcons, List.length_cons] at hmore
            obtain ⟨reports, u, hrest, hsolutions⟩ :=
              ih hreturns.pending.readJournal (hreturns.options ▸ hfree) hreturns.finite
                (hreturns.less.le.trans hnodes) (Nat.lt_of_succ_lt_succ hmore)
            refine ⟨t.readJournal.1.map .happening ++ .solution (read solution) :: reports, u,
              ?_, ?_⟩
            · rw [enumerate_of_solution hrun, hrest, hcons, List.length_cons,
                verdict_succ hreturns.options hreturns.solutions]
              rfl
            · rw [Report.solutions_append, Report.solutions_happenings, Report.solutions_cons,
                List.nil_append, hsolutions, hcons, List.map_cons, hread x solution halike,
                allowed_cons hlimit hreturns.options hreturns.solutions]
              rfl

end Search

end ConstraintSpace
