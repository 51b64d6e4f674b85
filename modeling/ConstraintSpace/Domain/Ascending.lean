/-!
# Ascending lists

Finite sets of integers as strictly ascending lists, so that equal sets are
equal lists.
-/

namespace ConstraintSpace.Ascending

def insert (x : Int) : List Int → List Int
  | [] => [x]
  | y :: rest =>
    if x < y then x :: y :: rest
    else if x = y then y :: rest
    else y :: insert x rest

def ofList (xs : List Int) : List Int := xs.foldr insert []

theorem mem_insert {x y : Int} {xs : List Int} : y ∈ insert x xs ↔ y = x ∨ y ∈ xs := by
  induction xs with
  | nil => simp [insert]
  | cons z rest ih =>
      unfold insert
      split
      · simp
      · split
        · subst_vars; simp
        · simp only [List.mem_cons, ih]; grind

theorem mem_ofList {y : Int} {xs : List Int} : y ∈ ofList xs ↔ y ∈ xs := by
  induction xs with
  | nil => simp [ofList]
  | cons x rest ih =>
      have hstep : ofList (x :: rest) = insert x (ofList rest) := rfl
      simp [hstep, mem_insert, ih]

theorem pairwise_insert {x : Int} {xs : List Int} (hxs : xs.Pairwise (· < ·)) :
    (insert x xs).Pairwise (· < ·) := by
  induction xs with
  | nil => simp [insert]
  | cons z rest ih =>
      obtain ⟨hfirst, hrest⟩ := List.pairwise_cons.mp hxs
      unfold insert
      split
      next hless =>
        refine List.pairwise_cons.mpr ⟨?_, hxs⟩
        rw [List.forall_mem_cons]
        exact ⟨hless, fun y hy => Int.lt_trans hless (hfirst y hy)⟩
      next hless =>
        split
        · exact hxs
        next hne =>
          refine List.pairwise_cons.mpr ⟨fun y hy => ?_, ih hrest⟩
          rcases mem_insert.mp hy with rfl | hy
          · omega
          · exact hfirst y hy

theorem pairwise_ofList (xs : List Int) : (ofList xs).Pairwise (· < ·) := by
  induction xs with
  | nil => simp [ofList]
  | cons x rest ih => exact pairwise_insert ih

/-- Two ascending lists with the same members are one list. -/
theorem eq_of_mem_iff {xs ys : List Int} (hxs : xs.Pairwise (· < ·))
    (hys : ys.Pairwise (· < ·)) (hsame : ∀ x, x ∈ xs ↔ x ∈ ys) : xs = ys := by
  induction xs generalizing ys with
  | nil =>
      cases ys with
      | nil => rfl
      | cons y rest => exact absurd ((hsame y).mpr List.mem_cons_self) List.not_mem_nil
  | cons x xs ih =>
      cases ys with
      | nil => exact absurd ((hsame x).mp List.mem_cons_self) List.not_mem_nil
      | cons y ys =>
          obtain ⟨hfirstX, hrestX⟩ := List.pairwise_cons.mp hxs
          obtain ⟨hfirstY, hrestY⟩ := List.pairwise_cons.mp hys
          have hheads : x = y := by
            have hx := (hsame x).mp List.mem_cons_self
            have hy := (hsame y).mpr List.mem_cons_self
            grind
          subst hheads
          refine congrArg (x :: ·) (ih hrestX hrestY fun z => ?_)
          have := hsame z
          grind

end ConstraintSpace.Ascending
