/-!
# Lines

A text cut at its line breaks.  No line has a break in it, and the lines with a
break between any two are the text.
-/

namespace ConstraintSpace.Lines

/-- Cuts after the reversed line so far. -/
def cut (line : List Char) : List Char → List (List Char)
  | [] => [line.reverse]
  | c :: rest => if c = '\n' then line.reverse :: cut [] rest else cut (c :: line) rest

def ofText (text : String) : List String := (cut [] text.toList).map String.ofList

def join : List (List Char) → List Char
  | [] => []
  | [line] => line
  | line :: rest => line ++ '\n' :: join rest

theorem cut_ne_nil (line text : List Char) : cut line text ≠ [] := by
  induction text generalizing line with
  | nil => simp [cut]
  | cons c rest ih =>
      unfold cut
      split
      · simp
      · exact ih _

theorem join_cons {line : List Char} {rest : List (List Char)} (hrest : rest ≠ []) :
    join (line :: rest) = line ++ '\n' :: join rest := by
  cases rest with
  | nil => exact absurd rfl hrest
  | cons _ _ => rfl

theorem join_cut (line text : List Char) : join (cut line text) = line.reverse ++ text := by
  induction text generalizing line with
  | nil => simp [cut, join]
  | cons c rest ih =>
      unfold cut
      split
      next hbreak =>
        rw [join_cons (cut_ne_nil _ _), ih, hbreak]
        rfl
      next => simp [ih]

theorem break_notMem_of_mem_cut {line text : List Char} (hline : '\n' ∉ line) :
    ∀ part ∈ cut line text, '\n' ∉ part := by
  induction text generalizing line with
  | nil => simpa [cut] using hline
  | cons c rest ih =>
      unfold cut
      split
      next =>
        rw [List.forall_mem_cons]
        exact ⟨by simpa using hline, ih (by simp)⟩
      next hne => exact ih (by simp [hline, Ne.symm hne])

end ConstraintSpace.Lines
