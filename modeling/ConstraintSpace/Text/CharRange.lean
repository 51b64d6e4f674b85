/-!
# Ranges of characters

A class of characters is a list of closed ranges of their codes, in ascending
order and with a gap between any two.
-/

namespace ConstraintSpace

structure CharRange where
  first : Nat
  last : Nat
deriving DecidableEq, Repr

namespace CharRange

def contains (r : CharRange) (c : Char) : Bool := r.first ≤ c.toNat && c.toNat ≤ r.last

/-- Whether a character is in one of the ranges. -/
def holds (ranges : List CharRange) (c : Char) : Bool := ranges.any (·.contains c)

/-- Whether the ranges ascend from a code on, with a gap between any two. -/
def ascend (start : Nat) : List CharRange → Bool
  | [] => true
  | r :: rest => start ≤ r.first && r.first ≤ r.last && ascend (r.last + 2) rest

theorem holds_eq_false_of_lt {ranges : List CharRange} {start : Nat} {c : Char}
    (hascend : ascend start ranges = true) (hbefore : c.toNat < start) :
    holds ranges c = false := by
  induction ranges generalizing start with
  | nil => rfl
  | cons r rest ih =>
      simp only [ascend, Bool.and_eq_true, decide_eq_true_eq] at hascend
      obtain ⟨⟨hfirst, hlast⟩, hrest⟩ := hascend
      have hothers : holds rest c = false := ih hrest (by omega)
      simp only [holds, contains, List.any_cons, Bool.or_eq_false_iff, Bool.and_eq_false_iff,
        decide_eq_false_iff_not] at hothers ⊢
      exact ⟨Or.inl (by omega), hothers⟩

end CharRange

end ConstraintSpace
