import ConstraintSpace.Text.Mark
import ConstraintSpace.Text.Picture

/-!
# Clusters

A cluster is what a reader takes for one character: a character with the marks
after it and the signs before it, a joined picture, a flag, or a line break of
two controls.  Letters that compose syllables are left apart.  Clusters are a
cut of the text, and text without marks is cut into its characters.
-/

namespace ConstraintSpace

abbrev Cluster := List Char

namespace Cluster

/-- Whether a character belongs to any character before it. -/
def follows (c : Char) : Bool :=
  Mark.isExtending c || Mark.isSpacing c || Picture.isTone c || Picture.isJoiner c

/-- Whether a joiner between a cluster, from its end, and a pictograph makes one
picture of them: nothing but marks stands between the joiner and a pictograph. -/
def awaitsPictograph (last : Char) (before : List Char) : Bool :=
  Picture.isJoiner last &&
    ((before.dropWhile fun c => Mark.isExtending c || Picture.isTone c).head?.any
      Picture.isPictograph)

/-- Whether a cluster ends with the first letter of a flag. -/
def awaitsFlagLetter (last : Char) (before : List Char) : Bool :=
  Picture.isFlagLetter last && !before.head?.any Picture.isFlagLetter

/-- Whether a character goes on with a cluster, given from its end. -/
def joins (last : Char) (before : List Char) (c : Char) : Bool :=
  if Mark.isControl last || Mark.isControl c then last = '\r' && c = '\n'
  else follows c || Mark.isPrepended last ||
    (Picture.isPictograph c && awaitsPictograph last before) ||
    (Picture.isFlagLetter c && awaitsFlagLetter last before)

/-- Cuts after a cluster so far, given from its end. -/
def cut (last : Char) (before : List Char) : List Char → List Cluster
  | [] => [(last :: before).reverse]
  | c :: rest =>
    if joins last before c then cut c (last :: before) rest
    else (last :: before).reverse :: cut c [] rest

def ofChars : List Char → List Cluster
  | [] => []
  | c :: rest => cut c [] rest

theorem flatten_cut (last : Char) (before text : List Char) :
    (cut last before text).flatten = before.reverse ++ last :: text := by
  induction text generalizing last before with
  | nil => simp [cut]
  | cons c rest ih =>
      unfold cut
      split <;> simp [ih]

theorem flatten_ofChars (text : List Char) : (ofChars text).flatten = text := by
  cases text with
  | nil => rfl
  | cons c rest => simp [ofChars, flatten_cut]

theorem joins_eq_false {last c : Char} (hlast : last.toNat < 0x300) (hplain : c.toNat < 0x300)
    (hbreak : c ≠ '\n') : joins last [] c = false := by
  have hapart : follows c = false := by
    simp only [follows, Mark.isExtending_eq_false hplain, Mark.isSpacing_eq_false hplain,
      Picture.isTone, Picture.isJoiner, CharRange.contains, Bool.false_or, Bool.or_eq_false_iff,
      Bool.and_eq_false_iff, decide_eq_false_iff_not]
    omega
  simp [joins, awaitsPictograph, Picture.isFlagLetter, CharRange.contains, hapart,
    Mark.isPrepended_eq_false hlast, hbreak]
  omega

theorem cut_of_plain {last : Char} {text : List Char} (hlast : last.toNat < 0x300)
    (hplain : ∀ c ∈ text, c.toNat < 0x300 ∧ c ≠ '\n') :
    cut last [] text = (last :: text).map ([·]) := by
  induction text generalizing last with
  | nil => rfl
  | cons c rest ih =>
      obtain ⟨⟨hsmall, hbreak⟩, hrest⟩ := List.forall_mem_cons.mp hplain
      rw [cut, joins_eq_false hlast hsmall hbreak, ih hsmall hrest]
      rfl

theorem ofChars_of_plain {text : List Char} (hplain : ∀ c ∈ text, c.toNat < 0x300 ∧ c ≠ '\n') :
    ofChars text = text.map ([·]) := by
  cases text with
  | nil => rfl
  | cons c rest =>
      obtain ⟨hfirst, hrest⟩ := List.forall_mem_cons.mp hplain
      exact cut_of_plain hfirst.1 hrest

end Cluster

end ConstraintSpace
