import ConstraintSpace.Branching.Brancher
import ConstraintSpace.Narrowing
import ConstraintSpace.Proofs.Store.Change
import ConstraintSpace.View.Float

/-!
# Narrowing through views

Whatever a view transforms, what it does to the store is a narrowing of its
variable.  The narrowings of scripts and posts and the commits of branchers are
made of narrowings of views, so all of them only narrow.
-/

namespace ConstraintSpace

open Narrow

namespace IntView

theorem safe_setBound (v : IntView) (side : Side) (value : Int) :
    Safe (v.setBound side value) := by
  induction v generalizing side value with
  | var id => exact Store.safe_narrowInt (IntDomain.setBound_restricts side value) id
  | const n =>
      cases side <;> simp only [setBound] <;> split
      · exact safe_throw _
      · exact safe_pure _
      · exact safe_throw _
      · exact safe_pure _
  | affine inner scale offset ih =>
      simp only [setBound]
      split
      · exact ih _ _
      · exact safe_throw _
  | literal image ih => exact ih side value

theorem safe_setLower (v : IntView) (value : Int) : Safe (v.setLower value) :=
  v.safe_setBound .lower value

theorem safe_setUpper (v : IntView) (value : Int) : Safe (v.setUpper value) :=
  v.safe_setBound .upper value

theorem safe_remove (v : IntView) (value : Int) : Safe (v.remove value) := by
  induction v generalizing value with
  | var id => exact Store.safe_narrowInt (IntDomain.remove_restricts value) id
  | const n =>
      simp only [remove]
      split
      · exact safe_throw _
      · exact safe_pure _
  | affine inner scale offset ih =>
      simp only [remove]
      split
      · exact ih _
      · exact safe_pure _
  | literal image ih => exact ih value

theorem safe_fix (v : IntView) (value : Int) : Safe (v.fix value) := by
  induction v generalizing value with
  | var id => exact Store.safe_narrowInt (IntDomain.fix_restricts value) id
  | const n =>
      simp only [fix]
      split
      · exact safe_pure _
      · exact safe_throw _
  | affine inner scale offset ih =>
      simp only [fix]
      split
      · exact ih _
      · exact safe_throw _
  | literal image ih => exact ih value

end IntView

namespace FloatView

theorem safe_setBound (v : FloatView) (side : Side) (value : Double) :
    Safe (v.setBound side value) := by
  induction v generalizing side value with
  | var id =>
      unfold setBound
      exact Store.safe_narrowFloatBound id side value
  | neg inner ih =>
      unfold setBound
      exact ih _ _

theorem safe_setLower (v : FloatView) (value : Double) : Safe (v.setLower value) :=
  v.safe_setBound .lower value

theorem safe_setUpper (v : FloatView) (value : Double) : Safe (v.setUpper value) :=
  v.safe_setBound .upper value

theorem safe_fix (v : FloatView) (value : Double) : Safe (v.fix value) := by
  induction v generalizing value with
  | var id =>
      unfold fix
      exact Store.safe_narrowFloat (FloatDomain.fix_shrinks value) id
  | neg inner ih =>
      unfold fix
      exact ih _

end FloatView

theorem Narrowing.safe_apply (narrowing : Narrowing) : Safe narrowing.apply := by
  cases narrowing with
  | lower view value => exact view.safe_setLower value
  | upper view value => exact view.safe_setUpper value
  | remove view value => exact view.safe_remove value
  | fix view value => exact view.safe_fix value
  | floatLower view value => exact view.safe_setLower value
  | floatUpper view value => exact view.safe_setUpper value
  | floatFix view value => exact view.safe_fix value
  | require set element =>
      exact Store.safe_narrowSet (SetDomain.require_restricts element) set
  | forbid set element =>
      exact Store.safe_narrowSet (SetDomain.forbid_restricts element) set
  | cardLower set count =>
      exact Store.safe_narrowSet (SetDomain.setCardLower_restricts count) set
  | cardUpper set count =>
      exact Store.safe_narrowSet (SetDomain.setCardUpper_restricts count) set

/-- A post only narrows, however it ends. -/
theorem Narrowing.applyAll_narrows (keepGoing : Bool)
    (narrowings : List Narrowing) {s : Store} (hvalid : s.Valid) :
    (applyAll keepGoing narrowings s).2.2.Valid ∧
      s.Narrows (applyAll keepGoing narrowings s).2.2 := by
  induction narrowings generalizing s with
  | nil => exact ⟨hvalid, Store.Narrows.refl hvalid⟩
  | cons narrowing rest ih =>
      unfold applyAll
      split
      next change s' hrun =>
        obtain ⟨hvalid', hnarrows⟩ := narrowing.safe_apply.of_ok hvalid hrun
        obtain ⟨hvalid'', hnarrows'⟩ := ih hvalid'
        exact ⟨hvalid'', hnarrows.trans hnarrows'⟩
      next s' hrun =>
        obtain ⟨hvalid', hnarrows⟩ := narrowing.safe_apply.of_error hvalid hrun
        split
        · obtain ⟨hvalid'', hnarrows'⟩ := ih hvalid'
          exact ⟨hvalid'', hnarrows.trans hnarrows'⟩
        · exact ⟨hvalid', hnarrows⟩
      next breach s' hrun =>
        exact narrowing.safe_apply.of_error hvalid hrun

/-! ## Commits -/

/-- The computation is a narrowing of a view, or it does nothing. -/
inductive Narrow.Elementary : Narrow Change → Prop where
  | apply (narrowing : Narrowing) : Elementary narrowing.apply
  | refused (misstep : Misstep) : Elementary (throw misstep)
  | idle (change : Change) : Elementary (pure change)

theorem Narrow.Elementary.safe {m : Narrow Change} (helementary : Elementary m) : Safe m := by
  cases helementary with
  | apply narrowing => exact narrowing.safe_apply
  | refused misstep => exact safe_throw misstep
  | idle change => exact safe_pure change

theorem IntCommit.elementary_commit (c : IntCommit) (alternative : Nat) (view : IntView)
    (value : Int) : Elementary (c.commit alternative view value) := by
  cases c with
  | assignOrExclude =>
      simp only [commit]
      split
      · exact .apply (.fix view value)
      · exact .apply (.remove view value)
  | splitLower =>
      simp only [commit]
      split
      · exact .apply (.upper view value)
      · split
        · exact .refused _
        · exact .apply (.lower view _)
  | splitUpper =>
      simp only [commit]
      split
      · exact .apply (.lower view value)
      · split
        · exact .refused _
        · exact .apply (.upper view _)
  | multi n =>
      simp only [commit]
      split
      · exact .apply (.fix view value)
      · exact .apply (.upper view _)
      · exact .apply (.lower view _)

theorem FloatCommit.elementary_commit (c : FloatCommit) (alternative : Nat) (view : FloatView)
    (value : Double) : Elementary (c.commit alternative view value) := by
  cases c <;> simp only [commit] <;> split
  · exact .apply (.floatUpper view value)
  · exact .apply (.floatLower view _)
  · exact .apply (.floatLower view _)
  · exact .apply (.floatUpper view value)

theorem SetCommit.elementary_commit (c : SetCommit) (alternative id : Nat) (element : Int) :
    Elementary (c.commit alternative id element) := by
  unfold commit
  extract_lets included
  split
  · exact .apply (.require id element)
  · exact .apply (.forbid id element)

theorem Branching.elementary_commit {b : Branching} {choice : Choice} {alternative : Nat}
    {narrowing : Narrow Change} (hcommit : b.commit choice alternative = .ok narrowing) :
    Elementary narrowing := by
  cases b with
  | int views selection commit =>
      simp only [Branching.commit] at hcommit
      split at hcommit
      · simp at hcommit
      next view _ =>
        cases hvalue : choice.value with
        | int value =>
            simp only [hvalue, BranchValue.int?, Except.map, Except.ok.injEq] at hcommit
            subst hcommit
            exact commit.elementary_commit alternative view value
        | float value => simp [hvalue, BranchValue.int?, Except.map] at hcommit
  | float views commit =>
      simp only [Branching.commit] at hcommit
      split at hcommit
      · simp at hcommit
      next view _ =>
        cases hvalue : choice.value with
        | int value => simp [hvalue, BranchValue.float?, Except.map] at hcommit
        | float value =>
            simp only [hvalue, BranchValue.float?, Except.map, Except.ok.injEq] at hcommit
            subst hcommit
            exact commit.elementary_commit alternative view value
  | set views selection commit =>
      simp only [Branching.commit] at hcommit
      split at hcommit
      · simp at hcommit
      next id _ =>
        cases hvalue : choice.value with
        | int value =>
            simp only [hvalue, BranchValue.int?, Except.map, Except.ok.injEq] at hcommit
            subst hcommit
            exact commit.elementary_commit alternative id value
        | float value => simp [hvalue, BranchValue.int?, Except.map] at hcommit

/-- Whatever is committed to, it is one narrowing of one view. -/
theorem Brancher.elementary_commit {b : Brancher} {choice : Choice} {alternative : Nat}
    {narrowing : Narrow Change} (hcommit : b.commit choice alternative = .ok narrowing) :
    Elementary narrowing := by
  cases b with
  | viewValue b => exact Branching.elementary_commit hcommit
  | observer o =>
      simp only [commit, Except.ok.injEq] at hcommit
      subst hcommit
      exact .idle _

theorem Brancher.safe_commit {b : Brancher} {choice : Choice} {alternative : Nat}
    {narrowing : Narrow Change} (hcommit : b.commit choice alternative = .ok narrowing) :
    Safe narrowing :=
  (Brancher.elementary_commit hcommit).safe

end ConstraintSpace
