import ConstraintSpace.Proofs.Branching.Choices

/-!
# Which alternatives narrow

A commit takes a value that was selected before, and whether an alternative narrows the
view depends on where the value lies.  A part that reaches from the value up to its far side
is all of the domain when the value is the near bound, and to exclude a value that the
view does not have changes nothing.  These are the only alternatives that neither narrow
nor fail.
-/

namespace ConstraintSpace

namespace IntView

variable {s : Store} {v : IntView} {bound : Int}

/-- An upper bound excludes something of an open view when it lies below the bound there
is. -/
theorem Fit.excludes_setUpper (hfit : v.Fit s) (hvalid : s.Valid) (hopen : v.isFixed s = false) :
    (∃ y ∈ v.domain s, ¬(v.valueAt y ≤ bound ∨ v.Lax .upper y)) ↔ bound < v.upper s := by
  constructor
  · rintro ⟨y, hy, hout⟩
    have hle := hfit.exact.le_upper hvalid hy
    have hbound : bound < v.valueAt y := not_le.mp fun hle => hout (Or.inl hle)
    omega
  · intro hbound
    obtain ⟨y, hy, hupper⟩ := hfit.exact.exists_upper hvalid
    obtain ⟨z, hz, hlower⟩ := hfit.exact.exists_lower hvalid
    have hless := hfit.lower_lt_upper hvalid hopen
    refine ⟨y, hy, ?_⟩
    rintro (hkept | hlax)
    · omega
    · have hleast : v.valueAt y ≤ v.valueAt z := hfit.exact.keeps_of_lax hvalid hlax hz
      omega

theorem Fit.excludes_setLower (hfit : v.Fit s) (hvalid : s.Valid) (hopen : v.isFixed s = false) :
    (∃ y ∈ v.domain s, ¬(bound ≤ v.valueAt y ∨ v.Lax .lower y)) ↔ v.lower s < bound := by
  constructor
  · rintro ⟨y, hy, hout⟩
    have hle := hfit.exact.lower_le hvalid hy
    have hbound : v.valueAt y < bound := not_le.mp fun hle => hout (Or.inl hle)
    omega
  · intro hbound
    obtain ⟨y, hy, hlower⟩ := hfit.exact.exists_lower hvalid
    obtain ⟨z, hz, hupper⟩ := hfit.exact.exists_upper hvalid
    have hless := hfit.lower_lt_upper hvalid hopen
    refine ⟨y, hy, ?_⟩
    rintro (hkept | hlax)
    · omega
    · have hgreatest : v.valueAt z ≤ v.valueAt y := hfit.exact.keeps_of_lax hvalid hlax hz
      omega

theorem Fit.excludes_fix (hfit : v.Fit s) (hvalid : s.Valid) (hopen : v.isFixed s = false)
    (x : Int) : ∃ y ∈ v.domain s, ¬v.valueAt y = x := by
  obtain ⟨y, hy, hlower⟩ := hfit.exact.exists_lower hvalid
  obtain ⟨z, hz, hupper⟩ := hfit.exact.exists_upper hvalid
  have hless := hfit.lower_lt_upper hvalid hopen
  by_cases heq : v.valueAt y = x
  · exact ⟨z, hz, by omega⟩
  · exact ⟨y, hy, heq⟩

/-- The narrowing keeps some numbers of the view, and all of them only where it stalls. -/
def KeepsUnless (v : IntView) (s : Store) (narrowing : Narrow Change) (stalls : Prop) : Prop :=
  ∃ keep : Int → Prop, Store.KeepsExactly narrowing (fun a => keep (v.point a)) s ∧
    ((∃ y ∈ v.domain s, ¬keep y) ↔ ¬stalls)

variable {stalls : Prop}

theorem Fit.fix_keepsUnless (hfit : v.Fit s) (hvalid : s.Valid) (hopen : v.isFixed s = false)
    (x : Int) (hstalls : ¬stalls) : v.KeepsUnless s (v.fix x) stalls :=
  ⟨_, hfit.fix_keeps hvalid x, iff_of_true (hfit.excludes_fix hvalid hopen x) hstalls⟩

theorem Fit.setUpper_keepsUnless (hfit : v.Fit s) (hvalid : s.Valid)
    (hopen : v.isFixed s = false) (hbound : Fits32 bound)
    (hstalls : bound < v.upper s ↔ ¬stalls) : v.KeepsUnless s (v.setUpper bound) stalls :=
  ⟨_, hfit.setUpper_keeps hvalid hbound, (hfit.excludes_setUpper hvalid hopen).trans hstalls⟩

theorem Fit.setLower_keepsUnless (hfit : v.Fit s) (hvalid : s.Valid)
    (hopen : v.isFixed s = false) (hbound : Fits32 bound)
    (hstalls : v.lower s < bound ↔ ¬stalls) : v.KeepsUnless s (v.setLower bound) stalls :=
  ⟨_, hfit.setLower_keeps hvalid hbound, (hfit.excludes_setLower hvalid hopen).trans hstalls⟩

theorem Fit.remove_keepsUnless (hfit : v.Fit s) (hvalid : s.Valid) (x : Int)
    (hstalls : (∃ y ∈ v.domain s, v.valueAt y = x) ↔ ¬stalls) :
    v.KeepsUnless s (v.remove x) stalls :=
  ⟨fun y => v.valueAt y ≠ x, hfit.remove_keeps hvalid x, by simpa using hstalls⟩

end IntView

/-- The neighbour below a number lies below its upper bound, also where it saturates. -/
theorem clamp32_below {x upper : Int} (hle : x ≤ upper) (hlow : lowest32 < upper) :
    clamp32 (x - 1) < upper := by
  unfold clamp32
  split
  · exact hlow
  · split <;> omega

theorem clamp32_above {x lower : Int} (hle : lower ≤ x) (hhigh : lower < highest32) :
    lower < clamp32 (x + 1) := by
  unfold clamp32
  split
  · omega
  · split <;> omega

namespace IntSelection

variable {selection next : IntSelection} {s : Store} {v : IntView} {x : Int}

/-- What is selected is a value of the view, or the middle between its bounds. -/
theorem value_of_select (hfit : v.Fit s) (hvalid : s.Valid)
    (hselect : selection.select s v = .ok (x, next)) :
    (selection ≠ .split → ∃ y ∈ v.domain s, v.valueAt y = x) ∧
      (selection = .split → x = (v.lower s + v.upper s).fdiv 2) := by
  have hsupplied : selection.Supplied := by
    cases selection with
    | drawn draws position =>
        rintro rfl
        simp [select] at hselect
    | _ => trivial
  obtain ⟨x', next', hselect', -, -, hvalue, hmiddle⟩ := exists_select hsupplied hfit hvalid
  obtain ⟨rfl, -⟩ : x' = x ∧ next' = next := by simpa [hselect] using hselect'.symm
  exact ⟨hvalue, hmiddle⟩

/-- It lies between the bounds of an open view. -/
theorem between_of_select (hfit : v.Fit s) (hvalid : s.Valid) (hopen : v.isFixed s = false)
    (hselect : selection.select s v = .ok (x, next)) : v.lower s ≤ x ∧ x ≤ v.upper s := by
  obtain ⟨hvalue, hmiddle⟩ := value_of_select hfit hvalid hselect
  by_cases hsplit : selection = .split
  · have hbetween := Branching.middle_lt (hfit.lower_lt_upper hvalid hopen)
    rw [← hmiddle hsplit] at hbetween
    exact ⟨hbetween.1, hbetween.2.le⟩
  · obtain ⟨y, hy, rfl⟩ := hvalue hsplit
    exact ⟨hfit.exact.lower_le hvalid hy, hfit.exact.le_upper hvalid hy⟩

end IntSelection

namespace IntCommit

variable {s : Store} {v : IntView} {x : Int} {alternative : Nat}

/-- The alternative changes nothing, or needs a neighbour of the value beyond the 32-bit
integers. -/
def Stalls (s : Store) (v : IntView) (x : Int) (alternative : Nat) : IntCommit → Prop
  | assignOrExclude => alternative ≠ 0 ∧ ∀ y ∈ v.domain s, v.valueAt y ≠ x
  | splitLower =>
      alternative = 0 ∧ v.upper s ≤ x ∨ alternative ≠ 0 ∧ x = highest32
  | splitUpper =>
      alternative = 0 ∧ x ≤ v.lower s ∨ alternative ≠ 0 ∧ x = lowest32
  | multi _ => False

/-- With these selections no alternative of the commit stalls. -/
def MovesOn (selection : IntSelection) : IntCommit → Prop
  | assignOrExclude => selection ≠ .split
  | splitLower => selection = .min ∨ selection = .split
  | splitUpper => selection = .max
  | multi _ => True

theorem MovesOn.not_stalls {kind : IntCommit} {selection next : IntSelection}
    (hmoves : kind.MovesOn selection) (hfit : v.Fit s) (hvalid : s.Valid)
    (hopen : v.isFixed s = false) (hselect : selection.select s v = .ok (x, next))
    (alternative : Nat) : ¬kind.Stalls s v x alternative := by
  have hless := hfit.lower_lt_upper hvalid hopen
  have hlow := hfit.exact.fits32_lower hvalid
  have hhigh := hfit.exact.fits32_upper hvalid
  unfold Fits32 at hlow hhigh
  obtain ⟨hvalue, hmiddle⟩ := IntSelection.value_of_select hfit hvalid hselect
  cases kind with
  | assignOrExclude =>
      obtain ⟨y, hy, hsame⟩ := hvalue hmoves
      exact fun hstalls => hstalls.2 y hy hsame
  | splitLower =>
      have hbelow : x < v.upper s := by
        rcases hmoves with rfl | rfl
        · obtain ⟨rfl, -⟩ : v.lower s = x ∧ _ := by simpa [IntSelection.select] using hselect
          exact hless
        · rw [hmiddle rfl]
          exact (Branching.middle_lt hless).2
      simp only [Stalls]
      omega
  | splitUpper =>
      obtain rfl : selection = .max := hmoves
      obtain ⟨rfl, -⟩ : v.upper s = x ∧ _ := by simpa [IntSelection.select] using hselect
      simp only [Stalls]
      omega
  | multi n => exact not_false

/-- A commit breaches a precondition where it stalls, or it keeps some numbers of an open
view, and not all of them unless it stalls. -/
theorem commit_cases (kind : IntCommit) (alternative : Nat) (hfit : v.Fit s) (hvalid : s.Valid)
    (hopen : v.isFixed s = false) (hlower : v.lower s ≤ x) (hupper : x ≤ v.upper s) :
    (kind.Stalls s v x alternative ∧
        kind.commit alternative v x = throw (.breached .overflow)) ∨
      v.KeepsUnless s (kind.commit alternative v x) (kind.Stalls s v x alternative) := by
  have hless := hfit.lower_lt_upper hvalid hopen
  have hlow := hfit.exact.fits32_lower hvalid
  have hhigh := hfit.exact.fits32_upper hvalid
  unfold Fits32 at hlow hhigh
  cases kind with
  | assignOrExclude =>
      refine Or.inr ?_
      by_cases hfirst : alternative = 0
      · simp only [commit, hfirst, if_true]
        exact hfit.fix_keepsUnless hvalid hopen x (by simp [Stalls])
      · simp only [commit, hfirst, if_false]
        exact hfit.remove_keepsUnless hvalid x (by simp [Stalls, hfirst])
  | splitLower =>
      by_cases hfirst : alternative = 0
      · simp only [commit, hfirst, if_true]
        exact Or.inr (hfit.setUpper_keepsUnless hvalid hopen ⟨by omega, by omega⟩
          (by simp [Stalls]))
      · by_cases hlast : x = highest32
        · refine Or.inl ⟨Or.inr ⟨hfirst, hlast⟩, ?_⟩
          simp only [commit, hfirst, hlast, if_true, if_false]
        · simp only [commit, hfirst, hlast, if_false]
          exact Or.inr (hfit.setLower_keepsUnless hvalid hopen ⟨by omega, by omega⟩
            (iff_of_true (by omega) (by simp [Stalls, hfirst, hlast])))
  | splitUpper =>
      by_cases hfirst : alternative = 0
      · simp only [commit, hfirst, if_true]
        exact Or.inr (hfit.setLower_keepsUnless hvalid hopen ⟨by omega, by omega⟩
          (by simp [Stalls]))
      · by_cases hlast : x = lowest32
        · refine Or.inl ⟨Or.inr ⟨hfirst, hlast⟩, ?_⟩
          simp only [commit, hfirst, hlast, if_true, if_false]
        · simp only [commit, hfirst, hlast, if_false]
          exact Or.inr (hfit.setUpper_keepsUnless hvalid hopen ⟨by omega, by omega⟩
            (iff_of_true (by omega) (by simp [Stalls, hfirst, hlast])))
  | multi n =>
      refine Or.inr ?_
      rcases alternative with _ | _ | _
      · exact hfit.fix_keepsUnless hvalid hopen x not_false
      · exact hfit.setUpper_keepsUnless hvalid hopen (fits32_clamp32 _)
          (iff_of_true (clamp32_below hupper (by omega)) not_false)
      · exact hfit.setLower_keepsUnless hvalid hopen (fits32_clamp32 _)
          (iff_of_true (clamp32_above hlower (by omega)) not_false)

end IntCommit

end ConstraintSpace
