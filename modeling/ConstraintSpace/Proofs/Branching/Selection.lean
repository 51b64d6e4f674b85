import ConstraintSpace.Branching.Brancher
import ConstraintSpace.Proofs.View.Valuation

/-!
# What is selected

Every selector picks a view that is not fixed as soon as there is one.  The
selection of a value then always gives one: a value of the view, whichever it
is and whatever was drawn or looked up, or for a split the middle between the
bounds.  For a set variable it gives an undecided element.
-/

namespace ConstraintSpace

/-! ## Selectors -/

namespace Selector

variable {α : Type} {s : Store} {views : List AnyView}

/-- The search for the best finds a measure where there is one, at its place. -/
theorem bestFrom_cases (better : α → α → Bool) (ms : List (Option α)) (index : Nat)
    (best : Option (Nat × α)) :
    (bestFrom better index best ms = none ∧ best = none ∧ ∀ m ∈ ms, m = none) ∨
      ∃ i m, bestFrom better index best ms = some (i, m) ∧
        (best = some (i, m) ∨ ∃ k, ms[k]? = some (some m) ∧ i = index + k) := by
  induction ms generalizing index best with
  | nil =>
      cases best with
      | none => exact Or.inl ⟨rfl, rfl, by simp⟩
      | some best => exact Or.inr ⟨best.1, best.2, rfl, Or.inl rfl⟩
  | cons m rest ih =>
      have hlater : ∀ {i : Nat} {x : α} {best' : Option (Nat × α)},
          (best' = some (i, x) ∨ ∃ k, rest[k]? = some (some x) ∧ i = index + 1 + k) →
          best' = some (i, x) ∨ ∃ k, (m :: rest)[k]? = some (some x) ∧ i = index + k := by
        rintro i x best' (h | ⟨k, hk, rfl⟩)
        · exact Or.inl h
        · exact Or.inr ⟨k + 1, by simpa using hk, by omega⟩
      cases m with
      | none =>
          rcases ih (index + 1) best with ⟨hnone, hbest, hall⟩ | ⟨i, x, hsome, hplace⟩
          · exact Or.inl ⟨hnone, hbest, by simpa using hall⟩
          · exact Or.inr ⟨i, x, hsome, hlater hplace⟩
      | some m =>
          have hhere : ∃ k, (some m :: rest)[k]? = some (some m) ∧ index = index + k :=
            ⟨0, rfl, rfl⟩
          cases best with
          | none =>
              rcases ih (index + 1) (some (index, m)) with
                ⟨-, hbest, -⟩ | ⟨i, x, hsome, hplace⟩
              · simp at hbest
              · refine Or.inr ⟨i, x, hsome, Or.inr ?_⟩
                rcases hlater hplace with heq | hk
                · simp only [Option.some.injEq, Prod.mk.injEq] at heq
                  obtain ⟨rfl, rfl⟩ := heq
                  exact hhere
                · exact hk
          | some best =>
              rcases ih (index + 1) (some (if better m best.2 then (index, m) else best))
                with ⟨-, hbest, -⟩ | ⟨i, x, hsome, hplace⟩
              · simp at hbest
              · refine Or.inr ⟨i, x, hsome, ?_⟩
                rcases hlater hplace with heq | hk
                · split at heq
                  · simp only [Option.some.injEq, Prod.mk.injEq] at heq
                    obtain ⟨rfl, rfl⟩ := heq
                    exact Or.inr hhere
                  · exact Or.inl heq
                · exact Or.inr hk

theorem best?_measures (better : α → α → Bool) (measure : AnyView → α)
    (hopen : ∃ view ∈ views, view.isFixed s = false) :
    ∃ i view, best? better (measures s measure views) = some i ∧
      views[i]? = some view ∧ view.isFixed s = false := by
  rcases bestFrom_cases better (measures s measure views) 0 none with
    ⟨-, -, hall⟩ | ⟨i, m, hsome, hplace⟩
  · obtain ⟨view, hview, hopen⟩ := hopen
    have := hall _ (List.mem_map.mpr ⟨view, hview, rfl⟩)
    simp [hopen] at this
  · obtain ⟨k, hk, rfl⟩ := hplace.resolve_left (by simp)
    simp only [measures, List.getElem?_map, Option.map_eq_some_iff] at hk
    obtain ⟨view, hview, hmeasure⟩ := hk
    refine ⟨0 + k, view, by simp [best?, hsome], by simpa using hview, ?_⟩
    by_contra hfixed
    simp [hfixed] at hmeasure

/-- Where a view is open, the selector picks an open one. -/
theorem exists_select (selector : Selector)
    (hopen : ∃ view ∈ views, view.isFixed s = false) :
    ∃ i view, selector.select s views = some i ∧ views[i]? = some view ∧
      view.isFixed s = false := by
  cases selector with
  | inputOrder =>
      cases hfind : views.findIdx? fun view => !view.isFixed s with
      | none =>
          rw [List.findIdx?_eq_none_iff] at hfind
          obtain ⟨view, hview, hopen⟩ := hopen
          have := hfind view hview
          simp [hopen] at this
      | some i =>
          obtain ⟨hi, hview, -⟩ := List.findIdx?_eq_some_iff_getElem.mp hfind
          exact ⟨i, views[i], hfind, List.getElem?_eq_getElem hi, by simpa using hview⟩
  | firstFail => exact best?_measures _ _ hopen
  | antiFirstFail => exact best?_measures _ _ hopen
  | smallest => exact best?_measures _ _ hopen
  | largest => exact best?_measures _ _ hopen

theorem sound_of_known (selector : Selector) (hknown : ∀ view ∈ views, view.known s = true) :
    selector.sound s views = true := by
  cases selector with
  | inputOrder =>
      unfold sound
      simp only
      split
      next view hfind => exact hknown view (List.mem_of_find?_eq_some hfind)
      next => rfl
  | _ => exact List.all_eq_true.mpr hknown

end Selector

/-! ## Selections -/

namespace Generator

theorem scaled_lt {width range : Nat} {draw : Generator → Nat × Generator}
    (hdraw : ∀ g, (draw g).1 < 2 ^ width) (hrange : 0 < range) (fuel : Nat)
    (g : Generator) : (scaled width range draw fuel g).1 < range := by
  induction fuel generalizing g with
  | zero => exact hrange
  | succ fuel ih =>
      simp only [scaled]
      split
      · refine (Nat.div_lt_iff_lt_mul (Nat.two_pow_pos width)).mpr ?_
        rw [Nat.mul_comm range]
        exact Nat.mul_lt_mul_of_pos_right (hdraw g) hrange
      · exact ih _

/-- A draw from a range that is not empty lies in it. -/
theorem exists_natBelow {high : Nat} (hhigh : 0 < high) (g : Generator) :
    ∃ n g', natBelow 0 high g = .ok (n, g') ∧ n < high := by
  unfold natBelow
  rw [if_pos hhigh, Nat.sub_zero]
  split
  next n g' hdraw =>
    refine ⟨0 + n, g', rfl, ?_⟩
    have hfirst : _ = n := congrArg Prod.fst hdraw
    rw [Nat.zero_add, ← hfirst]
    exact scaled_lt (fun g => g.next.1.toNat_lt) hhigh _ g

end Generator

namespace IntSelection

variable {s : Store} {v : IntView}

/-- A selection that draws from a list has one that is not empty. -/
def Supplied : IntSelection → Prop
  | drawn draws _ => draws ≠ []
  | _ => True

theorem getD_values (hfit : v.Fit s) (hvalid : s.Valid) {i : Nat}
    (hi : i < (v.values s).length) :
    ∃ y ∈ v.domain s, v.valueAt y = (v.values s)[i]?.getD 0 := by
  rw [List.getElem?_eq_getElem hi, Option.getD_some]
  exact (hfit.exact.mem_values hvalid).mp (List.getElem_mem hi)

theorem length_values_pos (hfit : v.Fit s) (hvalid : s.Valid) :
    0 < (v.values s).length := by
  obtain ⟨x, hx, hlower⟩ := hfit.exact.exists_lower hvalid
  exact List.length_pos_of_mem ((hfit.exact.mem_values hvalid).mpr ⟨x, hx, rfl⟩)

/-- Every supplied selection selects a value of the view; a split selects the
middle between its bounds. -/
theorem exists_select {selection : IntSelection} (hsupplied : selection.Supplied)
    (hfit : v.Fit s) (hvalid : s.Valid) :
    ∃ x next, selection.select s v = .ok (x, next) ∧ next.Supplied ∧
      (next = .split ↔ selection = .split) ∧
      (selection ≠ .split → ∃ y ∈ v.domain s, v.valueAt y = x) ∧
      (selection = .split → x = (v.lower s + v.upper s).fdiv 2) := by
  have hpos := length_values_pos hfit hvalid
  cases selection with
  | min =>
      exact ⟨_, _, rfl, trivial, by simp, fun _ => hfit.exact.exists_lower hvalid,
        by simp⟩
  | max =>
      exact ⟨_, _, rfl, trivial, by simp, fun _ => hfit.exact.exists_upper hvalid,
        by simp⟩
  | median =>
      exact ⟨_, _, rfl, trivial, by simp,
        fun _ => getD_values hfit hvalid (Nat.div_lt_self hpos (by decide)), by simp⟩
  | split => exact ⟨_, _, rfl, trivial, by simp, by simp, fun _ => rfl⟩
  | random generator =>
      obtain ⟨n, g', hdraw, hn⟩ := Generator.exists_natBelow hpos generator
      refine ⟨(v.values s)[n]?.getD 0, .random g', ?_, trivial, by simp,
        fun _ => getD_values hfit hvalid hn, by simp⟩
      simp only [select, hdraw]
  | drawn draws position =>
      have hlength : 0 < draws.length := List.length_pos_of_ne_nil hsupplied
      have hposition := Nat.mod_lt position hlength
      refine ⟨(v.values s)[draws[position % draws.length] % (v.values s).length]?.getD 0,
        .drawn draws (position + 1), ?_, hsupplied, by simp,
        fun _ => getD_values hfit hvalid (Nat.mod_lt _ hpos), by simp⟩
      simp only [select, List.getElem?_eq_getElem hposition]
  | preferred table =>
      cases hpreference : preference? v table.content with
      | none =>
          exact ⟨v.lower s, .preferred table, by simp only [select, hpreference], trivial,
            by simp, fun _ => hfit.exact.exists_lower hvalid, by simp⟩
      | some value =>
          refine ⟨if v.contains s value then value else v.lower s, .preferred table,
            by simp only [select, hpreference], trivial, by simp, fun _ => ?_, by simp⟩
          split
          next hcontains => exact (hfit.exact.contains_iff hvalid).mp hcontains
          next => exact hfit.exact.exists_lower hvalid

end IntSelection

/-- An open set variable has an undecided element to select. -/
theorem SetSelection.exists_select (selection : SetSelection) {s : Store}
    (hvalid : s.Valid) {id : Nat} (hopen : (s.set id).isFixed = false) :
    ∃ x, selection.select s id = .ok x ∧ x ∈ (s.set id).unknown := by
  have hsome := (hvalid.set id).unknown_ne_nil hopen
  cases selection with
  | minUnknown =>
      refine ⟨(s.set id).unknown.head hsome, ?_, List.head_mem hsome⟩
      simp only [select, List.head?_eq_some_head hsome]
  | maxUnknown =>
      refine ⟨(s.set id).unknown.getLast hsome, ?_, List.getLast_mem hsome⟩
      simp only [select, List.getLast?_eq_some_getLast hsome]

end ConstraintSpace
