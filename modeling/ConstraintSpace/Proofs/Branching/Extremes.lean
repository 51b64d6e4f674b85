import ConstraintSpace.Proofs.Branching.Selection
import ConstraintSpace.Proofs.Domain.FloatInterval

/-!
# Which view is selected

The search for the best goes through the measures once and keeps an incumbent.  What it
ends with is beaten by no measure, and where the order is as that of numbers it is the
earliest such one.  Measures that are missing do not matter: fixed views in front of the
others only shift the position that is found.
-/

namespace ConstraintSpace

namespace Selector

variable {α : Type} {better : α → α → Bool} {ms : List (Option α)} {index i : Nat} {m : α}
  {best : Option (Nat × α)} {s : Store} {views : List AnyView} {view : AnyView}

/-! ## The search for the best -/

/-- A measure becomes the incumbent, or the incumbent before it stays since the measure
is no better. -/
theorem bestFrom_cons (better : α → α → Bool) (index : Nat) (best : Option (Nat × α)) (x : α)
    (rest : List (Option α)) :
    ∃ b, bestFrom better index best (some x :: rest) =
        bestFrom better (index + 1) (some b) rest ∧
      (b = (index, x) ∧ (∀ a, best = some a → better x a.2 = true) ∨
        best = some b ∧ better x b.2 = false) := by
  cases best with
  | none => exact ⟨(index, x), rfl, Or.inl ⟨rfl, by simp⟩⟩
  | some a =>
      refine ⟨_, rfl, ?_⟩
      by_cases hbeaten : better x a.2 = true
      · rw [if_pos hbeaten]
        refine Or.inl ⟨rfl, fun a' ha' => ?_⟩
        rwa [← Option.some.inj ha']
      · rw [if_neg hbeaten]
        exact Or.inr ⟨rfl, by simpa using hbeaten⟩

section Orders

variable (htrans : ∀ x y z, better x y = true → better y z = true → better x z = true)

include htrans

/-- What the search ends with is its incumbent or better. -/
theorem bestFrom_incumbent (hfound : bestFrom better index best ms = some (i, m))
    {b : Nat × α} (hbest : best = some b) : b = (i, m) ∨ better m b.2 = true := by
  subst hbest
  induction ms generalizing index b with
  | nil => exact Or.inl (Option.some.inj hfound)
  | cons head rest ih =>
      cases head with
      | none => exact ih hfound
      | some x =>
          obtain ⟨b', hstep, hcases⟩ := bestFrom_cons better index (some b) x rest
          have hlater := ih (hstep ▸ hfound)
          rcases hcases with ⟨rfl, hbeaten⟩ | ⟨hsame, -⟩
          · right
            rcases hlater with heq | hbetter
            · obtain rfl : x = m := congrArg Prod.snd heq
              exact hbeaten b rfl
            · exact htrans m x b.2 hbetter (hbeaten b rfl)
          · rwa [Option.some.inj hsame]

/-- No measure is better than what the search ends with. -/
theorem bestFrom_unbeaten (hirrefl : ∀ x, better x x = false)
    (hfound : bestFrom better index best ms = some (i, m)) :
    ∀ x, some x ∈ ms → better x m = false := by
  have hasymm : ∀ {x y}, better x y = true → better y x = false := by
    intro x y hxy
    by_contra hyx
    rw [Bool.not_eq_false] at hyx
    simpa [hirrefl] using htrans x y x hxy hyx
  induction ms generalizing index best with
  | nil => simp
  | cons head rest ih =>
      cases head with
      | none => simpa using ih hfound
      | some x =>
          obtain ⟨b, hstep, hcases⟩ := bestFrom_cons better index best x rest
          rw [hstep] at hfound
          have hincumbent := bestFrom_incumbent htrans hfound rfl
          have hhead : better x m = false := by
            rcases hcases with ⟨rfl, -⟩ | ⟨-, hworse⟩
            · rcases hincumbent with heq | hbetter
              · obtain rfl : x = m := congrArg Prod.snd heq
                exact hirrefl x
              · exact hasymm hbetter
            · by_contra hbeats
              rw [Bool.not_eq_false] at hbeats
              rcases hincumbent with rfl | hbetter
              · simp [hbeats] at hworse
              · simp [htrans x m b.2 hbeats hbetter] at hworse
          intro y hy
          rcases List.mem_cons.mp hy with heq | hlater
          · rwa [Option.some.inj heq]
          · exact ih hfound y hlater

/-- What comes before the one that the search ends with is worse. -/
theorem bestFrom_first
    (hsplit : ∀ x y z, better x z = true → better x y = true ∨ better y z = true)
    (hearlier : ∀ b, best = some b → b.1 < index)
    (hfound : bestFrom better index best ms = some (i, m)) {k : Nat} {x : α}
    (hx : ms[k]? = some (some x)) (hk : index + k < i) : better m x = true := by
  induction ms generalizing index best k with
  | nil => simp at hx
  | cons head rest ih =>
      cases head with
      | none =>
          cases k with
          | zero => simp at hx
          | succ k =>
              exact ih (fun b hb => (hearlier b hb).trans (Nat.lt_succ_self _)) hfound
                (by simpa using hx) (by omega)
      | some y =>
          obtain ⟨b, hstep, hcases⟩ := bestFrom_cons better index best y rest
          rw [hstep] at hfound
          have hb : b.1 < index + 1 := by
            rcases hcases with ⟨rfl, -⟩ | ⟨hsame, -⟩
            · exact Nat.lt_succ_self _
            · exact (hearlier b hsame).trans (Nat.lt_succ_self _)
          cases k with
          | succ k =>
              refine ih (fun b' hb' => ?_) hfound (by simpa using hx) (by omega)
              rwa [← Option.some.inj hb']
          | zero =>
              obtain rfl : y = x := by simpa using hx
              rcases bestFrom_incumbent htrans hfound rfl with heq | hbetter
              · -- the incumbent came no later, but the one found did
                have hindex : b.1 = i := congrArg Prod.fst heq
                omega
              · rcases hcases with ⟨rfl, -⟩ | ⟨-, hworse⟩
                · exact hbetter
                · exact (hsplit m y b.2 hbetter).resolve_right (by simp [hworse])

end Orders

theorem bestFrom_shift (n : Nat) :
    bestFrom better (index + n) (best.map fun b => (b.1 + n, b.2)) ms =
      (bestFrom better index best ms).map fun b => (b.1 + n, b.2) := by
  induction ms generalizing index best with
  | nil => cases best <;> rfl
  | cons head rest ih =>
      cases head with
      | none =>
          rw [bestFrom, bestFrom, ← ih, Nat.add_right_comm]
      | some x =>
          cases best with
          | none =>
              rw [Option.map_none, bestFrom, bestFrom, ← ih, Nat.add_right_comm]
              rfl
          | some b =>
              rw [Option.map_some, bestFrom, bestFrom, ← ih, Nat.add_right_comm]
              split <;> rfl

/-! ## Cursors -/

/-- A fixed view in front shifts what is selected. -/
theorem select_cons_of_fixed (selector : Selector) (hfixed : view.isFixed s = true) :
    selector.select s (view :: views) = (selector.select s views).map (· + 1) := by
  have hbest : ∀ {β : Type} (better : β → β → Bool) (measure : AnyView → β),
      best? better (measures s measure (view :: views)) =
        (best? better (measures s measure views)).map (· + 1) := by
    intro β better measure
    have hshift : bestFrom better (0 + 1) ((none : Option (Nat × β)).map fun b => (b.1 + 1, b.2))
        (measures s measure views) =
          (bestFrom better 0 none (measures s measure views)).map fun b => (b.1 + 1, b.2) :=
      bestFrom_shift 1
    rw [Option.map_none] at hshift
    simp only [best?, measures, List.map_cons, hfixed, if_true, bestFrom] at hshift ⊢
    rw [hshift, Option.map_map, Option.map_map]
    rfl
  cases selector with
  | inputOrder => simp [select, List.findIdx?_cons, hfixed]
  | _ => exact hbest _ _

/-- A selector that starts behind fixed views selects what it would select from all of
them. -/
theorem select_drop (selector : Selector) {start : Nat}
    (hfixed : ∀ (i : Nat) (view : AnyView), i < start → views[i]? = some view →
      view.isFixed s = true) :
    selector.select s views = (selector.select s (views.drop start)).map (start + ·) := by
  induction start generalizing views with
  | zero => simp
  | succ start ih =>
      cases views with
      | nil => cases selector <;> rfl
      | cons view rest =>
          rw [selector.select_cons_of_fixed (hfixed 0 view (Nat.succ_pos _) rfl),
            ih fun i view' hi hview' => hfixed (i + 1) view' (Nat.succ_lt_succ hi) hview',
            List.drop_succ_cons, Option.map_map]
          congr 1
          funext i
          simp only [Function.comp_apply]
          omega

/-! ## What each selector picks -/

/-- No open view has a better measure than the one at the position. -/
def Unbeaten (better : α → α → Bool) (measure : AnyView → α) (s : Store)
    (views : List AnyView) (i : Nat) : Prop :=
  ∃ view, views[i]? = some view ∧ ∀ (j : Nat) (view' : AnyView), views[j]? = some view' →
    view'.isFixed s = false → better (measure view') (measure view) = false

/-- The one at the position is also better than all open views before it. -/
def Earliest (better : α → α → Bool) (measure : AnyView → α) (s : Store)
    (views : List AnyView) (i : Nat) : Prop :=
  Unbeaten better measure s views i ∧
    ∃ view, views[i]? = some view ∧
      ∀ (j : Nat) (view' : AnyView), j < i → views[j]? = some view' → view'.isFixed s = false →
        better (measure view) (measure view') = true

/-- The position is what the selector stands for: the first open view, or among all open
views the earliest one with the smallest lower or the largest upper bound, or one than
which none has a better size. -/
def Picks (selector : Selector) (s : Store) (views : List AnyView) (i : Nat) : Prop :=
  match selector with
  | inputOrder => ∀ (j : Nat) (view : AnyView), j < i → views[j]? = some view →
      view.isFixed s = true
  | firstFail => Unbeaten Double.lt (AnyView.size s) s views i
  | antiFirstFail => Unbeaten (fun x y => y.lt x) (AnyView.size s) s views i
  | smallest => Earliest (fun x y => decide (x < y)) (lowerOf s) s views i
  | largest => Earliest (fun x y => decide (y < x)) (upperOf s) s views i

theorem exists_of_best? {measure : AnyView → α}
    (hfound : best? better (measures s measure views) = some i) :
    ∃ view, views[i]? = some view ∧ view.isFixed s = false ∧
      bestFrom better 0 none (measures s measure views) = some (i, measure view) := by
  obtain ⟨⟨i', m⟩, hbest, rfl⟩ := Option.map_eq_some_iff.mp hfound
  rcases bestFrom_cases better (measures s measure views) 0 none with
    ⟨hnone, -, -⟩ | ⟨j, x, hsome, hplace⟩
  · simp [hbest] at hnone
  · obtain ⟨rfl, rfl⟩ : i' = j ∧ m = x := by simpa [hbest] using hsome
    obtain ⟨k, hk, rfl⟩ := hplace.resolve_left (by simp)
    simp only [measures, List.getElem?_map, Option.map_eq_some_iff] at hk
    obtain ⟨view, hview, hmeasure⟩ := hk
    split at hmeasure
    · simp at hmeasure
    next hopen =>
      obtain rfl := Option.some.inj hmeasure
      exact ⟨view, by simpa using hview, by simpa using hopen, hbest⟩

/-- What is selected is open. -/
theorem open_of_select {selector : Selector} (hselect : selector.select s views = some i) :
    ∃ view, views[i]? = some view ∧ view.isFixed s = false := by
  have hbest : ∀ {β : Type} {better : β → β → Bool} {measure : AnyView → β},
      best? better (measures s measure views) = some i →
        ∃ view, views[i]? = some view ∧ view.isFixed s = false := by
    intro β better measure hfound
    obtain ⟨view, hview, hopen, -⟩ := exists_of_best? hfound
    exact ⟨view, hview, hopen⟩
  cases selector with
  | inputOrder =>
      obtain ⟨hi, hopen, -⟩ := List.findIdx?_eq_some_iff_getElem.mp hselect
      exact ⟨views[i], List.getElem?_eq_getElem hi, by simpa using hopen⟩
  | firstFail => exact hbest hselect
  | antiFirstFail => exact hbest hselect
  | smallest => exact hbest hselect
  | largest => exact hbest hselect

theorem getElem?_measures {measure : AnyView → α} {j : Nat} (hview : views[j]? = some view)
    (hopen : view.isFixed s = false) :
    (measures s measure views)[j]? = some (some (measure view)) := by
  simp [measures, hview, hopen]

theorem unbeaten_of_best? {measure : AnyView → α} (hirrefl : ∀ x, better x x = false)
    (htrans : ∀ x y z, better x y = true → better y z = true → better x z = true)
    (hfound : best? better (measures s measure views) = some i) :
    Unbeaten better measure s views i := by
  obtain ⟨view, hview, -, hbest⟩ := exists_of_best? hfound
  exact ⟨view, hview, fun j view' hview' hopen =>
    bestFrom_unbeaten htrans hirrefl hbest _
      (List.mem_of_getElem? (getElem?_measures hview' hopen))⟩

theorem earliest_of_best? {measure : AnyView → α} (hirrefl : ∀ x, better x x = false)
    (htrans : ∀ x y z, better x y = true → better y z = true → better x z = true)
    (hsplit : ∀ x y z, better x z = true → better x y = true ∨ better y z = true)
    (hfound : best? better (measures s measure views) = some i) :
    Earliest better measure s views i := by
  obtain ⟨view, hview, -, hbest⟩ := exists_of_best? hfound
  refine ⟨unbeaten_of_best? hirrefl htrans hfound, view, hview, fun j view' hj hview' hopen => ?_⟩
  exact bestFrom_first htrans hsplit (by simp) hbest (getElem?_measures hview' hopen)
    (by omega)

theorem picks_of_select {selector : Selector} (hselect : selector.select s views = some i) :
    selector.Picks s views i := by
  have hdouble : ∀ x y z : Double, x.lt y = true → y.lt z = true → x.lt z = true := by
    intro x y z hxy hyz
    rw [Double.lt_iff] at hxy hyz ⊢
    exact ⟨hxy.1, hyz.2.1, hxy.2.2.trans hyz.2.2⟩
  have hself : ∀ x : Double, x.lt x = false := by
    intro x
    rw [← Bool.not_eq_true, Double.lt_iff]
    exact fun hless => absurd hless.2.2 (lt_irrefl _)
  cases selector with
  | inputOrder =>
      obtain ⟨hi, -, hbefore⟩ := List.findIdx?_eq_some_iff_getElem.mp hselect
      intro j view hj hview
      obtain ⟨hlt, rfl⟩ := List.getElem?_eq_some_iff.mp hview
      simpa using hbefore j hj
  | firstFail => exact unbeaten_of_best? hself hdouble hselect
  | antiFirstFail =>
      change Unbeaten (fun x y : Double => y.lt x) _ s views i
      exact unbeaten_of_best? hself (fun x y z hyx hzy => hdouble z y x hzy hyx) hselect
  | smallest =>
      refine earliest_of_best? (by simp) (fun x y z => ?_) (fun x y z => ?_) hselect
      · simp only [decide_eq_true_eq]
        omega
      · simp only [decide_eq_true_eq]
        omega
  | largest =>
      refine earliest_of_best? (by simp) (fun x y z => ?_)
        (fun x y z => ?_) hselect
      · simp only [decide_eq_true_eq]
        omega
      · simp only [decide_eq_true_eq]
        omega

end Selector

end ConstraintSpace
