import ConstraintSpace.Domain.Creation
import ConstraintSpace.Proofs.Domain.FloatInterval
import ConstraintSpace.Proofs.Domain.IntegerMembers
import ConstraintSpace.Proofs.Domain.SetFamily

/-!
# Domains of new variables

A domain that passes the checks of creation is valid, lies within the limits of
its kind, and has exactly the members that were asked for.
-/

namespace ConstraintSpace

theorem Limits.of_checkAll_ok {check : Int → Except SpaceError Unit}
    {values : List Int} (hok : Limits.checkAll check values = .ok ()) :
    ∀ x ∈ values, check x = .ok () := by
  induction values with
  | nil => simp
  | cons x rest ih =>
      unfold Limits.checkAll at hok
      split at hok
      next hcheck =>
        intro y hy
        rcases List.mem_cons.mp hy with rfl | hy
        · exact hcheck
        · exact ih hok y hy
      next => simp at hok

theorem Limits.checkAll_eq_ok {check : Int → Except SpaceError Unit}
    {values : List Int} (hall : ∀ x ∈ values, check x = .ok ()) :
    Limits.checkAll check values = .ok () := by
  induction values with
  | nil => rfl
  | cons x rest ih =>
      simp only [Limits.checkAll, hall x (by simp)]
      exact ih fun y hy => hall y (List.mem_cons_of_mem _ hy)

theorem Limits.checkInteger_eq_ok_iff {x : Int} :
    Limits.checkInteger x = .ok () ↔
      Limits.integerMin ≤ x ∧ x ≤ Limits.integerMax := by
  unfold Limits.checkInteger
  split
  next h => simp [h]
  next h => simpa using h

namespace IntDomain

/-- The bounds lie within the limits of integer variables. -/
def InLimits (d : IntDomain) : Prop :=
  Limits.integerMin ≤ d.lower ∧ d.upper ≤ Limits.integerMax

theorem of_ofBounds_eq_ok {lower upper : Int} {d : IntDomain}
    (hok : ofBounds lower upper = .ok d) :
    d.Valid ∧ d.InLimits ∧ ∀ x, x ∈ d ↔ lower ≤ x ∧ x ≤ upper := by
  unfold ofBounds at hok
  cases hlower : Limits.checkInteger lower with
  | error e => simp [hlower, bind, Except.bind] at hok
  | ok =>
      cases hupper : Limits.checkInteger upper with
      | error e => simp [hlower, hupper, bind, Except.bind] at hok
      | ok =>
          simp only [hlower, hupper, bind, Except.bind] at hok
          split at hok
          next => simp at hok
          next horder =>
            simp only [Except.ok.injEq] at hok
            subst hok
            exact ⟨valid_interval (by omega),
              ⟨(Limits.checkInteger_eq_ok_iff.mp hlower).1,
                (Limits.checkInteger_eq_ok_iff.mp hupper).2⟩,
              fun x => mem_interval⟩

theorem spread_gaps {x : Int} {rest : List Int}
    (hascends : (x :: rest).Pairwise (· < ·)) {above : Int}
    (habove : ∀ y ∈ x :: rest, y ≤ above) :
    Hole.Spread x above (gaps (x :: rest)) := by
  induction rest generalizing x with
  | nil => trivial
  | cons y rest ih =>
      obtain ⟨hlow, htail⟩ := List.pairwise_cons.mp hascends
      have hlt := hlow y (by simp)
      have hle := habove y (by simp)
      have hrest := ih htail fun z hz => habove z (List.mem_cons_of_mem _ hz)
      unfold gaps
      split
      next =>
        refine ⟨by simp only; omega, by simp only; omega, by simp only; omega, ?_⟩
        simpa using hrest
      next => exact hrest.mono_below hlt.le

theorem covered_gaps {x z : Int} {rest : List Int}
    (hascends : (x :: rest).Pairwise (· < ·)) :
    Hole.Covered (gaps (x :: rest)) z ↔
      x < z ∧ (∃ y ∈ rest, z < y) ∧ z ∉ rest := by
  induction rest generalizing x with
  | nil => simp [gaps]
  | cons y rest ih =>
      obtain ⟨hlow, htail⟩ := List.pairwise_cons.mp hascends
      have hlt := hlow y (by simp)
      have hlater := (List.pairwise_cons.mp htail).1
      have hrest := ih htail
      unfold gaps
      split
      next =>
        rw [Hole.covered_cons, hrest]
        simp only [List.mem_cons, exists_eq_or_imp, not_or]
        grind
      next =>
        rw [hrest]
        simp only [List.mem_cons, exists_eq_or_imp, not_or]
        grind

theorem of_ofAscending?_eq_some {values : List Int} {d : IntDomain}
    (hascends : values.Pairwise (· < ·))
    (hsome : ofAscending? values = some d) :
    d.Valid ∧ ∀ x, x ∈ d ↔ x ∈ values := by
  cases values with
  | nil => simp [ofAscending?] at hsome
  | cons x rest =>
      obtain ⟨last, hlast⟩ : ∃ last, (x :: rest).getLast? = some last :=
        ⟨_, List.getLast?_eq_some_getLast (by simp)⟩
      have hmem : last ∈ x :: rest := List.mem_of_getLast? hlast
      have habove : ∀ y ∈ x :: rest, y ≤ last := by
        obtain ⟨init, hinit⟩ := List.getLast?_eq_some_iff.mp hlast
        rw [hinit] at hascends ⊢
        intro y hy
        rcases List.mem_append.mp hy with hy | hy
        · exact le_of_lt ((List.pairwise_append.mp hascends).2.2 y hy last (by simp))
        · simp only [List.mem_singleton] at hy
          exact hy.le
      have hlow := (List.pairwise_cons.mp hascends).1
      simp only [ofAscending?, List.head?_cons, hlast, Option.some.injEq] at hsome
      subst hsome
      refine ⟨⟨habove x (by simp), spread_gaps hascends habove, rfl⟩, fun z => ?_⟩
      simp only [mem_iff, covered_gaps hascends, List.mem_cons]
      constructor
      · rintro ⟨hge, hle, hfree⟩
        by_contra hout
        rw [not_or] at hout
        refine hfree ⟨by omega, ⟨last, ?_, ?_⟩, hout.2⟩
        · rcases List.mem_cons.mp hmem with rfl | hmem
          · omega
          · exact hmem
        · rcases List.mem_cons.mp hmem with rfl | hmem
          · omega
          · exact lt_of_le_of_ne hle fun heq => hout.2 (heq ▸ hmem)
      · rintro (rfl | hz)
        · exact ⟨le_refl _, habove _ (by simp), fun hcovered => by omega⟩
        · exact ⟨(hlow z hz).le, habove z (List.mem_cons_of_mem _ hz),
            fun hcovered => hcovered.2.2 hz⟩

theorem of_ofValues_eq_ok {values : List Int} {d : IntDomain}
    (hok : ofValues values = .ok d) :
    d.Valid ∧ d.InLimits ∧ ∀ x, x ∈ d ↔ x ∈ values := by
  unfold ofValues at hok
  cases hcheck : Limits.checkAll Limits.checkInteger (Ascending.ofList values) with
  | error e => simp [hcheck, bind, Except.bind] at hok
  | ok =>
      simp only [hcheck, bind, Except.bind] at hok
      split at hok
      next domain hsome =>
        simp only [Except.ok.injEq] at hok
        subst hok
        obtain ⟨hvalid, hmem⟩ :=
          of_ofAscending?_eq_some (Ascending.pairwise_ofList values) hsome
        have hlimits : ∀ x ∈ domain,
            Limits.integerMin ≤ x ∧ x ≤ Limits.integerMax := fun x hx =>
          Limits.checkInteger_eq_ok_iff.mp
            (Limits.of_checkAll_ok hcheck x ((hmem x).mp hx))
        refine ⟨hvalid, ⟨(hlimits _ hvalid.lower_mem).1,
          (hlimits _ hvalid.upper_mem).2⟩, fun x => ?_⟩
        rw [hmem x, Ascending.mem_ofList]
      next => simp at hok

/-- A list of values within the limits makes a domain. -/
theorem exists_ofValues {values : List Int} (hsome : values ≠ [])
    (hlimits : ∀ x ∈ values, Limits.integerMin ≤ x ∧ x ≤ Limits.integerMax) :
    ∃ d, ofValues values = .ok d := by
  have hcheck : Limits.checkAll Limits.checkInteger (Ascending.ofList values) = .ok () :=
    Limits.checkAll_eq_ok fun x hx => Limits.checkInteger_eq_ok_iff.mpr
      (hlimits x (Ascending.mem_ofList.mp hx))
  obtain ⟨x, hx⟩ := List.exists_mem_of_ne_nil values hsome
  cases hvalues : Ascending.ofList values with
  | nil => simp [← Ascending.mem_ofList, hvalues] at hx
  | cons first rest =>
      obtain ⟨last, hlast⟩ : ∃ last, (first :: rest).getLast? = some last :=
        ⟨_, List.getLast?_eq_some_getLast (by simp)⟩
      rw [hvalues] at hcheck
      refine ⟨⟨first, last, gaps (first :: rest),
        Hole.total (gaps (first :: rest))⟩, ?_⟩
      simp only [ofValues, hvalues, hcheck, bind, Except.bind, ofAscending?,
        List.head?_cons, hlast]

end IntDomain

namespace FloatDomain

theorem valid_of_ofBounds_eq_ok {lower upper : Double} {d : FloatDomain}
    (hok : ofBounds lower upper = .ok d) : d.Valid := by
  have hnumber : ∀ x : Double, Limits.checkFloat x = .ok () → x.isNaN = false := by
    intro x hx
    unfold Limits.checkFloat at hx
    split at hx
    next hfinite =>
      simp only [Double.isFinite, Double.isNaN, decide_eq_true_eq,
        decide_eq_false_iff_not] at hfinite ⊢
      omega
    next => simp at hx
  unfold ofBounds at hok
  cases hlower : Limits.checkFloat lower with
  | error e => simp [hlower, bind, Except.bind] at hok
  | ok =>
      cases hupper : Limits.checkFloat upper with
      | error e => simp [hlower, hupper, bind, Except.bind] at hok
      | ok =>
          simp only [hlower, hupper, bind, Except.bind] at hok
          split at hok
          next => simp at hok
          next horder =>
            simp only [Except.ok.injEq] at hok
            subst hok
            refine ⟨hnumber _ hlower, hnumber _ hupper, ?_⟩
            simpa [Double.lt_iff, hnumber _ hlower, hnumber _ hupper] using horder

end FloatDomain

namespace SetDomain

theorem of_create {glb lub : List Int} {cardLower cardUpper : Nat}
    (hglb : glb.Pairwise (· < ·)) (hlub : lub.Pairwise (· < ·))
    (hsubset : glb ⊆ lub)
    (horder : max cardLower glb.length ≤ min cardUpper lub.length) :
    (create glb lub cardLower cardUpper).Valid ∧
      ∀ s : Finset Int, s ∈ create glb lub cardLower cardUpper ↔
        (∀ x ∈ glb, x ∈ s) ∧ (∀ x ∈ s, x ∈ lub) ∧
          cardLower ≤ s.card ∧ s.card ≤ cardUpper := by
  have hspanned : ({
      glb, lub
      cardLower := max cardLower glb.length
      cardUpper := min cardUpper lub.length } : SetDomain).Spanned :=
    ⟨hglb, hlub, hsubset, le_max_right _ _, horder, min_le_right _ _⟩
  obtain ⟨hvalid, _, hmem, _⟩ := hspanned.collapsed .empty
  refine ⟨hvalid, fun s => (hmem s).trans ?_⟩
  rw [mem_iff]
  constructor
  · rintro ⟨hlow, hhigh, hle, hge⟩
    exact ⟨hlow, hhigh, le_trans (le_max_left _ _) hle,
      le_trans hge (min_le_left _ _)⟩
  · rintro ⟨hlow, hhigh, hle, hge⟩
    have hcardLow := Finset.card_le_card (t := s)
      (fun x hx => hlow x (List.mem_toFinset.mp hx))
    have hcardHigh := Finset.card_le_card (s := s)
      (fun x hx => List.mem_toFinset.mpr (hhigh x hx))
    rw [card_toFinset_of_ascends hglb] at hcardLow
    rw [card_toFinset_of_ascends hlub] at hcardHigh
    exact ⟨hlow, hhigh, max_le hle hcardLow, le_min hge hcardHigh⟩

theorem create_clamped (glb lub : List Int) (cardLower cardUpper : Nat) :
    create glb lub (max cardLower glb.length) (min cardUpper lub.length) =
      create glb lub cardLower cardUpper := by
  simp [create]

theorem of_ofBounds_eq_ok {glb lub : List Int} {cardLower cardUpper : Nat}
    {d : SetDomain} (hok : ofBounds glb lub cardLower cardUpper = .ok d) :
    d.Valid ∧ ∀ s : Finset Int, s ∈ d ↔
      (∀ x ∈ glb, x ∈ s) ∧ (∀ x ∈ s, x ∈ lub) ∧
        cardLower ≤ s.card ∧ s.card ≤ cardUpper := by
  unfold ofBounds at hok
  cases hcheck : Limits.checkAll Limits.checkElement
      (Ascending.ofList glb ++ Ascending.ofList lub) with
  | error e => simp [hcheck, bind, Except.bind] at hok
  | ok =>
      simp only [hcheck, bind, Except.bind] at hok
      split at hok
      next => simp at hok
      next hsubset =>
        split at hok
        next => simp at hok
        next horder =>
          simp only [Except.ok.injEq] at hok
          subst hok
          have hsubset' : Ascending.ofList glb ⊆ Ascending.ofList lub := by
            intro x hx
            simp only [Bool.not_eq_true', Bool.not_eq_false, List.all_eq_true,
              List.contains_eq_mem, decide_eq_true_eq] at hsubset
            exact hsubset x hx
          rw [create_clamped]
          obtain ⟨hvalid, hmem⟩ := of_create (Ascending.pairwise_ofList glb)
            (Ascending.pairwise_ofList lub) hsubset' (not_lt.mp horder)
          refine ⟨hvalid, fun s => (hmem s).trans ?_⟩
          simp only [Ascending.mem_ofList]

end SetDomain

end ConstraintSpace
