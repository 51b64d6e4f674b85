import ConstraintSpace.Domain.Creation
import ConstraintSpace.Proofs.Domain.SetFamily

/-!
# Narrowing set domains

Requiring or forbidding an element and bounding the number of elements keep
exactly the sets of the family that comply, and the events they raise say
exactly what changed.
-/

namespace ConstraintSpace

namespace Ascending

theorem length_insert {x : Int} {xs : List Int} (hx : x ∉ xs) :
    (insert x xs).length = xs.length + 1 := by
  induction xs with
  | nil => rfl
  | cons y rest ih =>
      rw [List.mem_cons, not_or] at hx
      unfold insert
      split
      · rfl
      · rw [if_neg hx.1, List.length_cons, ih hx.2, List.length_cons]

end Ascending

namespace SetDomain

theorem Shrinks.antisymm {d d' : SetDomain}
    (hshrinks : d.Shrinks d') (hback : d'.Shrinks d)
    (hspanned : d.Spanned) (hspanned' : d'.Spanned) : d = d' := by
  have hglb : d.glb = d'.glb :=
    Ascending.eq_of_mem_iff hspanned.glb_ascends hspanned'.glb_ascends
      fun x => ⟨fun hx => hshrinks.glb_subset hx, fun hx => hback.glb_subset hx⟩
  have hlub : d.lub = d'.lub :=
    Ascending.eq_of_mem_iff hspanned.lub_ascends hspanned'.lub_ascends
      fun x => ⟨fun hx => hback.lub_subset hx, fun hx => hshrinks.lub_subset hx⟩
  have hlower := le_antisymm hshrinks.cardLower_le hback.cardLower_le
  have hupper := le_antisymm hback.cardUpper_le hshrinks.cardUpper_le
  cases d
  cases d'
  simp_all

/-- A fixed domain has no tighter one. -/
theorem Shrinks.eq_of_isFixed {d d' : SetDomain}
    (hshrinks : d.Shrinks d') (hspanned : d.Spanned) (hspanned' : d'.Spanned)
    (hfixed : d.isFixed = true) : d' = d := by
  have hglb := hspanned.glb_eq_lub_of_isFixed hfixed
  have hlengths := isFixed_iff.mp hfixed
  have hback : d'.Shrinks d := by
    refine ⟨fun x hx => ?_, fun x hx => ?_, ?_, ?_⟩
    · rw [hglb]
      exact hshrinks.lub_subset (hspanned'.glb_subset hx)
    · rw [← hglb] at hx
      exact hspanned'.glb_subset (hshrinks.glb_subset hx)
    · have := hspanned'.cardLower_le
      have := hshrinks.cardUpper_le
      have := hspanned.le_lub
      have := hspanned.glb_le
      omega
    · have := hspanned'.cardLower_le
      have := hshrinks.cardLower_le
      have := hspanned.le_lub
      have := hspanned.glb_le
      omega
  exact hback.antisymm hshrinks hspanned' hspanned

/-- The narrowing keeps exactly the members that satisfy `keep`, says what
changed, and gives no domain only when no member is kept. -/
def Restricts (op : SetDomain → Option (SetDomain × EventSet))
    (keep : Finset Int → Prop) : Prop :=
  ∀ d : SetDomain, d.Valid →
    (op d = none ∧ ∀ s : Finset Int, s ∈ d → ¬keep s) ∨
      ∃ d', op d = some (d', d.eventsTo d') ∧ d'.Valid ∧ d.Shrinks d' ∧
        ∀ s : Finset Int, s ∈ d' ↔ s ∈ d ∧ keep s

theorem restricts_of_kept {d : SetDomain} {keep : Finset Int → Prop}
    (hvalid : d.Valid) (hkept : ∀ s : Finset Int, s ∈ d → keep s) :
    ∃ d', some (d, EventSet.empty) = some (d', d.eventsTo d') ∧ d'.Valid ∧
      d.Shrinks d' ∧ ∀ s : Finset Int, s ∈ d' ↔ s ∈ d ∧ keep s :=
  ⟨d, by simp, hvalid, Shrinks.refl d,
    fun s => ⟨fun hs => ⟨hs, hkept s hs⟩, And.left⟩⟩

/-- Tightening one component and collapsing the result is a narrowing. -/
theorem Valid.restricts_of_collapse {d d₁ : SetDomain} {events : EventSet}
    {keep : Finset Int → Prop} (hvalid : d.Valid) (hspanned : d₁.Spanned)
    (hshrinks : d.Shrinks d₁) (hne : d₁ ≠ d)
    (hmem : ∀ s : Finset Int, s ∈ d₁ ↔ s ∈ d ∧ keep s)
    (hlower : events.lowerBound = decide (d₁.glb ≠ d.glb))
    (hupper : events.upperBound = decide (d₁.lub ≠ d.lub))
    (hassign : events.assign = false) (hremoval : events.removal = true) :
    ∃ d', some (d₁.collapse events) = some (d', d.eventsTo d') ∧ d'.Valid ∧
      d.Shrinks d' ∧ ∀ s : Finset Int, s ∈ d' ↔ s ∈ d ∧ keep s := by
  obtain ⟨hvalid', htighter, hsame, hevents⟩ := hspanned.collapsed events
  have hchain := hshrinks.trans htighter
  refine ⟨(d₁.collapse events).1, ?_, hvalid', hchain,
    fun s => (hsame s).trans (hmem s)⟩
  have hglb : (d₁.collapse events).1.glb = d.glb →
      d₁.glb = d.glb ∧ (d₁.collapse events).1.glb = d₁.glb := fun heq => by
    have hglb₁ : d₁.glb = d.glb :=
      Ascending.eq_of_mem_iff hspanned.glb_ascends hvalid.glb_ascends fun x =>
        ⟨fun hx => heq ▸ htighter.glb_subset hx, fun hx => hshrinks.glb_subset hx⟩
    exact ⟨hglb₁, heq.trans hglb₁.symm⟩
  have hlub : (d₁.collapse events).1.lub = d.lub →
      d₁.lub = d.lub ∧ (d₁.collapse events).1.lub = d₁.lub := fun heq => by
    have hlub₁ : d₁.lub = d.lub :=
      Ascending.eq_of_mem_iff hspanned.lub_ascends hvalid.lub_ascends fun x =>
        ⟨fun hx => hshrinks.lub_subset hx, fun hx => htighter.lub_subset (heq ▸ hx)⟩
    exact ⟨hlub₁, heq.trans hlub₁.symm⟩
  have hchanged : (d₁.collapse events).1 ≠ d := fun heq => hne <| by
    rw [heq] at htighter
    exact htighter.antisymm hshrinks hspanned hvalid.toSpanned
  have hopen : d.isFixed = false := by
    rw [Bool.eq_false_iff]
    exact fun hfixed =>
      hchanged (hchain.eq_of_isFixed hvalid.toSpanned hvalid'.toSpanned hfixed)
  refine congrArg some (Prod.ext rfl ?_)
  rw [hevents, eventsTo, hassign, hremoval, hlower, hupper]
  simp only [hopen, EventSet.mk.injEq, Bool.false_or, Bool.not_false, Bool.true_and,
    true_and]
  refine ⟨?_, ?_, (decide_eq_true hchanged).symm⟩
  · rw [← Bool.decide_or, decide_eq_decide]
    exact ⟨fun hor heq => hor.elim (absurd (hglb heq).1) (absurd (hglb heq).2),
      fun hne => not_and_or.mp fun hboth => hne (hboth.2.trans hboth.1)⟩
  · rw [← Bool.decide_or, decide_eq_decide]
    exact ⟨fun hor heq => hor.elim (absurd (hlub heq).1) (absurd (hlub heq).2),
      fun hne => not_and_or.mp fun hboth => hne (hboth.2.trans hboth.1)⟩

/-! ## The four narrowings -/

theorem length_glb_lt_of_mem {d : SetDomain} (hvalid : d.Valid)
    {value : Int} {s : Finset Int} (hs : s ∈ d) (hvalue : value ∈ s)
    (hnew : value ∉ d.glb) : d.glb.length + 1 ≤ s.card := by
  have hsubset : insert value d.glb.toFinset ⊆ s :=
    Finset.insert_subset hvalue (toFinset_subset_of_mem hs)
  have hcard := Finset.card_le_card hsubset
  rwa [Finset.card_insert_of_notMem (by simpa using hnew),
    card_toFinset_of_ascends hvalid.glb_ascends] at hcard

/-- The domain with one more required element, before it collapses. -/
theorem Valid.spanned_insert {d : SetDomain} (hvalid : d.Valid) {value : Int}
    (hlub : value ∈ d.lub) (hnew : value ∉ d.glb) (hroom : d.glb.length + 1 ≤ d.cardUpper) :
    Spanned { d with
      glb := Ascending.insert value d.glb
      cardLower := max d.cardLower (Ascending.insert value d.glb).length } where
  glb_ascends := Ascending.pairwise_insert hvalid.glb_ascends
  lub_ascends := hvalid.lub_ascends
  glb_subset := by
    intro x hx
    rcases Ascending.mem_insert.mp hx with rfl | hx
    · exact hlub
    · exact hvalid.glb_subset hx
  glb_le := le_max_right _ _
  cardLower_le := by
    rw [Ascending.length_insert hnew]
    exact max_le hvalid.cardLower_le hroom
  le_lub := hvalid.le_lub

theorem Valid.mem_insert_glb {d : SetDomain} (hvalid : d.Valid) {value : Int}
    (hnew : value ∉ d.glb) {s : Finset Int} :
    s ∈ { d with
      glb := Ascending.insert value d.glb
      cardLower := max d.cardLower (Ascending.insert value d.glb).length } ↔
        s ∈ d ∧ value ∈ s := by
  simp only [mem_iff, Ascending.length_insert hnew, Ascending.mem_insert]
  constructor
  · rintro ⟨hall, hsub, hlow, hhigh⟩
    exact ⟨⟨fun x hx => hall x (Or.inr hx), hsub, by omega, hhigh⟩, hall value (Or.inl rfl)⟩
  · rintro ⟨hs, hvalue⟩
    have hcard := length_glb_lt_of_mem hvalid hs hvalue hnew
    refine ⟨?_, hs.2.1, max_le hs.2.2.1 hcard, hs.2.2.2⟩
    rintro x (rfl | hx)
    · exact hvalue
    · exact hs.1 x hx

theorem require_restricts (value : Int) :
    Restricts (require value) (fun s => value ∈ s) := by
  intro d hvalid
  unfold require
  split
  next hin =>
    have hmem : value ∈ d.glb := by simpa using hin
    exact Or.inr (restricts_of_kept hvalid fun s hs => hs.1 value hmem)
  next hin =>
    have hnew : value ∉ d.glb := by simpa using hin
    split
    next hrefuse =>
      refine Or.inl ⟨rfl, fun s hs hvalue => ?_⟩
      have hlub := hs.2.1 value hvalue
      have hlength := length_glb_lt_of_mem hvalid hs hvalue hnew
      have hcard := hs.2.2.2
      simp only [Bool.or_eq_true, Bool.not_eq_true', List.contains_eq_mem,
        decide_eq_false_iff_not, decide_eq_true_eq] at hrefuse
      rcases hrefuse with hout | hfull
      · exact hout hlub
      · omega
    next haccept =>
      simp only [Bool.or_eq_true, Bool.not_eq_true', List.contains_eq_mem,
        decide_eq_false_iff_not, decide_eq_true_eq, not_or, not_not,
        not_lt] at haccept
      obtain ⟨hlub, hroom⟩ := haccept
      have hlength := Ascending.length_insert hnew
      have hglb : d.glb ⊆ Ascending.insert value d.glb := fun x hx =>
        Ascending.mem_insert.mpr (Or.inr hx)
      have hchanged : Ascending.insert value d.glb ≠ d.glb := fun heq => by
        rw [heq] at hlength
        omega
      exact Or.inr (hvalid.restricts_of_collapse (hvalid.spanned_insert hlub hnew hroom)
        ⟨hglb, fun _ hx => hx, le_max_left _ _, le_refl _⟩
        (fun heq => hchanged (congrArg glb heq)) (fun _ => hvalid.mem_insert_glb hnew)
        (decide_eq_true hchanged).symm (by simp [EventSet.empty]) rfl rfl)

theorem card_lt_length_lub_of_mem {d : SetDomain} (hvalid : d.Valid)
    {value : Int} {s : Finset Int} (hs : s ∈ d) (hvalue : value ∉ s)
    (hold : value ∈ d.lub) : s.card + 1 ≤ d.lub.length := by
  have hsubset : insert value s ⊆ d.lub.toFinset :=
    Finset.insert_subset (by simpa using hold) (subset_toFinset_of_mem hs)
  have hcard := Finset.card_le_card hsubset
  rwa [Finset.card_insert_of_notMem hvalue,
    card_toFinset_of_ascends hvalid.lub_ascends] at hcard

theorem length_filter_ne {value : Int} {xs : List Int}
    (hxs : xs.Pairwise (· < ·)) (hvalue : value ∈ xs) :
    (xs.filter (· ≠ value)).length + 1 = xs.length := by
  have herase : xs.filter (· ≠ value) = xs.erase value := by
    rw [(nodup_of_ascends hxs).erase_eq_filter]
    exact List.filter_congr fun x _ => by
      rw [Bool.eq_iff_iff]
      simp
  rw [herase, List.length_erase_of_mem hvalue]
  have := List.length_pos_of_mem hvalue
  omega

/-- The domain with one possible element less, before it collapses. -/
theorem Valid.spanned_filter {d : SetDomain} (hvalid : d.Valid) {value : Int}
    (hold : value ∈ d.lub) (hglb : value ∉ d.glb) (hroom : d.cardLower + 1 ≤ d.lub.length) :
    Spanned { d with
      lub := d.lub.filter (· ≠ value)
      cardUpper := min d.cardUpper (d.lub.filter (· ≠ value)).length } where
  glb_ascends := hvalid.glb_ascends
  lub_ascends := hvalid.lub_ascends.filter _
  glb_subset := by
    intro x hx
    have hne : x ≠ value := fun heq => hglb (heq ▸ hx)
    exact List.mem_filter.mpr ⟨hvalid.glb_subset hx, by simpa using hne⟩
  glb_le := hvalid.glb_le
  cardLower_le := by
    have hlength := length_filter_ne hvalid.lub_ascends hold
    have hshort : d.cardLower ≤ (d.lub.filter (· ≠ value)).length := by omega
    exact le_min hvalid.cardLower_le hshort
  le_lub := min_le_right _ _

theorem Valid.mem_filter_lub {d : SetDomain} (hvalid : d.Valid) {value : Int}
    (hold : value ∈ d.lub) {s : Finset Int} :
    s ∈ { d with
      lub := d.lub.filter (· ≠ value)
      cardUpper := min d.cardUpper (d.lub.filter (· ≠ value)).length } ↔
        s ∈ d ∧ value ∉ s := by
  have hlength := length_filter_ne hvalid.lub_ascends hold
  simp only [mem_iff, List.mem_filter, decide_eq_true_eq]
  constructor
  · rintro ⟨hall, hsub, hlow, hhigh⟩
    exact ⟨⟨hall, fun x hx => (hsub x hx).1, hlow, by omega⟩,
      fun hvalue => (hsub value hvalue).2 rfl⟩
  · rintro ⟨hs, hvalue⟩
    have hcard := card_lt_length_lub_of_mem hvalid hs hvalue hold
    refine ⟨hs.1, fun x hx => ⟨hs.2.1 x hx, ?_⟩, hs.2.2.1, le_min hs.2.2.2 (by omega)⟩
    rintro rfl
    exact hvalue hx

theorem forbid_restricts (value : Int) :
    Restricts (forbid value) (fun s => value ∉ s) := by
  intro d hvalid
  unfold forbid
  split
  next hout =>
    have hnot : value ∉ d.lub := by simpa using hout
    exact Or.inr (restricts_of_kept hvalid fun s hs hvalue =>
      hnot (hs.2.1 value hvalue))
  next hin =>
    have hold : value ∈ d.lub := by simpa using hin
    split
    next hrefuse =>
      refine Or.inl ⟨rfl, fun s hs hvalue => ?_⟩
      have hlength := card_lt_length_lub_of_mem hvalid hs hvalue hold
      have hcard := hs.2.2.1
      simp only [Bool.or_eq_true, List.contains_eq_mem, decide_eq_true_eq]
        at hrefuse
      rcases hrefuse with hglb | hshort
      · exact hvalue (hs.1 value hglb)
      · omega
    next haccept =>
      simp only [Bool.or_eq_true, List.contains_eq_mem, decide_eq_true_eq,
        not_or, not_lt] at haccept
      obtain ⟨hglb, hroom⟩ := haccept
      have hlength := length_filter_ne hvalid.lub_ascends hold
      have hchanged : d.lub.filter (· ≠ value) ≠ d.lub := fun heq => by
        rw [heq] at hlength
        omega
      exact Or.inr (hvalid.restricts_of_collapse (hvalid.spanned_filter hold hglb hroom)
        ⟨fun _ hx => hx, fun _ hx => (List.mem_filter.mp hx).1, le_refl _, min_le_left _ _⟩
        (fun heq => hchanged (congrArg lub heq)) (fun _ => hvalid.mem_filter_lub hold)
        (by simp [EventSet.empty]) (decide_eq_true hchanged).symm rfl rfl)

theorem setCardLower_restricts (count : Nat) :
    Restricts (setCardLower count) (fun s => count ≤ s.card) := by
  intro d hvalid
  unfold setCardLower
  split
  next hle =>
    exact Or.inr (restricts_of_kept hvalid fun s hs => le_trans hle hs.2.2.1)
  next hgt =>
    split
    next hrefuse =>
      refine Or.inl ⟨rfl, fun s hs hcount => ?_⟩
      have := hs.2.2.2
      omega
    next haccept =>
      have hbelow := hvalid.glb_le
      refine Or.inr (hvalid.restricts_of_collapse
        ⟨hvalid.glb_ascends, hvalid.lub_ascends, hvalid.glb_subset,
          ?_, ?_, hvalid.le_lub⟩
        ⟨fun _ hx => hx, fun _ hx => hx, ?_, le_refl _⟩
        (fun heq => ?_) ?_ (by simp [EventSet.empty]) (by simp [EventSet.empty])
        rfl rfl)
      · simp only
        omega
      · simp only
        omega
      · simp only
        omega
      · have := congrArg cardLower heq
        simp only at this
        omega
      · intro s
        simp only [mem_iff]
        grind

theorem setCardUpper_restricts (count : Nat) :
    Restricts (setCardUpper count) (fun s => s.card ≤ count) := by
  intro d hvalid
  unfold setCardUpper
  split
  next hle =>
    exact Or.inr (restricts_of_kept hvalid fun s hs => le_trans hs.2.2.2 hle)
  next hgt =>
    split
    next hrefuse =>
      refine Or.inl ⟨rfl, fun s hs hcount => ?_⟩
      have := hs.2.2.1
      omega
    next haccept =>
      have habove := hvalid.le_lub
      refine Or.inr (hvalid.restricts_of_collapse
        ⟨hvalid.glb_ascends, hvalid.lub_ascends, hvalid.glb_subset,
          hvalid.glb_le, ?_, ?_⟩
        ⟨fun _ hx => hx, fun _ hx => hx, le_refl _, ?_⟩
        (fun heq => ?_) ?_ (by simp [EventSet.empty]) (by simp [EventSet.empty])
        rfl rfl)
      · simp only
        omega
      · simp only
        omega
      · simp only
        omega
      · have := congrArg cardUpper heq
        simp only at this
        omega
      · intro s
        simp only [mem_iff]
        grind

/-! ## Undecided elements -/

theorem mem_unknown {d : SetDomain} {x : Int} :
    x ∈ d.unknown ↔ x ∈ d.lub ∧ x ∉ d.glb := by
  simp [unknown]

theorem Valid.unknown_ne_nil {d : SetDomain} (hvalid : d.Valid)
    (hopen : d.isFixed = false) : d.unknown ≠ [] := by
  intro hnil
  have hsubset : d.lub ⊆ d.glb := by
    intro x hx
    by_contra hnew
    have := mem_unknown.mpr ⟨hx, hnew⟩
    simp [hnil] at this
  have hle := length_le_of_subset hvalid.lub_ascends hsubset
  have hge := length_le_of_subset hvalid.glb_ascends hvalid.glb_subset
  simp only [isFixed, decide_eq_false_iff_not] at hopen
  omega

/-! ## Members of a family -/

theorem Shrinks.mem {d d' : SetDomain} (hshrinks : d.Shrinks d')
    {s : Finset Int} (hs : s ∈ d') : s ∈ d := by
  obtain ⟨hglb, hlub, hlower, hupper⟩ := hs
  exact ⟨fun e he => hglb e (hshrinks.glb_subset he),
    fun e he => hshrinks.lub_subset (hlub e he),
    le_trans hshrinks.cardLower_le hlower, le_trans hupper hshrinks.cardUpper_le⟩

/-- Between two element sets there is a member of every admitted size. -/
theorem exists_mem_between (d : SetDomain) (low high : Finset Int) (count : Nat)
    (hlow : ∀ x ∈ d.glb, x ∈ low) (hhigh : ∀ x ∈ high, x ∈ d.lub)
    (hsubset : low ⊆ high) (hle : low.card ≤ count) (hge : count ≤ high.card)
    (hlower : d.cardLower ≤ count) (hupper : count ≤ d.cardUpper) :
    ∃ s : Finset Int, s ∈ d ∧ low ⊆ s ∧ s ⊆ high ∧ s.card = count := by
  obtain ⟨s, hlow', hhigh', hcard⟩ :=
    Finset.exists_subsuperset_card_eq hsubset hle hge
  exact ⟨s, ⟨fun x hx => hlow' (hlow x hx), fun x hx => hhigh x (hhigh' hx),
    by omega, by omega⟩, hlow', hhigh', hcard⟩

theorem Valid.exists_mem_of_card {d : SetDomain} (hvalid : d.Valid) {count : Nat}
    (hlower : d.cardLower ≤ count) (hupper : count ≤ d.cardUpper) :
    ∃ s : Finset Int, s ∈ d ∧ s.card = count := by
  have hglb := card_toFinset_of_ascends hvalid.glb_ascends
  have hlub := card_toFinset_of_ascends hvalid.lub_ascends
  have hlow := hvalid.glb_le
  have hhigh := hvalid.le_lub
  obtain ⟨s, hs, -, -, hcard⟩ := exists_mem_between d d.glb.toFinset d.lub.toFinset count
    (fun x hx => List.mem_toFinset.mpr hx) (fun x hx => List.mem_toFinset.mp hx)
    (fun x hx => List.mem_toFinset.mpr (hvalid.glb_subset (List.mem_toFinset.mp hx)))
    (by omega) (by omega) hlower hupper
  exact ⟨s, hs, hcard⟩

theorem Valid.exists_mem {d : SetDomain} (hvalid : d.Valid) :
    ∃ s : Finset Int, s ∈ d := by
  obtain ⟨s, hs, -⟩ := hvalid.exists_mem_of_card (le_refl _) hvalid.cardLower_le
  exact ⟨s, hs⟩

/-- An element that is not required is missing in some member. -/
theorem Valid.exists_mem_without {d : SetDomain} (hvalid : d.Valid) {x : Int}
    (hx : x ∉ d.glb) : ∃ s : Finset Int, s ∈ d ∧ x ∉ s := by
  by_cases hlub : x ∈ d.lub
  · have hopen : d.glb.length ≠ d.lub.length := fun heq => by
      rw [hvalid.glb_eq_lub_of_isFixed (isFixed_iff.mpr heq)] at hx
      exact hx hlub
    have hsettled := (hvalid.settled hopen).2
    have hcard : (d.lub.toFinset.erase x).card + 1 = d.lub.length := by
      rw [Finset.card_erase_add_one (List.mem_toFinset.mpr hlub),
        card_toFinset_of_ascends hvalid.lub_ascends]
    have hglb := card_toFinset_of_ascends hvalid.glb_ascends
    have hlow := hvalid.glb_le
    obtain ⟨s, hs, -, hhigh, -⟩ := exists_mem_between d d.glb.toFinset
      (d.lub.toFinset.erase x) d.cardLower
      (fun y hy => List.mem_toFinset.mpr hy)
      (fun y hy => List.mem_toFinset.mp (Finset.mem_of_mem_erase hy))
      (fun y hy => Finset.mem_erase.mpr ⟨fun heq =>
          hx (heq ▸ List.mem_toFinset.mp hy),
        List.mem_toFinset.mpr (hvalid.glb_subset (List.mem_toFinset.mp hy))⟩)
      (by omega) (by omega) (le_refl _) hvalid.cardLower_le
    exact ⟨s, hs, fun hxs => Finset.notMem_erase x _ (hhigh hxs)⟩
  · obtain ⟨s, hs⟩ := hvalid.exists_mem
    exact ⟨s, hs, fun hxs => hlub (hs.2.1 x hxs)⟩

/-- An element that is not excluded is in some member. -/
theorem Valid.exists_mem_with {d : SetDomain} (hvalid : d.Valid) {x : Int}
    (hx : x ∈ d.lub) : ∃ s : Finset Int, s ∈ d ∧ x ∈ s := by
  by_cases hglb : x ∈ d.glb
  · obtain ⟨s, hs⟩ := hvalid.exists_mem
    exact ⟨s, hs, hs.1 x hglb⟩
  · have hopen : d.glb.length ≠ d.lub.length := fun heq => by
      rw [hvalid.glb_eq_lub_of_isFixed (isFixed_iff.mpr heq)] at hglb
      exact hglb hx
    have hsettled := (hvalid.settled hopen).1
    have hcard : (insert x d.glb.toFinset).card = d.glb.length + 1 := by
      rw [Finset.card_insert_of_notMem (by simpa using hglb),
        card_toFinset_of_ascends hvalid.glb_ascends]
    have hlub := card_toFinset_of_ascends hvalid.lub_ascends
    have hhigh := hvalid.le_lub
    have hmid := hvalid.cardLower_le
    obtain ⟨s, hs, hlow, -⟩ := exists_mem_between d (insert x d.glb.toFinset)
      d.lub.toFinset (max d.cardLower (d.glb.length + 1))
      (fun y hy => Finset.mem_insert_of_mem (List.mem_toFinset.mpr hy))
      (fun y hy => List.mem_toFinset.mp hy)
      (Finset.insert_subset (List.mem_toFinset.mpr hx) fun y hy =>
        List.mem_toFinset.mpr (hvalid.glb_subset (List.mem_toFinset.mp hy)))
      (by omega) (by omega) (by omega) (by omega)
    exact ⟨s, hs, hlow (Finset.mem_insert_self x _)⟩

/-- The required elements are those of all members. -/
theorem Valid.mem_glb_iff {d : SetDomain} (hvalid : d.Valid) {x : Int} :
    x ∈ d.glb ↔ ∀ s : Finset Int, s ∈ d → x ∈ s := by
  refine ⟨fun hx s hs => hs.1 x hx, fun hall => ?_⟩
  by_contra hx
  obtain ⟨s, hs, hout⟩ := hvalid.exists_mem_without hx
  exact hout (hall s hs)

/-- The possible elements are those of some member. -/
theorem Valid.mem_lub_iff {d : SetDomain} (hvalid : d.Valid) {x : Int} :
    x ∈ d.lub ↔ ∃ s : Finset Int, s ∈ d ∧ x ∈ s :=
  ⟨hvalid.exists_mem_with, fun ⟨_, hs, hx⟩ => hs.2.1 x hx⟩

/-- A valid domain is determined by its members. -/
theorem Valid.eq_of_mem_iff {d d' : SetDomain} (hvalid : d.Valid) (hvalid' : d'.Valid)
    (hsame : ∀ s : Finset Int, s ∈ d ↔ s ∈ d') : d = d' := by
  have hglb : d.glb = d'.glb :=
    Ascending.eq_of_mem_iff hvalid.glb_ascends hvalid'.glb_ascends fun x => by
      simp only [hvalid.mem_glb_iff, hvalid'.mem_glb_iff, hsame]
  have hlub : d.lub = d'.lub :=
    Ascending.eq_of_mem_iff hvalid.lub_ascends hvalid'.lub_ascends fun x => by
      simp only [hvalid.mem_lub_iff, hvalid'.mem_lub_iff, hsame]
  -- members of the extreme sizes bound the numbers of the other domain
  have hbound : ∀ {e e' : SetDomain}, e.Valid → (∀ s : Finset Int, s ∈ e → s ∈ e') →
      e'.cardLower ≤ e.cardLower ∧ e.cardUpper ≤ e'.cardUpper := by
    intro e e' he hsub
    obtain ⟨low, hlow, hleast⟩ := he.exists_mem_of_card (le_refl _) he.cardLower_le
    obtain ⟨high, hhigh, hmost⟩ := he.exists_mem_of_card he.cardLower_le (le_refl _)
    exact ⟨hleast ▸ (hsub low hlow).2.2.1, hmost ▸ (hsub high hhigh).2.2.2⟩
  obtain ⟨hlower, hupper⟩ := hbound hvalid fun s => (hsame s).mp
  obtain ⟨hlower', hupper'⟩ := hbound hvalid' fun s => (hsame s).mpr
  have hcardLower : d.cardLower = d'.cardLower := le_antisymm hlower' hlower
  have hcardUpper : d.cardUpper = d'.cardUpper := le_antisymm hupper hupper'
  cases d
  cases d'
  simp_all

end SetDomain

end ConstraintSpace
