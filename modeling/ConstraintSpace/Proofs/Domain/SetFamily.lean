import ConstraintSpace.Domain.Set
import Mathlib

/-!
# Families of set domains

A set domain stands for the family of the finite sets between its two element
sets whose number of elements lies between its two bounds.  Every narrowing of a
set domain keeps exactly the sets of the family that satisfy a condition, and it
gives no domain only when no set does.  Letting the numbers decide the open
elements changes the representation and never the family.
-/

namespace ConstraintSpace

namespace SetDomain

/-- A set is a member when it lies between the element sets and has a number of
elements between the bounds. -/
instance : Membership (Finset Int) SetDomain :=
  ⟨fun d s => (∀ x ∈ d.glb, x ∈ s) ∧ (∀ x ∈ s, x ∈ d.lub) ∧
    d.cardLower ≤ s.card ∧ s.card ≤ d.cardUpper⟩

theorem mem_iff {d : SetDomain} {s : Finset Int} :
    s ∈ d ↔ (∀ x ∈ d.glb, x ∈ s) ∧ (∀ x ∈ s, x ∈ d.lub) ∧
      d.cardLower ≤ s.card ∧ s.card ≤ d.cardUpper := Iff.rfl

/-- The element sets ascend, one contains the other, and the bounds on the
number of elements lie between their sizes. -/
structure Spanned (d : SetDomain) : Prop where
  glb_ascends : d.glb.Pairwise (· < ·)
  lub_ascends : d.lub.Pairwise (· < ·)
  glb_subset : d.glb ⊆ d.lub
  glb_le : d.glb.length ≤ d.cardLower
  cardLower_le : d.cardLower ≤ d.cardUpper
  le_lub : d.cardUpper ≤ d.lub.length

/-- No bound on the number of elements forces an open element. -/
structure Valid (d : SetDomain) : Prop extends Spanned d where
  settled : d.glb.length ≠ d.lub.length →
    d.glb.length < d.cardUpper ∧ d.cardLower < d.lub.length

theorem nodup_of_ascends {xs : List Int} (hxs : xs.Pairwise (· < ·)) :
    xs.Nodup :=
  hxs.imp fun hlt => ne_of_lt hlt

theorem card_toFinset_of_ascends {xs : List Int}
    (hxs : xs.Pairwise (· < ·)) : xs.toFinset.card = xs.length :=
  List.toFinset_card_of_nodup (nodup_of_ascends hxs)

theorem length_le_of_subset {xs ys : List Int}
    (hxs : xs.Pairwise (· < ·)) (hsubset : xs ⊆ ys) :
    xs.length ≤ ys.length :=
  ((nodup_of_ascends hxs).subperm hsubset).length_le

/-- Two ascending lists of one length are equal where one contains the other. -/
theorem eq_of_subset_of_length_le {xs ys : List Int}
    (hxs : xs.Pairwise (· < ·)) (hys : ys.Pairwise (· < ·))
    (hsubset : xs ⊆ ys) (hlength : ys.length ≤ xs.length) : xs = ys := by
  have hperm : xs.Perm ys :=
    ((nodup_of_ascends hxs).subperm hsubset).perm_of_length_le hlength
  exact Ascending.eq_of_mem_iff hxs hys fun x => hperm.mem_iff

theorem toFinset_subset_of_mem {d : SetDomain} {s : Finset Int}
    (hs : s ∈ d) : d.glb.toFinset ⊆ s :=
  fun x hx => hs.1 x (List.mem_toFinset.mp hx)

theorem subset_toFinset_of_mem {d : SetDomain} {s : Finset Int}
    (hs : s ∈ d) : s ⊆ d.lub.toFinset :=
  fun x hx => List.mem_toFinset.mpr (hs.2.1 x hx)

theorem isFixed_iff {d : SetDomain} :
    d.isFixed = true ↔ d.glb.length = d.lub.length := by
  simp [isFixed]

theorem Spanned.glb_eq_lub_of_isFixed {d : SetDomain} (hspanned : d.Spanned)
    (hfixed : d.isFixed = true) : d.glb = d.lub :=
  eq_of_subset_of_length_le hspanned.glb_ascends hspanned.lub_ascends
    hspanned.glb_subset (isFixed_iff.mp hfixed).ge

/-- A fixed domain has one member. -/
theorem Spanned.mem_iff_of_isFixed {d : SetDomain} (hspanned : d.Spanned)
    (hfixed : d.isFixed = true) {s : Finset Int} :
    s ∈ d ↔ s = d.glb.toFinset := by
  have hlub := hspanned.glb_eq_lub_of_isFixed hfixed
  have hcard := card_toFinset_of_ascends hspanned.glb_ascends
  have hlower := hspanned.glb_le
  have horder := hspanned.cardLower_le
  have hupper := hspanned.le_lub
  rw [isFixed_iff] at hfixed
  constructor
  · intro hs
    have hsubset := subset_toFinset_of_mem hs
    rw [← hlub] at hsubset
    exact Finset.Subset.antisymm hsubset (toFinset_subset_of_mem hs)
  · rintro rfl
    refine ⟨by simp, by simp [← hlub], ?_, ?_⟩ <;> omega

/-! ## Shrinking -/

/-- Every component is at least as tight as before. -/
structure Shrinks (d d' : SetDomain) : Prop where
  glb_subset : d.glb ⊆ d'.glb
  lub_subset : d'.lub ⊆ d.lub
  cardLower_le : d.cardLower ≤ d'.cardLower
  cardUpper_le : d'.cardUpper ≤ d.cardUpper

theorem Shrinks.refl (d : SetDomain) : d.Shrinks d :=
  ⟨fun _ hx => hx, fun _ hx => hx, le_refl _, le_refl _⟩

theorem Shrinks.trans {d d' d'' : SetDomain}
    (hfirst : d.Shrinks d') (hsecond : d'.Shrinks d'') : d.Shrinks d'' :=
  ⟨fun _ hx => hsecond.glb_subset (hfirst.glb_subset hx),
    fun _ hx => hfirst.lub_subset (hsecond.lub_subset hx),
    le_trans hfirst.cardLower_le hsecond.cardLower_le,
    le_trans hsecond.cardUpper_le hfirst.cardUpper_le⟩

/-- A tighter domain that is different is smaller. -/
theorem Shrinks.measure_lt {d d' : SetDomain} (hshrinks : d.Shrinks d')
    (hspanned : d.Spanned) (hspanned' : d'.Spanned) (hne : d' ≠ d) :
    d'.measure < d.measure := by
  have hglb := length_le_of_subset hspanned.glb_ascends hshrinks.glb_subset
  have hlub := length_le_of_subset hspanned'.lub_ascends hshrinks.lub_subset
  have hinner := length_le_of_subset hspanned.glb_ascends hspanned.glb_subset
  have hinner' := length_le_of_subset hspanned'.glb_ascends hspanned'.glb_subset
  have hlower := hshrinks.cardLower_le
  have hupper := hshrinks.cardUpper_le
  have horder := hspanned.cardLower_le
  have horder' := hspanned'.cardLower_le
  unfold measure
  by_contra hge
  apply hne
  have hglb' := eq_of_subset_of_length_le hspanned.glb_ascends
    hspanned'.glb_ascends hshrinks.glb_subset (by omega)
  have hlub' := eq_of_subset_of_length_le hspanned'.lub_ascends
    hspanned.lub_ascends hshrinks.lub_subset (by omega)
  cases d
  cases d'
  simp only [mk.injEq] at *
  exact ⟨hglb'.symm, hlub', by omega, by omega⟩

/-! ## Collapsing -/

/-- The events of the change from one domain to another. -/
def eventsTo (d d' : SetDomain) : EventSet :=
  { assign := !d.isFixed && d'.isFixed
    lowerBound := d'.glb ≠ d.glb
    upperBound := d'.lub ≠ d.lub
    removal := d' ≠ d }

@[simp] theorem eventsTo_self (d : SetDomain) : d.eventsTo d = .empty := by
  simp [eventsTo, EventSet.empty]

/-- Collapsing tightens the representation, keeps the family and adds the
events of what it decided. -/
structure Collapsed (d : SetDomain) (events : EventSet)
    (result : SetDomain × EventSet) : Prop where
  valid : result.1.Valid
  shrinks : d.Shrinks result.1
  mem_iff : ∀ s : Finset Int, s ∈ result.1 ↔ s ∈ d
  events_eq : result.2 =
    { assign := events.assign || result.1.isFixed
      lowerBound := events.lowerBound || decide (result.1.glb ≠ d.glb)
      upperBound := events.upperBound || decide (result.1.lub ≠ d.lub)
      removal := events.removal }

theorem Spanned.collapsed_to_glb {d : SetDomain} (hspanned : d.Spanned)
    (events : EventSet)
    (hfull : d.glb.length = d.cardUpper) (hopen : d.glb.length < d.lub.length) :
    Collapsed d events
      ({ d with
          lub := d.glb, cardLower := d.glb.length, cardUpper := d.glb.length },
        (events.insert .upperBound).insert .assign) := by
  have hcard := card_toFinset_of_ascends hspanned.glb_ascends
  have hlower := hspanned.glb_le
  have horder := hspanned.cardLower_le
  have hne : d.glb ≠ d.lub := fun heq => by
    rw [heq] at hopen
    omega
  refine ⟨⟨⟨hspanned.glb_ascends, hspanned.glb_ascends, fun _ hx => hx,
    le_refl _, le_refl _, le_refl _⟩, fun hne => absurd rfl hne⟩,
    ⟨fun _ hx => hx, hspanned.glb_subset, by simp only; omega,
      by simp only; omega⟩, fun s => ?_, ?_⟩
  · constructor
    · rintro ⟨hglb, hlub, hle, hge⟩
      simp only at hglb hlub hle hge
      exact ⟨hglb, fun x hx => hspanned.glb_subset (hlub x hx),
        by omega, by omega⟩
    · intro hs
      have heq : d.glb.toFinset = s :=
        Finset.eq_of_subset_of_card_le (toFinset_subset_of_mem hs)
          (by have := hs.2.2.2; omega)
      subst heq
      exact ⟨by simp, by simp, by simp only; omega, by simp only; omega⟩
  · simp [EventSet.insert, isFixed, hne]

theorem Spanned.collapsed_to_lub {d : SetDomain} (hspanned : d.Spanned)
    (events : EventSet)
    (hfull : d.lub.length = d.cardLower) (hopen : d.glb.length < d.lub.length) :
    Collapsed d events
      ({ d with
          glb := d.lub, cardLower := d.lub.length, cardUpper := d.lub.length },
        (events.insert .lowerBound).insert .assign) := by
  have hcard := card_toFinset_of_ascends hspanned.lub_ascends
  have hupper := hspanned.le_lub
  have horder := hspanned.cardLower_le
  have hne : d.lub ≠ d.glb := fun heq => by
    rw [heq] at hopen
    omega
  refine ⟨⟨⟨hspanned.lub_ascends, hspanned.lub_ascends, fun _ hx => hx,
    le_refl _, le_refl _, le_refl _⟩, fun hne => absurd rfl hne⟩,
    ⟨hspanned.glb_subset, fun _ hx => hx, by simp only; omega,
      by simp only; omega⟩, fun s => ?_, ?_⟩
  · constructor
    · rintro ⟨hglb, hlub, hle, hge⟩
      simp only at hglb hlub hle hge
      exact ⟨fun x hx => hglb x (hspanned.glb_subset hx), hlub,
        by omega, by omega⟩
    · intro hs
      have heq : s = d.lub.toFinset :=
        Finset.eq_of_subset_of_card_le (subset_toFinset_of_mem hs)
          (by have := hs.2.2.1; omega)
      subst heq
      exact ⟨by simp, by simp, by simp only; omega, by simp only; omega⟩
  · simp [EventSet.insert, isFixed, hne]

theorem Spanned.collapsed {d : SetDomain} (hspanned : d.Spanned)
    (events : EventSet) : Collapsed d events (d.collapse events) := by
  have hlower := hspanned.glb_le
  have horder := hspanned.cardLower_le
  have hupper := hspanned.le_lub
  unfold collapse
  by_cases hglb : d.glb.length = d.cardUpper ∧ d.glb.length < d.lub.length
  · simp only [if_pos hglb]
    rw [if_pos (by simp [isFixed])]
    exact hspanned.collapsed_to_glb events hglb.1 hglb.2
  · by_cases hlub : d.lub.length = d.cardLower ∧ d.glb.length < d.lub.length
    · simp only [if_neg hglb, if_pos hlub]
      rw [if_pos (by simp [isFixed])]
      exact hspanned.collapsed_to_lub events hlub.1 hlub.2
    · have hsettled : d.Valid := ⟨hspanned, by omega⟩
      simp only [if_neg hglb, if_neg hlub]
      by_cases hfixed : d.isFixed = true
      · have hlengths := isFixed_iff.mp hfixed
        have hsame : ({ d with
            cardLower := d.glb.length, cardUpper := d.glb.length } : SetDomain) =
              d := by
          cases d
          simp only [mk.injEq, true_and] at *
          omega
        rw [if_pos hfixed, hsame]
        exact ⟨hsettled, Shrinks.refl d, fun _ => Iff.rfl,
          by simp [EventSet.insert, hfixed]⟩
      · rw [if_neg hfixed]
        exact ⟨hsettled, Shrinks.refl d, fun _ => Iff.rfl, by simp [hfixed]⟩

end SetDomain

end ConstraintSpace
