import ConstraintSpace.Store
import ConstraintSpace.Proofs.Domain.Creation
import ConstraintSpace.Proofs.Domain.Runs
import ConstraintSpace.Proofs.Domain.SetNarrowing
import ConstraintSpace.Proofs.Store.Events

/-!
# Runs of set domains

A set domain stands for a family of finite sets of integers.  From its creation on, and
through any sequence of narrowings, it represents the family exactly, and as tightly as its
form allows: its element sets are the intersection and the union of the family, and there
are sets of every number of elements that its bounds admit.
-/

namespace ConstraintSpace

namespace SetDomain

/-- What a set domain is created from: the elements that a set must have and may have, and
bounds on their number. -/
structure Origin where
  glb : List Int
  lub : List Int
  cardLower : Nat
  cardUpper : Nat
deriving DecidableEq, Repr

namespace Origin

/-- One element set contains the other, and the bounds on the number of elements are in
order within their sizes. -/
structure Fits (origin : Origin) : Prop where
  subset : origin.glb.toFinset ⊆ origin.lub.toFinset
  order : max origin.cardLower origin.glb.toFinset.card ≤
    min origin.cardUpper origin.lub.toFinset.card

def family (origin : Origin) : Finset (Finset Int) :=
  origin.lub.toFinset.powerset.filter fun s =>
    origin.glb.toFinset ⊆ s ∧ origin.cardLower ≤ s.card ∧ s.card ≤ origin.cardUpper

def create (origin : Origin) : SetDomain :=
  SetDomain.create (Ascending.ofList origin.glb) (Ascending.ofList origin.lub) origin.cardLower
    origin.cardUpper

/-- Creation within a model, which refuses what is beyond its limits. -/
def build (origin : Origin) : Except SpaceError SetDomain :=
  ofBounds origin.glb origin.lub origin.cardLower origin.cardUpper

end Origin

/-- A narrowing of a set domain. -/
inductive Move where
  | require (element : Int)
  | forbid (element : Int)
  | cardLower (count : Nat)
  | cardUpper (count : Nat)
deriving DecidableEq, Repr

namespace Move

/-- The sets that the narrowing keeps. -/
def Keeps : Move → Finset Int → Prop
  | require element, s => element ∈ s
  | forbid element, s => element ∉ s
  | cardLower count, s => count ≤ s.card
  | cardUpper count, s => s.card ≤ count

instance (move : Move) : DecidablePred move.Keeps := fun s => by
  cases move <;> unfold Keeps <;> infer_instance

def apply : Move → SetDomain → Option (SetDomain × EventSet)
  | require element => SetDomain.require element
  | forbid element => SetDomain.forbid element
  | cardLower count => setCardLower count
  | cardUpper count => setCardUpper count

theorem restricts (move : Move) : Restricts move.apply move.Keeps := by
  cases move with
  | require element => exact require_restricts element
  | forbid element => exact forbid_restricts element
  | cardLower count => exact setCardLower_restricts count
  | cardUpper count => exact setCardUpper_restricts count

end Move

/-! ## A domain in step with a family -/

/-- The domain is a valid one of just these sets. -/
structure Holds (d : SetDomain) (family : Finset (Finset Int)) : Prop where
  valid : d.Valid
  mem : ∀ s : Finset Int, s ∈ d ↔ s ∈ family

variable {d : SetDomain} {family : Finset (Finset Int)}

theorem inStep : InStep Move.apply Move.Keeps Holds := by
  intro move d family hholds
  rcases move.restricts d hholds.valid with ⟨hnone, hlost⟩ | ⟨d', hsome, hvalid, -, hmem⟩
  · refine Or.inl ⟨hnone, Finset.filter_eq_empty_iff.mpr fun s hs => ?_⟩
    exact hlost s ((hholds.mem s).mpr hs)
  · have hmem' : ∀ s : Finset Int, s ∈ d' ↔ s ∈ family.filter move.Keeps := fun s => by
      rw [hmem s, hholds.mem s, Finset.mem_filter]
    obtain ⟨s, hs⟩ := hvalid.exists_mem
    exact Or.inr ⟨d', _, hsome, ⟨s, (hmem' s).mp hs⟩, hvalid, hmem'⟩

theorem length_ofList (xs : List Int) : (Ascending.ofList xs).length = xs.toFinset.card := by
  rw [← card_toFinset_of_ascends (Ascending.pairwise_ofList xs)]
  congr 1
  ext x
  simp only [List.mem_toFinset, Ascending.mem_ofList]

theorem Origin.Fits.holds {origin : Origin} (hfits : origin.Fits) :
    origin.create.Holds origin.family := by
  have hsubset : Ascending.ofList origin.glb ⊆ Ascending.ofList origin.lub := fun x hx => by
    rw [Ascending.mem_ofList, ← List.mem_toFinset] at hx ⊢
    exact hfits.subset hx
  obtain ⟨hvalid, hmem⟩ := of_create (Ascending.pairwise_ofList origin.glb)
    (Ascending.pairwise_ofList origin.lub) hsubset
    (by rw [length_ofList, length_ofList]; exact hfits.order)
  refine ⟨hvalid, fun s => (hmem s).trans ?_⟩
  simp only [Ascending.mem_ofList, family, Finset.mem_filter, Finset.mem_powerset,
    Finset.subset_iff, List.mem_toFinset]
  tauto

/-- Where a model makes a domain it makes this one. -/
theorem Origin.create_of_build {origin : Origin} (hbuild : origin.build = .ok d) :
    origin.create = d := by
  unfold build ofBounds at hbuild
  cases hcheck : Limits.checkAll Limits.checkElement
      (Ascending.ofList origin.glb ++ Ascending.ofList origin.lub) <;>
    simp only [hcheck, bind, Except.bind, reduceCtorEq] at hbuild
  split at hbuild
  · cases hbuild
  · split at hbuild
    · cases hbuild
    · cases hbuild
      exact (create_clamped _ _ _ _).symm

/-- The domain represents a family exactly, and every part of it is as tight as can be. -/
structure Tight (d : SetDomain) (family : Finset (Finset Int)) : Prop where
  mem : ∀ s : Finset Int, s ∈ family ↔
    d.glb.toFinset ⊆ s ∧ s ⊆ d.lub.toFinset ∧ d.cardLower ≤ s.card ∧ s.card ≤ d.cardUpper
  glb : ∀ x, x ∈ d.glb ↔ ∀ s ∈ family, x ∈ s
  lub : ∀ x, x ∈ d.lub ↔ ∃ s ∈ family, x ∈ s
  card : ∀ count, (d.cardLower ≤ count ∧ count ≤ d.cardUpper) ↔ ∃ s ∈ family, s.card = count
  isFixed : d.isFixed = true ↔ family.card = 1

/-- A narrowing of the domain goes with that of the family. -/
structure Follows (move : Move) (d : SetDomain) (family : Finset (Finset Int)) : Prop where
  emptied : move.apply d = none ↔ ∀ s ∈ family, ¬move.Keeps s
  unchanged : move.apply d = none → ∀ (s : Store) id, s.sets[id]? = some d →
    Store.narrowSet id move.apply s = .error .emptied s
  narrowed : ∀ d' events, move.apply d = some (d', events) → d'.Tight (family.filter move.Keeps)

theorem Holds.tight (hholds : d.Holds family) : d.Tight family where
  mem s := by
    rw [← hholds.mem s, mem_iff]
    simp only [Finset.subset_iff, List.mem_toFinset]
  glb x := by simp only [hholds.valid.mem_glb_iff, hholds.mem]
  lub x := by simp only [hholds.valid.mem_lub_iff, hholds.mem]
  card count := by
    constructor
    · rintro ⟨hlower, hupper⟩
      obtain ⟨s, hs, hcard⟩ := hholds.valid.exists_mem_of_card hlower hupper
      exact ⟨s, (hholds.mem s).mp hs, hcard⟩
    · rintro ⟨s, hs, rfl⟩
      exact ((hholds.mem s).mpr hs).2.2
  isFixed := by
    rw [hholds.valid.isFixed_iff_existsUnique, Finset.card_eq_one_iff_existsUnique]
    simp only [hholds.mem]

theorem Holds.follows (hholds : d.Holds family) (move : Move) : Follows move d family where
  emptied := (inStep.eq_none_iff hholds).trans Finset.filter_eq_empty_iff
  unchanged hnone s id hread := by simp only [Store.narrowSet, hread, hnone]
  narrowed d' events hsome := (inStep.of_eq_some hholds hsome).tight

/-- Set domains represent families exactly and tightly: from element sets and bounds in
order a domain is made for just the sets between them, and after any narrowings it is tight
for the sets that are left, and follows every further narrowing of them. -/
theorem represents_family {origin : Origin} (hfits : origin.Fits) :
    (∀ d, origin.build = .ok d → d = origin.create) ∧ ∀ moves,
      let d := narrowed Move.apply moves origin.create
      let family := kept Move.Keeps moves origin.family
      d.Tight family ∧ ∀ move, Follows move d family := by
  refine ⟨fun d hbuild => (Origin.create_of_build hbuild).symm, fun moves => ?_⟩
  have hafter := inStep.run hfits.holds moves
  exact ⟨hafter.tight, hafter.follows⟩

/-- Where 1 is in the set and it has at most two of 1, 2 and 3, forbidding 2 leaves two
sets, and asking for two elements leaves one of them. -/
theorem two_narrowings_fix_set :
    let d := narrowed Move.apply [.forbid 2, .cardLower 2] (Origin.create ⟨[1], [3, 1, 2], 0, 2⟩)
    d.Tight {{1, 3}} ∧ d.isFixed = true ∧ Move.apply (.forbid 3) d = none := by
  intro d
  let origin : Origin := ⟨[1], [3, 1, 2], 0, 2⟩
  have hfits : origin.Fits := ⟨by decide, by decide⟩
  have hkept : kept Move.Keeps [.forbid 2, .cardLower 2] origin.family = {{1, 3}} := by
    decide +kernel
  obtain ⟨htight, hfollows⟩ := (represents_family hfits).2 [.forbid 2, .cardLower 2]
  rw [hkept] at htight hfollows
  exact ⟨htight, htight.isFixed.mpr rfl, (hfollows (.forbid 3)).emptied.mpr (by decide)⟩

end SetDomain

end ConstraintSpace
