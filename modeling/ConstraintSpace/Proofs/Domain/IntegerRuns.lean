import ConstraintSpace.Store
import ConstraintSpace.Proofs.Domain.IntegerMachine
import ConstraintSpace.Proofs.Domain.Runs

/-!
# Runs of integer domains

An integer domain stands for a finite set of integers.  From its creation on, and through
any sequence of narrowings, it keeps in step with the set: a narrowing finds no domain
exactly where it would leave no member, and then nothing changes; all that a domain tells
about itself is true of the set, and equal sets are equal domains.  No step on the way
leaves the machine integers.
-/

namespace ConstraintSpace

namespace IntDomain

/-- What an integer domain is created from. -/
inductive Origin where
  | bounds (lower upper : Int)
  | sparse (values : List Int)
deriving DecidableEq, Repr

namespace Origin

/-- Bounds in order, or some values, that are 32-bit integers. -/
def Fits : Origin → Prop
  | bounds lower upper => Fits32 lower ∧ Fits32 upper ∧ lower ≤ upper
  | sparse values => values ≠ [] ∧ ∀ x ∈ values, Fits32 x

noncomputable def members : Origin → Finset Int
  | bounds lower upper => Finset.Icc lower upper
  | sparse values => values.toFinset

def create : Origin → Option IntDomain
  | bounds lower upper => some (interval lower upper)
  | sparse values => ofAscending? (Ascending.ofList values)

/-- Creation within a model, which refuses what is beyond its limits. -/
def build : Origin → Except SpaceError IntDomain
  | bounds lower upper => ofBounds lower upper
  | sparse values => ofValues values

/-- Creation on machine integers. -/
def create? : Origin → Option (Option IntDomain)
  | bounds lower upper => some (some (interval lower upper))
  | sparse values => createAscending? (Ascending.ofList values)

end Origin

/-- A narrowing of an integer domain. -/
inductive Move where
  | lower (value : Int)
  | upper (value : Int)
  | remove (value : Int)
  | fix (value : Int)
deriving DecidableEq, Repr

namespace Move

/-- The members that the narrowing keeps. -/
def Keeps : Move → Int → Prop
  | lower value, x => value ≤ x
  | upper value, x => x ≤ value
  | remove value, x => x ≠ value
  | fix value, x => x = value

instance (move : Move) : DecidablePred move.Keeps := fun x => by
  cases move <;> unfold Keeps <;> infer_instance

def apply : Move → IntDomain → Option (IntDomain × EventSet)
  | lower value => setLower value
  | upper value => setUpper value
  | remove value => IntDomain.remove value
  | fix value => IntDomain.fix value

/-- The narrowing on machine integers; to fix a value takes no arithmetic. -/
def checked : Move → IntDomain → Checked
  | lower value => setLower? value
  | upper value => setUpper? value
  | remove value => remove? value
  | fix value => fun d => some (IntDomain.fix value d)

theorem restricts (move : Move) : Restricts move.apply move.Keeps := by
  cases move with
  | lower value => exact setLower_restricts value
  | upper value => exact setUpper_restricts value
  | remove value => exact remove_restricts value
  | fix value => exact fix_restricts value

theorem checked_eq (move : Move) {d : IntDomain} (hmachine : d.OnMachine) (hvalid : d.Valid) :
    move.checked d = some (move.apply d) := by
  cases move with
  | lower value => exact hmachine.setLower?_eq hvalid value
  | upper value => exact hmachine.setUpper?_eq hvalid value
  | remove value => exact hmachine.remove?_eq hvalid value
  | fix value => rfl

end Move

/-! ## A domain in step with a set -/

/-- The domain is a valid one of 32-bit integers with just these members. -/
structure Holds (d : IntDomain) (members : Finset Int) : Prop where
  valid : d.Valid
  machine : d.OnMachine
  mem : ∀ x, x ∈ d ↔ x ∈ members

variable {d : IntDomain} {members : Finset Int}

theorem inStep : InStep Move.apply Move.Keeps Holds := by
  intro move d members hholds
  rcases move.restricts d hholds.valid with ⟨hnone, hlost⟩ | ⟨d', hsome, hvalid, hmem⟩
  · refine Or.inl ⟨hnone, Finset.filter_eq_empty_iff.mpr fun x hx => ?_⟩
    exact hlost x ((hholds.mem x).mpr hx)
  · have hmem' : ∀ x, x ∈ d' ↔ x ∈ members.filter move.Keeps := fun x => by
      rw [hmem x, hholds.mem x, Finset.mem_filter]
    have hmachine : d'.OnMachine :=
      ⟨hholds.machine.1.trans (lower_le_of_mem ((hmem _).mp hvalid.lower_mem).1),
        (le_upper_of_mem ((hmem _).mp hvalid.upper_mem).1).trans hholds.machine.2⟩
    exact Or.inr ⟨d', _, hsome, ⟨_, (hmem' _).mp hvalid.lower_mem⟩, hvalid, hmachine, hmem'⟩

theorem exists_ofAscending? {values : List Int} (hsome : values ≠ []) :
    ∃ d, ofAscending? values = some d := by
  unfold ofAscending?
  rw [List.head?_eq_some_head hsome, List.getLast?_eq_some_getLast hsome]
  exact ⟨_, rfl⟩

theorem Origin.exists_create {origin : Origin} (hfits : origin.Fits) :
    ∃ start, origin.create = some start ∧ origin.create? = some (some start) ∧
      start.Holds origin.members := by
  cases origin with
  | bounds lower upper =>
      obtain ⟨hlower, hupper, hle⟩ := hfits
      refine ⟨_, rfl, rfl, valid_interval hle, ⟨hlower.1, hupper.2⟩, fun x => ?_⟩
      rw [mem_interval, members, Finset.mem_Icc]
  | sparse values =>
      obtain ⟨hsome, hall⟩ := hfits
      have hascends := Ascending.pairwise_ofList values
      have hfits' : ∀ x ∈ Ascending.ofList values, Fits32 x := fun x hx =>
        hall x (Ascending.mem_ofList.mp hx)
      obtain ⟨hchecked, hmachine⟩ := createAscending?_eq hascends hfits'
      obtain ⟨x, hx⟩ := List.exists_mem_of_ne_nil values hsome
      obtain ⟨start, hstart⟩ := exists_ofAscending?
        (List.ne_nil_of_mem (Ascending.mem_ofList.mpr hx))
      obtain ⟨hvalid, hmem⟩ := of_ofAscending?_eq_some hascends hstart
      refine ⟨start, hstart, hchecked.trans (congrArg some hstart), hvalid,
        hmachine start hstart, fun x => ?_⟩
      rw [hmem x, Ascending.mem_ofList, members, List.mem_toFinset]

/-- Where a model makes a domain it makes this one. -/
theorem Origin.create_of_build {origin : Origin} (hbuild : origin.build = .ok d) :
    origin.create = some d := by
  cases origin with
  | bounds lower upper =>
      unfold build ofBounds at hbuild
      cases hlower : Limits.checkInteger lower <;> cases hupper : Limits.checkInteger upper <;>
        simp only [hlower, hupper, bind, Except.bind, reduceCtorEq] at hbuild
      split at hbuild
      · cases hbuild
      · cases hbuild
        rfl
  | sparse values =>
      unfold build ofValues at hbuild
      cases hcheck : Limits.checkAll Limits.checkInteger (Ascending.ofList values) <;>
        simp only [hcheck, bind, Except.bind, reduceCtorEq] at hbuild
      split at hbuild
      next domain hsome =>
        cases hbuild
        exact hsome
      next => cases hbuild

/-- What a domain tells about itself is true of a finite set. -/
structure Shows (d : IntDomain) (members : Finset Int) : Prop where
  lower : IsLeast (members : Set Int) d.lower
  upper : IsGreatest (members : Set Int) d.upper
  contains : ∀ x, d.contains x = true ↔ x ∈ members
  isFixed : d.isFixed = true ↔ members.card = 1
  size : d.size = members.card
  ascending : d.values.Pairwise (· < ·)
  values : d.values.toFinset = members

/-- The domain is kept in machine integers, and what it tells is computed with them. -/
structure Fitting (d : IntDomain) : Prop where
  lower : Fits32 d.lower
  upper : Fits32 d.upper
  holes : ∀ hole ∈ d.holes, Fits32 hole.first ∧ Fits32 hole.last
  removed : d.removed < 2 ^ 64
  size : d.size? = some d.size
  values : d.values? = some d.values

/-- A narrowing of the domain goes with that of the set, on machine integers too. -/
structure Follows (move : Move) (d : IntDomain) (members : Finset Int) : Prop where
  emptied : move.apply d = none ↔ members.filter move.Keeps = ∅
  unchanged : move.apply d = none → ∀ (s : Store) id, s.ints[id]? = some d →
    Store.narrowInt id move.apply s = .error .emptied s
  narrowed : ∀ d' events, move.apply d = some (d', events) →
    d'.Shows (members.filter move.Keeps)
  fits : move.checked d = some (move.apply d)

theorem Holds.shows (hholds : d.Holds members) : d.Shows members := by
  obtain ⟨hvalid, -, hmem⟩ := hholds
  have hvalues : d.values.toFinset = members := by
    ext x
    rw [List.mem_toFinset, hvalid.mem_values, hmem x]
  have hsize : d.size = members.card := by
    rw [← hvalid.length_values, ← hvalues, List.toFinset_card_of_nodup hvalid.nodup_values]
  refine ⟨⟨(hmem _).mp hvalid.lower_mem, fun x hx => lower_le_of_mem ((hmem x).mpr hx)⟩,
    ⟨(hmem _).mp hvalid.upper_mem, fun x hx => le_upper_of_mem ((hmem x).mpr hx)⟩,
    fun x => mem_iff_contains.symm.trans (hmem x), ?_, hsize, hvalid.pairwise_values, hvalues⟩
  constructor
  · intro hfixed
    refine Finset.card_eq_one.mpr ⟨d.lower, Finset.eq_singleton_iff_unique_mem.mpr
      ⟨(hmem _).mp hvalid.lower_mem, fun x hx => ?_⟩⟩
    exact eq_lower_of_isFixed hfixed ((hmem x).mpr hx)
  · intro hone
    exact isFixed_iff.mpr (Finset.card_le_one.mp hone.le _ ((hmem _).mp hvalid.lower_mem) _
      ((hmem _).mp hvalid.upper_mem))

theorem Holds.fitting (hholds : d.Holds members) : d.Fitting := by
  obtain ⟨hvalid, hmachine, -⟩ := hholds
  have hle := hvalid.lower_le_upper
  refine ⟨⟨hmachine.1, hle.trans hmachine.2⟩, ⟨hmachine.1.trans hle, hmachine.2⟩,
    fun hole hhole => ?_, hmachine.removed_lt hvalid, hmachine.size?_eq hvalid,
    hmachine.values?_eq hvalid⟩
  obtain ⟨hlow, hhigh⟩ := hmachine
  have hinside := hvalid.spread.below_lt hole hhole
  exact ⟨⟨by omega, by omega⟩, ⟨by omega, by omega⟩⟩

theorem Holds.follows (hholds : d.Holds members) (move : Move) : Follows move d members where
  emptied := inStep.eq_none_iff hholds
  unchanged hnone s id hread := by simp only [Store.narrowInt, hread, hnone]
  narrowed d' events hsome := (inStep.of_eq_some hholds hsome).shows
  fits := move.checked_eq hholds.machine hholds.valid

theorem Holds.unique {other : IntDomain} (hholds : d.Holds members)
    (hother : other.Holds members) : other = d :=
  hother.valid.eq_of_mem_iff hholds.valid fun x => (hother.mem x).trans (hholds.mem x).symm

/-- Integer domains refine finite sets of integers: from 32-bit bounds or values a domain is
made, and after any narrowings it shows the members that are left, follows every further
narrowing of them, is the only domain with these members, and has stayed within the machine
integers. -/
theorem refines_finite_set {origin : Origin} (hfits : origin.Fits) :
    ∃ start, origin.create = some start ∧ origin.create? = some (some start) ∧
      (∀ d, origin.build = .ok d → d = start) ∧ ∀ moves,
        let d := narrowed Move.apply moves start
        let members := kept Move.Keeps moves origin.members
        d.Shows members ∧ d.Fitting ∧ (∀ move, Follows move d members) ∧
          ∀ (other : Origin) start' more, other.Fits → other.create = some start' →
            kept Move.Keeps more other.members = members →
            narrowed Move.apply more start' = d := by
  obtain ⟨start, hcreate, hchecked, hholds⟩ := Origin.exists_create hfits
  refine ⟨start, hcreate, hchecked, fun d hbuild => ?_, fun moves => ?_⟩
  · exact Option.some.inj ((Origin.create_of_build hbuild).symm.trans hcreate)
  have hafter := inStep.run hholds moves
  refine ⟨hafter.shows, hafter.fitting, hafter.follows, ?_⟩
  intro other start' more hother hcreate' hsame
  obtain ⟨start'', hcreate'', -, hholds'⟩ := Origin.exists_create hother
  obtain rfl := Option.some.inj (hcreate'.symm.trans hcreate'')
  exact hafter.unique (hsame ▸ inStep.run hholds' more)

/-- Three values that span all 32-bit integers: above the least one the bound moves over a
hole of half of them.  Removals next to each other join, and the bound moves over all. -/
theorem bounds_move_over_holes :
    (∃ start, (Origin.sparse [highest32, 0, lowest32]).create = some start ∧
        (narrowed Move.apply [.lower (lowest32 + 1)] start).Shows {0, highest32}) ∧
      ∃ start, (Origin.bounds 0 10).create = some start ∧
        (narrowed Move.apply [.remove 3, .remove 5, .remove 4] start).holes = [⟨3, 5⟩] ∧
        (narrowed Move.apply [.remove 3, .remove 5, .remove 4, .lower 3] start).Shows
          {6, 7, 8, 9, 10} := by
  constructor
  · have hfits : (Origin.sparse [highest32, 0, lowest32]).Fits :=
      ⟨by decide, by decide⟩
    obtain ⟨start, hcreate, -, -, hruns⟩ := refines_finite_set hfits
    have hkept : kept Move.Keeps [.lower (lowest32 + 1)]
        (Origin.sparse [highest32, 0, lowest32]).members = {0, highest32} := by
      decide +kernel
    exact ⟨start, hcreate, hkept ▸ (hruns [.lower (lowest32 + 1)]).1⟩
  · have hfits : (Origin.bounds 0 10).Fits :=
      ⟨by decide, by decide, by decide⟩
    obtain ⟨start, hcreate, -, -, hruns⟩ := refines_finite_set hfits
    have hkept : kept Move.Keeps [.remove 3, .remove 5, .remove 4, .lower 3]
        (Origin.bounds 0 10).members = {6, 7, 8, 9, 10} := by
      decide +kernel
    refine ⟨start, hcreate, ?_, hkept ▸ (hruns [.remove 3, .remove 5, .remove 4, .lower 3]).1⟩
    obtain rfl := Option.some.inj hcreate
    decide +kernel

end IntDomain

end ConstraintSpace
