import ConstraintSpace.Saturation
import ConstraintSpace.Proofs.Domain.Creation
import ConstraintSpace.Proofs.Domain.IntegerNarrowing

/-!
# Integer domains on machine integers

Members and the bounds of holes are 32-bit integers, the numbers of values are unsigned
64-bit integers, and the width of a hole is computed with 64 bits.  Here every sum and every
difference that an operation takes on its way is checked against the type that holds it,
and the operation has no result where one does not fit.  On a valid domain of 32-bit
integers all of them fit, so the operation comes to what it does on unbounded integers.
-/

namespace ConstraintSpace

namespace Machine

/-- A 32-bit integer, unless the value does not fit in one. -/
def int32 (x : Int) : Option Int := if Fits32 x then some x else none

/-- A 64-bit integer, unless the value does not fit in one. -/
def int64 (x : Int) : Option Int := if Fits64 x then some x else none

/-- An unsigned 64-bit integer, unless the value does not fit in one. -/
def unsigned64 (x : Int) : Option Nat := if 0 ≤ x ∧ x < 2 ^ 64 then some x.toNat else none

theorem int32_eq {x : Int} (hlow : lowest32 ≤ x) (hhigh : x ≤ highest32) : int32 x = some x :=
  if_pos ⟨hlow, hhigh⟩

theorem int64_eq {x : Int} (hlow : lowest64 ≤ x) (hhigh : x ≤ highest64) : int64 x = some x :=
  if_pos ⟨hlow, hhigh⟩

theorem unsigned64_eq {x : Int} {n : Nat} (hx : x = n) (hhigh : n < 2 ^ 64) :
    unsigned64 x = some n := by
  subst hx
  exact if_pos ⟨Int.natCast_nonneg n, by exact_mod_cast hhigh⟩

end Machine

open Machine

/-! ## Holes -/

namespace Hole

def size? (hole : Hole) : Option Nat := do
  let width ← int64 (hole.last - hole.first)
  let count ← int64 (width + 1)
  unsigned64 count

/-- Takes the sizes of holes off a number of removed values, one after the other. -/
def deduct? : Nat → List Hole → Option Nat
  | removed, [] => some removed
  | removed, hole :: rest => do
    let size ← hole.size?
    let left ← unsigned64 (removed - size)
    deduct? left rest

/-- Puts a hole in its place, instead of a hole that starts where it does. -/
def put (hole : Hole) : List Hole → List Hole
  | [] => [hole]
  | other :: rest =>
    if other.first < hole.first then other :: put hole rest
    else if other.first = hole.first then hole :: rest
    else hole :: other :: rest

theorem size?_eq {first last : Int} (hlow : lowest32 ≤ first) (hle : first ≤ last)
    (hhigh : last ≤ highest32) : size? ⟨first, last⟩ = some (size ⟨first, last⟩) := by
  unfold lowest32 at hlow
  unfold highest32 at hhigh
  have hwidth : int64 (last - first) = some (last - first) :=
    int64_eq (by unfold lowest64; omega) (by unfold highest64; omega)
  have hcount : int64 (last - first + 1) = some (last - first + 1) :=
    int64_eq (by unfold lowest64; omega) (by unfold highest64; omega)
  have hsize : unsigned64 (last - first + 1) = some (size ⟨first, last⟩) :=
    unsigned64_eq (by simp only [size]; omega) (by simp only [size]; omega)
  simp only [size?, hwidth, hcount, hsize, Option.bind_eq_bind, Option.bind_some]

theorem deduct?_eq {removed : Nat} {holes : List Hole} (hremoved : removed < 2 ^ 64)
    (hsizes : ∀ hole ∈ holes, hole.size? = some hole.size) (hle : total holes ≤ removed) :
    deduct? removed holes = some (removed - total holes) := by
  induction holes generalizing removed with
  | nil => rfl
  | cons hole rest ih =>
      simp only [total] at hle
      have hleft : unsigned64 (removed - hole.size) = some (removed - hole.size) :=
        unsigned64_eq (by omega) (by omega)
      have hless : removed - hole.size < 2 ^ 64 := by omega
      have hrest := ih hless (fun other hother => hsizes other (List.mem_cons_of_mem _ hother))
        (by omega)
      simp only [deduct?, hsizes hole List.mem_cons_self, hleft, hrest, Option.bind_eq_bind,
        Option.bind_some, total, Nat.sub_sub]

theorem put_eq_cons {hole : Hole} {holes : List Hole}
    (hbefore : ∀ other ∈ holes, hole.first < other.first) : put hole holes = hole :: holes := by
  cases holes with
  | nil => rfl
  | cons other rest =>
      have hless := hbefore other List.mem_cons_self
      rw [put, if_neg (by omega), if_neg (by omega)]

/-- Below their first value holes neither cover a value nor start at one. -/
theorem Spread.none_at {below above x : Int} {holes : List Hole}
    (hspread : Spread below above holes) (hx : x ≤ below) :
    holes.find? (·.covers x) = none ∧ holes.find? (·.first = x) = none ∧
      holes.filter (·.first ≠ x) = holes := by
  have hlater := hspread.below_lt
  refine ⟨List.find?_eq_none.mpr fun hole hhole => ?_,
    List.find?_eq_none.mpr fun hole hhole => ?_,
    List.filter_eq_self.mpr fun hole hhole => ?_⟩ <;>
  · have := hlater hole hhole
    simp only [covers_iff, decide_eq_true_eq]
    omega

end Hole

namespace IntDomain

/-! ## Operations -/

/-- All members are 32-bit integers. -/
def OnMachine (d : IntDomain) : Prop := lowest32 ≤ d.lower ∧ d.upper ≤ highest32

def size? (d : IntDomain) : Option Nat := do
  let all ← Hole.size? ⟨d.lower, d.upper⟩
  unsigned64 (all - d.removed)

def valuesFrom? (start upper : Int) : List Hole → Option (List Int)
  | [] => some (span start upper)
  | hole :: rest => do
    let last ← int32 (hole.first - 1)
    let next ← int32 (hole.last + 1)
    let later ← valuesFrom? next upper rest
    some (span start last ++ later)

def values? (d : IntDomain) : Option (List Int) := valuesFrom? d.lower d.upper d.holes

def dropHoles? (d : IntDomain) (keep : Hole → Bool) : Option IntDomain := do
  let removed ← Hole.deduct? d.removed (d.holes.filter fun hole => !keep hole)
  some { d with holes := d.holes.filter keep, removed }

/-- What a narrowing of a domain comes to, where its steps fit. -/
abbrev Checked := Option (Option (IntDomain × EventSet))

def setLower? (value : Int) (d : IntDomain) : Checked :=
  if value ≤ d.lower then some (some (d, .empty))
  else if d.upper < value then some none
  else do
    let bound ← match d.holeAt? value with
      | some hole => int32 (hole.last + 1)
      | none => some value
    let narrowed ← d.dropHoles? fun hole => bound ≤ hole.first
    some (some ({ narrowed with lower := bound }.withAssign
      { EventSet.empty with lowerBound := true, removal := true }))

def setUpper? (value : Int) (d : IntDomain) : Checked :=
  if d.upper ≤ value then some (some (d, .empty))
  else if value < d.lower then some none
  else do
    let bound ← match d.holeAt? value with
      | some hole => int32 (hole.first - 1)
      | none => some value
    let narrowed ← d.dropHoles? fun hole => hole.first < bound
    some (some ({ narrowed with upper := bound }.withAssign
      { EventSet.empty with upperBound := true, removal := true }))

/-- Removes one value; the hole of an inner value takes the place of those that touch it. -/
def remove? (value : Int) (d : IntDomain) : Checked :=
  if !d.contains value then some (some (d, .empty))
  else if d.isFixed then some none
  else if value = d.lower then do
    let next ← int32 (value + 1)
    d.setLower? next
  else if value = d.upper then do
    let previous ← int32 (value - 1)
    d.setUpper? previous
  else do
    let previous ← int32 (value - 1)
    let first := ((d.holeAt? previous).map Hole.first).getD value
    let next ← int32 (value + 1)
    let last := ((d.holes.find? (·.first = next)).map Hole.last).getD value
    let removed ← unsigned64 (d.removed + 1)
    some (some ({ d with
      holes := Hole.put ⟨first, last⟩ (d.holes.filter (·.first ≠ next))
      removed }, { EventSet.empty with removal := true }))

/-- The holes between the members of an ascending list, and the number of values in them
and in holes from before. -/
def gaps? : Nat → List Int → Option (List Hole × Nat)
  | removed, x :: y :: rest => do
    let next ← int32 (x + 1)
    if next < y then
      let previous ← int32 (y - 1)
      let size ← Hole.size? ⟨next, previous⟩
      let sum ← unsigned64 (removed + size)
      let (holes, removed) ← gaps? sum (y :: rest)
      some (⟨next, previous⟩ :: holes, removed)
    else gaps? removed (y :: rest)
  | removed, _ => some ([], removed)

/-- The domain of the members of an ascending list; there is none of no values. -/
def createAscending? (values : List Int) : Option (Option IntDomain) :=
  match values.head?, values.getLast? with
  | some lower, some upper => do
    let (holes, removed) ← gaps? 0 values
    some (some { lower, upper, holes, removed })
  | _, _ => some none

/-! ## All steps fit -/

variable {d : IntDomain}

theorem Valid.removed_lt (hvalid : d.Valid) : d.removed < (d.upper - d.lower + 1).toNat := by
  have hsize := hvalid.size_pos
  unfold size at hsize
  omega

theorem OnMachine.removed_lt (hmachine : d.OnMachine) (hvalid : d.Valid) :
    d.removed < 2 ^ 64 := by
  have hless := hvalid.removed_lt
  obtain ⟨hlow, hhigh⟩ := hmachine
  unfold lowest32 at hlow
  unfold highest32 at hhigh
  omega

theorem OnMachine.size?_eq (hmachine : d.OnMachine) (hvalid : d.Valid) :
    d.size? = some d.size := by
  have hall : Hole.size? ⟨d.lower, d.upper⟩ = some (d.upper - d.lower + 1).toNat :=
    Hole.size?_eq hmachine.1 hvalid.lower_le_upper hmachine.2
  have hless := hvalid.removed_lt
  have hsize : unsigned64 ((d.upper - d.lower + 1).toNat - d.removed) = some d.size := by
    refine unsigned64_eq (by unfold size; omega) ?_
    obtain ⟨hlow, hhigh⟩ := hmachine
    unfold lowest32 at hlow
    unfold highest32 at hhigh
    unfold size
    omega
  simp only [size?, hall, hsize, Option.bind_eq_bind, Option.bind_some]

theorem valuesFrom?_eq {start upper : Int} {holes : List Hole}
    (hspread : Hole.Spread start upper holes) (hlow : lowest32 ≤ start)
    (hhigh : upper ≤ highest32) :
    valuesFrom? start upper holes = some (valuesFrom start upper holes) := by
  induction holes generalizing start with
  | nil => rfl
  | cons hole rest ih =>
      obtain ⟨hbelow, hle, habove, hrest⟩ := hspread
      have hlast : int32 (hole.first - 1) = some (hole.first - 1) :=
        int32_eq (by omega) (by omega)
      have hnext : int32 (hole.last + 1) = some (hole.last + 1) :=
        int32_eq (by omega) (by omega)
      simp only [valuesFrom?, hlast, hnext, ih hrest (by omega), Option.bind_eq_bind,
        Option.bind_some, valuesFrom]

theorem OnMachine.values?_eq (hmachine : d.OnMachine) (hvalid : d.Valid) :
    d.values? = some d.values :=
  valuesFrom?_eq hvalid.spread hmachine.1 hmachine.2

theorem OnMachine.dropHoles?_eq (hmachine : d.OnMachine) (hvalid : d.Valid)
    (keep : Hole → Bool) : d.dropHoles? keep = some (d.dropHoles keep) := by
  have hsizes : ∀ hole ∈ d.holes.filter fun hole => !keep hole, hole.size? = some hole.size := by
    intro hole hhole
    have hinside := hvalid.spread.below_lt hole (List.mem_filter.mp hhole).1
    obtain ⟨hlow, hhigh⟩ := hmachine
    exact Hole.size?_eq (by omega) hinside.2.1 (by omega)
  have htotal : Hole.total (d.holes.filter fun hole => !keep hole) ≤ d.removed := by
    have hsum := Hole.total_filter_add_total_filter_not keep d.holes
    rw [hvalid.removed_eq]
    omega
  simp only [dropHoles?, Hole.deduct?_eq (hmachine.removed_lt hvalid) hsizes htotal,
    Option.bind_eq_bind, Option.bind_some, dropHoles]

/-- The bound of a hole, or its neighbour, is a 32-bit integer. -/
theorem OnMachine.of_holeAt? (hmachine : d.OnMachine) (hvalid : d.Valid) {value : Int} {hole : Hole}
    (hhole : d.holeAt? value = some hole) :
    int32 (hole.last + 1) = some (hole.last + 1) ∧
      int32 (hole.first - 1) = some (hole.first - 1) := by
  have hinside := hvalid.spread.below_lt hole (of_holeAt?_eq_some hhole).1
  obtain ⟨hlow, hhigh⟩ := hmachine
  exact ⟨int32_eq (by omega) (by omega), int32_eq (by omega) (by omega)⟩

theorem OnMachine.setLower?_eq (hmachine : d.OnMachine) (hvalid : d.Valid) (value : Int) :
    d.setLower? value = some (d.setLower value) := by
  unfold setLower? setLower
  split
  next => rfl
  next =>
    split
    next => rfl
    next =>
      cases hhole : d.holeAt? value with
      | none =>
          simp only [Option.bind_eq_bind, Option.bind_some, hmachine.dropHoles?_eq hvalid]
      | some hole =>
          simp only [(hmachine.of_holeAt? hvalid hhole).1, Option.bind_eq_bind, Option.bind_some,
            hmachine.dropHoles?_eq hvalid]

theorem OnMachine.setUpper?_eq (hmachine : d.OnMachine) (hvalid : d.Valid) (value : Int) :
    d.setUpper? value = some (d.setUpper value) := by
  unfold setUpper? setUpper
  split
  next => rfl
  next =>
    split
    next => rfl
    next =>
      cases hhole : d.holeAt? value with
      | none =>
          simp only [Option.bind_eq_bind, Option.bind_some, hmachine.dropHoles?_eq hvalid]
      | some hole =>
          simp only [(hmachine.of_holeAt? hvalid hhole).2, Option.bind_eq_bind, Option.bind_some,
            hmachine.dropHoles?_eq hvalid]

/-- Joining a value to the holes around it is putting in one hole for those that touch it. -/
theorem pierce_eq_put {below above value : Int} {holes : List Hole}
    (hspread : Hole.Spread below above holes) (hvalue : ¬Hole.Covered holes value) :
    pierce value holes =
      Hole.put
        ⟨((holes.find? (·.covers (value - 1))).map Hole.first).getD value,
          ((holes.find? (·.first = value + 1)).map Hole.last).getD value⟩
        (holes.filter (·.first ≠ value + 1)) := by
  induction holes generalizing below with
  | nil => rfl
  | cons hole rest ih =>
      obtain ⟨hbelow, hle, habove, hrest⟩ := hspread
      rw [Hole.covered_cons, not_or] at hvalue
      have hlater := hrest.below_lt
      unfold pierce
      split
      next hright =>
        have hcovers : hole.covers (value - 1) = false := by
          rw [← Bool.not_eq_true, Hole.covers_iff]
          omega
        have hfirst : hole.first ≠ value + 1 := by omega
        rw [ih hrest hvalue.2]
        simp only [List.find?_cons, hcovers, decide_eq_false hfirst, List.filter_cons,
          decide_eq_true hfirst, if_true]
        refine (if_pos ?_).symm
        -- the new hole starts at the value, or where a later hole does
        cases hfind : rest.find? (·.covers (value - 1)) with
        | none => show hole.first < value; omega
        | some other =>
            have := hlater other (List.mem_of_find?_eq_some hfind)
            show hole.first < other.first
            omega
      next hright =>
        split
        next hjoin =>
          have hcovers : hole.covers (value - 1) = true := Hole.covers_iff.mpr (by omega)
          have hfirst : hole.first ≠ value + 1 := by omega
          simp only [List.find?_cons, hcovers, decide_eq_false hfirst, List.filter_cons,
            decide_eq_true hfirst, if_true]
          cases rest with
          | nil => simp [Hole.put]
          | cons next later =>
              obtain ⟨hnext, hnextLe, hnextAbove, hafter⟩ := hrest
              obtain ⟨-, hnone, hkept⟩ := hafter.none_at (x := value + 1) (by omega)
              simp only [ne_eq, decide_not] at hkept
              by_cases htouch : next.first = value + 1 <;>
                simp [Hole.put, htouch, hkept, hnone]
        next hapart =>
          obtain ⟨hnone, hnoneFirst, hkept⟩ := hrest.none_at (x := value + 1) (by omega)
          have hcovers : hole.covers (value - 1) = false := by
            rw [← Bool.not_eq_true, Hole.covers_iff]
            omega
          have hnoneCovers := (hrest.none_at (x := value - 1) (by omega)).1
          simp only [ne_eq, decide_not] at hkept
          by_cases htouch : hole.first = value + 1
          · have hput : Hole.put ⟨value, hole.last⟩ rest = ⟨value, hole.last⟩ :: rest :=
              Hole.put_eq_cons fun other hother => by
                have := hlater other hother
                show value < other.first
                omega
            simp [htouch, hkept, hcovers, hnoneCovers, hput]
          · have hput : Hole.put ⟨value, value⟩ (hole :: rest) = ⟨value, value⟩ :: hole :: rest :=
              Hole.put_eq_cons fun other hother => by
                show value < other.first
                rcases List.mem_cons.mp hother with rfl | hother
                · omega
                · have := hlater other hother
                  omega
            simp [htouch, hkept, hcovers, hnoneCovers, hnoneFirst, hput]

theorem OnMachine.remove?_eq (hmachine : d.OnMachine) (hvalid : d.Valid) (value : Int) :
    d.remove? value = some (d.remove value) := by
  unfold remove? remove
  split
  next => rfl
  next hin =>
    obtain ⟨hlower, hupper, hfree⟩ := mem_iff.mp (mem_iff_contains.mpr (by simpa using hin))
    split
    next => rfl
    next hopen =>
      have hopen : d.lower ≠ d.upper := fun heq => hopen (isFixed_iff.mpr heq)
      obtain ⟨hlow, hhigh⟩ := hmachine
      have hmachine : d.OnMachine := ⟨hlow, hhigh⟩
      split
      next heq =>
        rw [int32_eq (by omega) (by omega)]
        exact hmachine.setLower?_eq hvalid (value + 1)
      next hneLower =>
        have hprevious : int32 (value - 1) = some (value - 1) := int32_eq (by omega) (by omega)
        split
        next heq =>
          rw [hprevious]
          exact hmachine.setUpper?_eq hvalid (value - 1)
        next hneUpper =>
          have hnext : int32 (value + 1) = some (value + 1) := int32_eq (by omega) (by omega)
          have hremoved : unsigned64 (d.removed + 1) = some (d.removed + 1) := by
            refine unsigned64_eq (by omega) ?_
            have hless := hvalid.removed_lt
            unfold lowest32 at hlow
            unfold highest32 at hhigh
            omega
          simp only [hprevious, hnext, hremoved, Option.bind_eq_bind, Option.bind_some, holeAt?]
          rw [pierce_eq_put hvalid.spread hfree]

theorem gaps_cons_cons (x y : Int) (rest : List Int) :
    gaps (x :: y :: rest) =
      if x + 1 < y then ⟨x + 1, y - 1⟩ :: gaps (y :: rest) else gaps (y :: rest) := by
  rw [gaps]

theorem gaps?_eq {removed : Nat} {x : Int} {rest : List Int}
    (hascends : (x :: rest).Pairwise (· < ·)) (hfits : ∀ y ∈ x :: rest, Fits32 y)
    (hfew : removed + Hole.total (gaps (x :: rest)) < 2 ^ 64) :
    gaps? removed (x :: rest) =
      some (gaps (x :: rest), removed + Hole.total (gaps (x :: rest))) := by
  induction rest generalizing x removed with
  | nil => rfl
  | cons y rest ih =>
      obtain ⟨hlow, htail⟩ := List.pairwise_cons.mp hascends
      have hless := hlow y List.mem_cons_self
      have hx := hfits x List.mem_cons_self
      have hy := hfits y (by simp)
      have hfits' : ∀ z ∈ y :: rest, Fits32 z := fun z hz => hfits z (List.mem_cons_of_mem _ hz)
      have hnext : int32 (x + 1) = some (x + 1) :=
        int32_eq (by have := hx.1; omega) (by have := hy.2; omega)
      rw [gaps_cons_cons] at hfew ⊢
      simp only [gaps?, hnext, Option.bind_eq_bind, Option.bind_some]
      split
      next hgap =>
        rw [if_pos hgap, Hole.total] at hfew
        have hprevious : int32 (y - 1) = some (y - 1) :=
          int32_eq (by have := hx.1; omega) (by have := hy.2; omega)
        have hsize : Hole.size? ⟨x + 1, y - 1⟩ = some (Hole.size ⟨x + 1, y - 1⟩) :=
          Hole.size?_eq (by have := hx.1; omega) (by omega) (by have := hy.2; omega)
        have hsum : unsigned64 (removed + Hole.size ⟨x + 1, y - 1⟩) =
            some (removed + Hole.size ⟨x + 1, y - 1⟩) :=
          unsigned64_eq (by omega) (by omega)
        have hsumFew : removed + Hole.size ⟨x + 1, y - 1⟩ + Hole.total (gaps (y :: rest)) <
            2 ^ 64 := by
          omega
        have hrest := ih htail hfits' hsumFew
        rw [hprevious, Option.bind_some, hsize, Option.bind_some, hsum, Option.bind_some, hrest,
          Option.bind_some, Hole.total, Nat.add_assoc]
      next hgap =>
        rw [if_neg hgap] at hfew
        rw [ih htail hfits' hfew]

/-- A domain of 32-bit values is made without leaving the machine integers. -/
theorem createAscending?_eq {values : List Int} (hascends : values.Pairwise (· < ·))
    (hfits : ∀ x ∈ values, Fits32 x) :
    createAscending? values = some (ofAscending? values) ∧
      ∀ d, ofAscending? values = some d → d.OnMachine := by
  have hmachine : ∀ d, ofAscending? values = some d → d.OnMachine := by
    intro d hsome
    obtain ⟨hvalid, hmem⟩ := of_ofAscending?_eq_some hascends hsome
    exact ⟨(hfits _ ((hmem _).mp hvalid.lower_mem)).1, (hfits _ ((hmem _).mp hvalid.upper_mem)).2⟩
  refine ⟨?_, hmachine⟩
  cases values with
  | nil => rfl
  | cons x rest =>
      obtain ⟨last, hlast⟩ : ∃ last, (x :: rest).getLast? = some last :=
        ⟨_, List.getLast?_eq_some_getLast (by simp)⟩
      have hsome : ofAscending? (x :: rest) =
          some ⟨x, last, gaps (x :: rest), Hole.total (gaps (x :: rest))⟩ := by
        simp only [ofAscending?, List.head?_cons, hlast]
      have hfew := (hmachine _ hsome).removed_lt (of_ofAscending?_eq_some hascends hsome).1
      have hfew' : 0 + Hole.total (gaps (x :: rest)) < 2 ^ 64 := by rwa [Nat.zero_add]
      have hgaps := gaps?_eq hascends hfits hfew'
      rw [Nat.zero_add] at hgaps
      simp only [createAscending?, List.head?_cons, hlast, hgaps, hsome, Option.bind_eq_bind,
        Option.bind_some]

end IntDomain

end ConstraintSpace
