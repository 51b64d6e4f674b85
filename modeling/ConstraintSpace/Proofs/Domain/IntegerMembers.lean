import ConstraintSpace.Domain.Integer
import Mathlib

/-!
# Members of integer domains

A domain is valid when its bounds are in order and its holes ascend strictly
between them with a member between any two of them.  A valid domain is a
finite set of integers: it lists its members in ascending order, its size is
their number, and two valid domains with the same members are equal.
-/

namespace ConstraintSpace

/-! ## Spans -/

theorem mem_span {first last x : Int} :
    x ∈ span first last ↔ first ≤ x ∧ x ≤ last := by
  unfold span
  simp only [List.mem_map, List.mem_range]
  constructor
  · rintro ⟨i, hi, rfl⟩
    simp only [Int.ofNat_eq_natCast]
    omega
  · rintro ⟨hfirst, hlast⟩
    refine ⟨(x - first).toNat, by omega, ?_⟩
    simp only [Int.ofNat_eq_natCast]
    omega

theorem length_span (first last : Int) :
    (span first last).length = (last + 1 - first).toNat := by
  simp [span]

theorem pairwise_span (first last : Int) :
    (span first last).Pairwise (· < ·) := by
  unfold span
  rw [List.pairwise_map]
  exact List.pairwise_lt_range.imp fun hlt => by
    simp only [Int.ofNat_eq_natCast]
    omega

/-! ## Holes -/

namespace Hole

/-- The holes ascend above `below` and end before `above`, and a value stays
between any two of them. -/
def Spread (below above : Int) : List Hole → Prop
  | [] => True
  | hole :: rest =>
      below < hole.first ∧ hole.first ≤ hole.last ∧ hole.last < above ∧
        Spread (hole.last + 1) above rest

/-- Some hole covers the value. -/
def Covered (holes : List Hole) (x : Int) : Prop :=
  ∃ hole ∈ holes, hole.first ≤ x ∧ x ≤ hole.last

@[simp] theorem not_covered_nil (x : Int) : ¬Covered [] x := by
  simp [Covered]

@[simp] theorem covered_cons {hole : Hole} {rest : List Hole} {x : Int} :
    Covered (hole :: rest) x ↔
      (hole.first ≤ x ∧ x ≤ hole.last) ∨ Covered rest x := by
  simp [Covered]

theorem covers_iff {hole : Hole} {x : Int} :
    hole.covers x = true ↔ hole.first ≤ x ∧ x ≤ hole.last := by
  simp [covers]

theorem Spread.below_lt {below above : Int} {holes : List Hole}
    (hspread : Spread below above holes) :
    ∀ hole ∈ holes, below < hole.first ∧ hole.first ≤ hole.last ∧
      hole.last < above := by
  induction holes generalizing below with
  | nil => simp
  | cons head rest ih =>
      obtain ⟨hbelow, hle, habove, hrest⟩ := hspread
      intro hole hmem
      rcases List.mem_cons.mp hmem with rfl | hmem
      · exact ⟨hbelow, hle, habove⟩
      · have hlater := ih hrest hole hmem
        exact ⟨by omega, hlater.2⟩

theorem Spread.lt_of_covered {below above x : Int} {holes : List Hole}
    (hspread : Spread below above holes) (hcovered : Covered holes x) :
    below < x ∧ x < above := by
  obtain ⟨hole, hmem, hfirst, hlast⟩ := hcovered
  have := hspread.below_lt hole hmem
  omega

theorem Spread.mono_below {below below' above : Int} {holes : List Hole}
    (hspread : Spread below above holes) (hle : below' ≤ below) :
    Spread below' above holes := by
  cases holes with
  | nil => trivial
  | cons hole rest =>
      obtain ⟨hbelow, hrest⟩ := hspread
      exact ⟨by omega, hrest⟩

/-- The covered values determine the holes. -/
theorem Spread.eq_of_covered_iff {below above : Int} {holes holes' : List Hole}
    (hspread : Spread below above holes)
    (hspread' : Spread below above holes')
    (hsame : ∀ x, Covered holes x ↔ Covered holes' x) :
    holes = holes' := by
  induction holes generalizing below holes' with
  | nil =>
      cases holes' with
      | nil => rfl
      | cons hole' rest' =>
          have hle := hspread'.2.1
          have := (hsame hole'.first).mpr (by simp [hle])
          simp at this
  | cons hole rest ih =>
      cases holes' with
      | nil =>
          have hle := hspread.2.1
          have := (hsame hole.first).mp (by simp [hle])
          simp at this
      | cons hole' rest' =>
          obtain ⟨hbelow, hle, habove, hrest⟩ := hspread
          obtain ⟨hbelow', hle', habove', hrest'⟩ := hspread'
          have hafter : ∀ x, Covered rest x → hole.last + 1 < x :=
            fun x hx => (hrest.lt_of_covered hx).1
          have hafter' : ∀ x, Covered rest' x → hole'.last + 1 < x :=
            fun x hx => (hrest'.lt_of_covered hx).1
          simp only [covered_cons] at hsame
          have hfirst : hole.first = hole'.first := by
            have h := (hsame hole.first).mp (Or.inl ⟨le_refl _, hle⟩)
            have h' := (hsame hole'.first).mpr (Or.inl ⟨le_refl _, hle'⟩)
            have := hafter hole'.first
            have := hafter' hole.first
            grind
          have hlast : hole.last = hole'.last := by
            have h := (hsame (hole.last + 1))
            have h' := (hsame (hole'.last + 1))
            have := hafter (hole.last + 1)
            have := hafter' (hole'.last + 1)
            have := hafter (hole'.last + 1)
            have := hafter' (hole.last + 1)
            grind
          have heq : hole = hole' := by
            cases hole
            cases hole'
            simp_all
          subst heq
          congr 1
          refine ih hrest hrest' fun x => ?_
          have := hsame x
          have := hafter x
          have := hafter' x
          grind

theorem total_filter_add_total_filter_not (keep : Hole → Bool)
    (holes : List Hole) :
    total (holes.filter keep) + total (holes.filter fun hole => !keep hole) =
      total holes := by
  induction holes with
  | nil => rfl
  | cons hole rest ih =>
      by_cases hkeep : keep hole
      · simp [hkeep, total, ← ih]
        omega
      · simp [hkeep, total, ← ih]
        omega

end Hole

/-! ## Validity and membership -/

namespace IntDomain

instance : Membership Int IntDomain := ⟨fun d x => d.contains x = true⟩

structure Valid (d : IntDomain) : Prop where
  lower_le_upper : d.lower ≤ d.upper
  spread : Hole.Spread d.lower d.upper d.holes
  removed_eq : d.removed = Hole.total d.holes

theorem mem_iff_contains {d : IntDomain} {x : Int} :
    x ∈ d ↔ d.contains x = true := Iff.rfl

theorem mem_iff {d : IntDomain} {x : Int} :
    x ∈ d ↔ d.lower ≤ x ∧ x ≤ d.upper ∧ ¬Hole.Covered d.holes x := by
  rw [mem_iff_contains]
  simp only [contains, holeAt?, Bool.and_eq_true, decide_eq_true_eq,
    Option.isNone_iff_eq_none, List.find?_eq_none, Hole.covers_iff,
    Hole.Covered, not_exists, not_and, and_assoc]

theorem holeAt?_eq_none_iff {d : IntDomain} {x : Int} :
    d.holeAt? x = none ↔ ¬Hole.Covered d.holes x := by
  simp only [holeAt?, List.find?_eq_none, Hole.covers_iff, Hole.Covered,
    not_exists, not_and]

theorem of_holeAt?_eq_some {d : IntDomain} {x : Int} {hole : Hole}
    (hhole : d.holeAt? x = some hole) :
    hole ∈ d.holes ∧ hole.first ≤ x ∧ x ≤ hole.last := by
  unfold holeAt? at hhole
  have hcovers := List.find?_some hhole
  exact ⟨List.mem_of_find?_eq_some hhole, Hole.covers_iff.mp hcovers⟩

theorem Valid.lower_mem {d : IntDomain} (hvalid : d.Valid) : d.lower ∈ d := by
  refine mem_iff.mpr ⟨le_refl _, hvalid.lower_le_upper, fun hcovered => ?_⟩
  have := hvalid.spread.lt_of_covered hcovered
  omega

theorem Valid.upper_mem {d : IntDomain} (hvalid : d.Valid) : d.upper ∈ d := by
  refine mem_iff.mpr ⟨hvalid.lower_le_upper, le_refl _, fun hcovered => ?_⟩
  have := hvalid.spread.lt_of_covered hcovered
  omega

theorem lower_le_of_mem {d : IntDomain} {x : Int} (hx : x ∈ d) : d.lower ≤ x :=
  (mem_iff.mp hx).1

theorem le_upper_of_mem {d : IntDomain} {x : Int} (hx : x ∈ d) : x ≤ d.upper :=
  (mem_iff.mp hx).2.1

theorem isFixed_iff {d : IntDomain} : d.isFixed = true ↔ d.lower = d.upper := by
  simp [isFixed]

theorem eq_lower_of_isFixed {d : IntDomain} {x : Int}
    (hfixed : d.isFixed = true) (hx : x ∈ d) : x = d.lower := by
  have := isFixed_iff.mp hfixed
  have := lower_le_of_mem hx
  have := le_upper_of_mem hx
  omega

/-- A valid domain is determined by its members. -/
theorem Valid.eq_of_mem_iff {d d' : IntDomain}
    (hvalid : d.Valid) (hvalid' : d'.Valid)
    (hsame : ∀ x, x ∈ d ↔ x ∈ d') : d = d' := by
  have hlower : d.lower = d'.lower := by
    have := lower_le_of_mem ((hsame d.lower).mp hvalid.lower_mem)
    have := lower_le_of_mem ((hsame d'.lower).mpr hvalid'.lower_mem)
    omega
  have hupper : d.upper = d'.upper := by
    have := le_upper_of_mem ((hsame d.upper).mp hvalid.upper_mem)
    have := le_upper_of_mem ((hsame d'.upper).mpr hvalid'.upper_mem)
    omega
  have hspread' : Hole.Spread d.lower d.upper d'.holes := by
    rw [hlower, hupper]
    exact hvalid'.spread
  have hholes : d.holes = d'.holes := by
    refine hvalid.spread.eq_of_covered_iff hspread' fun x => ?_
    have hmem := hsame x
    rw [mem_iff, mem_iff, ← hlower, ← hupper] at hmem
    have := hvalid.spread.lt_of_covered (x := x)
    have := hspread'.lt_of_covered (x := x)
    grind
  have hremoved : d.removed = d'.removed := by
    rw [hvalid.removed_eq, hvalid'.removed_eq, hholes]
  cases d
  cases d'
  simp_all

/-! ## The list of members -/

theorem mem_valuesFrom {start upper x : Int} {holes : List Hole}
    (hle : start ≤ upper) (hspread : Hole.Spread start upper holes) :
    x ∈ valuesFrom start upper holes ↔
      start ≤ x ∧ x ≤ upper ∧ ¬Hole.Covered holes x := by
  induction holes generalizing start with
  | nil => simp [valuesFrom, mem_span]
  | cons hole rest ih =>
      obtain ⟨hbelow, hfirst, habove, hrest⟩ := hspread
      have hafter := hrest.lt_of_covered (x := x)
      simp only [valuesFrom, List.mem_append, mem_span,
        ih (by omega) hrest, Hole.covered_cons]
      grind

theorem pairwise_valuesFrom {start upper : Int} {holes : List Hole}
    (hle : start ≤ upper) (hspread : Hole.Spread start upper holes) :
    (valuesFrom start upper holes).Pairwise (· < ·) := by
  induction holes generalizing start with
  | nil => exact pairwise_span start upper
  | cons hole rest ih =>
      obtain ⟨hbelow, hfirst, habove, hrest⟩ := hspread
      refine List.pairwise_append.mpr
        ⟨pairwise_span _ _, ih (by omega) hrest, ?_⟩
      intro x hx y hy
      rw [mem_span] at hx
      rw [mem_valuesFrom (by omega) hrest] at hy
      omega

theorem length_valuesFrom {start upper : Int} {holes : List Hole}
    (hle : start ≤ upper) (hspread : Hole.Spread start upper holes) :
    (valuesFrom start upper holes).length + Hole.total holes =
      (upper - start + 1).toNat := by
  induction holes generalizing start with
  | nil =>
      simp only [valuesFrom, length_span, Hole.total]
      omega
  | cons hole rest ih =>
      obtain ⟨hbelow, hfirst, habove, hrest⟩ := hspread
      have htail := ih (by omega) hrest
      simp only [valuesFrom, List.length_append, length_span, Hole.total,
        Hole.size]
      omega

theorem Valid.mem_values {d : IntDomain} (hvalid : d.Valid) {x : Int} :
    x ∈ d.values ↔ x ∈ d := by
  rw [mem_iff]
  exact mem_valuesFrom hvalid.lower_le_upper hvalid.spread

theorem Valid.pairwise_values {d : IntDomain} (hvalid : d.Valid) :
    d.values.Pairwise (· < ·) :=
  pairwise_valuesFrom hvalid.lower_le_upper hvalid.spread

theorem Valid.nodup_values {d : IntDomain} (hvalid : d.Valid) :
    d.values.Nodup :=
  hvalid.pairwise_values.imp fun hlt => ne_of_lt hlt

theorem Valid.length_values {d : IntDomain} (hvalid : d.Valid) :
    d.values.length = d.size := by
  have hlength := length_valuesFrom hvalid.lower_le_upper hvalid.spread
  unfold values size
  rw [hvalid.removed_eq]
  omega

/-- A domain that lost a member is smaller. -/
theorem Valid.size_lt_of_ssubset {d d' : IntDomain}
    (hvalid : d.Valid) (hvalid' : d'.Valid)
    (hsubset : ∀ x, x ∈ d' → x ∈ d) (hne : d' ≠ d) : d'.size < d.size := by
  have hlost : ∃ x ∈ d, x ∉ d' := by
    by_contra hkept
    push Not at hkept
    exact hne (hvalid'.eq_of_mem_iff hvalid fun x =>
      ⟨hsubset x, fun hx => hkept x hx⟩)
  obtain ⟨x, hx, hx'⟩ := hlost
  have hnodup : (x :: d'.values).Nodup := by
    refine List.nodup_cons.mpr ⟨?_, hvalid'.nodup_values⟩
    rwa [hvalid'.mem_values]
  have hsub : (x :: d'.values) ⊆ d.values := by
    intro y hy
    rw [hvalid.mem_values]
    rcases List.mem_cons.mp hy with rfl | hy
    · exact hx
    · exact hsubset y (hvalid'.mem_values.mp hy)
  have hlength := (hnodup.subperm hsub).length_le
  rw [List.length_cons, hvalid.length_values, hvalid'.length_values] at hlength
  omega

theorem Valid.size_pos {d : IntDomain} (hvalid : d.Valid) : 0 < d.size := by
  rw [← hvalid.length_values]
  exact List.length_pos_of_mem (hvalid.mem_values.mpr hvalid.lower_mem)

theorem valid_interval {lower upper : Int} (hle : lower ≤ upper) :
    (interval lower upper).Valid :=
  ⟨hle, trivial, rfl⟩

theorem mem_interval {lower upper x : Int} :
    x ∈ interval lower upper ↔ lower ≤ x ∧ x ≤ upper := by
  simp [mem_iff, interval]

end IntDomain

end ConstraintSpace
