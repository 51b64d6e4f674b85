import ConstraintSpace.Branching.Commit
import ConstraintSpace.Proofs.Store.Change
import ConstraintSpace.View.Float

/-!
# The two parts of a float commit

A commit to a double `m` keeps what is at most `m` in one alternative and what is at least
the successor of `m` in the other.  The order of doubles is that of their ordinals, negation
changes the sign of the ordinal, and the successor of a number adds one to it, across both
zeros and every exponent.  So nothing lies between a number and its successor, however often
the view negates its variable, and each value of the view is left by one alternative only.
-/

namespace ConstraintSpace

namespace Double

variable {x y : Double}

/-! ## The order of numbers -/

theorem le_trans {z : Double} (hfirst : x.le y = true) (hsecond : y.le z = true) :
    x.le z = true := by
  rw [le_iff] at *
  exact ⟨hfirst.1, hsecond.2.1, hfirst.2.2.trans hsecond.2.2⟩

theorem not_le_of_lt (hlt : x.lt y = true) : ¬y.le x = true := by
  rw [lt_iff] at hlt
  rw [le_iff]
  exact fun hle => absurd hle.2.2 (not_le.mpr hlt.2.2)

theorem le_or_lt (hx : x.isNaN = false) (hy : y.isNaN = false) :
    x.le y = true ∨ y.lt x = true := by
  rw [le_iff, lt_iff]
  exact (le_or_gt x.ordinal y.ordinal).imp (fun h => ⟨hx, hy, h⟩) fun h => ⟨hy, hx, h⟩

theorem le_of_lt (hlt : x.lt y = true) : x.le y = true := by
  rw [lt_iff] at hlt
  exact le_iff.mpr ⟨hlt.1, hlt.2.1, hlt.2.2.le⟩

/-! ## Patterns and ordinals -/

/-- The patterns without a sign stand above zero in order, the others below it in reverse. -/
theorem ordinal_eq (x : Double) :
    x.ordinal =
      if x.bits.toNat < signBit then (x.bits.toNat : Int) else signBit - x.bits.toNat := by
  have hlt : x.bits.toNat < 2 * signBit := x.bits.toNat_lt
  unfold ordinal
  by_cases hpositive : x.bits.toNat < signBit
  · have hsign : x.negative = false := decide_eq_false (not_le.mpr hpositive)
    rw [hsign, if_neg Bool.false_ne_true, if_pos hpositive, magnitude,
      Nat.mod_eq_of_lt hpositive]
  · have hle := not_lt.mp hpositive
    have hsign : x.negative = true := decide_eq_true hle
    rw [hsign, if_pos rfl, if_neg hpositive, magnitude, Nat.mod_eq_sub_mod hle,
      Nat.mod_eq_of_lt (by omega)]
    omega

theorem natAbs_ordinal (x : Double) : x.ordinal.natAbs = x.magnitude := by
  unfold ordinal
  split <;> simp

theorem isNaN_eq_false_iff :
    x.isNaN = false ↔ -infinite ≤ x.ordinal ∧ x.ordinal ≤ infinite := by
  rw [isNaN, decide_eq_false_iff_not, ← natAbs_ordinal]
  omega

theorem isFinite_iff :
    x.isFinite = true ↔ -infinite < x.ordinal ∧ x.ordinal < infinite := by
  rw [isFinite, decide_eq_true_eq, ← natAbs_ordinal]
  omega

theorem isNaN_of_isFinite (hfinite : x.isFinite = true) : x.isNaN = false := by
  rw [isFinite_iff] at hfinite
  rw [isNaN_eq_false_iff]
  omega

/-! ## Negation -/

theorem toNat_bits_neg (x : Double) :
    x.neg.bits.toNat = (x.bits.toNat + signBit) % (2 * signBit) :=
  UInt64.toNat_add x.bits 0x8000000000000000

@[simp] theorem ordinal_neg (x : Double) : x.neg.ordinal = -x.ordinal := by
  have hlt : x.bits.toNat < 2 * signBit := x.bits.toNat_lt
  simp only [ordinal_eq, toNat_bits_neg]
  unfold signBit at *
  split <;> split <;> omega

@[simp] theorem isNaN_neg (x : Double) : x.neg.isNaN = x.isNaN := by
  rw [← Bool.not_inj_iff, Bool.eq_iff_iff]
  simp only [Bool.not_eq_true', isNaN_eq_false_iff, ordinal_neg]
  omega

theorem isFinite_neg (x : Double) : x.neg.isFinite = x.isFinite := by
  rw [Bool.eq_iff_iff, isFinite_iff, isFinite_iff, ordinal_neg]
  omega

theorem neg_neg (x : Double) : x.neg.neg = x := by
  have hdouble : (0x8000000000000000 : UInt64) + 0x8000000000000000 = 0 := by decide
  cases x with
  | mk bits =>
      simp only [neg, mk.injEq, UInt64.add_assoc, hdouble]
      exact UInt64.add_zero bits

theorem neg_le_comm (x y : Double) : x.neg.le y = y.neg.le x := by
  rw [Bool.eq_iff_iff, le_iff, le_iff, isNaN_neg, isNaN_neg, ordinal_neg, ordinal_neg,
    neg_le, and_left_comm]

theorem le_neg_comm (x y : Double) : x.le y.neg = y.le x.neg := by
  rw [Bool.eq_iff_iff, le_iff, le_iff, isNaN_neg, isNaN_neg, ordinal_neg, ordinal_neg,
    le_neg, and_left_comm]

/-! ## The successor -/

/-- One step in the pattern is one step in the order: up for a positive pattern, down for a
negative one, and from either zero to the least positive double. -/
theorem ordinal_successor (hnumber : x.isNaN = false) (hbelow : x.ordinal ≠ infinite) :
    x.successor.ordinal = x.ordinal + 1 := by
  have hlt : x.bits.toNat < 2 * signBit := x.bits.toNat_lt
  have hbounds := isNaN_eq_false_iff.mp hnumber
  unfold successor
  rw [if_neg (by simp [hnumber, hbelow])]
  by_cases hzero : x.ordinal = 0
  · rw [if_pos hzero, hzero]
    decide
  rw [if_neg hzero]
  by_cases hpositive : x.bits.toNat < signBit
  · have hsign : x.negative = false := decide_eq_false (not_le.mpr hpositive)
    have hordinal : x.ordinal = x.bits.toNat := by rw [ordinal_eq, if_pos hpositive]
    have hbits : (x.bits + 1).toNat = x.bits.toNat + 1 := by
      rw [UInt64.toNat_add, UInt64.toNat_one]
      unfold signBit at hpositive
      omega
    rw [hsign, if_neg Bool.false_ne_true, ordinal_eq, hbits, hordinal]
    rw [hordinal] at hbounds
    unfold signBit infinite at *
    rw [if_pos (by omega)]
    omega
  · have hsign : x.negative = true := decide_eq_true (not_lt.mp hpositive)
    have hordinal : x.ordinal = signBit - x.bits.toNat := by rw [ordinal_eq, if_neg hpositive]
    have hone : (1 : UInt64) ≤ x.bits := by
      rw [UInt64.le_iff_toNat_le, UInt64.toNat_one]
      unfold signBit at hpositive
      omega
    have hbits : (x.bits - 1).toNat = x.bits.toNat - 1 := by
      rw [UInt64.toNat_sub_of_le _ _ hone, UInt64.toNat_one]
    rw [hsign, if_pos rfl, ordinal_eq, hbits, hordinal]
    rw [hordinal] at hzero
    rw [if_neg (by omega)]
    omega

theorem successor_of_infinite (htop : x.ordinal = infinite) : x.successor = x := by
  unfold successor
  rw [if_pos (by simp [htop])]

theorem isNaN_successor (hnumber : x.isNaN = false) : x.successor.isNaN = false := by
  by_cases htop : x.ordinal = infinite
  · rwa [successor_of_infinite htop]
  · have hbounds := isNaN_eq_false_iff.mp hnumber
    rw [isNaN_eq_false_iff, ordinal_successor hnumber htop]
    omega

/-- The successor of a number is the least double above it, unless it is infinity. -/
theorem successor_le_iff (hx : x.isNaN = false) (hy : y.isFinite = true) :
    x.successor.le y = true ↔ x.lt y = true := by
  have hy' := isNaN_of_isFinite hy
  rw [isFinite_iff] at hy
  simp only [le_iff, lt_iff, isNaN_successor hx, hx, hy', true_and]
  by_cases htop : x.ordinal = infinite
  · rw [successor_of_infinite htop]
    omega
  · rw [ordinal_successor hx htop]
    omega

theorem not_between_successor (x y : Double) :
    ¬(x.lt y = true ∧ y.lt x.successor = true) := by
  rw [lt_iff, lt_iff]
  rintro ⟨⟨hx, -, hlow⟩, -, -, hhigh⟩
  by_cases htop : x.ordinal = infinite
  · rw [successor_of_infinite htop] at hhigh
    omega
  · rw [ordinal_successor hx htop] at hhigh
    omega

end Double

/-! ## Narrowing a bound -/

/-- The condition of a bound on doubles. -/
def Side.KeepsDouble : Side → Double → Double → Prop
  | .lower, bound, x => bound.le x = true
  | .upper, bound, x => x.le bound = true

theorem Side.keepsDouble_opposite (side : Side) (bound x : Double) :
    side.opposite.KeepsDouble bound.neg x ↔ side.KeepsDouble bound x.neg := by
  cases side with
  | lower => rw [opposite, KeepsDouble, KeepsDouble, Double.le_neg_comm]
  | upper => rw [opposite, KeepsDouble, KeepsDouble, Double.neg_le_comm]

namespace FloatDomain

/-- The doubles between the bounds. -/
def Has (d : FloatDomain) (x : Double) : Prop := d.lower.le x = true ∧ x.le d.upper = true

/-- The operation leaves the doubles of the domain that satisfy `keep`, or gives no domain
where there are none. -/
def Leaves (op : FloatDomain → Option (FloatDomain × EventSet)) (keep : Double → Prop)
    (d : FloatDomain) : Prop :=
  (op d = none ∧ ∀ x, d.Has x → ¬keep x) ∨
    ∃ d' events, op d = some (d', events) ∧ ∀ x, d'.Has x ↔ d.Has x ∧ keep x

variable {d : FloatDomain} {value : Double}

theorem setLower_leaves (hlower : d.lower.isNaN = false) (hvalue : value.isNaN = false) :
    Leaves (setLower value) (Side.lower.KeepsDouble value) d := by
  unfold Leaves setLower
  split
  next hbelow =>
    exact Or.inr ⟨d, _, rfl, fun x =>
      (and_iff_left_of_imp fun hx => Double.le_trans hbelow hx.1).symm⟩
  next hbelow =>
    have hraised := Double.le_of_lt ((Double.le_or_lt hvalue hlower).resolve_left hbelow)
    split
    next habove =>
      exact Or.inl ⟨rfl, fun x hx hkept =>
        Double.not_le_of_lt habove (Double.le_trans hkept hx.2)⟩
    next habove =>
      exact Or.inr ⟨_, _, rfl, fun x => ⟨fun hx => ⟨⟨Double.le_trans hraised hx.1, hx.2⟩, hx.1⟩,
        fun hx => ⟨hx.2, hx.1.2⟩⟩⟩

theorem setUpper_leaves (hupper : d.upper.isNaN = false) (hvalue : value.isNaN = false) :
    Leaves (setUpper value) (Side.upper.KeepsDouble value) d := by
  unfold Leaves setUpper
  split
  next habove =>
    exact Or.inr ⟨d, _, rfl, fun x =>
      (and_iff_left_of_imp fun hx => Double.le_trans hx.2 habove).symm⟩
  next habove =>
    have hdropped := Double.le_of_lt ((Double.le_or_lt hupper hvalue).resolve_left habove)
    split
    next hbelow =>
      exact Or.inl ⟨rfl, fun x hx hkept =>
        Double.not_le_of_lt hbelow (Double.le_trans hx.1 hkept)⟩
    next hbelow =>
      exact Or.inr ⟨_, _, rfl, fun x => ⟨fun hx => ⟨⟨hx.1, Double.le_trans hx.2 hdropped⟩, hx.2⟩,
        fun hx => ⟨hx.1.1, hx.2⟩⟩⟩

end FloatDomain

/-! ## Views -/

namespace FloatView

/-- The doubles between the bounds that the view reads. -/
def Has (s : Store) (v : FloatView) (x : Double) : Prop :=
  (v.lower s).le x = true ∧ x.le (v.upper s) = true

theorem has_var (s : Store) (id : Nat) (x : Double) :
    (var id).Has s x ↔ (s.float id).Has x := Iff.rfl

theorem has_neg (s : Store) (inner : FloatView) (x : Double) :
    (neg inner).Has s x ↔ inner.Has s x.neg := by
  have hlower : (neg inner).lower s = (inner.upper s).neg := rfl
  have hupper : (neg inner).upper s = (inner.lower s).neg := rfl
  rw [Has, Has, hlower, hupper, Double.neg_le_comm, Double.le_neg_comm, and_comm]

/-- The computation leaves the doubles of the view that satisfy `keep`, or is refused and
changes nothing where there are none. -/
def Leaves (v : FloatView) (m : Narrow Change) (keep : Double → Prop) (s : Store) : Prop :=
  (m s = .error .emptied s ∧ ∀ x, v.Has s x → ¬keep x) ∨
    ∃ change s', m s = .ok change s' ∧ ∀ x, v.Has s' x ↔ v.Has s x ∧ keep x

variable {s : Store} {v : FloatView} {value : Double} {keep : Double → Prop}

theorem Leaves.neg {inner : FloatView} {m : Narrow Change} {keep' : Double → Prop}
    (hleaves : inner.Leaves m keep s) (hsame : ∀ x, keep x.neg ↔ keep' x) :
    (neg inner).Leaves m keep' s := by
  simp only [Leaves, has_neg, ← hsame]
  rcases hleaves with ⟨hrun, hempty⟩ | ⟨change, s', hrun, hmem⟩
  · exact Or.inl ⟨hrun, fun x => hempty x.neg⟩
  · exact Or.inr ⟨change, s', hrun, fun x => hmem x.neg⟩

theorem Leaves.congr {m : Narrow Change} {keep' : Double → Prop} (hleaves : v.Leaves m keep s)
    (hsame : ∀ x, v.Has s x → (keep x ↔ keep' x)) : v.Leaves m keep' s := by
  rcases hleaves with ⟨hrun, hempty⟩ | ⟨change, s', hrun, hmem⟩
  · exact Or.inl ⟨hrun, fun x hx => (hsame x hx).not.mp (hempty x hx)⟩
  · exact Or.inr ⟨change, s', hrun, fun x => (hmem x).trans (and_congr_right (hsame x))⟩

theorem leaves_narrowFloat {id : Nat} {op : FloatDomain → Option (FloatDomain × EventSet)}
    (hid : id < s.floats.size) (hop : FloatDomain.Leaves op keep (s.float id)) :
    (var id).Leaves (Store.narrowFloat id op) keep s := by
  have hread : s.floats[id]? = some (s.float id) := by
    rw [Store.float, Array.getElem?_eq_getElem hid, Option.getD_some]
  rcases hop with ⟨hnone, hempty⟩ | ⟨d', events, hsome, hmem⟩
  · exact Or.inl ⟨by simp only [Store.narrowFloat, hread, hnone], hempty⟩
  · have hrun : Store.narrowFloat id op s = .ok (.ofEvents events)
        ({ s with floats := s.floats.setIfInBounds id d' }.record (.float id) events) := by
      simp only [Store.narrowFloat, hread, hsome]
    refine Or.inr ⟨_, _, hrun, fun x => ?_⟩
    have hafter : ({ s with floats := s.floats.setIfInBounds id d' }.record
        (.float id) events).float id = d' := by
      simp only [Store.float, Store.floats_record, Store.getD_setIfInBounds hid, if_true]
    rw [has_var, has_var, hafter]
    exact hmem x

/-- The bounds of the variable are finite. -/
def Finite (s : Store) (v : FloatView) : Prop :=
  (s.float v.base).lower.isFinite = true ∧ (s.float v.base).upper.isFinite = true

theorem Leaves.of_run {m m' : Narrow Change} (hrun : m s = m' s) (hleaves : v.Leaves m' keep s) :
    v.Leaves m keep s := by
  unfold Leaves at *
  rwa [hrun]

/-- However often a view negates its variable, a bound leaves the doubles that keep to it. -/
theorem setBound_leaves (hknown : v.known s = true) (hfinite : v.Finite s)
    (hvalue : value.isNaN = false) (side : Side) :
    v.Leaves (v.setBound side value) (side.KeepsDouble value) s := by
  induction v generalizing side value with
  | var id =>
      have hid : id < s.floats.size := of_decide_eq_true hknown
      have hnumber : ¬(s.knows (.float id) && value.isNaN) = true := by simp [hvalue]
      cases side with
      | lower =>
          have hlower := Double.isNaN_of_isFinite hfinite.1
          have hrun : (var id).setBound .lower value s =
              Store.narrowFloat id (FloatDomain.setLower value) s := if_neg hnumber
          exact .of_run hrun (leaves_narrowFloat hid (FloatDomain.setLower_leaves hlower hvalue))
      | upper =>
          have hupper := Double.isNaN_of_isFinite hfinite.2
          have hrun : (var id).setBound .upper value s =
              Store.narrowFloat id (FloatDomain.setUpper value) s := if_neg hnumber
          exact .of_run hrun (leaves_narrowFloat hid (FloatDomain.setUpper_leaves hupper hvalue))
  | neg inner ih =>
      have hnumber : value.neg.isNaN = false := by rw [Double.isNaN_neg, hvalue]
      have hinner := ih hknown hfinite hnumber side.opposite
      -- the equation of the second case would be checked by comparing the two bit patterns
      unfold setBound
      exact hinner.neg fun x => by rw [Side.keepsDouble_opposite, Double.neg_neg]

theorem isFinite_of_has (hfinite : v.Finite s) {x : Double} (hx : v.Has s x) :
    x.isFinite = true := by
  induction v generalizing x with
  | var id =>
      have hlower := Double.isFinite_iff.mp hfinite.1
      have hupper := Double.isFinite_iff.mp hfinite.2
      have habove := (Double.le_iff.mp hx.1).2.2
      have hbelow := (Double.le_iff.mp hx.2).2.2
      exact Double.isFinite_iff.mpr ⟨hlower.1.trans_le habove, hbelow.trans_lt hupper.2⟩
  | neg inner ih =>
      rw [← Double.isFinite_neg]
      exact ih hfinite ((has_neg s inner x).mp hx)

end FloatView

/-! ## The alternatives -/

namespace FloatCommit

/-- The alternative whose part is what is at most the branched value. -/
def lowerPart : FloatCommit → Nat → Bool
  | lowerFirst, alternative => alternative = 0
  | upperFirst, alternative => alternative ≠ 0

/-- The doubles of the alternative's part. -/
def Part (c : FloatCommit) (alternative : Nat) (m x : Double) : Prop :=
  if c.lowerPart alternative then x.le m = true else m.lt x = true

/-- The commit to the alternative leaves `x` in the view; one that is refused leaves nothing. -/
def Keeps (c : FloatCommit) (alternative : Nat) (v : FloatView) (m : Double) (s : Store)
    (x : Double) : Prop :=
  ∃ change s', c.commit alternative v m s = .ok change s' ∧ v.Has s' x

variable {v : FloatView} {s : Store} {m : Double}

theorem commit_eq (c : FloatCommit) (alternative : Nat) (v : FloatView) (m : Double) :
    c.commit alternative v m =
      if c.lowerPart alternative then v.setBound .upper m
      else v.setBound .lower m.successor := by
  cases c <;> by_cases hzero : alternative = 0 <;>
    simp [commit, lowerPart, hzero, FloatView.setLower, FloatView.setUpper]

/-- A finite double is above a number where it is at least the number's successor, so the
commit leaves its part of the view. -/
theorem commit_leaves (hknown : v.known s = true) (hfinite : v.Finite s)
    (hm : m.isNaN = false) (c : FloatCommit) (alternative : Nat) :
    v.Leaves (c.commit alternative v m) (c.Part alternative m) s := by
  unfold Part
  rw [commit_eq]
  split
  · exact FloatView.setBound_leaves hknown hfinite hm .upper
  · have hnumber := Double.isNaN_successor hm
    exact (FloatView.setBound_leaves hknown hfinite hnumber .lower).congr fun x hx =>
      Double.successor_le_iff hm (FloatView.isFinite_of_has hfinite hx)

theorem keeps_iff_of_leaves {c : FloatCommit} {alternative : Nat} {keep : Double → Prop}
    (hleaves : v.Leaves (c.commit alternative v m) keep s) (x : Double) :
    c.Keeps alternative v m s x ↔ v.Has s x ∧ keep x := by
  unfold Keeps
  rcases hleaves with ⟨hrun, hempty⟩ | ⟨change, s', hrun, hmem⟩
  · simp only [hrun, reduceCtorEq, false_and, exists_false, false_iff]
    exact fun hx => hempty x hx.1 hx.2
  · simp only [hrun, ← hmem, EStateM.Result.ok.injEq]
    constructor
    · rintro ⟨_, _, ⟨rfl, rfl⟩, hx⟩
      exact hx
    · exact fun hx => ⟨_, _, ⟨rfl, rfl⟩, hx⟩

/-- A number is at most the branched value or above it, and never both. -/
theorem part_zero_iff (c : FloatCommit) (hm : m.isNaN = false) {x : Double}
    (hx : x.isNaN = false) : c.Part 0 m x ↔ ¬c.Part 1 m x := by
  have habove : m.lt x = true ↔ ¬x.le m = true :=
    ⟨Double.not_le_of_lt, (Double.le_or_lt hx hm).resolve_left⟩
  cases c <;> simp [Part, lowerPart, habove]

/-- Every alternative leaves its part of the view or reports that the part is empty, and each
double of the view is left by exactly one of the two.  No double lies between the branched
value and the successor at which the part above it starts. -/
theorem parts_complementary (hknown : v.known s = true) (hfinite : v.Finite s)
    (hm : m.isNaN = false) (c : FloatCommit) :
    (∀ alternative, c.commit alternative v m s = .error .emptied s ∨
      ∃ change s', c.commit alternative v m s = .ok change s') ∧
    (∀ alternative x,
      c.Keeps alternative v m s x ↔ v.Has s x ∧ c.Part alternative m x) ∧
    (∀ x, v.Has s x → (c.Keeps 0 v m s x ↔ ¬c.Keeps 1 v m s x)) ∧
    ∀ x : Double, ¬(m.lt x = true ∧ x.lt m.successor = true) := by
  have hleaves := commit_leaves hknown hfinite hm c
  have hkeeps (alternative x) := keeps_iff_of_leaves (hleaves alternative) x
  refine ⟨fun alternative => ?_, hkeeps, fun x hx => ?_, Double.not_between_successor m⟩
  · exact (hleaves alternative).imp And.left fun ⟨change, s', hrun, _⟩ => ⟨change, s', hrun⟩
  · have hnumber := Double.isNaN_of_isFinite (FloatView.isFinite_of_has hfinite hx)
    simp only [hkeeps, hx, true_and]
    exact part_zero_iff c hm hnumber

/-- Three negations of a variable between the doubles nearest to zero, branched at the one
below: the part above it starts at the negative zero, and the zeros are in that part only. -/
theorem parts_complementary_at_zero :
    let s : Store := { Store.empty with floats := #[⟨⟨0x8000000000000001⟩, ⟨1⟩⟩] }
    let v := FloatView.negated 0 3
    let m : Double := ⟨0x8000000000000001⟩
    m.successor = ⟨0x8000000000000000⟩ ∧
      (∀ x, v.Has s x → (lowerFirst.Keeps 0 v m s x ↔ ¬lowerFirst.Keeps 1 v m s x)) ∧
      lowerFirst.Keeps 0 v m s m ∧
      lowerFirst.Keeps 1 v m s ⟨0x8000000000000000⟩ ∧ lowerFirst.Keeps 1 v m s ⟨0⟩ := by
  intro s v m
  have hknown : v.known s = true := rfl
  have hfinite : v.Finite s := by unfold FloatView.Finite; decide +kernel
  have hparts := parts_complementary hknown hfinite (by decide +kernel : m.isNaN = false) lowerFirst
  have hkeeps := hparts.2.1
  refine ⟨by decide +kernel, hparts.2.2.1, (hkeeps 0 m).mpr ?_,
    (hkeeps 1 ⟨0x8000000000000000⟩).mpr ?_, (hkeeps 1 ⟨0⟩).mpr ?_⟩ <;>
    unfold FloatView.Has Part <;> decide +kernel

end FloatCommit
end ConstraintSpace
