import ConstraintSpace.Proofs.Space.Posting
import ConstraintSpace.Proofs.Store.Fixed
import ConstraintSpace.Queens

/-!
# Queens on a board

A placement gives every column the row of its queen.  It is peaceful when no two queens
share a row or a diagonal.  The constraints of the puzzle say this with shifted rows: two
queens share a diagonal when their rows differ as much as their columns, up or down.  So
over an empty board the constraints accept the peaceful placements and nothing else.
-/

namespace ConstraintSpace.Queens

variable {n : Nat} {rows : Fin n → Fin n} {a : Assignment} {p : Propagator}

/-- No two of the queens, one in every column, share a row or a diagonal. -/
structure Peaceful (rows : Fin n → Fin n) : Prop where
  row : ∀ i j, i ≠ j → rows i ≠ rows j
  diagonal : ∀ i j, i ≠ j → |(rows i : Int) - rows j| ≠ |(i : Int) - j|

instance (rows : Fin n → Fin n) : Decidable (Peaceful rows) :=
  decidable_of_iff
    ((∀ i j, i ≠ j → rows i ≠ rows j) ∧
      ∀ i j, i ≠ j → |(rows i : Int) - rows j| ≠ |(i : Int) - j|)
    ⟨fun h => ⟨h.1, h.2⟩, fun h => ⟨h.row, h.diagonal⟩⟩

example : Peaceful (![1, 3, 0, 2] : Fin 4 → Fin 4) := by decide

/-- Queens that do not meet across two columns, the first one before the second. -/
theorem peaceful_iff_lt :
    Peaceful rows ↔ ∀ i j : Fin n, i < j → (rows i : Int) ≠ rows j ∧
      (rows i : Int) + i ≠ rows j + j ∧ (rows i : Int) - i ≠ rows j - j := by
  constructor
  · intro hpeaceful i j hlt
    have hne : i ≠ j := ne_of_lt hlt
    have hrow : (rows i : Int) ≠ rows j := by
      have := hpeaceful.row i j hne
      omega
    have hdiagonal := hpeaceful.diagonal i j hne
    rw [Ne, abs_eq_abs] at hdiagonal
    omega
  · intro happart
    have hboth : ∀ i j : Fin n, i ≠ j → (rows i : Int) ≠ rows j ∧
        (rows i : Int) + i ≠ rows j + j ∧ (rows i : Int) - i ≠ rows j - j := by
      intro i j hne
      rcases lt_or_gt_of_ne hne with hlt | hgt
      · exact happart i j hlt
      · obtain ⟨hrow, hrising, hfalling⟩ := happart j i hgt
        exact ⟨hrow.symm, hrising.symm, hfalling.symm⟩
    constructor
    · intro i j hne heq
      exact (hboth i j hne).1 (by rw [heq])
    · intro i j hne
      rw [Ne, abs_eq_abs]
      have := hboth i j hne
      omega

/-! ## Placements as assignments -/

/-- The assignment that puts the queens into their rows. -/
def assignment (rows : Fin n → Fin n) : Assignment where
  ints := List.ofFn fun i => ((rows i : Nat) : Int)
  sets := []

theorem int_assignment (rows : Fin n → Fin n) (i : Fin n) : (assignment rows).int i = rows i := by
  simp [Assignment.int, assignment]

theorem assignment_injective : Function.Injective (assignment (n := n)) := by
  intro rows rows' heq
  funext i
  have hint := congrArg (fun a => a.int i) heq
  simp only [int_assignment] at hint
  omega

/-- The domains of an empty board, where every column has all rows. -/
def board (n : Nat) : Store :=
  { Store.empty with ints := Array.replicate n (.interval 0 (Int.ofNat n - 1)) }

theorem int_board {id : Nat} (hid : id < n) :
    (board n).int id = .interval 0 (Int.ofNat n - 1) := by
  simp [Store.int, board, hid]

theorem measure_board (n : Nat) : (board n).measure = n * n := by
  have hsize : (IntDomain.interval 0 (Int.ofNat n - 1)).size = n := by
    simp [IntDomain.size, IntDomain.interval]
  have hsum : ∀ m : Nat, (Array.replicate m (IntDomain.interval 0 (Int.ofNat n - 1))).foldl
      (fun total d => total + d.size) 0 = m * n := by
    intro m
    induction m with
    | zero => simp
    | succ m ih => rw [Array.replicate_succ, Array.foldl_push, ih, hsize, Nat.succ_mul]
  exact congrArg (fun total => total + 0 + 0) (hsum n)

theorem assigns_board_iff : (board n).Assigns a ↔ ∃ rows : Fin n → Fin n, a = assignment rows := by
  constructor
  · intro ha
    have hrow : ∀ i : Fin n, ∃ row : Fin n, a.int i = row := by
      intro i
      have hmem := ha.int i (by simp [board])
      rw [int_board i.isLt, IntDomain.mem_interval, Int.ofNat_eq_natCast] at hmem
      exact ⟨⟨(a.int i).toNat, by omega⟩, (Int.toNat_of_nonneg hmem.1).symm⟩
    choose rows hrows using hrow
    have hlength : a.ints.length = n := by simpa [board] using ha.ints_length
    have hints : a.ints = (assignment rows).ints := by
      apply List.ext_getElem
      · simp [assignment, hlength]
      intro id hid hid'
      have hvalue := hrows ⟨id, hlength ▸ hid⟩
      rw [Assignment.int, List.getElem?_eq_getElem hid, Option.getD_some] at hvalue
      simpa [assignment] using hvalue
    have hsets : a.sets = [] := List.eq_nil_of_length_eq_zero ha.sets_length
    obtain ⟨ints, sets⟩ := a
    cases hints
    cases hsets
    exact ⟨rows, rfl⟩
  · rintro ⟨rows, rfl⟩
    refine ⟨⟨fun id hid => ?_, fun id hid => absurd hid (Nat.not_lt_zero id)⟩, ?_, rfl⟩
    · have hlt : id < n := by simpa [board] using hid
      rw [int_assignment rows ⟨id, hlt⟩, int_board hlt, IntDomain.mem_interval]
      have := (rows ⟨id, hlt⟩).isLt
      simp only [Int.ofNat_eq_natCast]
      omega
    · simp [assignment, board]

/-! ## What the constraints say -/

theorem mem_constraints : p ∈ constraints n ↔ ∃ i j, i < j ∧ j < n ∧ p ∈ apart i j := by
  simp only [constraints, pairs, List.mem_flatMap, List.mem_map, List.mem_range, List.mem_range'_1]
  constructor
  · rintro ⟨-, ⟨i, -, j, ⟨hle, hlt⟩, rfl⟩, hp⟩
    exact ⟨i, j, by omega, by omega, hp⟩
  · rintro ⟨i, j, hij, hj, hp⟩
    exact ⟨(i, j), ⟨i, by omega, j, by omega, rfl⟩, hp⟩

theorem value_var (a : Assignment) (i : Nat) : (IntView.var i).value a = a.int i := rfl

theorem value_plus_var (a : Assignment) (i : Nat) (shift : Int) :
    ((IntView.var i).plus shift).value a = a.int i + shift := by
  show 1 * a.int i + shift = a.int i + shift
  rw [one_mul]

theorem accepts_apart_iff {i j : Nat} :
    (∀ p ∈ apart i j, p.Accepts a) ↔ a.int i ≠ a.int j ∧
      a.int i + i ≠ a.int j + j ∧ a.int i - i ≠ a.int j - j := by
  simp only [apart, List.forall_mem_cons, List.not_mem_nil, false_implies, implies_true, and_true,
    Propagator.Accepts, Propagator.Holds, value_var, value_plus_var, sub_eq_add_neg]

/-- The constraints accept the peaceful placements. -/
theorem accepts_constraints_iff :
    (∀ p ∈ constraints n, p.Accepts (assignment rows)) ↔ Peaceful rows := by
  have hpairs : (∀ p ∈ constraints n, p.Accepts (assignment rows)) ↔
      ∀ i j : Fin n, i < j → ∀ p ∈ apart i j, p.Accepts (assignment rows) := by
    simp only [mem_constraints]
    constructor
    · intro haccepts i j hlt p hp
      exact haccepts p ⟨i, j, hlt, j.isLt, hp⟩
    · rintro haccepts p ⟨i, j, hij, hj, hp⟩
      exact haccepts ⟨i, by omega⟩ ⟨j, hj⟩ hij p hp
  rw [hpairs, peaceful_iff_lt]
  simp only [accepts_apart_iff, int_assignment]

/-! ## The constraints fit the board -/

/-- A shifted row is exact, as long as it is an integer of 32 bits. -/
theorem fit_plus_var {i : Nat} {shift : Int} (hi : i < n) (hlow : -n ≤ shift) (hhigh : shift ≤ n)
    (hsmall : 2 * (n : Int) ≤ highest32) : ((IntView.var i).plus shift).Fit (board n) := by
  have hsmall' : 2 * (n : Int) ≤ 2147483647 := hsmall
  refine ⟨by simp [IntView.known, IntView.plus, IntView.base?, Store.knows, board, hi], trivial,
    one_ne_zero, by decide, ?_, fun x hx => ?_⟩
  · unfold Fits32 lowest32 highest32
    omega
  · rw [IntView.domain_var, int_board hi, IntDomain.mem_interval] at hx
    simp only [Int.ofNat_eq_natCast] at hx
    simp only [IntView.valueAt]
    unfold Fits32 lowest32 highest32
    omega

theorem fit_of_mem_constraints (hsmall : 2 * (n : Int) ≤ highest32) (hp : p ∈ constraints n) :
    p.Fit (board n) := by
  obtain ⟨i, j, hij, hj, hp⟩ := mem_constraints.mp hp
  have hvar : ∀ {id : Nat}, id < n → (IntView.var id).Fit (board n) := by
    intro id hid
    exact ⟨by simp [IntView.known, IntView.base?, Store.knows, board, hid], trivial⟩
  have hi : i < n := by omega
  simp only [apart, List.mem_cons, List.not_mem_nil, or_false] at hp
  rcases hp with rfl | rfl | rfl
  · exact ⟨hvar hi, hvar hj⟩
  · exact ⟨fit_plus_var hi (by omega) (by omega) hsmall,
      fit_plus_var hj (by omega) (by omega) hsmall⟩
  · exact ⟨fit_plus_var hi (by omega) (by omega) hsmall,
      fit_plus_var hj (by omega) (by omega) hsmall⟩

theorem apart_of_mem_constraints (hp : p ∈ constraints n) : p.Apart := by
  obtain ⟨i, j, hij, -, hp⟩ := mem_constraints.mp hp
  have hne : j ≠ i := ne_of_gt hij
  simp only [apart, List.mem_cons, List.not_mem_nil, or_false] at hp
  rcases hp with rfl | rfl | rfl <;>
    simpa [Propagator.Apart, Propagator.watches, AnyView.base?, IntView.base?, IntView.plus]
      using hne

end ConstraintSpace.Queens
