import ConstraintSpace.Proofs.Branching.Selection
import ConstraintSpace.Proofs.Space.Raising
import ConstraintSpace.Proofs.View.Passage

/-!
# The median of a view

The median is picked by its position among the values as they are iterated, in the order of
the values of the variable.  An increasing view iterates its own values in increasing order
and the position is that of the upper middle.  A decreasing view iterates them in decreasing
order, so that the same position counts from the other end: of an odd number of values it is
still the middle one, of an even number the lower of the two.
-/

namespace ConstraintSpace

namespace IntView

variable {s : Store} {v : IntView}

/-- The values of the view in increasing order. -/
def sortedValues (s : Store) (v : IntView) : List Int := (v.values s).mergeSort (· ≤ ·)

theorem sortedValues_perm (s : Store) (v : IntView) : (v.sortedValues s).Perm (v.values s) :=
  List.mergeSort_perm _ _

theorem Exact.mem_sortedValues (hexact : v.Exact s) (hvalid : s.Valid) {x : Int} :
    x ∈ v.sortedValues s ↔ v.contains s x = true := by
  rw [(sortedValues_perm s v).mem_iff, hexact.mem_values hvalid, hexact.contains_iff hvalid]

theorem length_sortedValues (hvalid : s.Valid) (v : IntView) :
    (v.sortedValues s).length = v.size s :=
  (sortedValues_perm s v).length_eq.trans (length_values hvalid v)

/-- A constant has one value, and any other view has as many as its variable, in an order
that the sign of the slope keeps or reverses. -/
theorem Exact.pairwise_values (hexact : v.Exact s) (hvalid : s.Valid) :
    (v.slope < 0 → (v.values s).Pairwise (· > ·)) ∧
      (0 ≤ v.slope → (v.values s).Pairwise (· < ·)) := by
  have hdomain := (domain_valid hvalid v).pairwise_values
  rw [hexact.values_eq hvalid, List.pairwise_map, List.pairwise_map]
  refine ⟨fun hslope => hdomain.imp fun {x y} hlt => ?_, fun hslope => ?_⟩
  · rw [v.valueAt_eq x, v.valueAt_eq y]
    have := mul_lt_mul_of_neg_left hlt hslope
    omega
  · cases hbase : v.base? with
    | none =>
        have hsingle : (IntDomain.interval 0 0).values = [0] := by decide
        simp only [domain, hbase, hsingle, List.pairwise_singleton]
    | some id =>
        refine hdomain.imp fun {x y} hlt => ?_
        have hpos : 0 < v.slope := lt_of_le_of_ne hslope (hexact.slope_ne_zero hbase).symm
        rw [v.valueAt_eq x, v.valueAt_eq y]
        have := mul_lt_mul_of_pos_left hlt hpos
        omega

theorem Exact.pairwise_sortedValues (hexact : v.Exact s) (hvalid : s.Valid) :
    (v.sortedValues s).Pairwise (· < ·) := by
  have hnodup : (v.sortedValues s).Nodup := by
    rw [(sortedValues_perm s v).nodup_iff]
    rcases lt_or_ge v.slope 0 with hslope | hslope
    · exact ((hexact.pairwise_values hvalid).1 hslope).imp fun hgt => ne_of_gt hgt
    · exact ((hexact.pairwise_values hvalid).2 hslope).imp fun hlt => ne_of_lt hlt
  have hsorted : (v.sortedValues s).Pairwise (· ≤ ·) := List.pairwise_mergeSort' _ _
  exact (hsorted.and hnodup).imp fun h => lt_of_le_of_ne h.1 h.2

/-- The iteration goes up the values or down them. -/
theorem Exact.sortedValues_eq (hexact : v.Exact s) (hvalid : s.Valid) :
    v.sortedValues s = if v.slope < 0 then (v.values s).reverse else v.values s := by
  have hsorted := hexact.pairwise_sortedValues hvalid
  split
  next hslope =>
    refine (sortedValues_perm s v |>.trans (List.reverse_perm _).symm).eq_of_pairwise'
      hsorted ?_
    exact List.pairwise_reverse.mpr ((hexact.pairwise_values hvalid).1 hslope)
  next hslope =>
    exact (sortedValues_perm s v).eq_of_pairwise' hsorted
      ((hexact.pairwise_values hvalid).2 (not_lt.mp hslope))

theorem Exact.getElem?_sortedValues (hexact : v.Exact s) (hvalid : s.Valid) {i : Nat}
    (hi : i < v.size s) :
    (v.sortedValues s)[if v.slope < 0 then v.size s - 1 - i else i]? = (v.values s)[i]? := by
  have hlength := length_values hvalid v
  rw [hexact.sortedValues_eq hvalid]
  split
  · rw [List.getElem?_reverse (by omega), hlength]
    congr 1
    omega
  · rfl

/-- Positions of the sorted values are told apart by what stands there. -/
theorem Exact.getElem?_sortedValues_inj (hexact : v.Exact s) (hvalid : s.Valid) {i j : Nat}
    {x : Int} (hi : (v.sortedValues s)[i]? = some x) :
    (v.sortedValues s)[j]? = some x ↔ i = j := by
  have hlt := (List.getElem?_eq_some_iff.mp hi).1
  have hnodup : (v.sortedValues s).Nodup :=
    (hexact.pairwise_sortedValues hvalid).imp fun hlt => ne_of_lt hlt
  rw [← hi]
  exact eq_comm.trans (List.getElem?_inj hlt hnodup)

end IntView

namespace IntSelection

variable {s : Store} {v : IntView}

/-- The selection gives the value at the middle position, rounded up for a view that is not
decreasing and down for a decreasing one.  So it is the upper median of the sorted values for
every view, unless a decreasing view has an even number of values: there it is the lower of
the two middle values. -/
theorem median_selects (harises : Space.Arises s) (hfit : v.Fit s) :
    (v.sortedValues s).Pairwise (· < ·) ∧ (v.sortedValues s).length = v.size s ∧
    (∀ x, x ∈ v.sortedValues s ↔ v.contains s x = true) ∧
    ∃ x, median.select s v = .ok (x, .median) ∧
      (v.sortedValues s)[if v.slope < 0 then (v.size s - 1) / 2 else v.size s / 2]? = some x ∧
      ((v.sortedValues s)[v.size s / 2]? = some x ↔ 0 ≤ v.slope ∨ v.size s % 2 = 1) := by
  have hvalid := harises.valid
  have hexact := hfit.exact
  have hlength := IntView.length_values hvalid v
  have hpos := IntView.size_pos hvalid v
  have hmiddle : v.size s / 2 < (v.values s).length := by omega
  refine ⟨hexact.pairwise_sortedValues hvalid, IntView.length_sortedValues hvalid v,
    fun x => hexact.mem_sortedValues hvalid, (v.values s)[v.size s / 2], ?_, ?_⟩
  · simp only [select, hlength, List.getElem?_eq_getElem hmiddle, Option.getD_some]
  have hselected : (v.sortedValues s)[if v.slope < 0 then (v.size s - 1) / 2
      else v.size s / 2]? = some (v.values s)[v.size s / 2] := by
    have hcounted : v.size s - 1 - v.size s / 2 = (v.size s - 1) / 2 := by omega
    rw [← List.getElem?_eq_getElem hmiddle,
      ← hexact.getElem?_sortedValues hvalid (hlength ▸ hmiddle), hcounted]
  refine ⟨hselected, ?_⟩
  rw [hexact.getElem?_sortedValues_inj hvalid hselected]
  split <;> omega

/-- The view `-2 * x - 1` of a variable with the values 0, 1, 3 and 4 has the middle values
-7 and -3.  The lower one is selected; on the variable itself it is the upper one. -/
theorem median_selects_descending :
    let v : IntView := .affine (.var 0) (-2) (-1)
    ∃ s, Space.performAll [.newSparse [0, 1, 3, 4]] Space.new = some s ∧ v.Fit s.store ∧
      v.sortedValues s.store = [-9, -7, -3, -1] ∧
      median.select s.store v = .ok (-7, .median) ∧
      median.select s.store (.var 0) = .ok (3, .median) := by
  intro v
  have hrun : (Space.performAll [.newSparse [0, 1, 3, 4]] Space.new).map
      (fun s => (s.store.int 0, s.store.ints.size)) =
        some ({ lower := 0, upper := 4, holes := [⟨2, 2⟩], removed := 1 }, 1) := by
    decide +kernel
  obtain ⟨s, hperform, hstore⟩ := Option.map_eq_some_iff.mp hrun
  obtain ⟨hdomain, hsize⟩ := Prod.mk.inj hstore
  have harises : Space.Arises s.store := .reached (Space.reaches_of_performAll hperform)
  have hknown : (IntView.var 0).known s.store = true :=
    IntView.known_var.mpr (hsize ▸ Nat.zero_lt_one)
  have hvar : (IntView.var 0).Fit s.store := ⟨hknown, trivial⟩
  have hfit : v.Fit s.store := by
    refine ⟨hknown, trivial, by decide, by decide, by decide, fun x hx => ?_⟩
    rw [IntView.domain_var, hdomain] at hx
    have hlower : 0 ≤ x := IntDomain.lower_le_of_mem hx
    have hupper : x ≤ 4 := IntDomain.le_upper_of_mem hx
    simp only [IntView.valueAt]
    unfold Fits32 lowest32 highest32
    omega
  have hsorted : v.sortedValues s.store = [-9, -7, -3, -1] := by
    rw [hfit.exact.sortedValues_eq harises.valid, hfit.exact.values_eq harises.valid,
      IntView.domain_affine, IntView.domain_var, hdomain]
    decide
  have hsorted' : (IntView.var 0).sortedValues s.store = [0, 1, 3, 4] := by
    rw [hvar.exact.sortedValues_eq harises.valid, hvar.exact.values_eq harises.valid,
      IntView.domain_var, hdomain]
    decide
  obtain ⟨-, hlength, -, x, hx, hmiddle, -⟩ := median_selects harises hfit
  obtain ⟨-, hlength', -, y, hy, hmiddle', -⟩ := median_selects harises hvar
  rw [hsorted] at hlength hmiddle
  rw [hsorted'] at hlength' hmiddle'
  rw [← hlength] at hmiddle
  rw [← hlength'] at hmiddle'
  obtain rfl : -7 = x := Option.some.inj hmiddle
  obtain rfl : 3 = y := Option.some.inj hmiddle'
  exact ⟨s, hperform, hfit, hsorted, hx, hy⟩

end IntSelection
end ConstraintSpace
