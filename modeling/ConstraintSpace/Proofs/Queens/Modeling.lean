import ConstraintSpace.Proofs.Queens.Board
import ConstraintSpace.Proofs.Search.Descent

/-!
# The model of the puzzle

The rows, the constraints and the brancher are added one after the other, each by an act
that succeeds.  So the space of the puzzle is posed: it was built from the constraints
over an empty board, and its brancher covers all rows.  What it allows are the peaceful
placements.
-/

namespace ConstraintSpace.Queens

variable {n count : Nat} {ps : List Propagator} {s t : Space}

/-- A model of the puzzle that is being built: so many columns, and the constraints that
were posted, with nothing to branch on yet. -/
structure Draft (n count : Nat) (ps : List Propagator) (s : Space) : Prop where
  built : ∃ posted, Space.Built posted s ∧ posted.map Prod.snd = ps
  store : s.store =
    { Store.empty with ints := Array.replicate count (.interval 0 (Int.ofNat n - 1)) }
  ok : s.failure = none
  branchers : s.branchers = #[]

theorem Draft.new (n : Nat) : Draft n 0 [] Space.new where
  built := ⟨[], .new, rfl⟩
  store := rfl
  ok := rfl
  branchers := rfl

theorem Draft.not_failed (hdraft : Draft n count ps s) : ¬s.isFailed = true := by
  simp [Space.isFailed, hdraft.ok]

theorem ofBounds_rows (hpos : 1 ≤ n) (hsmall : 2 * (n : Int) ≤ highest32) :
    IntDomain.ofBounds 0 (Int.ofNat n - 1) = .ok (.interval 0 (Int.ofNat n - 1)) := by
  have hsmall' : 2 * (n : Int) ≤ 2147483647 := hsmall
  have hlower : Limits.checkInteger 0 = .ok () := rfl
  have hupper : Limits.checkInteger (Int.ofNat n - 1) = .ok () := by
    rw [Limits.checkInteger, if_pos]
    simp only [Limits.integerMin, Limits.integerMax, highest32, Int.ofNat_eq_natCast]
    omega
  have horder : ¬Int.ofNat n - 1 < 0 := by
    simp only [Int.ofNat_eq_natCast]
    omega
  rw [IntDomain.ofBounds, hlower, hupper]
  exact if_neg horder

/-! ## Adding to the model -/

theorem Draft.addRow (hdraft : Draft n count [] s) (hpos : 1 ≤ n)
    (hsmall : 2 * (n : Int) ≤ highest32) :
    ∃ id t, Space.newInt 0 (Int.ofNat n - 1) s = .ok id t ∧ Draft n (count + 1) [] t := by
  have hrun : Space.newInt 0 (Int.ofNat n - 1) s =
      .ok s.store.ints.size
        { s with store := (s.store.addInt (.interval 0 (Int.ofNat n - 1))).2 } := by
    simp only [Space.newInt, Space.addInt, ofBounds_rows hpos hsmall, bind, EStateM.bind,
      Space.checkNotFailed, if_neg hdraft.not_failed, Space.permit]
    rfl
  obtain ⟨posted, hbuilt, hposted⟩ := hdraft.built
  refine ⟨_, _, hrun, ⟨posted, ?_, hposted⟩, ?_, hdraft.ok, hdraft.branchers⟩
  · refine hbuilt.of_act (.newInt 0 (Int.ofNat n - 1)) trivial rfl ?_
    rw [Space.Act.perform, hrun, Space.resume]
  · simp only [hdraft.store, Store.addInt, Array.replicate_succ]

theorem Draft.addRows (hdraft : Draft n count [] s) (hpos : 1 ≤ n)
    (hsmall : 2 * (n : Int) ≤ highest32) (more : Nat) :
    ∃ t, Queens.addRows n more s = .ok () t ∧ Draft n (count + more) [] t := by
  induction more generalizing count s with
  | zero => exact ⟨s, rfl, hdraft⟩
  | succ more ih =>
      obtain ⟨id, u, hrow, hdraft'⟩ := hdraft.addRow hpos hsmall
      obtain ⟨t, hrows, hdone⟩ := ih hdraft'
      refine ⟨t, ?_, ?_⟩
      · simp only [Queens.addRows, bind, EStateM.bind, hrow, hrows]
      · rwa [Nat.add_right_comm] at hdone

theorem Draft.addPropagator (hdraft : Draft n count ps s) {p : Propagator}
    (hfit : p.Fit s.store) :
    ∃ id t, Space.addPropagator p none s = .ok id t ∧ t.store = s.store ∧
      Draft n count (ps ++ [p]) t := by
  have hrun : Space.addPropagator p none s = .ok s.slots.size (s.register p) := by
    rw [Space.addPropagator_eq hfit, if_neg hdraft.not_failed]
  obtain ⟨posted, hbuilt, hposted⟩ := hdraft.built
  refine ⟨_, _, hrun, rfl, ⟨posted ++ [(s.slots.size, p)], ?_, ?_⟩, hdraft.store, hdraft.ok,
    hdraft.branchers⟩
  · have hact : Space.Act.posted s (.addPropagator p none) = [(s.slots.size, p)] := by
      rw [Space.Act.posted, if_neg hdraft.not_failed]
    rw [← hact]
    refine .act (.addPropagator p none) hbuilt hfit ?_
    rw [Space.Act.perform, hrun, Space.resume]
  · rw [List.map_append, hposted]
    rfl

theorem Draft.addAll (hdraft : Draft n count ps s) {more : List Propagator}
    (hfit : ∀ p ∈ more, p.Fit s.store) :
    ∃ t, Queens.addAll more s = .ok () t ∧ Draft n count (ps ++ more) t := by
  induction more generalizing ps s with
  | nil => exact ⟨s, rfl, by rwa [List.append_nil]⟩
  | cons p rest ih =>
      obtain ⟨id, u, hadd, hstore, hdraft'⟩ := hdraft.addPropagator (hfit p List.mem_cons_self)
      have hfit' : ∀ q ∈ rest, q.Fit u.store := by
        intro q hq
        rw [hstore]
        exact hfit q (List.mem_cons_of_mem p hq)
      obtain ⟨t, hrest, hdone⟩ := ih hdraft' hfit'
      refine ⟨t, ?_, ?_⟩
      · simp only [Queens.addAll, bind, EStateM.bind, hadd, hrest]
      · rwa [List.append_assoc] at hdone

/-! ## Branching -/

theorem views_branching (n : Nat) (b : QueensBranching) :
    (branching n b).views = (List.range n).map fun id => .int (.var id) := by
  unfold branching
  cases b.value <;> simp [Branching.views]

theorem progressive_branching (n : Nat) (b : QueensBranching) : (branching n b).Progressive := by
  unfold branching
  cases b.value <;> simp [Branching.Progressive]

theorem listed_branching (n : Nat) (b : QueensBranching) : (branching n b).Listed (board n) := by
  have hfits : ∀ v ∈ (List.range n).map IntView.var, v.Fit (board n) := by
    intro v hv
    obtain ⟨id, hid, rfl⟩ := List.mem_map.mp hv
    refine ⟨?_, trivial⟩
    simpa [IntView.known, IntView.base?, Store.knows, board] using hid
  unfold branching
  cases b.value with
  | split => exact ⟨hfits, trivial, Or.inr ⟨rfl, rfl⟩⟩
  | _ => exact ⟨hfits, trivial, Or.inl rfl⟩

/-- With a brancher over all rows the model is posed. -/
theorem Draft.pose (hdraft : Draft n n (constraints n) s) (b : QueensBranching) :
    ∃ id t posted, Space.addBrancher
        (.viewValue ⟨0, b.selector, branching n b, none, false, false⟩) s = .ok id t ∧
      t.Posed posted ∧ posted.map Prod.snd = constraints n ∧ t.store = board n := by
  let brancher : ViewBrancher := ⟨0, b.selector, branching n b, none, false, false⟩
  obtain ⟨posted, hbuilt, hposted⟩ := hdraft.built
  have hstore : s.store = board n := hdraft.store
  obtain ⟨t, hrun, hkept, hok, hbranchers⟩ : ∃ t,
      Space.addBrancher (.viewValue brancher) s = .ok s.branchers.size t ∧
        t.store = s.store ∧ t.failure = none ∧ t.branchers = #[.viewValue brancher] := by
    refine ⟨_, (Space.addBrancher_eq _ s).trans (if_neg hdraft.not_failed), rfl, hdraft.ok, ?_⟩
    exact congrArg (·.push (.viewValue brancher)) hdraft.branchers
  have hstore' : t.store = board n := hkept.trans hstore
  have honly : ∀ (j : Nat) (b' : ViewBrancher), t.branchers[j]? = some (.viewValue b') →
      b' = brancher := by
    intro j b' hb'
    rw [hbranchers] at hb'
    match j with
    | 0 => exact (Brancher.viewValue.inj (Option.some.inj hb')).symm
    | j + 1 => simp at hb'
  refine ⟨_, t, posted, hrun, ⟨?_, ?_, hok, ?_, ?_, ?_⟩, hposted, hstore'⟩
  · refine hbuilt.of_act (.addBrancher (.viewValue brancher)) ⟨?_, ?_⟩ rfl ?_
    · show (branching n b).Listed s.store
      rw [hstore]
      exact listed_branching n b
    · intro v hv
      obtain rfl := Brancher.viewValue.inj hv
      rfl
    · rw [Space.Act.perform, hrun, Space.resume]
  · intro e he
    have hmem : e.2 ∈ posted.map Prod.snd := List.mem_map_of_mem he
    rw [hposted] at hmem
    exact apart_of_mem_constraints hmem
  · intro j b' hb'
    obtain rfl := honly j b' hb'
    exact progressive_branching n b
  · intro id hid
    have hlt : id < n := by simpa [hstore', board] using hid
    refine ⟨0, brancher, .var id, by rw [hbranchers]; rfl, ?_, rfl⟩
    show AnyView.int (.var id) ∈ (branching n b).views
    rw [views_branching]
    exact List.mem_map.mpr ⟨id, List.mem_range.mpr hlt, rfl⟩
  · intro id hid
    rw [hstore'] at hid
    exact absurd hid (Nat.not_lt_zero id)

/-! ## The puzzle -/

/-- The model of the puzzle is built, over an empty board, and posed. -/
theorem exists_create (b : QueensBranching) (hpos : 1 ≤ n) (hsmall : 2 * (n : Int) ≤ highest32) :
    ∃ posted space, create n b = .ok ⟨space, n⟩ ∧ space.Posed posted ∧
      posted.map Prod.snd = constraints n ∧ space.store = board n := by
  obtain ⟨u, hrows, hdraft⟩ := (Draft.new n).addRows hpos hsmall n
  rw [Nat.zero_add] at hdraft
  have hfit : ∀ p ∈ constraints n, p.Fit u.store := by
    intro p hp
    rw [hdraft.store]
    exact fit_of_mem_constraints hsmall hp
  obtain ⟨v, hall, hdraft'⟩ := hdraft.addAll hfit
  rw [List.nil_append] at hdraft'
  obtain ⟨id, t, posted, hadd, hposed, hposted, hstore⟩ := hdraft'.pose b
  have hviews : (branching n b).views.isEmpty = false := by
    rw [views_branching, List.isEmpty_map, List.isEmpty_eq_false_iff, Ne, List.range_eq_nil]
    omega
  have hbrancher : ViewBrancher.create b.selector (branching n b) none false false =
      .ok ⟨0, b.selector, branching n b, none, false, false⟩ := by
    rw [ViewBrancher.create, hviews]
    rfl
  have hbuild : build n b Space.new = .ok () t := by
    simp only [build, bind, EStateM.bind, hrows, hall, hbrancher, Space.permit, hadd]
    rfl
  refine ⟨posted, t, ?_, hposed, hposted, hstore⟩
  have hfits : ¬highest32 < (n : Int) := by
    have : 2 * (n : Int) ≤ 2147483647 := hsmall
    unfold highest32
    omega
  have hne : n ≠ 0 := by omega
  simp only [create, if_neg hfits, if_neg hne, hbuild]

/-- A space of the puzzle over an empty board allows the peaceful placements. -/
theorem allows_iff_peaceful {posted : List (Nat × Propagator)} {a : Assignment}
    (hposted : posted.map Prod.snd = constraints n) (hstore : s.store = board n) :
    s.Allows posted a ↔ ∃ rows : Fin n → Fin n, Peaceful rows ∧ a = assignment rows := by
  have haccepts : (∀ e ∈ posted, e.2.Accepts a) ↔ ∀ p ∈ constraints n, p.Accepts a := by
    rw [← hposted, List.forall_mem_map]
  rw [Space.Allows, hstore, assigns_board_iff, haccepts]
  constructor
  · rintro ⟨⟨rows, rfl⟩, hall⟩
    exact ⟨rows, accepts_constraints_iff.mp hall, rfl⟩
  · rintro ⟨rows, hpeaceful, rfl⟩
    exact ⟨⟨rows, rfl⟩, accepts_constraints_iff.mpr hpeaceful⟩

end ConstraintSpace.Queens
