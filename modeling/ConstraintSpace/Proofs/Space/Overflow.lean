import ConstraintSpace.Proofs.Search.Branches
import ConstraintSpace.Proofs.View.Chains

/-!
# Where a commit overflows

A commit to a part beyond the selected value takes the neighbour of the value as its bound.
Whatever the selection and whatever the coefficients of the view, the value lies between the
bounds that the view reads, which are 32-bit integers.  So the neighbour overflows exactly
where the value is the outermost of them, and apart from it only the division on the way of
a bound can overflow.  To take or to exclude one value never does.
-/

namespace ConstraintSpace

namespace IntView

variable {s : Store} {v : IntView} {value : Int}

/-- A value that the view contains is read where its variable has the value behind it. -/
theorem Formed.exists_reading_of_contains (hformed : v.Formed) (hvalue : Fits32 value)
    (hcontains : v.contains s value = true) : ∃ x ∈ v.domain s, v.reading x = value := by
  induction v generalizing value with
  | var id => exact ⟨value, IntDomain.mem_iff_contains.mpr hcontains, rfl⟩
  | const n =>
      obtain rfl : value = n := of_decide_eq_true hcontains
      exact ⟨0, IntDomain.mem_interval.mpr ⟨le_refl _, le_refl _⟩, rfl⟩
  | affine inner scale offset ih =>
      obtain ⟨hinner, hscale, -⟩ := hformed
      rw [contains] at hcontains
      cases hpreimage : preimage? scale offset value with
      | none => simp [hpreimage] at hcontains
      | some y =>
          rw [hpreimage] at hcontains
          have hy : Fits32 y := fits32_of_preimage? hpreimage
          obtain ⟨himage, hproduct⟩ :=
            (preimage?_eq_some_iff_fits64 value hscale hy).mp hpreimage
          obtain ⟨x, hx, rfl⟩ := ih hinner hy hcontains
          refine ⟨x, hx, ?_⟩
          rw [reading, image, clamp64_of_fits hproduct, himage,
            clamp64_of_fits (fits64_of_fits32 hvalue), clamp32_of_fits hvalue]
  | literal image ih => exact ih hformed hvalue hcontains

theorem Formed.fits32_between (hformed : v.Formed) (hvalid : s.Valid)
    (hlower : v.lower s ≤ value) (hupper : value ≤ v.upper s) : Fits32 value := by
  have hlow : Fits32 (v.bound s .lower) := hformed.fits32_bound hvalid
  have hhigh : Fits32 (v.bound s .upper) := hformed.fits32_bound hvalid
  exact ⟨hlow.1.trans hlower, hupper.trans hhigh.2⟩

end IntView

/-! ## Selected values -/

namespace IntSelection

variable {s : Store} {v : IntView} {selection next : IntSelection} {x : Int}

/-- The values of a table are 32-bit integers. -/
def Fits : IntSelection → Prop
  | preferred table => ∀ entry ∈ table.content, Fits32 entry.2
  | _ => True

theorem between_getD_values (hvalid : s.Valid) {i : Nat} (hi : i < (v.values s).length) :
    v.lower s ≤ (v.values s)[i]?.getD 0 ∧ (v.values s)[i]?.getD 0 ≤ v.upper s := by
  rw [List.getElem?_eq_getElem hi, Option.getD_some]
  obtain ⟨y, hy, hreading⟩ := IntView.exists_reading_of_mem_values hvalid (List.getElem_mem hi)
  rw [← hreading]
  exact IntView.between_of_reading hy

/-- Whatever is selected lies between the bounds that the view reads, also where the view
saturates. -/
theorem within_bounds (hvalid : s.Valid) (hformed : v.Formed) (hfits : selection.Fits)
    (hselect : selection.select s v = .ok (x, next)) : v.lower s ≤ x ∧ x ≤ v.upper s := by
  have hpos : 0 < (v.values s).length := by
    rw [IntView.length_values hvalid]
    exact IntView.size_pos hvalid v
  have hordered : v.lower s ≤ v.upper s := by
    have hread := IntView.between_of_reading (v := v) (IntView.domain_valid hvalid v).lower_mem
    exact hread.1.trans hread.2
  cases selection with
  | min =>
      cases hselect
      exact ⟨le_refl _, hordered⟩
  | max =>
      cases hselect
      exact ⟨hordered, le_refl _⟩
  | median =>
      cases hselect
      exact between_getD_values hvalid (Nat.div_lt_self hpos (by decide))
  | split =>
      cases hselect
      rw [Int.fdiv_eq_ediv_of_nonneg _ (by decide)]
      omega
  | random generator =>
      obtain ⟨n, g', hdraw, hn⟩ := Generator.exists_natBelow hpos generator
      simp only [select, hdraw] at hselect
      cases hselect
      exact between_getD_values hvalid hn
  | drawn draws position =>
      simp only [select] at hselect
      split at hselect
      · cases hselect
        exact between_getD_values hvalid (Nat.mod_lt _ hpos)
      · cases hselect
  | preferred table =>
      simp only [select] at hselect
      split at hselect
      next value hlookup =>
        cases hselect
        split
        next hcontains =>
          have hentry : (v, value) ∈ table.content := by
            obtain ⟨before, after, hsplit, -⟩ := List.lookup_eq_some_iff.mp hlookup
            rw [← List.mem_reverse, hsplit]
            exact List.mem_append_right _ List.mem_cons_self
          obtain ⟨y, hy, rfl⟩ :=
            hformed.exists_reading_of_contains (hfits _ hentry) hcontains
          exact IntView.between_of_reading hy
        next => exact ⟨le_refl _, hordered⟩
      next =>
        cases hselect
        exact ⟨le_refl _, hordered⟩

end IntSelection

/-! ## Commits -/

namespace IntCommit

variable {s : Store} {v : IntView} {x : Int} {alternative : Nat}

/-- The commit, where the neighbour of the value is a checked sum. -/
def commitChecked (c : IntCommit) (alternative : Nat) (view : IntView) (value : Int) :
    Narrow Change :=
  match c with
  | assignOrExclude =>
    if alternative = 0 then view.fixChecked value else view.removeChecked value
  | splitLower =>
    if alternative = 0 then view.setBoundChecked .upper value
    else
      match Machine.int32 (value + 1) with
      | some next => view.setBoundChecked .lower next
      | none => throw (.breached .overflow)
  | splitUpper =>
    if alternative = 0 then view.setBoundChecked .lower value
    else
      match Machine.int32 (value - 1) with
      | some previous => view.setBoundChecked .upper previous
      | none => throw (.breached .overflow)
  | multi _ =>
    match alternative with
    | 0 => view.fixChecked value
    | 1 => view.setBoundChecked .upper (clamp32 (value - 1))
    | _ => view.setBoundChecked .lower (clamp32 (value + 1))

/-- The neighbour of the value is no 32-bit integer, or the bound overflows on its way. -/
def Overflows (v : IntView) (x : Int) (alternative : Nat) : IntCommit → Prop
  | assignOrExclude => False
  | splitLower =>
      alternative = 0 ∧ v.Leaves64 .upper x ∨
        alternative ≠ 0 ∧ (x = highest32 ∨ v.Leaves64 .lower (x + 1))
  | splitUpper =>
      alternative = 0 ∧ v.Leaves64 .lower x ∨
        alternative ≠ 0 ∧ (x = lowest32 ∨ v.Leaves64 .upper (x - 1))
  | multi _ =>
      alternative = 1 ∧ v.Leaves64 .upper (clamp32 (x - 1)) ∨
        1 < alternative ∧ v.Leaves64 .lower (clamp32 (x + 1))

theorem commitChecked_eq (kind : IntCommit) (alternative : Nat) (hformed : v.Formed)
    (hvalid : s.Valid) (hx : Fits32 x) :
    kind.commitChecked alternative v x s = kind.commit alternative v x s := by
  have habove : Machine.int32 (x + 1) = if x = highest32 then none else some (x + 1) := by
    unfold Machine.int32
    unfold Fits32 at hx
    split <;> split <;> first | rfl | (unfold Fits32 lowest32 highest32 at *; omega)
  have hbelow : Machine.int32 (x - 1) = if x = lowest32 then none else some (x - 1) := by
    unfold Machine.int32
    unfold Fits32 at hx
    split <;> split <;> first | rfl | (unfold Fits32 lowest32 highest32 at *; omega)
  cases kind with
  | assignOrExclude =>
      simp only [commitChecked, commit]
      split
      · exact hformed.fixChecked_eq hvalid x
      · exact hformed.removeChecked_eq hvalid x
  | splitLower =>
      simp only [commitChecked, commit, habove]
      split
      · exact hformed.setBoundChecked_eq hvalid .upper x
      · split
        · rfl
        · exact hformed.setBoundChecked_eq hvalid .lower (x + 1)
  | splitUpper =>
      simp only [commitChecked, commit, hbelow]
      split
      · exact hformed.setBoundChecked_eq hvalid .lower x
      · split
        · rfl
        · exact hformed.setBoundChecked_eq hvalid .upper (x - 1)
  | multi n =>
      rcases alternative with _ | _ | later
      · exact hformed.fixChecked_eq hvalid x
      · exact hformed.setBoundChecked_eq hvalid .upper _
      · exact hformed.setBoundChecked_eq hvalid .lower _

theorem overflows_commit_iff (kind : IntCommit) (alternative : Nat) (hvalid : s.Valid)
    (hknown : v.known s = true) :
    Narrow.Overflows (kind.commit alternative v x) s ↔ kind.Overflows v x alternative := by
  have hbreach : Narrow.Overflows (throw (.breached .overflow) : Narrow Change) s := ⟨s, rfl⟩
  have hfix : ¬Narrow.Overflows (v.fix x) s :=
    (IntView.restricts_fix_source hvalid hknown x).not_overflows
  have hremove : ¬Narrow.Overflows (v.remove x) s :=
    (IntView.restricts_remove_source hvalid hknown x).not_overflows
  have hbound (side : Side) (bound : Int) :=
    IntView.setBound_overflows_iff hvalid hknown side bound
  cases kind with
  | assignOrExclude =>
      by_cases hzero : alternative = 0 <;> simp [commit, Overflows, hzero, hfix, hremove]
  | splitLower =>
      by_cases hzero : alternative = 0
      · simp [commit, Overflows, hzero, IntView.setUpper, hbound]
      · by_cases hlast : x = highest32 <;>
          simp [commit, Overflows, hzero, hlast, hbreach, IntView.setLower, hbound]
  | splitUpper =>
      by_cases hzero : alternative = 0
      · simp [commit, Overflows, hzero, IntView.setLower, hbound]
      · by_cases hlast : x = lowest32 <;>
          simp [commit, Overflows, hzero, hlast, hbreach, IntView.setUpper, hbound]
  | multi n =>
      rcases alternative with _ | _ | later
      · simp [commit, Overflows, hfix]
      · simp [commit, Overflows, IntView.setUpper, hbound]
      · simp [commit, Overflows, IntView.setLower, hbound]

/-- With room beyond the bounds of a view of few steps no alternative overflows. -/
theorem not_overflows_of_room {kind : IntCommit} {n : Nat} (hnear : v.Near n)
    (hshort : n < 4294967295) (hx : Fits32 x) (habove : kind = splitLower → x < highest32)
    (hbelow : kind = splitUpper → lowest32 < x) (alternative : Nat) :
    ¬kind.Overflows v x alternative := by
  have hstays {side : Side} {bound : Int} (hbound : Fits32 bound) : ¬v.Leaves64 side bound :=
    hnear.not_leaves64 hshort hbound
  cases kind with
  | assignOrExclude => exact not_false
  | splitLower =>
      have hroom := habove rfl
      have hnext : Fits32 (x + 1) := ⟨hx.1.trans (by omega), hroom⟩
      simp [Overflows, hstays hx, hstays hnext, hroom.ne]
  | splitUpper =>
      have hroom := hbelow rfl
      have hprevious : Fits32 (x - 1) := ⟨Int.le_sub_one_of_lt hroom, by have := hx.2; omega⟩
      simp [Overflows, hstays hx, hstays hprevious, hroom.ne']
  | multi n => simp [Overflows, hstays (fits32_clamp32 _)]

end IntCommit

/-! ## Commits to choices -/

theorem Propagator.notify_ne_overflow (p : Propagator) (s : Store) (localId : Nat)
    (event : Event) : p.notify s localId event ≠ .error .overflow := by
  cases p with
  | scripted script =>
      simp only [notify, Scripted.notify]
      repeat' split
      all_goals simp
  | _ => simp [notify]

namespace Space

variable {s t : Space} {c : Choice} {alternative : Nat} {b : ViewBrancher}
  {views : List IntView} {selection : IntSelection} {kind : IntCommit}

theorem schedule_ne_overflow (skip : Option Nat) (s u : Space) :
    schedule skip s ≠ .error (.breached .overflow) u := by
  intro hrun
  rcases schedule_cases skip s with
    ⟨breach, s', hbreach, n, -, p, -, hnotify⟩ | ⟨q, journal, hok, -⟩
  · obtain ⟨hsame, -⟩ := EStateM.Result.error.inj (hbreach.symm.trans hrun)
    obtain rfl := Fault.breached.inj hsame
    exact p.notify_ne_overflow _ _ _ hnotify
  · cases hok.symm.trans hrun

/-- A legal commit overflows exactly where its narrowing does. -/
theorem commit_overflows_iff_narrowing {brancher : Brancher} {narrowing : Narrow Change}
    (hok : t.failure = none) (hlegal : alternative < c.alternatives)
    (hb : t.branchers[c.brancher]? = some brancher)
    (hcommit : brancher.commit c alternative = .ok narrowing) :
    (∃ u, commit c alternative t = .error (.breached .overflow) u) ↔
      narrowing.Overflows t.store := by
  simp only [Space.commit, isFailed, hok, Option.isSome_none, Bool.false_eq_true, if_false,
    not_le.mpr hlegal, hb, hcommit, Narrow.Overflows]
  cases narrowing t.store with
  | ok change store => simp [schedule_ne_overflow]
  | error misstep store =>
      cases misstep with
      | emptied => simp
      | breached breach => simp

/-- Copies are committed alike. -/
theorem commit_copy_overflows_iff (hok : t.failure = none) (mode : CopyMode) (next : Nat) :
    (∃ u, commit c alternative (t.copy mode next).1 = .error (.breached .overflow) u) ↔
      ∃ u, commit c alternative t = .error (.breached .overflow) u := by
  have htwin := twin_copy hok mode next
  have himpartial := impartial_commit c alternative
  have hoblivious := oblivious_commit c alternative
  constructor
  · rintro ⟨u, hrun⟩
    exact htwin.symm.of_error himpartial hoblivious hrun
  · rintro ⟨u, hrun⟩
    exact htwin.of_error himpartial hoblivious hrun

/-- A choice of an integer brancher is made at an open view of it, with a value that was
selected there, and is committed to that view and value. -/
theorem selected_of_choice (hchoice : choice s = .ok c t)
    (hb : s.branchers[c.brancher]? = some (.viewValue b))
    (hbranching : b.branching = .int views selection kind) :
    ∃ v x next, views[c.position]? = some v ∧ c.value = .int x ∧
      selection.select s.store v = .ok (x, next) ∧ ∃ brancher,
        t.branchers[c.brancher]? = some brancher ∧
        ∀ alternative, brancher.commit c alternative = .ok (kind.commit alternative v x) := by
  obtain ⟨-, -, -, -, b', view, start, next, hb', hplace, hview, -, hselect, -⟩ :=
    of_choice hchoice
  obtain rfl := Brancher.viewValue.inj (Option.some.inj (hb.symm.trans hb'))
  simp only [hbranching, Branching.views, List.getElem?_map, Option.map_eq_some_iff] at hview
  obtain ⟨v, hv, rfl⟩ := hview
  simp only [hbranching, Branching.selectValue, hv] at hselect
  split at hselect
  next x selection' hvalue =>
    obtain ⟨hx, rfl⟩ := Prod.mk.inj (Except.ok.inj hselect)
    refine ⟨v, x, selection', hv, hx.symm, hvalue, _, hplace, fun alternative => ?_⟩
    simp only [Brancher.commit, Branching.commit, hv, ← hx, BranchValue.int?, Except.map]
  next => cases hselect

/-- Whatever the views and the selection, a commit to a choice, on the space or on a copy,
overflows exactly where the neighbour that it takes is no 32-bit integer or its bound
overflows on the way down.  The value lies between the bounds that the view reads, so neither
happens where these leave room and the view was not built by some `2 ^ 32` steps. -/
theorem commit_of_choice_overflows_iff (hreaches : new.Reaches s)
    (hchoice : choice s = .ok c t) (hb : s.branchers[c.brancher]? = some (.viewValue b))
    (hbranching : b.branching = .int views selection kind) (hfits : selection.Fits)
    (hviews : ∀ v ∈ views, v.known s.store = true ∧ v.Formed) :
    ∃ v x, views[c.position]? = some v ∧ c.value = .int x ∧
      v.lower s.store ≤ x ∧ x ≤ v.upper s.store ∧
      (∀ alternative, kind.commitChecked alternative v x t.store =
        kind.commit alternative v x t.store) ∧
      (∀ alternative < c.alternatives,
        ((∃ u, commit c alternative t = .error (.breached .overflow) u) ↔
          kind.Overflows v x alternative) ∧
        ∀ mode next,
          (∃ u, commit c alternative (t.copy mode next).1 = .error (.breached .overflow) u) ↔
            kind.Overflows v x alternative) ∧
      ∀ n < 4294967295, v.Near n → (kind = .splitLower → v.upper s.store < highest32) →
        (kind = .splitUpper → lowest32 < v.lower s.store) →
          ∀ alternative, ¬kind.Overflows v x alternative := by
  have hvalid : s.store.Valid := (hreaches.tidy tidy_new).sound.store
  obtain ⟨-, hstore, -, hok, -⟩ := of_choice hchoice
  obtain ⟨v, x, next, hv, hx, hselect, brancher, hbrancher, hcommit⟩ :=
    selected_of_choice hchoice hb hbranching
  obtain ⟨hknown, hformed⟩ := hviews v (List.mem_of_getElem? hv)
  obtain ⟨hlower, hupper⟩ := IntSelection.within_bounds hvalid hformed hfits hselect
  have hfits32 := hformed.fits32_between hvalid hlower hupper
  refine ⟨v, x, hv, hx, hlower, hupper, fun alternative => ?_, fun alternative hlegal => ?_,
    fun n hshort hnear habove hbelow => ?_⟩
  · rw [hstore]
    exact kind.commitChecked_eq alternative hformed hvalid hfits32
  · have hoverflows : (∃ u, commit c alternative t = .error (.breached .overflow) u) ↔
        kind.Overflows v x alternative := by
      rw [commit_overflows_iff_narrowing hok hlegal hbrancher (hcommit alternative), hstore]
      exact kind.overflows_commit_iff alternative hvalid hknown
    exact ⟨hoverflows, fun mode next => (commit_copy_overflows_iff hok mode next).trans hoverflows⟩
  · exact IntCommit.not_overflows_of_room hnear hshort hfits32
      (fun hkind => hupper.trans_lt (habove hkind))
      (fun hkind => (hbelow hkind).trans_le hlower)

/-- The view `x + 2147483646` of a variable of 0 and 1 takes the greatest 32-bit integer:
split at its maximum, the part above overflows and the part up to it does not. -/
theorem part_above_greatest_overflows :
    let v : IntView := .affine (.var 0) 1 2147483646
    let b : ViewBrancher :=
      { start := 0, selector := .inputOrder, branching := .int [v] .max .splitLower
        label := none, selectionNotices := false, commitNotices := false }
    ∃ s, performAll [.newInt 0 1, .addBrancher (.viewValue b), .status] new = some s ∧
      ∃ c t, choice s = .ok c t ∧ c.value = .int 2147483647 ∧
        (∃ u, commit c 1 t = .error (.breached .overflow) u) ∧
        ¬∃ u, commit c 0 t = .error (.breached .overflow) u := by
  intro v b
  let d : IntDomain := { lower := 0, upper := 1, holes := [], removed := 0 }
  let s : Space :=
    { new with store := { Store.empty with ints := #[d] }, branchers := #[.viewValue b] }
  have hperform :
      performAll [.newInt 0 1, .addBrancher (.viewValue b), .status] new = some s := rfl
  have hchoice : choice s = .ok ⟨0, 2, 0, .int 2147483647⟩ s := rfl
  have hviews : ∀ w ∈ [v], w.known s.store = true ∧ w.Formed := by
    intro w hw
    obtain rfl := List.mem_singleton.mp hw
    exact ⟨rfl, trivial, by decide, by decide⟩
  obtain ⟨w, x, hw, hx, -, -, -, hoverflows, -⟩ :=
    commit_of_choice_overflows_iff (reaches_of_performAll hperform) hchoice rfl rfl trivial hviews
  obtain rfl : v = w := Option.some.inj hw
  obtain rfl : 2147483647 = x := BranchValue.int.inj hx
  have hstays : ¬IntCommit.splitLower.Overflows v 2147483647 0 := by
    simp [IntCommit.Overflows, IntView.Leaves64, v]
  exact ⟨s, hperform, _, s, hchoice, rfl,
    (hoverflows 1 (by decide)).1.mpr (Or.inr ⟨by decide, Or.inl rfl⟩),
    (hoverflows 0 (by decide)).1.not.mpr hstays⟩

end Space

end ConstraintSpace
