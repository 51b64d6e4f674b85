import ConstraintSpace.Proofs.Branching.Selection

/-!
# Choices and their alternatives

A brancher over fitting views moves its cursor to the first view that is not
fixed and proposes a choice there.  The choice has two alternatives: the first
one keeps the assignments that satisfy a condition, the second one those that
do not.
-/

namespace ConstraintSpace

namespace AnyView

variable {s s' : Store} {view : AnyView}

/-- The view is over an integer or a set variable. -/
def Discrete : AnyView → Prop
  | float _ => False
  | _ => True

/-- A variable that was never created reads as open, so a fixed view is known. -/
theorem known_of_isFixed (hdiscrete : view.Discrete) (hfixed : view.isFixed s = true) :
    view.known s = true := by
  by_contra hunknown
  cases view with
  | float v => exact hdiscrete.elim
  | int v =>
      cases hbase : v.base? with
      | none => simp [known, IntView.known, hbase] at hunknown
      | some id =>
          have hnone : s.ints[id]? = none := by
            simpa [known, IntView.known, hbase, Store.knows] using hunknown
          simp only [isFixed, IntView.isFixed, hbase, Store.int, hnone, Option.getD_none]
            at hfixed
          exact absurd hfixed (by decide)
  | set id =>
      have hnone : s.sets[id]? = none := by simpa [known, Store.knows] using hunknown
      simp only [isFixed, Store.set, hnone, Option.getD_none] at hfixed
      exact absurd hfixed (by decide)

/-- A fixed view stays fixed in every refinement. -/
theorem isFixed_refines (hdiscrete : view.Discrete) (hvalid : s.Valid) (hvalid' : s'.Valid)
    (hrefines : s.Refines s') (hfixed : view.isFixed s = true) : view.isFixed s' = true := by
  have hknown := known_of_isFixed hdiscrete hfixed
  cases view with
  | float v => exact hdiscrete.elim
  | int v =>
      simp only [isFixed, IntView.isFixed_eq] at hfixed ⊢
      have hdomain := IntView.domain_valid hvalid' v
      have hlower := IntView.domain_refines hrefines hknown hdomain.lower_mem
      have hupper := IntView.domain_refines hrefines hknown hdomain.upper_mem
      rw [IntDomain.isFixed_iff, IntDomain.eq_lower_of_isFixed hfixed hlower,
        IntDomain.eq_lower_of_isFixed hfixed hupper]
  | set id =>
      have hid : id < s.sets.size := by simpa [known, Store.knows] using hknown
      have hshrinks := hrefines.set_shrinks id hid
      simp only [isFixed] at hfixed ⊢
      rw [hshrinks.eq_of_isFixed (hvalid.set id).toSpanned (hvalid'.set id).toSpanned hfixed]
      exact hfixed

end AnyView

namespace IntView

variable {s : Store} {v : IntView} {x : Int} {alternative : Nat}

/-- A value is fixed first, then removed. -/
theorem Fit.assignOrExclude_keeps (hfit : v.Fit s) (hvalid : s.Valid) (x : Int)
    (halternative : alternative < 2) :
    Store.KeepsExactly (IntCommit.assignOrExclude.commit alternative v x)
      (fun a => alternative = 0 ↔ v.value a = x) s := by
  obtain rfl | rfl : alternative = 0 ∨ alternative = 1 := by omega
  · exact (hfit.fix_keeps hvalid x).congr fun a _ => by simp
  · exact (hfit.remove_keeps hvalid x).congr fun a _ => by simp

/-- Split below its upper bound, a view first keeps the values up to there, then the others:
no lax value gets into the part that is not its own. -/
theorem Fit.splitLower_keeps (hfit : v.Fit s) (hvalid : s.Valid) (hlower : v.lower s ≤ x)
    (hupper : x < v.upper s) (halternative : alternative < 2) :
    Store.KeepsExactly (IntCommit.splitLower.commit alternative v x)
      (fun a => alternative = 0 ↔ v.value a ≤ x) s := by
  have hlow := hfit.exact.fits32_lower hvalid
  have hhigh := hfit.exact.fits32_upper hvalid
  unfold Fits32 at hlow hhigh
  obtain rfl | rfl : alternative = 0 ∨ alternative = 1 := by omega
  · have hbound : Fits32 x := by
      unfold Fits32
      omega
    refine (hfit.setUpper_keeps hvalid hbound).congr fun a ha => ?_
    simp only [true_iff]
    refine or_iff_left_of_imp fun hlax => ?_
    obtain ⟨w, hw, hleast⟩ := hfit.exists_lower hvalid
    have := hfit.value_le_of_lax hvalid hlax hw
    omega
  · have hbound : Fits32 (x + 1) := by
      unfold Fits32
      omega
    have hne : x ≠ highest32 := by omega
    have hrun : IntCommit.splitLower.commit 1 v x = v.setLower (x + 1) := by
      simp only [IntCommit.commit, one_ne_zero, if_false, hne]
    rw [hrun]
    refine (hfit.setLower_keeps hvalid hbound).congr fun a ha => ?_
    simp only [one_ne_zero, false_iff, not_le]
    refine (or_iff_left_of_imp fun hlax => ?_).trans Int.add_one_le_iff
    obtain ⟨w, hw, hgreatest⟩ := hfit.exists_upper hvalid
    have := hfit.le_value_of_lax hvalid hlax hw
    omega

end IntView

/-- An element is required in the one alternative and forbidden in the other. -/
theorem SetCommit.keeps (commit : SetCommit) {s : Store} (hvalid : s.Valid) {id : Nat}
    (hid : id < s.sets.size) (x : Int) {alternative : Nat} (halternative : alternative < 2) :
    Store.KeepsExactly (commit.commit alternative id x)
      (fun a => alternative = 0 ↔ (commit = .includeOrExclude ↔ x ∈ a.set id)) s := by
  have hrequire := Store.narrowSet_keepsExactly (SetDomain.require_restricts x) hvalid hid
  have hforbid := Store.narrowSet_keepsExactly (SetDomain.forbid_restricts x) hvalid hid
  have hcases : alternative = 0 ∨ alternative = 1 := by omega
  cases commit with
  | includeOrExclude =>
      rcases hcases with rfl | rfl
      · exact hrequire.congr fun a _ => by simp
      · exact hforbid.congr fun a _ => by simp
  | excludeOrInclude =>
      rcases hcases with rfl | rfl
      · exact hforbid.congr fun a _ => by simp
      · exact hrequire.congr fun a _ => by simp

namespace Branching

variable {s s' : Store} {b : Branching} {c : Choice}

/-- A branching over fitting integer views, which assigns or excludes a selected
value or splits at the middle, or one over created set variables. -/
def Listed (s : Store) : Branching → Prop
  | int views selection commit =>
      (∀ v ∈ views, v.Fit s) ∧ selection.Supplied ∧
        (commit = .assignOrExclude ∨ selection = .split ∧ commit = .splitLower)
  | float _ _ => False
  | set views _ _ => ∀ id ∈ views, id < s.sets.size

/-- What is listed of a branching, for the view at one position only. -/
def Suited (s : Store) (position : Nat) : Branching → Prop
  | int views selection commit => ∃ v, views[position]? = some v ∧ v.Fit s ∧
      selection.Supplied ∧
        (commit = .assignOrExclude ∨ selection = .split ∧ commit = .splitLower)
  | float _ _ => False
  | set views _ _ => ∃ id, views[position]? = some id ∧ id < s.sets.size

/-- The choice names an open view of the branching and what was selected there. -/
def Apt (s : Store) (c : Choice) : Branching → Prop
  | int views selection _ => ∃ v x, views[c.position]? = some v ∧ c.value = .int x ∧
      v.isFixed s = false ∧ (selection ≠ .split → ∃ y ∈ v.domain s, v.valueAt y = x) ∧
        (selection = .split → x = (v.lower s + v.upper s).fdiv 2)
  | float _ _ => False
  | set views _ _ => ∃ id x, views[c.position]? = some id ∧ c.value = .int x ∧
      x ∈ (s.set id).unknown

/-- Every alternative narrows: a middle that may lie in a hole is not excluded. -/
def Progressive : Branching → Prop
  | int _ selection commit => selection = .split → commit ≠ .assignOrExclude
  | _ => True

/-- The branchings have the same views, and differ in what was drawn at most. -/
structure Akin (b b' : Branching) : Prop where
  views_eq : b'.views = b.views
  progressive : b.Progressive → b'.Progressive
  listed : ∀ s, b.Listed s → b'.Listed s
  suited : ∀ s position, b.Suited s position → b'.Suited s position

theorem Akin.refl (b : Branching) : b.Akin b := ⟨rfl, fun h => h, fun _ h => h, fun _ _ h => h⟩

theorem Akin.trans {b b' b'' : Branching} (hfirst : b.Akin b') (hsecond : b'.Akin b'') :
    b.Akin b'' where
  views_eq := hsecond.views_eq.trans hfirst.views_eq
  progressive := fun h => hsecond.progressive (hfirst.progressive h)
  listed := fun s h => hsecond.listed s (hfirst.listed s h)
  suited := fun s position h => hsecond.suited s position (hfirst.suited s position h)

theorem Listed.refines (hlisted : b.Listed s) (hrefines : s.Refines s') :
    b.Listed s' := by
  cases b with
  | int views selection commit =>
      exact ⟨fun v hv => (hlisted.1 v hv).refines hrefines, hlisted.2⟩
  | float views commit => exact hlisted
  | set views selection commit =>
      exact fun id hid => (hlisted id hid).trans_le hrefines.sets_size

theorem Listed.known (hlisted : b.Listed s) :
    ∀ view ∈ b.views, view.known s = true := by
  intro view hview
  cases b with
  | int views selection commit =>
      obtain ⟨v, hv, rfl⟩ := List.mem_map.mp hview
      exact (hlisted.1 v hv).known
  | float views commit => exact hlisted.elim
  | set views selection commit =>
      obtain ⟨id, hid, rfl⟩ := List.mem_map.mp hview
      simpa [AnyView.known, Store.knows] using hlisted id hid

theorem Listed.discrete (hlisted : b.Listed s) : ∀ view ∈ b.views, view.Discrete := by
  intro view hview
  cases b with
  | int views selection commit =>
      obtain ⟨v, -, rfl⟩ := List.mem_map.mp hview
      trivial
  | float views commit => exact hlisted.elim
  | set views selection commit =>
      obtain ⟨id, -, rfl⟩ := List.mem_map.mp hview
      trivial

theorem Listed.suited (hlisted : b.Listed s) {position : Nat} {view : AnyView}
    (hview : b.views[position]? = some view) : b.Suited s position := by
  cases b with
  | int views selection commit =>
      simp only [Branching.views, List.getElem?_map, Option.map_eq_some_iff] at hview
      obtain ⟨v, hv, -⟩ := hview
      exact ⟨v, hv, hlisted.1 v (List.mem_of_getElem? hv), hlisted.2⟩
  | float views commit => exact hlisted.elim
  | set views selection commit =>
      simp only [Branching.views, List.getElem?_map, Option.map_eq_some_iff] at hview
      obtain ⟨id, hid, -⟩ := hview
      exact ⟨id, hid, hlisted id (List.mem_of_getElem? hid)⟩

theorem Suited.alternatives {position : Nat} (hsuited : b.Suited s position) :
    b.alternatives = 2 := by
  cases b with
  | int views selection commit =>
      obtain ⟨-, -, -, -, rfl | ⟨-, rfl⟩⟩ := hsuited <;> rfl
  | float views commit => rfl
  | set views selection commit => rfl

/-- At an open view a value is selected, and the views stay the same. -/
theorem Suited.exists_selectValue {position : Nat} (hsuited : b.Suited s position)
    (hvalid : s.Valid) {view : AnyView} (hview : b.views[position]? = some view)
    (hopen : view.isFixed s = false) :
    ∃ x next, b.selectValue s position = .ok (.int x, next) ∧ b.Akin next ∧
      ∀ brancher, next.Apt s ⟨brancher, next.alternatives, position, .int x⟩ := by
  cases b with
  | int views selection commit =>
      obtain ⟨v, hv, hfit, hsupplied, hcommit⟩ := hsuited
      obtain rfl : view = .int v := by simpa [Branching.views, hv] using hview.symm
      obtain ⟨x, next, hselect, hnext, hsplit, hvalue, hmiddle⟩ :=
        IntSelection.exists_select hsupplied hfit hvalid
      have hcommit' : commit = .assignOrExclude ∨ next = .split ∧ commit = .splitLower :=
        hcommit.imp_right fun h => ⟨hsplit.mpr h.1, h.2⟩
      refine ⟨x, .int views next commit, by simp only [selectValue, hv, hselect],
        ⟨rfl, fun h heq => h (hsplit.mp heq), fun _ h => ⟨h.1, hnext, hcommit'⟩, ?_⟩,
        fun _ => ?_⟩
      · rintro s' position' ⟨v', hv', hfit', -⟩
        exact ⟨v', hv', hfit', hnext, hcommit'⟩
      · exact ⟨v, x, hv, rfl, hopen, fun hne => hvalue fun h => hne (hsplit.mpr h),
          fun heq => hmiddle (hsplit.mp heq)⟩
  | float views commit => exact hsuited.elim
  | set views selection commit =>
      obtain ⟨id, hid, -⟩ := hsuited
      obtain rfl : view = .set id := by simpa [Branching.views, hid] using hview.symm
      obtain ⟨x, hselect, hunknown⟩ := selection.exists_select hvalid hopen
      exact ⟨x, .set views selection commit, by simp only [selectValue, hid, hselect],
        .refl _, fun _ => ⟨id, x, hid, rfl, hunknown⟩⟩

theorem Apt.suited (hapt : b.Apt s c) (hlisted : b.Listed s) : b.Suited s c.position := by
  cases b with
  | int views selection commit =>
      obtain ⟨v, -, hv, -⟩ := hapt
      exact ⟨v, hv, hlisted.1 v (List.mem_of_getElem? hv), hlisted.2⟩
  | float views commit => exact hlisted.elim
  | set views selection commit =>
      obtain ⟨id, -, hid, -⟩ := hapt
      exact ⟨id, hid, hlisted id (List.mem_of_getElem? hid)⟩

/-! ## The two alternatives -/

/-- The condition under which an assignment belongs to the first alternative. -/
def First (c : Choice) (a : Assignment) : Branching → Prop
  | int views _ commit => ∃ v x, views[c.position]? = some v ∧ c.value = .int x ∧
      if commit = .assignOrExclude then v.value a = x else v.value a ≤ x
  | float _ _ => False
  | set views _ commit => ∃ id x, views[c.position]? = some id ∧ c.value = .int x ∧
      (commit = .includeOrExclude ↔ x ∈ a.set id)

/-- The middle between the bounds of an open view lies below the upper one. -/
theorem middle_lt {lower upper : Int} (hopen : lower < upper) :
    lower ≤ (lower + upper).fdiv 2 ∧ (lower + upper).fdiv 2 < upper := by
  rw [Int.fdiv_eq_ediv_of_nonneg _ (by decide)]
  omega

theorem first_int_iff {views : List IntView} {selection : IntSelection}
    {commit : IntCommit} {v : IntView} {x : Int} {a : Assignment}
    (hv : views[c.position]? = some v) (hx : c.value = .int x) :
    (int views selection commit).First c a ↔
      if commit = .assignOrExclude then v.value a = x else v.value a ≤ x := by
  refine ⟨fun ⟨v', x', hv', hx', hfirst⟩ => ?_, fun hfirst => ⟨v, x, hv, hx, hfirst⟩⟩
  obtain rfl : v = v' := by simpa [hv] using hv'
  obtain rfl : x = x' := by simpa [hx] using hx'
  exact hfirst

theorem first_set_iff {views : List Nat} {selection : SetSelection}
    {commit : SetCommit} {id : Nat} {x : Int} {a : Assignment}
    (hid : views[c.position]? = some id) (hx : c.value = .int x) :
    (set views selection commit).First c a ↔
      (commit = .includeOrExclude ↔ x ∈ a.set id) := by
  refine ⟨fun ⟨id', x', hid', hx', hfirst⟩ => ?_, fun hfirst => ⟨id, x, hid, hx, hfirst⟩⟩
  obtain rfl : id = id' := by simpa [hid] using hid'
  obtain rfl : x = x' := by simpa [hx] using hx'
  exact hfirst

/-- Each alternative keeps its part of the assignments, and nothing else. -/
theorem Apt.commit_keeps (hapt : b.Apt s c) (hsuited : b.Suited s c.position)
    (hvalid : s.Valid) {alternative : Nat} (halternative : alternative < 2) :
    ∃ narrowing, b.commit c alternative = .ok narrowing ∧
      Store.KeepsExactly narrowing (fun a => alternative = 0 ↔ b.First c a) s := by
  cases b with
  | int views selection commit =>
      obtain ⟨v, x, hv, hx, hopen, -, hmiddle⟩ := hapt
      obtain ⟨v', hv', hfit, -, hcommit⟩ := hsuited
      obtain rfl : v = v' := Option.some.inj (hv.symm.trans hv')
      refine ⟨commit.commit alternative v x,
        by simp only [Branching.commit, hv, hx, BranchValue.int?, Except.map], ?_⟩
      simp only [first_int_iff hv hx]
      rcases hcommit with rfl | ⟨rfl, rfl⟩
      · simp only [if_true]
        exact hfit.assignOrExclude_keeps hvalid x halternative
      · have hbetween := middle_lt (hfit.lower_lt_upper hvalid hopen)
        rw [← hmiddle rfl] at hbetween
        simp only [reduceCtorEq, if_false]
        exact hfit.splitLower_keeps hvalid hbetween.1 hbetween.2 halternative
  | float views commit => exact hsuited.elim
  | set views selection commit =>
      obtain ⟨id, x, hid, hx, hunknown⟩ := hapt
      obtain ⟨id', hid', hsize⟩ := hsuited
      obtain rfl : id = id' := Option.some.inj (hid.symm.trans hid')
      refine ⟨commit.commit alternative id x,
        by simp only [Branching.commit, hid, hx, BranchValue.int?, Except.map], ?_⟩
      simp only [first_set_iff hid hx]
      exact commit.keeps hvalid hsize x halternative

/-- Where every alternative narrows, neither part of the assignments is empty. -/
theorem Apt.exists_parts (hapt : b.Apt s c) (hsuited : b.Suited s c.position)
    (hprogressive : b.Progressive) (hvalid : s.Valid) :
    (∃ a, s.Admits a ∧ b.First c a) ∧ ∃ a, s.Admits a ∧ ¬b.First c a := by
  cases b with
  | int views selection commit =>
      obtain ⟨v, x, hv, hx, hopen, hselected, hmiddle⟩ := hapt
      obtain ⟨v', hv', hfit, -, hcommit⟩ := hsuited
      obtain rfl : v = v' := Option.some.inj (hv.symm.trans hv')
      have hless := hfit.lower_lt_upper hvalid hopen
      obtain ⟨low, hlow, hlower⟩ := hfit.exists_lower hvalid
      obtain ⟨high, hhigh, hupper⟩ := hfit.exists_upper hvalid
      simp only [first_int_iff hv hx]
      rcases hcommit with rfl | ⟨rfl, rfl⟩
      · simp only [if_true]
        obtain ⟨y, hy, hvalue⟩ := hselected fun hsplit => hprogressive hsplit rfl
        obtain ⟨a, ha, hpoint⟩ := IntView.exists_admits hvalid hy
        refine ⟨⟨a, ha, by rw [IntView.value, hpoint, hvalue]⟩, ?_⟩
        by_cases hbottom : v.value low = x
        · exact ⟨high, hhigh, by omega⟩
        · exact ⟨low, hlow, hbottom⟩
      · have hbetween := middle_lt hless
        rw [← hmiddle rfl] at hbetween
        simp only [reduceCtorEq, if_false]
        exact ⟨⟨low, hlow, by omega⟩, high, hhigh, by omega⟩
  | float views commit => exact hsuited.elim
  | set views selection commit =>
      obtain ⟨id, x, hid, hx, hunknown⟩ := hapt
      obtain ⟨id', hid', hsize⟩ := hsuited
      obtain rfl : id = id' := Option.some.inj (hid.symm.trans hid')
      obtain ⟨hlub, hglb⟩ := SetDomain.mem_unknown.mp hunknown
      obtain ⟨elements, hwith, hin⟩ := (hvalid.set id).exists_mem_with hlub
      obtain ⟨a, ha, hset⟩ := hvalid.exists_admits_set hsize hwith
      obtain ⟨elements', hwithout, hout⟩ := (hvalid.set id).exists_mem_without hglb
      obtain ⟨a', ha', hset'⟩ := hvalid.exists_admits_set hsize hwithout
      simp only [first_set_iff hid hx]
      cases commit with
      | includeOrExclude => exact ⟨⟨a, ha, by simpa [hset]⟩, a', ha', by simpa [hset']⟩
      | excludeOrInclude => exact ⟨⟨a', ha', by simpa [hset']⟩, a, ha, by simpa [hset]⟩

end Branching

/-! ## View branchers -/

namespace ViewBrancher

variable {s : Store} {b : ViewBrancher}

/-- The cursor stops at the first view from the start on that is not fixed. -/
theorem cursor_cases (b : ViewBrancher) (s : Store) :
    (b.branching.views[b.cursor s]? = none ∧
        ∀ view ∈ b.branching.views.drop b.start, view.isFixed s = true) ∨
      ∃ view, b.branching.views[b.cursor s]? = some view ∧ view.isFixed s = false := by
  unfold cursor
  rw [← List.getElem?_drop]
  generalize b.branching.views.drop b.start = views
  induction views with
  | nil => exact Or.inl ⟨rfl, by simp⟩
  | cons view rest ih =>
      cases hfixed : view.isFixed s with
      | false => exact Or.inr ⟨view, by simp [hfixed], hfixed⟩
      | true => simpa [hfixed] using ih

/-- The cursor has passed fixed views only. -/
theorem isFixed_of_lt_cursor {i : Nat} {view : AnyView} (hstart : b.start ≤ i)
    (hcursor : i < b.cursor s) (hview : b.branching.views[i]? = some view) :
    view.isFixed s = true := by
  obtain ⟨k, rfl⟩ := Nat.exists_eq_add_of_le hstart
  rw [← List.getElem?_drop] at hview
  have hk : k < ((b.branching.views.drop b.start).takeWhile
      fun view => view.isFixed s).length := by
    unfold cursor at hcursor
    omega
  have hinitial := List.takeWhile_prefix (fun view : AnyView => view.isFixed s)
    (l := b.branching.views.drop b.start)
  have hmem := List.getElem_mem hk
  rw [hinitial.getElem hk] at hmem
  rw [List.getElem?_eq_getElem (hk.trans_le hinitial.length_le)] at hview
  obtain rfl := Option.some.inj hview
  exact List.mem_takeWhile_imp hmem

/-- A status moves the cursor, and where it says that nothing is left to branch on, every
view from the cursor on is fixed. -/
theorem of_status {next : ViewBrancher} {branches : Bool}
    (hstatus : b.status s = .ok (branches, next)) :
    next = { b with start := b.cursor s } ∧
      (branches = false → ∀ i view, b.start ≤ i → b.branching.views[i]? = some view →
        view.isFixed s = true) := by
  simp only [status] at hstatus
  split at hstatus
  next hnone =>
    cases hstatus
    refine ⟨rfl, fun _ i view hstart hview => ?_⟩
    rcases b.cursor_cases s with ⟨-, hfixed⟩ | ⟨other, hother, -⟩
    · obtain ⟨k, rfl⟩ := Nat.exists_eq_add_of_le hstart
      exact hfixed view (List.mem_of_getElem? (List.getElem?_drop.trans hview))
    · simp [hnone] at hother
  · split at hstatus
    · cases hstatus
      exact ⟨rfl, fun hnone => nomatch hnone⟩
    · cases hstatus

/-- A brancher proposes nothing and stays as it is, or it proposes what is selected among
the views from its cursor on. -/
theorem choice_cases {next : ViewBrancher} {proposed : Option Choice} {notes : List Happening}
    (hchoice : b.choice s = .ok (proposed, next, notes)) :
    (proposed = none ∧ next = b) ∨ ∃ offset value branching,
      b.selector.select s (b.branching.views.drop b.start) = some offset ∧
        b.branching.selectValue s (b.start + offset) = .ok (value, branching) ∧
          proposed = some ⟨0, branching.alternatives, b.start + offset, value⟩ ∧
            next = { b with branching } := by
  simp only [choice] at hchoice
  split at hchoice
  case isFalse => cases hchoice
  split at hchoice
  · cases hchoice
    exact Or.inl ⟨rfl, rfl⟩
  next offset hselect =>
    split at hchoice
    · cases hchoice
    next value branching hvalue =>
      cases hchoice
      exact Or.inr ⟨offset, value, branching, hselect, hvalue, rfl, rfl⟩

/-- The brancher stands at an open view. -/
def Stands (b : ViewBrancher) (s : Store) : Prop :=
  ∃ view, b.branching.views[b.start]? = some view ∧ view.isFixed s = false

/-- A status moves the cursor and says where it stands. -/
theorem status_cases (hknown : ∀ view ∈ b.branching.views, view.known s = true) :
    (b.status s = .ok (false, { b with start := b.cursor s }) ∧
        ∀ view ∈ b.branching.views.drop b.start, view.isFixed s = true) ∨
      (b.status s = .ok (true, { b with start := b.cursor s }) ∧
        ({ b with start := b.cursor s } : ViewBrancher).Stands s) := by
  rcases b.cursor_cases s with ⟨hnone, hfixed⟩ | ⟨view, hview, hopen⟩
  · exact Or.inl ⟨by simp only [status, hnone], hfixed⟩
  · have hcreated := hknown view (List.mem_of_getElem? hview)
    exact Or.inr ⟨by simp only [status, hview, hcreated, if_true], view, hview, hopen⟩

theorem Stands.cursor_eq (hstands : b.Stands s) : b.cursor s = b.start := by
  obtain ⟨view, hview, hopen⟩ := hstands
  unfold cursor
  have hhead : (b.branching.views.drop b.start)[0]? = some view := by
    rwa [List.getElem?_drop, Nat.add_zero]
  cases hviews : b.branching.views.drop b.start with
  | nil => simp [hviews] at hhead
  | cons first rest =>
      rw [hviews] at hhead
      obtain rfl : first = view := by simpa using hhead
      simp [hopen]

/-- A brancher that stands at an open view picks an open one, and proposes an apt choice
if the branching suits there. -/
theorem Stands.exists_choice (hstands : b.Stands s) (hvalid : s.Valid)
    (hknown : ∀ view ∈ b.branching.views, view.known s = true)
    (hsuited : ∀ offset view, b.selector.select s (b.branching.views.drop b.start) =
      some offset → b.branching.views[b.start + offset]? = some view →
        b.branching.Suited s (b.start + offset)) :
    ∃ c next, b.choice s = .ok (some c, { b with branching := next }, []) ∧
      c.alternatives = 2 ∧ b.branching.Suited s c.position ∧ b.branching.Akin next ∧
        ∀ id, next.Apt s { c with brancher := id } := by
  obtain ⟨view, hview, hopen⟩ := hstands
  have hmem : view ∈ b.branching.views.drop b.start := by
    refine List.mem_of_getElem? (i := 0) ?_
    rwa [List.getElem?_drop, Nat.add_zero]
  have hsome : (b.branching.views.drop b.start).isEmpty = false := by
    cases hviews : b.branching.views.drop b.start with
    | nil => simp [hviews] at hmem
    | cons _ _ => rfl
  have hsound : b.selector.sound s (b.branching.views.drop b.start) = true :=
    b.selector.sound_of_known fun view hview => hknown view (List.mem_of_mem_drop hview)
  obtain ⟨offset, picked, hselect, hpicked, hopen'⟩ :=
    b.selector.exists_select ⟨view, hmem, hopen⟩
  rw [List.getElem?_drop] at hpicked
  have hsuits := hsuited offset picked hselect hpicked
  obtain ⟨x, next, hvalue, hakin, hapt⟩ := hsuits.exists_selectValue hvalid hpicked hopen'
  refine ⟨⟨0, next.alternatives, b.start + offset, .int x⟩, next, ?_,
    (hakin.suited s _ hsuits).alternatives, hsuits, hakin, hapt⟩
  simp only [choice, hsound, hsome, if_true, hselect, hvalue, Bool.false_eq_true, if_false]

end ViewBrancher

end ConstraintSpace
