import ConstraintSpace.Proofs.Space.Kernel
import ConstraintSpace.Proofs.Space.Refusal
import ConstraintSpace.Proofs.Space.Termination
import ConstraintSpace.Proofs.Space.Twins
import Mathlib.Data.Set.Disjoint
import Mathlib.Data.Set.Image

/-!
# A choice splits a domain

The two alternatives of a choice are committed on copies.  Where the view that was chosen
suits its branching, each copy keeps a part of the domain of the branched variable: neither
part is empty, no value is in both, and every value is in one of them.
-/

namespace ConstraintSpace

/-! ## Parts of a domain -/

/-- Two parts of a whole that are not empty and have no common member. -/
structure Parts {α : Type} (whole left right : Set α) : Prop where
  left_nonempty : left.Nonempty
  right_nonempty : right.Nonempty
  disjoint : Disjoint left right
  union_eq : left ∪ right = whole

/-- A condition on what is read of assignments splits what is read. -/
theorem Parts.of_admits {α : Type} {s left right : Store} (read : Assignment → α)
    (keep : α → Prop) (hleft : ∀ a, left.Admits a ↔ s.Admits a ∧ keep (read a))
    (hright : ∀ a, right.Admits a ↔ s.Admits a ∧ ¬keep (read a))
    (hkept : ∃ a, s.Admits a ∧ keep (read a)) (hout : ∃ a, s.Admits a ∧ ¬keep (read a)) :
    Parts (read '' {a | s.Admits a}) (read '' {a | left.Admits a})
      (read '' {a | right.Admits a}) where
  left_nonempty := by
    obtain ⟨a, ha⟩ := hkept
    exact ⟨read a, a, (hleft a).mpr ha, rfl⟩
  right_nonempty := by
    obtain ⟨a, ha⟩ := hout
    exact ⟨read a, a, (hright a).mpr ha, rfl⟩
  disjoint := by
    rw [Set.disjoint_left]
    rintro _ ⟨a, ha, rfl⟩ ⟨a', ha', hsame⟩
    have hnot := ((hright a').mp ha').2
    rw [hsame] at hnot
    exact hnot ((hleft a).mp ha).2
  union_eq := by
    rw [← Set.image_union]
    congr 1
    ext a
    simp only [Set.mem_union, Set.mem_ofPred_eq, hleft, hright]
    by_cases hkeep : keep (read a) <;> simp [hkeep]

/-- The numbers that admitted assignments give to a view are those of its domain. -/
theorem IntView.Fit.image_point {v : IntView} {s : Store} (hfit : v.Fit s) (hvalid : s.Valid) :
    v.point '' {a | s.Admits a} = {x | x ∈ v.domain s} := by
  ext x
  constructor
  · rintro ⟨a, ha, rfl⟩
    exact hfit.point_mem ha
  · exact fun hx => exists_admits hvalid hx

/-- The sets that admitted assignments give to a variable are those of its domain. -/
theorem Store.Valid.image_set {s : Store} (hvalid : s.Valid) {id : Nat}
    (hid : id < s.sets.size) :
    (fun a : Assignment => a.set id) '' {a | s.Admits a} =
      {elements | elements ∈ s.set id} := by
  ext elements
  constructor
  · rintro ⟨a, ha, rfl⟩
    exact ha.set id hid
  · exact fun helements => hvalid.exists_admits_set hid helements

/-- The domains of the variable under the view in two stores are the parts of the domain
in the first one. -/
def AnyView.Splits (s left right : Store) : AnyView → Prop
  | int v => Parts {x | x ∈ v.domain s} {x | x ∈ v.domain left} {x | x ∈ v.domain right}
  | float _ => False
  | set id => Parts {elements : Finset Int | elements ∈ s.set id}
      {elements | elements ∈ left.set id} {elements | elements ∈ right.set id}

/-- Where the assignments are split as the alternatives of an apt choice say, so is the
domain of the branched variable. -/
theorem Branching.Apt.splits {b : Branching} {c : Choice} {s left right : Store}
    (hapt : b.Apt s c) (hsuited : b.Suited s c.position) (hprogressive : b.Progressive)
    (hvalid : s.Valid) (hvalidleft : left.Valid) (hvalidright : right.Valid)
    (hleft : s.Refines left) (hright : s.Refines right)
    (hfirst : ∀ a, left.Admits a ↔ s.Admits a ∧ b.First c a)
    (hsecond : ∀ a, right.Admits a ↔ s.Admits a ∧ ¬b.First c a) :
    ∃ view, b.views[c.position]? = some view ∧ view.Splits s left right := by
  obtain ⟨hin, hout⟩ := hapt.exists_parts hsuited hprogressive hvalid
  cases b with
  | int views selection commit =>
      obtain ⟨v, x, hv, hx, -⟩ := hapt
      obtain ⟨v', hv', hfit, -⟩ := hsuited
      obtain rfl : v = v' := Option.some.inj (hv.symm.trans hv')
      simp only [first_int_iff hv hx, IntView.value] at hfirst hsecond hin hout
      refine ⟨.int v, by simp [Branching.views, hv], ?_⟩
      have hparts := Parts.of_admits v.point
        (fun y => if commit = .assignOrExclude then v.valueAt y = x else v.valueAt y ≤ x)
        hfirst hsecond hin hout
      rwa [hfit.image_point hvalid, (hfit.refines hleft).image_point hvalidleft,
        (hfit.refines hright).image_point hvalidright] at hparts
  | float views commit => exact hsuited.elim
  | set views selection commit =>
      obtain ⟨id, x, hid, hx, -⟩ := hapt
      obtain ⟨id', hid', hsize⟩ := hsuited
      obtain rfl : id = id' := Option.some.inj (hid.symm.trans hid')
      simp only [first_set_iff hid hx] at hfirst hsecond hin hout
      refine ⟨.set id, by simp [Branching.views, hid], ?_⟩
      have hparts := Parts.of_admits (fun a => a.set id)
        (fun elements => commit = .includeOrExclude ↔ x ∈ elements) hfirst hsecond hin hout
      rwa [hvalid.image_set hsize, hvalidleft.image_set (hsize.trans_le hleft.sets_size),
        hvalidright.image_set (hsize.trans_le hright.sets_size)] at hparts

/-- A status that says so leaves the cursor at an open view. -/
theorem ViewBrancher.stands_of_status {b next : ViewBrancher} {s : Store}
    (hstatus : b.status s = .ok (true, next)) : next.Stands s := by
  simp only [status] at hstatus
  split at hstatus
  · cases hstatus
  next view hview =>
    split at hstatus
    · cases hstatus
      rcases b.cursor_cases s with ⟨hnone, -⟩ | ⟨view', hview', hopen⟩
      · simp [hview] at hnone
      · exact ⟨view', hview', hopen⟩
    · cases hstatus

namespace Space

variable {s t u v : Space} {b : ViewBrancher} {c : Choice}

/-! ## Choosing -/

/-- Asking ends at a brancher over views only where it stands at an open one. -/
theorem stands_of_advanceBy {fuel : Nat} (hrun : advanceBy fuel s = .ok true t)
    (hb : t.branchers[t.active]? = some (.viewValue b)) : b.Stands t.store := by
  induction fuel generalizing s with
  | zero => cases hrun
  | succ fuel ih =>
      simp only [advanceBy] at hrun
      split at hrun
      · cases hrun
      next asked hasked =>
        split at hrun
        · cases hrun
        next branches next notes hstatus =>
          split at hrun
          next hbranches =>
            cases hrun
            subst hbranches
            have hlt := (Array.getElem?_eq_some_iff.mp hasked).1
            obtain rfl : next = .viewValue b := by simpa [Space.noteAll, hlt] using hb
            cases asked with
            | observer o =>
                simp only [Brancher.status] at hstatus
                split at hstatus <;> simp at hstatus
            | viewValue first =>
                simp only [Brancher.status] at hstatus
                split at hstatus
                next hanswer =>
                  simp only [Except.ok.injEq, Prod.mk.injEq, Brancher.viewValue.injEq]
                    at hstatus
                  obtain ⟨rfl, rfl, -⟩ := hstatus
                  exact ViewBrancher.stands_of_status hanswer
                · cases hstatus
          · exact ih hrun

/-- Where asking ends at a brancher over known views and the selected one suits it, there is
a choice of that view. -/
theorem exists_choice (hvalid : s.store.Valid) (hok : s.failure = none)
    (hstable : s.isStable = true) (hfound : advance s = .ok true u)
    (hb : u.branchers[u.active]? = some (.viewValue b))
    (hknown : ∀ view ∈ b.branching.views, view.known s.store = true)
    (hsuited : ∀ offset, b.selector.select s.store (b.branching.views.drop b.start) =
      some offset → b.branching.Suited s.store (b.start + offset)) :
    ∃ c v next, choice s = .ok c v ∧ v.store = s.store ∧ v.slots = s.slots ∧
      v.failure = none ∧ c.alternatives = 2 ∧
      v.branchers[c.brancher]? = some (.viewValue { b with branching := next }) ∧
      b.branching.Akin next ∧ next.Suited s.store c.position ∧ next.Apt s.store c := by
  have hopen : b.Stands u.store := stands_of_advanceBy hfound hb
  obtain ⟨journal, hrest⟩ := (advances_of_advanceBy hfound).rest
  have hstore : u.store = s.store := by rw [hrest]
  rw [← hstore] at hvalid hknown hsuited
  obtain ⟨c, next, hchoice, hnumber, hsuits, hakin, hapt⟩ :=
    hopen.exists_choice hvalid hknown fun offset _ hselect _ => hsuited offset hselect
  obtain ⟨hpropose, hplace⟩ := propose_of_choice hb hchoice
  have hslots : u.slots = s.slots := by rw [hrest]
  have hfailure : u.failure = none := by rw [hrest, hok]
  have hrun : choice s = propose u := by
    rw [choice_eq, hstable, hfound]
    simp [isFailed, hok]
  rw [hstore] at hsuits hapt
  exact ⟨{ c with brancher := u.active }, { u with branchers := _ }, next,
    hrun.trans hpropose, hstore, hslots, hfailure, hnumber, hplace, hakin,
    hakin.suited _ _ hsuits, hapt u.active⟩

/-! ## Committing -/

/-- A commit on a copy does what it does on the copied space. -/
theorem commit_copy {alternative : Nat} (hok : s.failure = none) (mode : CopyMode) (next : Nat)
    (hrun : commit c alternative s = .ok () t) :
    ∃ t', commit c alternative (s.copy mode next).1 = .ok () t' ∧ t'.store = t.store ∧
      t'.failure = t.failure := by
  obtain ⟨t', hrun', htwin⟩ := (twin_copy hok mode next).of_ok
    (impartial_commit c alternative) (oblivious_commit c alternative) hrun
  exact ⟨t', hrun', htwin.store, htwin.failure⟩

/-- Orderly propagators hear of whatever the store is narrowed to. -/
theorem Orderly.hear (horderly : s.Orderly) (htidy : s.Tidy) (store : Store)
    (counts : SpaceCounts) (hvalid : store.Valid) (hnarrows : s.store.Narrows store) :
    ∃ s', Space.schedule none { s with store, counts } = .ok () s' := by
  have hsound : Sound { s with store, counts } :=
    ⟨hvalid, htidy.sound.queue, htidy.sound.waiting⟩
  have hattentive : Attentive { s with store, counts } := htidy.attentive.of_slots rfl rfl
  have hnarrowed : Orderly { s with store, counts } :=
    horderly.of_slots hnarrows.refines rfl
  obtain ⟨s', hrun, -⟩ := hnarrowed.schedule hsound hattentive none
  exact ⟨s', hrun⟩

/-- In a space at rest where asking ends at a brancher over known views, and the view that
is selected suits it, there is a choice; its alternatives, committed on any two copies,
split the domain of the branched variable into proper parts. -/
theorem choice_splits (hreaches : new.Reaches s) (horderly : s.Orderly)
    (hok : s.failure = none) (hstable : s.isStable = true) (hfound : advance s = .ok true u)
    (hb : u.branchers[u.active]? = some (.viewValue b))
    (hknown : ∀ view ∈ b.branching.views, view.known s.store = true)
    (hsuited : ∀ offset, b.selector.select s.store (b.branching.views.drop b.start) =
      some offset → b.branching.Suited s.store (b.start + offset))
    (hprogressive : b.branching.Progressive) :
    ∃ c v view, choice s = .ok c v ∧ b.branching.views[c.position]? = some view ∧
      ∀ (mode mode' : CopyMode) (next next' : Nat), ∃ left right,
        commit c 0 (v.copy mode next).1 = .ok () left ∧ left.failure = none ∧
        commit c 1 (v.copy mode' next').1 = .ok () right ∧ right.failure = none ∧
        view.Splits s.store left.store right.store := by
  have hvalid := (hreaches.tidy tidy_new).sound.store
  obtain ⟨c, v, next, hchoice, hstore, hslots, hok', hnumber, hplace, hakin, hsuits, hapt⟩ :=
    exists_choice hvalid hok hstable hfound hb hknown hsuited
  have hreaches' : new.Reaches v := .act .choice hreaches (by rw [Act.perform, hchoice, resume])
  have htidy : v.Tidy := hreaches'.tidy tidy_new
  have horderly' : v.Orderly := horderly.of_slots (hstore ▸ .refl s.store) hslots
  rw [← hstore] at hsuits hapt hvalid ⊢
  have hprogressive' := hakin.progressive hprogressive
  obtain ⟨hin, hout⟩ := hapt.exists_parts hsuits hprogressive' hvalid
  have hcommit : ∀ alternative < 2,
      (∃ a, v.store.Admits a ∧ (alternative = 0 ↔ next.First c a)) →
      ∃ t, commit c alternative v = .ok () t ∧ t.failure = none ∧ t.store.Valid ∧
        v.store.Refines t.store ∧
          ∀ a, t.store.Admits a ↔ v.store.Admits a ∧ (alternative = 0 ↔ next.First c a) := by
    rintro alternative halternative ⟨a, ha, hkept⟩
    obtain ⟨narrowing, hcommit, hkeeps⟩ := hapt.commit_keeps hsuits hvalid halternative
    have hlegal : alternative < c.alternatives := by rwa [hnumber]
    obtain ⟨t, hrun, hnarrowed⟩ := commit_narrows (b := .viewValue _) htidy.sound hok' hlegal
      hplace hcommit hkeeps (horderly'.hear htidy)
    have hperform : (Act.commit c alternative).perform v = some t := by
      rw [Act.perform, hrun, resume]
    have hkeeps : v.Keeps t := Act.keeps htidy.sound hperform
    cases hnarrowed with
    | failed _ hnone => exact absurd hkept (hnone a ha)
    | narrowed hok'' _ _ hadmits =>
        exact ⟨t, hrun, hok'', hkeeps.sound.store, hkeeps.refines, hadmits⟩
  obtain ⟨left, hleft, hokleft, hvalidleft, hrefinesleft, hfirst⟩ :=
    hcommit 0 (by omega) (by simpa using hin)
  obtain ⟨right, hright, hokright, hvalidright, hrefinesright, hsecond⟩ :=
    hcommit 1 (by omega) (by simpa using hout)
  obtain ⟨view, hview, hsplits⟩ := hapt.splits hsuits hprogressive' hvalid hvalidleft
    hvalidright hrefinesleft hrefinesright (by simpa using hfirst) (by simpa using hsecond)
  refine ⟨c, v, view, hchoice, hakin.views_eq ▸ hview, ?_⟩
  intro mode mode' fresh fresh'
  obtain ⟨left', hleft', hstoreleft, hfailureleft⟩ := commit_copy hok' mode fresh hleft
  obtain ⟨right', hright', hstoreright, hfailureright⟩ := commit_copy hok' mode' fresh' hright
  refine ⟨left', right', hleft', hfailureleft.trans hokleft, hright',
    hfailureright.trans hokright, ?_⟩
  rwa [hstoreleft, hstoreright]

/-- A split at a point that is no value of the view, whose domain has a gap there. -/
theorem descending_view_splits :
    let view : IntView := .affine (.var 0) (-2) 1
    let b : ViewBrancher :=
      { start := 0, selector := .firstFail, branching := .int [view] .split .splitLower
        label := none, selectionNotices := false, commitNotices := false }
    let acts : List Act := [.newSparse [0, 1, 5, 6], .addBrancher (.viewValue b)]
    ∃ s, performAll acts new = some s ∧ ∃ c v, choice s = .ok c v ∧ c.value = .int (-5) ∧
      view.contains s.store (-5) = false ∧
      ∀ (mode mode' : CopyMode) (next next' : Nat), ∃ left right,
        commit c 0 (v.copy mode next).1 = .ok () left ∧ left.failure = none ∧
        commit c 1 (v.copy mode' next').1 = .ok () right ∧ right.failure = none ∧
        (AnyView.int view).Splits s.store left.store right.store := by
  intro view b acts
  let d : IntDomain := { lower := 0, upper := 6, holes := [⟨2, 4⟩], removed := 3 }
  let s : Space :=
    { new with store := { Store.empty with ints := #[d] }, branchers := #[.viewValue b] }
  have hperform : performAll acts new = some s := rfl
  have hfit : view.Fit s.store := by
    refine ⟨rfl, trivial, by decide, by decide, by decide, fun x hx => ?_⟩
    have hlower : 0 ≤ x := IntDomain.lower_le_of_mem hx
    have hupper : x ≤ 6 := IntDomain.le_upper_of_mem hx
    simp only [IntView.valueAt, Fits32, lowest32, highest32]
    omega
  have horderly : s.Orderly := fun j p hp => by simp [propagator?, s, new] at hp
  have hselect : b.selector.select s.store (b.branching.views.drop b.start) = some 0 := rfl
  obtain ⟨c, v, _, hchoice, hview, hsplits⟩ := choice_splits (u := s) (b := b)
    (reaches_of_performAll hperform) horderly rfl rfl rfl rfl
    (fun view' hview' => by
      obtain rfl : view' = .int view := by simpa [b, Branching.views] using hview'
      exact hfit.known)
    (fun offset hoffset => by
      obtain rfl : 0 = offset := Option.some.inj (hselect.symm.trans hoffset)
      exact ⟨view, rfl, hfit, trivial, Or.inr ⟨rfl, rfl⟩⟩)
    (fun _ => by simp)
  have hchosen : choice s = .ok ⟨0, 2, 0, .int (-5)⟩ s := rfl
  obtain ⟨rfl, rfl⟩ := EStateM.Result.ok.inj (hchosen.symm.trans hchoice)
  obtain rfl := Option.some.inj hview
  exact ⟨s, hperform, _, _, hchoice, rfl, rfl, hsplits⟩

end Space

end ConstraintSpace
