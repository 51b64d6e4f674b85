import ConstraintSpace.Proofs.Branching.Extremes
import ConstraintSpace.Proofs.Space.Building
import ConstraintSpace.Proofs.Space.Recomputation
import ConstraintSpace.Proofs.Space.Refusal
import ConstraintSpace.Proofs.Space.Twins

/-!
# Cursors do not show

A space keeps the number of its active brancher, and every brancher that of the first view
it has not passed.  They spare the search for an open view some work and must not change
what it finds.  They do not: what a cursor has passed is fixed, and what is fixed stays
fixed whatever is narrowed later.  So the status and the choice are what they would be if
all branchers were asked from their first view on.
-/

namespace ConstraintSpace

/-- The views of a discrete branching are. -/
theorem Branching.Discrete.of_mem_views {b : Branching} (hdiscrete : b.Discrete) :
    ∀ view ∈ b.views, view.Discrete := by
  intro view hview
  cases b with
  | float views commit => exact hdiscrete.elim
  | int views selection commit =>
      obtain ⟨v, -, rfl⟩ := List.mem_map.mp hview
      trivial
  | set views selection commit =>
      obtain ⟨id, -, rfl⟩ := List.mem_map.mp hview
      trivial

theorem Branching.discrete_anonymous (b : Branching) : b.anonymous.Discrete ↔ b.Discrete := by
  cases b <;> exact Iff.rfl

theorem Branching.same_of_selectValue {b next : Branching} {s : Store} {position : Nat}
    {value : BranchValue} (hselect : b.selectValue s position = .ok (value, next)) :
    next.views = b.views ∧ (next.Discrete → b.Discrete) := by
  cases b with
  | int views selection commit =>
      simp only [selectValue] at hselect
      split at hselect
      · split at hselect
        · cases hselect
          exact ⟨rfl, fun _ => trivial⟩
        · cases hselect
      · cases hselect
  | float views commit =>
      simp only [selectValue] at hselect
      split at hselect
      · cases hselect
        exact ⟨rfl, id⟩
      · cases hselect
  | set views selection commit =>
      simp only [selectValue] at hselect
      split at hselect
      · split at hselect
        · cases hselect
          exact ⟨rfl, id⟩
        · cases hselect
      · cases hselect

namespace Space

variable {s t u : Space} {α β : Type}

/-! ## What the cursors have passed -/

/-- Whatever a cursor has passed, within its brancher or in the order of the branchers, is
fixed if it is over an integer or a set variable. -/
structure Swept (s : Space) : Prop where
  active_le : s.active ≤ s.branchers.size
  fixed : ∀ (j : Nat) (b : ViewBrancher), s.branchers[j]? = some (.viewValue b) →
    b.branching.Discrete → ∀ i view, b.branching.views[i]? = some view →
      (i < b.start ∨ j < s.active) → view.isFixed s.store = true

theorem swept_new : new.Swept where
  active_le := le_refl _
  fixed := fun j b hb => by simp [new] at hb

theorem Swept.of_branchers (hswept : s.Swept) (hvalid : s.store.Valid)
    (hvalid' : t.store.Valid) (hrefines : s.store.Refines t.store)
    (hbranchers : t.branchers = s.branchers) (hactive : t.active = s.active) : t.Swept where
  active_le := by
    rw [hactive, hbranchers]
    exact hswept.active_le
  fixed := fun j b hb hdiscrete i view hview hbefore => by
    rw [hbranchers] at hb
    rw [hactive] at hbefore
    exact AnyView.isFixed_refines (hdiscrete.of_mem_views view (List.mem_of_getElem? hview))
      hvalid hvalid' hrefines (hswept.fixed j b hb hdiscrete i view hview hbefore)

theorem Swept.of_same (hswept : s.Swept) (hstore : t.store = s.store)
    (hbranchers : t.branchers = s.branchers) (hactive : t.active = s.active) : t.Swept := by
  obtain ⟨hle, hfixed⟩ := hswept
  rw [← hbranchers] at hle hfixed
  rw [← hactive] at hle hfixed
  rw [← hstore] at hfixed
  exact ⟨hle, hfixed⟩

/-- Another brancher in a place, over the same views, whose cursor has passed what is
fixed only. -/
theorem Swept.setBrancher (hswept : s.Swept) {b b' : ViewBrancher} {id : Nat}
    (hb : s.branchers[id]? = some (.viewValue b))
    (hviews : b'.branching.views = b.branching.views)
    (hdiscrete : b'.branching.Discrete → b.branching.Discrete)
    (hpassed : ∀ i view, b.branching.views[i]? = some view → b.start ≤ i → i < b'.start →
      view.isFixed s.store = true) :
    Swept { s with branchers := s.branchers.setIfInBounds id (.viewValue b') } where
  active_le := by simpa only [Array.size_setIfInBounds] using hswept.active_le
  fixed := fun j c hc hdiscrete' i view hview hbefore => by
    rw [Array.getElem?_setIfInBounds] at hc
    split at hc
    next heq =>
      subst heq
      split at hc
      · obtain rfl := Brancher.viewValue.inj (Option.some.inj hc)
        rw [hviews] at hview
        by_cases hstart : i < b.start
        · exact hswept.fixed id b hb (hdiscrete hdiscrete') i view hview (Or.inl hstart)
        · rcases hbefore with hcursor | hactive
          · exact hpassed i view hview (Nat.le_of_not_lt hstart) hcursor
          · exact hswept.fixed id b hb (hdiscrete hdiscrete') i view hview (Or.inr hactive)
      · simp at hc
    next => exact hswept.fixed j c hc hdiscrete' i view hview hbefore

theorem Swept.setObserver (hswept : s.Swept) (id : Nat) (o : Observer) :
    Swept { s with branchers := s.branchers.setIfInBounds id (.observer o) } where
  active_le := by simpa only [Array.size_setIfInBounds] using hswept.active_le
  fixed := fun j c hc => by
    rw [Array.getElem?_setIfInBounds] at hc
    split at hc
    · split at hc <;> simp at hc
    · exact hswept.fixed j c hc

/-- Moving past a brancher without open views. -/
theorem Swept.pass (hswept : s.Swept) (hlt : s.active < s.branchers.size)
    (hfixed : ∀ b : ViewBrancher, s.branchers[s.active]? = some (.viewValue b) →
      b.branching.Discrete → ∀ view ∈ b.branching.views, view.isFixed s.store = true) :
    Swept { s with active := s.active + 1 } where
  active_le := hlt
  fixed := fun j b hb hdiscrete i view hview hbefore => by
    by_cases hj : j = s.active
    · subst hj
      exact hfixed b hb hdiscrete view (List.mem_of_getElem? hview)
    · refine hswept.fixed j b hb hdiscrete i view hview (hbefore.imp_right fun hlt => ?_)
      simp only at hlt
      omega

/-- Asking the active brancher moves its cursor past fixed views, and if it has no open
view it may be passed. -/
theorem Swept.ask (hswept : s.Swept) {asked next : Brancher} {branches : Bool}
    {notes : List Happening} (hasked : s.branchers[s.active]? = some asked)
    (hstatus : asked.status s.store = .ok (branches, next, notes)) :
    Swept { s with branchers := s.branchers.setIfInBounds s.active next } ∧
      (branches = false → Swept { s with
        branchers := s.branchers.setIfInBounds s.active next, active := s.active + 1 }) := by
  have hlt := (Array.getElem?_eq_some_iff.mp hasked).1
  obtain ⟨hpasses, hexhausted⟩ := Brancher.passes_of_status hstatus
  have hmoved : Swept { s with branchers := s.branchers.setIfInBounds s.active next } := by
    cases hpasses with
    | stays _ => exact hswept.of_same rfl (Store.setIfInBounds_self hasked) rfl
    | moves b hstart hfixed =>
        exact hswept.setBrancher hasked rfl id fun i view hview hle hlt =>
          hfixed i view hle hlt hview
  refine ⟨hmoved, fun hnone => ?_⟩
  refine hmoved.pass (by simpa using hlt) fun b hb hdiscrete view hview => ?_
  obtain rfl : next = .viewValue b := by simpa [hlt] using hb
  -- before the cursor the views were swept, and from there on none is left
  obtain ⟨start, rfl⟩ := hpasses.exists_start
  obtain ⟨i, hi⟩ := List.mem_iff_getElem?.mp hview
  by_cases hpassed : i < start
  · exact hswept.fixed _ _ hasked hdiscrete i view hi (Or.inl hpassed)
  · exact hexhausted hnone i view (Nat.le_of_not_lt hpassed) hi

theorem Swept.advanceBy (hswept : s.Swept) {fuel : Nat} {found : Bool}
    (hrun : Space.advanceBy fuel s = .ok found t) : t.Swept := by
  refine advanceBy_induction (P := Swept) (fun u b branches b' notes hbefore hb hstatus => ?_)
    hswept hrun
  obtain ⟨hmoved, hpassed⟩ := hbefore.ask hb hstatus
  exact ⟨fun _ => hmoved.of_same rfl rfl rfl, fun hnone => (hpassed hnone).of_same rfl rfl rfl⟩

/-! ## Operations keep the cursors -/

theorem unmoving_announce (name : String) (position : Nat) (watches : List Watch) :
    Unmoving (announce name position watches) := by
  induction watches generalizing position with
  | nil => exact tolerant_unmoved.pure ()
  | cons watch rest ih =>
      intro s t hrun
      unfold announce at hrun
      split at hrun
      · exact ih _ (s.note _) t hrun
      · simp [resume] at hrun

theorem unmoving_addPropagator (p : Propagator) (rejection : Option SpaceError) :
    Unmoving (addPropagator p rejection) := by
  have hpresent : Unmoving (present p) := by
    cases p with
    | scripted script => exact unmoving_announce script.name 0 script.watches
    | _ => exact tolerant_unmoved.pure ()
  refine tolerant_unmoved.bind tolerant_unmoved.checkNotFailed fun _ =>
    tolerant_unmoved.bind hpresent fun _ => ?_
  cases rejection with
  | none => exact carries_modifyGet fun _ => ⟨rfl, rfl⟩
  | some error =>
      intro s t hrun
      obtain rfl : s = t := Option.some.inj hrun
      exact ⟨rfl, rfl⟩

/-! ## Asking, choosing and copying -/

theorem Swept.status {answer : SpaceStatus} (hswept : s.Swept) (hsound : s.Sound)
    (hrun : Space.status s = .ok answer t) : t.Swept := by
  rw [status_eq] at hrun
  split at hrun
  next hpropagate =>
    cases hrun
    have hpropagated := hsound.propagate hpropagate
    exact hswept.of_branchers hsound.store hpropagated.sound.store hpropagated.frame.refines
      hpropagated.frame.branchers hpropagated.frame.active
  next hpropagate =>
    have hpropagated := hsound.propagate hpropagate
    have hswept' := hswept.of_branchers hsound.store hpropagated.sound.store
      hpropagated.frame.refines hpropagated.frame.branchers hpropagated.frame.active
    split at hrun
    next hadvance =>
      cases hrun
      exact hswept'.advanceBy hadvance
    · cases hrun
  · cases hrun

theorem Swept.propose (hswept : s.Swept) (hrun : resume (Space.propose s) = some t) : t.Swept := by
  unfold Space.propose at hrun
  split at hrun
  · obtain rfl := Option.some.inj hrun
    exact hswept
  next asked hasked =>
  split at hrun
  · simp [resume] at hrun
  next proposed next notes hchoice =>
    have hchosen : Swept { s with branchers := s.branchers.setIfInBounds s.active next } := by
      cases asked with
      | observer o =>
          cases hchoice
          exact hswept.setObserver _ o
      | viewValue b =>
          simp only [Brancher.choice] at hchoice
          split at hchoice
          next hproposed =>
            cases hchoice
            rcases ViewBrancher.choice_cases hproposed with
              ⟨-, rfl⟩ | ⟨offset, value, branching, -, hselect, -, rfl⟩
            · exact hswept.of_same rfl (Store.setIfInBounds_self hasked) rfl
            · obtain ⟨hviews, hdiscrete⟩ := Branching.same_of_selectValue hselect
              exact hswept.setBrancher hasked hviews hdiscrete
                fun i view hview hle hlt => absurd hle (not_le.mpr hlt)
          · cases hchoice
    split at hrun <;>
    · obtain rfl := Option.some.inj hrun
      exact hchosen.of_same rfl rfl rfl

theorem Swept.choice (hswept : s.Swept) (hrun : resume (Space.choice s) = some t) :
    t.Swept := by
  rcases choice_cases hrun with rfl | hadvance | ⟨u, hadvance, hpropose⟩
  · exact hswept
  · exact hswept.advanceBy hadvance
  · exact Swept.propose (hswept.advanceBy hadvance) hpropose

/-- Twins have the same cursors over the same views. -/
theorem Twin.viewBrancher (htwin : s.Twin t) {j : Nat} {b : ViewBrancher}
    (hb : t.branchers[j]? = some (.viewValue b)) :
    ∃ b', s.branchers[j]? = some (.viewValue b') ∧ b'.anonymous = b.anonymous := by
  have hsame := htwin.branchers j
  rw [hb, Option.map_some] at hsame
  obtain ⟨brancher, hbrancher, heq⟩ := Option.map_eq_some_iff.mp hsame.symm
  cases brancher with
  | observer o => cases heq
  | viewValue b' => exact ⟨b', hbrancher, Brancher.viewValue.inj heq⟩

theorem Twin.swept (htwin : s.Twin t) (hswept : s.Swept) : t.Swept := by
  have hactive : t.active = s.active := by
    obtain ⟨counts, journal, heq⟩ := htwin
    have hsame := congrArg Space.active heq
    exact hsame
  refine ⟨?_, fun j b hb hdiscrete i view hview hbefore => ?_⟩
  · rw [hactive, htwin.size_branchers]
    exact hswept.active_le
  · obtain ⟨b', hb', heq⟩ := htwin.viewBrancher hb
    simp only [ViewBrancher.anonymous, ViewBrancher.mk.injEq] at heq
    obtain ⟨hstart, -, hbranching, -⟩ := heq
    have hviews : b'.branching.views = b.branching.views := by
      rw [← Branching.views_anonymous, hbranching, Branching.views_anonymous]
    have hdiscrete' : b'.branching.Discrete := by
      rw [← Branching.discrete_anonymous, hbranching, Branching.discrete_anonymous]
      exact hdiscrete
    rw [htwin.store]
    rw [← hviews] at hview
    rw [← hstart, hactive] at hbefore
    exact hswept.fixed j b' hb' hdiscrete' i view hview hbefore

theorem Swept.copy (hswept : s.Swept) (mode : CopyMode) (next : Nat) :
    (s.copy mode next).1.Swept := by
  cases hfailure : s.failure with
  | none => exact (twin_copy hfailure mode next).swept hswept
  | some reason =>
      simp only [Space.copy, hfailure]
      exact ⟨le_refl _, fun j b hb => by simp [new] at hb⟩

/-- A brancher is added with its cursor in front of its first view. -/
def Act.Fresh : Act → Prop
  | .addBrancher (.viewValue b) => b.start = 0
  | _ => True

theorem Swept.addBrancher {b : Brancher} (hswept : s.Swept)
    (hstart : ∀ v, b = .viewValue v → v.start = 0)
    (hrun : resume (Space.addBrancher b s) = some t) : t.Swept := by
  rw [addBrancher_eq] at hrun
  split at hrun
  · obtain rfl := Option.some.inj hrun
    exact hswept
  obtain rfl := Option.some.inj hrun
  refine ⟨?_, fun j v hv hdiscrete i view hview hbefore => ?_⟩
  · simpa only [Array.size_push] using hswept.active_le.trans (Nat.le_succ _)
  · simp only [Array.getElem?_push] at hv
    split at hv
    next heq =>
      rw [hstart v (Option.some.inj hv)] at hbefore
      have hactive := hswept.active_le
      simp only at hbefore
      omega
    next => exact hswept.fixed j v hv hdiscrete i view hview hbefore

theorem Swept.observe {observer : Observer} (hswept : s.Swept) (hsound : s.Sound)
    (hrun : resume (Space.observe observer s) = some t) : t.Swept := by
  have hadded : ∀ {u}, resume (Space.addBrancher (.observer observer) s) = some u → u.Swept :=
    hswept.addBrancher (by simp)
  rcases resume_bind_cases hrun with hrun | ⟨id, u, hadd, hrest⟩
  · exact hadded hrun
  · have hperform : (Act.addBrancher (.observer observer)).perform s = some u :=
      resume_of_ok hadd
    obtain ⟨answer, hstatus⟩ := willing_status.ok_of_resume hrest
    exact (hadded hperform).status (Act.keeps hsound hperform).sound hstatus

/-- Whatever is done to a space, its cursors pass fixed views only. -/
theorem Swept.act (hswept : s.Swept) (hsound : s.Sound) {act : Act} (hfresh : act.Fresh)
    (hperform : act.perform s = some t) : t.Swept := by
  have hkeeps := act.keeps hsound hperform
  have hstays : ∀ {γ : Type} {m : Operation γ}, Unmoving m → resume (m s) = some t →
      t.Swept := by
    intro γ m hm hrun
    obtain ⟨hbranchers, hactive⟩ := hm s t hrun
    exact hswept.of_branchers hsound.store hkeeps.sound.store hkeeps.refines hbranchers hactive
  cases act with
  | newInt lower upper => exact hstays (tolerant_unmoved.addInt _) hperform
  | newSparse values => exact hstays (tolerant_unmoved.addInt _) hperform
  | newBool => exact hstays tolerant_unmoved.newBool hperform
  | newFloat lower upper => exact hstays (tolerant_unmoved.newFloat lower upper) hperform
  | newSet glb lub card => exact hstays (tolerant_unmoved.newSet glb lub card) hperform
  | post keepGoing narrowings => exact hstays (tolerant_unmoved.post keepGoing narrowings) hperform
  | addPropagator p rejection => exact hstays (unmoving_addPropagator p rejection) hperform
  | addBrancher b =>
      refine hswept.addBrancher ?_ hperform
      rintro v rfl
      exact hfresh
  | propagate =>
      obtain ⟨reason, hrun⟩ := willing_propagate.ok_of_resume hperform
      have hframe := (hsound.propagate hrun).frame
      exact hswept.of_branchers hsound.store hkeeps.sound.store hkeeps.refines
        hframe.branchers hframe.active
  | status =>
      obtain ⟨answer, hrun⟩ := willing_status.ok_of_resume hperform
      exact hswept.status hsound hrun
  | observe observer => exact hswept.observe hsound hperform
  | choice => exact hswept.choice hperform
  | commit chosen alternative => exact hstays (unmoving_commit chosen alternative) hperform
  | fail =>
      obtain rfl := Option.some.inj hperform
      exact hswept.of_branchers hsound.store hkeeps.sound.store hkeeps.refines
        (branchers_failWith _ _) (active_failWith _ _)
  | copy mode next =>
      obtain rfl := Option.some.inj hperform
      exact hswept.copy mode next
  | readJournal =>
      obtain rfl := Option.some.inj hperform
      exact hswept.of_same rfl rfl rfl
  | rescript id script =>
      obtain rfl := Option.some.inj hperform
      unfold Space.rescript
      split <;> exact hswept.of_same rfl rfl rfl

theorem Swept.performAll {acts : List Act} (hswept : s.Swept) (hsound : s.Sound)
    (hfresh : ∀ act ∈ acts, act.Fresh) (hperform : Space.performAll acts s = some t) :
    t.Swept := by
  induction acts generalizing s with
  | nil =>
      obtain rfl := Option.some.inj hperform
      exact hswept
  | cons act rest ih =>
      obtain ⟨u, hact, hrest⟩ := Option.bind_eq_some_iff.mp hperform
      exact ih (hswept.act hsound (hfresh act List.mem_cons_self) hact)
        (act.keeps hsound hact).sound (fun a ha => hfresh a (List.mem_cons_of_mem _ ha)) hrest

end Space

/-! ## What is found from the cursors on -/

theorem AnyView.known_refines {view : AnyView} {s s' : Store} (hdiscrete : view.Discrete)
    (hrefines : s.Refines s') (hknown : view.known s = true) : view.known s' = true := by
  cases view with
  | float v => exact hdiscrete.elim
  | int v => exact IntView.known_refines hrefines hknown
  | set id =>
      simp only [known, Store.knows, decide_eq_true_eq] at hknown ⊢
      exact hknown.trans_le hrefines.sets_size

/-- A brancher over integer or set views, all of them of variables that were created. -/
def Brancher.Viewing (s : Store) : Brancher → Prop
  | viewValue b => b.branching.Discrete ∧ ∀ view ∈ b.branching.views, view.known s = true
  | observer _ => False

theorem Brancher.Viewing.refines {b : Brancher} {s s' : Store} (hviewing : b.Viewing s)
    (hrefines : s.Refines s') : b.Viewing s' := by
  cases b with
  | observer o => exact hviewing
  | viewValue b =>
      exact ⟨hviewing.1, fun view hview =>
        AnyView.known_refines (hviewing.1.of_mem_views view hview) hrefines
          (hviewing.2 view hview)⟩

namespace Space

variable {s t u : Space}

/-- All branchers are over views of integer and set variables of the space. -/
def Viewing (s : Space) : Prop :=
  ∀ (j : Nat) (b : Brancher), s.branchers[j]? = some b → b.Viewing s.store

theorem Viewing.moved (hviewing : s.Viewing) {b : ViewBrancher}
    (hb : s.branchers[s.active]? = some (.viewValue b)) : (s.moved b).Viewing := by
  intro j b' hb'
  simp only [Space.moved, Array.getElem?_setIfInBounds] at hb'
  split at hb'
  · split at hb'
    · obtain rfl := Option.some.inj hb'
      exact hviewing s.active (.viewValue b) hb
    · simp at hb'
  · exact hviewing j b' hb'

/-- Asking the branchers in order ends at an open view or past all branchers. -/
theorem Viewing.advanceBy (hviewing : s.Viewing) (fuel : Nat)
    (hfuel : s.branchers.size ≤ s.active + fuel) :
    ∃ found t, Space.advanceBy fuel s = .ok found t ∧ (found = true → t.Stands) ∧
      (found = false → t.branchers.size ≤ t.active) := by
  induction fuel generalizing s with
  | zero => exact ⟨false, s, rfl, by simp, fun _ => hfuel⟩
  | succ fuel ih =>
      cases hbrancher : s.branchers[s.active]? with
      | none =>
          refine ⟨false, s, by simp only [Space.advanceBy, hbrancher], by simp, fun _ => ?_⟩
          exact Array.getElem?_eq_none_iff.mp hbrancher
      | some brancher =>
          have hover := hviewing _ _ hbrancher
          cases brancher with
          | observer o => exact hover.elim
          | viewValue b =>
              rcases ViewBrancher.status_cases hover.2 with
                ⟨hstatus, -⟩ | ⟨hstatus, hstands⟩
              · have hstep : Space.advanceBy (fuel + 1) s =
                    Space.advanceBy fuel { s.moved b with active := s.active + 1 } := by
                  simp only [Space.advanceBy, hbrancher, Brancher.status, hstatus]
                  rfl
                have hpast : Viewing { s.moved b with active := s.active + 1 } :=
                  hviewing.moved hbrancher
                rw [hstep]
                refine ih hpast ?_
                simp only [Space.moved, Array.size_setIfInBounds]
                omega
              · refine ⟨true, s.moved b, ?_, fun _ => ⟨_, ?_, hstands⟩, by simp⟩
                · simp only [Space.advanceBy, hbrancher, Brancher.status, hstatus]
                  rfl
                · simp only [Space.moved, Array.getElem?_setIfInBounds, if_true,
                    (Array.getElem?_eq_some_iff.mp hbrancher).1]

theorem Viewing.advance (hviewing : s.Viewing) :
    ∃ found t, Space.advance s = .ok found t ∧ (found = true → t.Stands) ∧
      (found = false → t.branchers.size ≤ t.active) :=
  hviewing.advanceBy (s.branchers.size - s.active) (by omega)

theorem Advances.viewBrancher (hadvances : s.Advances t) {j : Nat} {b : ViewBrancher} :
    (s.branchers[j]? = some (.viewValue b) → ∃ start,
      t.branchers[j]? = some (.viewValue { b with start })) ∧
    (t.branchers[j]? = some (.viewValue b) → ∃ start,
      s.branchers[j]? = some (.viewValue { b with start })) := by
  constructor
  · intro hb
    obtain ⟨next, hnext, hpasses⟩ := hadvances.passes j _ hb
    cases hpasses with
    | stays => exact ⟨b.start, hnext⟩
    | moves => exact ⟨_, hnext⟩
  · intro hb
    have hj : j < s.branchers.size := by
      rw [← hadvances.size]
      exact (Array.getElem?_eq_some_iff.mp hb).1
    obtain ⟨first, hfirst⟩ : ∃ first, s.branchers[j]? = some first :=
      ⟨_, Array.getElem?_eq_getElem hj⟩
    obtain ⟨next, hnext, hpasses⟩ := hadvances.passes j first hfirst
    obtain rfl : next = .viewValue b := Option.some.inj (hnext.symm.trans hb)
    obtain ⟨start, rfl⟩ := hpasses.exists_start
    exact ⟨start, hfirst⟩

theorem Swept.passed (hswept : s.Swept) (hviewing : s.Viewing) : s.Passed :=
  fun j b hb => hswept.fixed j b hb (hviewing j _ hb).1

/-- A space is branching when propagation succeeds and leaves a view open. -/
theorem Swept.status_branching_iff (hswept : s.Swept) (hviewing : s.Viewing)
    (hsound : s.Sound) :
    (∃ t, Space.status s = .ok .branching t) ↔
      ∃ t, propagate s = .ok none t ∧ ∃ (j : Nat) (b : ViewBrancher),
        t.branchers[j]? = some (.viewValue b) ∧
          ∃ view ∈ b.branching.views, view.isFixed t.store = false := by
  rw [status_eq]
  cases hpropagate : propagate s with
  | error fault t => simp
  | ok reason t =>
      cases reason with
      | some reason => simp
      | none =>
          have hpropagated := hsound.propagate hpropagate
          have hframe := hpropagated.frame
          have hswept' : t.Swept := hswept.of_branchers hsound.store
            hpropagated.sound.store hframe.refines hframe.branchers hframe.active
          have hviewing' : t.Viewing := fun j b hb =>
            (hviewing j b (hframe.branchers ▸ hb)).refines hframe.refines
          obtain ⟨found, u, hadvance, hstands, hpast⟩ := hviewing'.advance
          have hadvances : t.Advances u := advances_of_advanceBy hadvance
          simp only [hadvance]
          constructor
          · rintro ⟨_, hanswer⟩
            have hfound : found = true := by
              cases found with
              | true => rfl
              | false => simp at hanswer
            obtain ⟨b, hb, view, hview, hopen⟩ := hstands hfound
            obtain ⟨start, hb'⟩ := hadvances.viewBrancher.2 hb
            rw [hadvances.store] at hopen
            exact ⟨t, rfl, _, _, hb', view, List.mem_of_getElem? hview, hopen⟩
          · rintro ⟨_, ⟨⟩, j, b, hb, view, hview, hopen⟩
            cases found with
            | true => exact ⟨u, rfl⟩
            | false =>
                obtain ⟨start, hb'⟩ := hadvances.viewBrancher.1 hb
                obtain ⟨i, hi⟩ := List.mem_iff_getElem?.mp hview
                have hj := (Array.getElem?_eq_some_iff.mp hb').1
                have hfixed := (hswept'.advanceBy hadvance).fixed j _ hb'
                  (hviewing' j _ hb).1 i view hi (Or.inr (hj.trans_le (hpast rfl)))
                rw [hadvances.store, hopen] at hfixed
                cases hfixed

/-- What is proposed is of the view that is selected among those from the cursor on. -/
theorem of_propose {c : Choice} (hrun : Space.propose s = .ok c t) :
    c.brancher = s.active ∧ ∃ b offset next,
      s.branchers[s.active]? = some (.viewValue b) ∧
        b.selector.select s.store (b.branching.views.drop b.start) = some offset ∧
        c.position = b.start + offset ∧
        b.branching.selectValue s.store (b.start + offset) = .ok (c.value, next) ∧
        c.alternatives = next.alternatives ∧ t.store = s.store ∧ t.slots = s.slots ∧
        t.failure = s.failure ∧
        t.branchers[s.active]? = some (.viewValue { b with branching := next }) := by
  unfold Space.propose at hrun
  split at hrun
  · cases hrun
  next asked hasked =>
    have hlt := (Array.getElem?_eq_some_iff.mp hasked).1
    split at hrun
    · cases hrun
    next proposed next notes hanswer =>
      split at hrun
      · cases hrun
      next chosen =>
        cases hrun
        cases asked with
        | observer o => cases hanswer
        | viewValue b =>
            simp only [Brancher.choice] at hanswer
            split at hanswer
            next hchoice =>
              cases hanswer
              rcases ViewBrancher.choice_cases hchoice with
                ⟨hnone, -⟩ | ⟨offset, value, branching, hselect, hvalue, hchosen, rfl⟩
              · cases hnone
              · cases hchosen
                exact ⟨rfl, b, offset, branching, hasked, hselect, rfl, hvalue, rfl, rfl, rfl, rfl,
                  by simp [Space.noteAll, hlt]⟩
            · cases hanswer

/-- The choice is that of the first brancher with an open view, at the view that its
selector picks among all views. -/
theorem Swept.choice_picks (hswept : s.Swept) (hviewing : s.Viewing) {c : Choice}
    (hrun : Space.choice s = .ok c t) :
    ∃ b view, s.branchers[c.brancher]? = some (.viewValue b) ∧
      b.branching.views[c.position]? = some view ∧ view.isFixed s.store = false ∧
      (∀ (j : Nat) (b' : ViewBrancher), j < c.brancher →
        s.branchers[j]? = some (.viewValue b') →
          ∀ view ∈ b'.branching.views, view.isFixed s.store = true) ∧
      b.selector.select s.store b.branching.views = some c.position := by
  obtain ⟨-, u, hadvance, hpropose⟩ := exists_propose_of_choice hrun
  have hadvances : s.Advances u := advances_of_advanceBy hadvance
  have hswept' : u.Swept := hswept.advanceBy hadvance
  obtain ⟨hactive, b, offset, -, hb, hoffset, hposition, -⟩ := of_propose hpropose
  obtain ⟨start, hb'⟩ := hadvances.viewBrancher.2 hb
  have hdiscrete : b.branching.Discrete := (hviewing _ _ hb').1
  have hbefore : ∀ (i : Nat) (view : AnyView), i < b.start →
      b.branching.views[i]? = some view → view.isFixed u.store = true :=
    fun i view hi hview => hswept'.fixed _ b hb hdiscrete i view hview (Or.inl hi)
  -- what the selector finds behind the cursor is what it finds among all views
  have hselect : b.selector.select u.store b.branching.views = some c.position := by
    rw [b.selector.select_drop hbefore, hoffset, Option.map_some, hposition]
  obtain ⟨view, hview, hopen⟩ := Selector.open_of_select hselect
  rw [hadvances.store] at hopen hselect
  rw [hactive]
  refine ⟨_, view, hb', hview, hopen, fun j b' hj hfirst view' hview' => ?_, hselect⟩
  obtain ⟨start', hfirst'⟩ := hadvances.viewBrancher.1 hfirst
  obtain ⟨k, hk⟩ := List.mem_iff_getElem?.mp hview'
  have hfixed := hswept'.fixed j _ hfirst' (hviewing _ _ hfirst).1 k view' hk (Or.inr hj)
  rwa [hadvances.store] at hfixed

/-- What is found under a number stands there. -/
theorem branchers_of_findBrancher? {id : Nat} {kind : ViewBrancher.Kind} {b : ViewBrancher}
    (hfound : s.findBrancher? id kind = some b) : s.branchers[id]? = some (.viewValue b) := by
  unfold findBrancher? at hfound
  cases hb : s.branchers[id]? with
  | none => simp [hb] at hfound
  | some brancher =>
      cases brancher with
      | observer o => simp [hb] at hfound
      | viewValue b' =>
          simp only [hb] at hfound
          split at hfound
          · rw [Option.some.inj hfound]
          · cases hfound

/-- Cursors have passed fixed views only, and neither the status nor the choice of a
reachable space depends on where they are: the space is branching when propagation
succeeds and some view of any brancher is open, and a choice is that of the first brancher
with an open view, at the view which its selector picks among all of them. -/
theorem cursors_invisible {acts : List Act} (hfresh : ∀ act ∈ acts, act.Fresh)
    (hperform : performAll acts new = some s) (hviewing : s.Viewing) :
    s.Passed ∧
      ((∃ t, status s = .ok .branching t) ↔
        ∃ t, propagate s = .ok none t ∧ ∃ (j : Nat) (b : ViewBrancher),
          t.branchers[j]? = some (.viewValue b) ∧
            ∃ view ∈ b.branching.views, view.isFixed t.store = false) ∧
      ∀ c t, choice s = .ok c t →
        ∃ b view, s.branchers[c.brancher]? = some (.viewValue b) ∧
          b.branching.views[c.position]? = some view ∧ view.isFixed s.store = false ∧
          (∀ (j : Nat) (b' : ViewBrancher), j < c.brancher →
            s.branchers[j]? = some (.viewValue b') →
              ∀ view ∈ b'.branching.views, view.isFixed s.store = true) ∧
          b.selector.select s.store b.branching.views = some c.position ∧
          b.selector.Picks s.store b.branching.views c.position := by
  have hswept : s.Swept := swept_new.performAll sound_new hfresh hperform
  have hsound : s.Sound := ((reaches_of_performAll hperform).tidy tidy_new).sound
  refine ⟨hswept.passed hviewing, hswept.status_branching_iff hviewing hsound, ?_⟩
  intro c t hrun
  obtain ⟨b, view, hb, hview, hopen, hfixed, hselect⟩ := hswept.choice_picks hviewing hrun
  exact ⟨b, view, hb, hview, hopen, hfixed, hselect, Selector.picks_of_select hselect⟩

/-- A copy whose cursors have passed a brancher and a fixed view. -/
theorem copy_chooses_behind_cursors :
    let first : ViewBrancher :=
      { start := 0, selector := .inputOrder
        branching := .int [.var 0] .min .assignOrExclude
        label := none, selectionNotices := false, commitNotices := false }
    let second : ViewBrancher :=
      { first with
        selector := .largest
        branching := .int [.var 0, .var 2, .var 1, .var 1] .max .assignOrExclude }
    let acts : List Act := [.newInt 3 3, .newInt 0 5, .newInt 2 4,
      .addBrancher (.viewValue first), .addBrancher (.viewValue second), .status,
      .copy .independent 0]
    ∃ s, performAll acts new = some s ∧ s.active = 1 ∧ s.Viewing ∧ s.Passed ∧
      ∃ c t, choice s = .ok c t ∧ c.brancher = 1 ∧ c.position = 2 ∧
        s.branchers[1]? = some (.viewValue { second with start := 1 }) ∧
          second.selector.Picks s.store second.branching.views 2 := by
  intro first second acts
  have hrun : (performAll acts new).map (fun s =>
      ([s.branchers.size, s.active, s.store.ints.size],
        [s.findBrancher? 0 first.kind, s.findBrancher? 1 second.kind],
        (choice.run' s).map fun c => (c.brancher, c.position))) =
      some ([2, 1, 3], [some { first with start := 1 }, some { second with start := 1 }],
        some (1, 2)) := by
    decide +kernel
  obtain ⟨s, hperform, hs⟩ := Option.map_eq_some_iff.mp hrun
  simp only [Prod.mk.injEq, List.cons.injEq, and_true] at hs
  obtain ⟨⟨hsize, hactive, hints⟩, ⟨hfoundfirst, hfoundsecond⟩, hchosen⟩ := hs
  have hfirst := branchers_of_findBrancher? hfoundfirst
  have hsecond := branchers_of_findBrancher? hfoundsecond
  have hviewing : s.Viewing := by
    intro j b hb
    have hj := (Array.getElem?_eq_some_iff.mp hb).1
    obtain rfl | rfl : j = 0 ∨ j = 1 := by omega
    · obtain rfl := Option.some.inj (hfirst.symm.trans hb)
      exact ⟨trivial, by simp [Branching.views, first, AnyView.known, IntView.known,
        IntView.base?, Store.knows, hints]⟩
    · obtain rfl := Option.some.inj (hsecond.symm.trans hb)
      exact ⟨trivial, by simp [Branching.views, second, AnyView.known, IntView.known,
        IntView.base?, Store.knows, hints]⟩
  have hfresh : ∀ act ∈ acts, act.Fresh := by simp [acts, Act.Fresh, first, second]
  obtain ⟨hpassed, -, hchoice⟩ := cursors_invisible hfresh hperform hviewing
  obtain ⟨c, hvalue, hplace⟩ := Option.map_eq_some_iff.mp hchosen
  cases hchoose : choice s with
  | error fault t => simp [EStateM.run', EStateM.run, hchoose] at hvalue
  | ok c' t =>
      obtain rfl : c' = c := by simpa [EStateM.run', EStateM.run, hchoose] using hvalue
      obtain ⟨hbrancher, hposition⟩ := Prod.mk.inj hplace
      obtain ⟨b, -, hb, -, -, -, -, hpicks⟩ := hchoice c' t hchoose
      rw [hbrancher, hsecond] at hb
      obtain rfl := Brancher.viewValue.inj (Option.some.inj hb)
      rw [hposition] at hpicks
      exact ⟨s, hperform, hactive, hviewing, hpassed, c', t, hchoose, hbrancher, hposition,
        hsecond, hpicks⟩

end Space

end ConstraintSpace
