import ConstraintSpace.Proofs.Branching.Choices
import ConstraintSpace.Proofs.Space.Failure
import ConstraintSpace.Proofs.Space.Likeness

/-!
# Refused operations change nothing

An operation that is refused leaves the space as it was; all that may be new in the
journal is what a constructor read of its views before it rejected them.  Only a choice
may move on before it is refused: from the active brancher on it passes views that are
fixed, and branchers that have no other views left.
-/

namespace ConstraintSpace

/-- The second brancher is the first one, but may have moved its cursor past views that
are fixed. -/
inductive Brancher.Passes (s : Store) : Brancher → Brancher → Prop where
  | stays (b : Brancher) : Passes s b b
  | moves (b : ViewBrancher) {start : Nat} (hstart : b.start ≤ start)
      (hfixed : ∀ i view, b.start ≤ i → i < start → b.branching.views[i]? = some view →
        view.isFixed s = true) :
      Passes s (.viewValue b) (.viewValue { b with start })

/-- Nothing is left to branch on: all views from the cursor on are fixed.  An observer
says so itself. -/
def Brancher.Exhausted (s : Store) : Brancher → Prop
  | viewValue b => ∀ i view, b.start ≤ i → b.branching.views[i]? = some view →
      view.isFixed s = true
  | observer o => o.branches = false

/-- A status moves the cursor past fixed views only, and without alternatives the brancher
is exhausted. -/
theorem Brancher.passes_of_status {b b' : Brancher} {s : Store} {branches : Bool}
    {notes : List Happening} (hstatus : b.status s = .ok (branches, b', notes)) :
    Passes s b b' ∧ (branches = false → b.Exhausted s) := by
  cases b with
  | observer o =>
      simp only [Brancher.status] at hstatus
      split at hstatus
      · cases hstatus
        exact ⟨.stays _, id⟩
      · cases hstatus
  | viewValue b =>
      simp only [Brancher.status] at hstatus
      split at hstatus
      next hanswer =>
        cases hstatus
        obtain ⟨rfl, hfixed⟩ := ViewBrancher.of_status hanswer
        refine ⟨.moves b (Nat.le_add_right _ _) fun _ _ hstart hcursor hview => ?_, hfixed⟩
        exact ViewBrancher.isFixed_of_lt_cursor hstart hcursor hview
      · cases hstatus

/-- A brancher that proposes nothing stays as it is. -/
theorem Brancher.eq_of_choice_none {b b' : Brancher} {s : Store} {notes : List Happening}
    (hchoice : b.choice s = .ok (none, b', notes)) : b' = b := by
  cases b with
  | observer o =>
      cases hchoice
      rfl
  | viewValue b =>
      simp only [Brancher.choice] at hchoice
      split at hchoice
      next hanswer =>
        cases hchoice
        rcases ViewBrancher.choice_cases hanswer with ⟨-, rfl⟩ | ⟨_, _, _, -, -, hchosen, -⟩
        · rfl
        · cases hchosen
      · cases hchoice

theorem Brancher.Passes.trans {s : Store} {b b' b'' : Brancher} (hfirst : Passes s b b')
    (hsecond : Passes s b' b'') : Passes s b b'' := by
  cases hfirst with
  | stays => exact hsecond
  | @moves b start hstart hfixed =>
      cases hsecond with
      | stays => exact .moves b hstart hfixed
      | @moves _ later hlater hfixed' =>
          refine .moves b (hstart.trans hlater) fun i view hi hlt hview => ?_
          by_cases hmiddle : i < start
          · exact hfixed i view hi hmiddle hview
          · exact hfixed' i view (Nat.le_of_not_lt hmiddle) hlt hview

/-- What a cursor passes is fixed, so it does not matter where the cursor is. -/
theorem Brancher.Passes.exhausted_iff {s : Store} {b b' : Brancher} (hpasses : Passes s b b') :
    b.Exhausted s ↔ b'.Exhausted s := by
  cases hpasses with
  | stays => exact Iff.rfl
  | @moves b start hstart hfixed =>
      constructor
      · exact fun hexhausted i view hi => hexhausted i view (hstart.trans hi)
      · intro hexhausted i view hi hview
        by_cases hpassed : i < start
        · exact hfixed i view hi hpassed hview
        · exact hexhausted i view (Nat.le_of_not_lt hpassed) hview

/-- Moving the cursor changes neither the views of a brancher nor its selector. -/
theorem Brancher.Passes.exists_start {s : Store} {first : Brancher} {b : ViewBrancher}
    (hpasses : Passes s first (.viewValue b)) :
    ∃ start, first = .viewValue { b with start } := by
  cases hpasses with
  | stays => exact ⟨b.start, rfl⟩
  | moves first => exact ⟨first.start, rfl⟩

namespace Space

variable {s s' t : Space} {α β : Type}

/-- All but the journal is as before. -/
def Spares (s s' : Space) : Prop := ∃ journal, s' = { s with journal }

theorem Spares.refl (s : Space) : s.Spares s := ⟨s.journal, rfl⟩

/-- All but the journal and the cursors is as before.  The branchers from the active one
on, up to the one that is active afterwards, may have moved past fixed views, and those in
between have nothing left to branch on. -/
structure Advances (s s' : Space) : Prop where
  rest : ∃ journal, s' = { s with branchers := s'.branchers, active := s'.active, journal }
  size : s'.branchers.size = s.branchers.size
  active : s.active ≤ s'.active
  passes : ∀ (id : Nat) b, s.branchers[id]? = some b →
    ∃ b', s'.branchers[id]? = some b' ∧ Brancher.Passes s.store b b'
  others : ∀ id, id < s.active ∨ s'.active < id → s'.branchers[id]? = s.branchers[id]?
  exhausted : ∀ id, s.active ≤ id → id < s'.active →
    ∃ b, s.branchers[id]? = some b ∧ b.Exhausted s.store

theorem Spares.advances (hspares : s.Spares s') : s.Advances s' := by
  obtain ⟨journal, rfl⟩ := hspares
  exact ⟨⟨journal, rfl⟩, rfl, le_refl _, fun _ b hb => ⟨b, hb, .stays b⟩, fun _ _ => rfl,
    fun _ hle hlt => absurd hlt (Nat.not_lt.mpr hle)⟩

theorem Advances.store (hadvances : s.Advances s') : s'.store = s.store := by
  obtain ⟨journal, heq⟩ := hadvances.rest
  rw [heq]

theorem Advances.trans (hfirst : s.Advances s') (hsecond : s'.Advances t) : s.Advances t where
  rest := by
    obtain ⟨_, hfirst⟩ := hfirst.rest
    obtain ⟨journal, hsecond⟩ := hsecond.rest
    refine ⟨journal, ?_⟩
    rw [hsecond, hfirst]
  size := hsecond.size.trans hfirst.size
  active := hfirst.active.trans hsecond.active
  passes := fun id b hb => by
    obtain ⟨b', hb', hpasses⟩ := hfirst.passes id b hb
    obtain ⟨b'', hb'', hpasses'⟩ := hsecond.passes id b' hb'
    rw [hfirst.store] at hpasses'
    exact ⟨b'', hb'', hpasses.trans hpasses'⟩
  others := fun id houtside => by
    rw [hsecond.others id (houtside.imp_left (Nat.lt_of_lt_of_le · hfirst.active)),
      hfirst.others id (houtside.imp_right (Nat.lt_of_le_of_lt hsecond.active))]
  exhausted := fun id hle hlt => by
    by_cases hbefore : id < s'.active
    · exact hfirst.exhausted id hle hbefore
    -- passed in the second part, and in the first one its cursor passed fixed views only
    obtain ⟨b', hb', hexhausted⟩ := hsecond.exhausted id (Nat.le_of_not_lt hbefore) hlt
    obtain ⟨b, hb⟩ : ∃ b, s.branchers[id]? = some b := by
      have hid := (Array.getElem?_eq_some_iff.mp hb').1
      exact ⟨_, Array.getElem?_eq_getElem (hfirst.size ▸ hid)⟩
    obtain ⟨next, hnext, hpasses⟩ := hfirst.passes id b hb
    obtain rfl : next = b' := Option.some.inj (hnext.symm.trans hb')
    rw [hfirst.store] at hexhausted
    exact ⟨b, hb, hpasses.exhausted_iff.mpr hexhausted⟩

/-- The active brancher moved its cursor. -/
theorem advances_of_passes {b b' : Brancher} (hb : s.branchers[s.active]? = some b)
    (hpasses : Brancher.Passes s.store b b') (notes : List Happening) :
    s.Advances
      ({ s with branchers := s.branchers.setIfInBounds s.active b' }.noteAll notes) where
  rest := ⟨_, rfl⟩
  size := Array.size_setIfInBounds
  active := le_refl _
  passes := fun id c hc => by
    simp only [noteAll, Array.getElem?_setIfInBounds]
    by_cases heq : s.active = id
    · subst heq
      obtain rfl : b = c := Option.some.inj (hb.symm.trans hc)
      exact ⟨b', by simp [(Array.getElem?_eq_some_iff.mp hb).1], hpasses⟩
    · exact ⟨c, by rw [if_neg heq, hc], .stays c⟩
  others := fun id houtside => by
    have hne : s.active ≠ id := by
      rcases houtside with hlt | hlt
      · exact Nat.ne_of_gt hlt
      · exact Nat.ne_of_lt hlt
    simp only [noteAll, Array.getElem?_setIfInBounds, if_neg hne]
  exhausted := fun _ hle hlt => absurd hlt (Nat.not_lt.mpr hle)

/-- The active brancher is exhausted, and the next one becomes active. -/
theorem advances_past {b : Brancher} (hb : s.branchers[s.active]? = some b)
    (hexhausted : b.Exhausted s.store) : s.Advances { s with active := s.active + 1 } where
  rest := ⟨_, rfl⟩
  size := rfl
  active := Nat.le_succ _
  passes := fun _ c hc => ⟨c, hc, .stays c⟩
  others := fun _ _ => rfl
  exhausted := fun id hle hlt => by
    obtain rfl : id = s.active := Nat.le_antisymm (Nat.le_of_lt_succ hlt) hle
    exact ⟨b, hb, hexhausted⟩

theorem advances_of_advanceBy {fuel : Nat} {found : Bool}
    (hrun : advanceBy fuel s = .ok found s') : s.Advances s' := by
  refine advanceBy_induction (P := s.Advances) (fun t b branches b' notes hbefore hb hstatus => ?_)
    (Spares.refl s).advances hrun
  obtain ⟨hpasses, hexhausted⟩ := Brancher.passes_of_status hstatus
  have hasked := hbefore.trans (advances_of_passes hb hpasses notes)
  refine ⟨fun _ => hasked, fun hnone => hasked.trans (advances_past (b := b') ?_ ?_)⟩
  · simp [noteAll, (Array.getElem?_eq_some_iff.mp hb).1]
  · exact hpasses.exhausted_iff.mp (hexhausted hnone)

/-! ## Operations that are refused -/

/-- The error with which an operation is refused. -/
def refusal {α : Type} : EStateM.Result Fault Space α → Option SpaceError
  | .error (.refused error) _ => some error
  | _ => none

/-- The error with which an act is refused. -/
def Act.refusal (act : Act) (s : Space) : Option SpaceError :=
  match act with
  | .newInt lower upper => Space.refusal (Space.newInt lower upper s)
  | .newSparse values => Space.refusal (Space.newSparse values s)
  | .newBool => Space.refusal (Space.newBool s)
  | .newFloat lower upper => Space.refusal (Space.newFloat lower upper s)
  | .newSet glb lub card => Space.refusal (Space.newSet glb lub card s)
  | .post keepGoing narrowings => Space.refusal (Space.post keepGoing narrowings s)
  | .addPropagator p rejection => Space.refusal (Space.addPropagator p rejection s)
  | .addBrancher b => Space.refusal (Space.addBrancher b s)
  | .propagate => Space.refusal (Space.propagate s)
  | .status => Space.refusal (Space.status s)
  | .observe observer => Space.refusal (Space.observe observer s)
  | .choice => Space.refusal (Space.choice s)
  | .commit chosen alternative => Space.refusal (Space.commit chosen alternative s)
  | .fail | .copy _ _ | .readJournal | .rescript _ _ => none

/-- A refusal of the operation leaves all but the journal as it was. -/
def Sparing (m : Operation α) : Prop :=
  ∀ s error s', m s = .error (.refused error) s' → s.Spares s'

theorem Willing.sparing {m : Operation α} (hwilling : Willing m) : Sparing m :=
  fun s error s' hrun => absurd hrun (hwilling s error s')

theorem Sparing.of_refusal {m : Operation α} (hsparing : Sparing m) {error : SpaceError}
    (hrefused : refusal (m s) = some error) :
    ∃ s', resume (m s) = some s' ∧ s.Spares s' := by
  cases hm : m s with
  | ok x t => simp [hm, refusal] at hrefused
  | error fault t =>
      cases fault with
      | refused error' => exact ⟨t, rfl, hsparing s error' t hm⟩
      | breached breach => simp [hm, refusal] at hrefused

/-- After an operation only another one that is never refused may follow. -/
theorem Sparing.bind {m : Operation α} {k : α → Operation β} (hm : Sparing m)
    (hk : ∀ x, Willing (k x)) : Sparing (m >>= k) := by
  intro s error s' hrun
  cases hfirst : m s with
  | ok x t =>
      rw [bind_of_ok hfirst] at hrun
      exact absurd hrun (hk x t error s')
  | error fault t =>
      rw [bind_of_error hfirst] at hrun
      cases hrun
      exact hm s error _ hfirst

/-- A check that a space has not failed leaves it as it is. -/
theorem Sparing.checked {m : Operation α} (hm : Sparing m) :
    Sparing (checkNotFailed >>= fun _ => m) := by
  intro s error s' hrun
  by_cases hfailed : s.isFailed = true
  · have hcheck : checkNotFailed s = .error (.refused .spaceFailed) s := if_pos hfailed
    rw [bind_of_error hcheck] at hrun
    cases hrun
    exact .refl s
  · have hcheck : checkNotFailed s = .ok () s := if_neg hfailed
    rw [bind_of_ok hcheck] at hrun
    exact hm s error s' hrun

theorem Sparing.permit_bind {result : Except SpaceError α} {k : α → Operation β}
    (hk : ∀ x, Willing (k x)) : Sparing (permit result >>= k) := by
  refine Sparing.bind (fun s error s' hrun => ?_) hk
  unfold permit at hrun
  split at hrun
  · simp at hrun
  · cases hrun
    exact .refl s

theorem willing_pure (x : α) : Willing (pure x : Operation α) := by
  intro s error s' hrun
  have hrun' : (.ok x s : EStateM.Result Fault Space α) = .error (.refused error) s' := hrun
  simp at hrun'

theorem willing_modifyGet (f : Space → α × Space) : Willing (modifyGet f : Operation α) := by
  intro s error s' hrun
  have hrun' : (.ok (f s).1 (f s).2 : EStateM.Result Fault Space α) =
    .error (.refused error) s' := hrun
  simp at hrun'

theorem Willing.bind {m : Operation α} {k : α → Operation β} (hm : Willing m)
    (hk : ∀ x, Willing (k x)) : Willing (m >>= k) := by
  intro s error s' hrun
  cases hfirst : m s with
  | ok x t =>
      rw [bind_of_ok hfirst] at hrun
      exact hk x t error s' hrun
  | error fault t =>
      rw [bind_of_error hfirst] at hrun
      cases hrun
      exact hm s error _ hfirst

theorem willing_status : Willing status := by
  refine willing_propagate.bind fun reason => ?_
  cases reason with
  | some _ => exact willing_pure _
  | none =>
      have hadvance : Willing advance := fun s => willing_advanceBy _ s
      exact hadvance.bind fun _ => willing_pure _

/-! ### Building a model -/

theorem sparing_addInt (domain : Except SpaceError IntDomain) : Sparing (addInt domain) :=
  (Sparing.permit_bind fun _ => willing_modifyGet _).checked

theorem sparing_newFloat (lower upper : Double) : Sparing (newFloat lower upper) :=
  (Sparing.permit_bind fun _ => willing_modifyGet _).checked

theorem sparing_newSet (glb lub : List Int) (card : Nat × Nat) :
    Sparing (newSet glb lub card) :=
  (Sparing.permit_bind fun _ => willing_modifyGet _).checked

theorem sparing_post (keepGoing : Bool) (narrowings : List Narrowing) :
    Sparing (post keepGoing narrowings) := by
  intro s error s' hrun
  unfold post at hrun
  split at hrun
  · cases hrun
    exact .refl s
  · split at hrun
    · split at hrun
      · simp at hrun
      next fault t hschedule =>
        cases hrun
        exact absurd hschedule (willing_schedule none _ _ _)
    · simp at hrun
    · simp at hrun

/-- Watches are noted in the journal, and noting them is never refused. -/
theorem announce_spares {name : String} {position : Nat} {watches : List Watch}
    {result : EStateM.Result Fault Space Unit}
    (hrun : announce name position watches s = result) :
    (∃ s', result = .ok () s' ∧ s.Spares s') ∨
      ∃ breach s', result = .error (.breached breach) s' := by
  induction watches generalizing position s with
  | nil => exact Or.inl ⟨s, hrun.symm, .refl s⟩
  | cons watch rest ih =>
      unfold announce at hrun
      split at hrun
      · rcases ih hrun with ⟨s', heq, journal, rfl⟩ | hbreach
        · exact Or.inl ⟨_, heq, journal, rfl⟩
        · exact Or.inr hbreach
      · exact Or.inr ⟨_, _, hrun.symm⟩

theorem present_spares (p : Propagator) (s : Space) :
    (∃ s', present p s = .ok () s' ∧ s.Spares s') ∨
      ∃ breach s', present p s = .error (.breached breach) s' := by
  cases p with
  | scripted script => exact announce_spares rfl
  | _ => exact Or.inl ⟨s, rfl, .refl s⟩

theorem sparing_addPropagator (p : Propagator) (rejection : Option SpaceError) :
    Sparing (addPropagator p rejection) := by
  refine Sparing.checked fun s error s' hrun => ?_
  rcases present_spares p s with ⟨t, hpresent, hspares⟩ | ⟨breach, t, hpresent⟩
  · rw [bind_of_ok hpresent] at hrun
    cases rejection with
    | some first =>
        have hrun' : (.error (.refused first) t : EStateM.Result Fault Space Nat) =
          .error (.refused error) s' := hrun
        simp only [EStateM.Result.error.injEq] at hrun'
        exact hrun'.2 ▸ hspares
    | none => exact absurd hrun (willing_modifyGet _ t error s')
  · rw [bind_of_error hpresent] at hrun
    simp at hrun

theorem sparing_addBrancher (b : Brancher) : Sparing (addBrancher b) :=
  (willing_modifyGet _).sparing.checked

theorem sparing_observe (observer : Observer) : Sparing (observe observer) :=
  (sparing_addBrancher _).bind fun _ => willing_status

/-! ### Exploration -/

theorem sparing_commit (chosen : Choice) (alternative : Nat) :
    Sparing (commit chosen alternative) := by
  intro s error s' hrun
  unfold commit at hrun
  split at hrun
  · simp at hrun
  split at hrun
  · cases hrun
    exact .refl s
  split at hrun
  · cases hrun
    exact .refl s
  split at hrun
  · cases hrun
    exact .refl s
  split at hrun
  · exact absurd hrun (willing_schedule none _ _ _)
  · simp at hrun
  · simp at hrun

theorem propose_advances {error : SpaceError}
    (hrun : propose s = .error (.refused error) s') : s.Advances s' := by
  unfold propose at hrun
  split at hrun
  · cases hrun
    exact (Spares.refl s).advances
  next b hb =>
    split at hrun
    · simp at hrun
    next proposed b' notes hchoice =>
      cases proposed with
      | some chosen => simp at hrun
      | none =>
          cases hrun
          rw [Brancher.eq_of_choice_none hchoice]
          exact advances_of_passes hb (.stays b) notes

theorem choice_advances {error : SpaceError}
    (hrun : choice s = .error (.refused error) s') : s.Advances s' := by
  rw [choice_eq] at hrun
  split at hrun
  · cases hrun
    exact (Spares.refl s).advances
  split at hrun
  · cases hrun
    exact (Spares.refl s).advances
  split at hrun
  next fault t hadvance =>
    cases hrun
    exact absurd hadvance (willing_advanceBy _ _ _ _)
  next t hadvance =>
    cases hrun
    exact advances_of_advanceBy hadvance
  next t hadvance => exact (advances_of_advanceBy hadvance).trans (propose_advances hrun)

/-! ### Every act -/

/-- A refused act leaves all but the journal as it was; only a choice may pass fixed
views first. -/
theorem refused_act_advances {act : Act} {error : SpaceError}
    (hrefused : act.refusal s = some error) :
    ∃ s', act.perform s = some s' ∧ s.Advances s' ∧ (act = .choice ∨ s.Spares s') := by
  have hsparing : ∀ {α : Type} {m : Operation α}, Sparing m →
      refusal (m s) = some error →
        ∃ s', resume (m s) = some s' ∧ s.Advances s' ∧ (act = .choice ∨ s.Spares s') := by
    intro α m hm hrefused
    obtain ⟨s', hresume, hspares⟩ := hm.of_refusal hrefused
    exact ⟨s', hresume, hspares.advances, Or.inr hspares⟩
  cases act with
  | newInt lower upper => exact hsparing (sparing_addInt _) hrefused
  | newSparse values => exact hsparing (sparing_addInt _) hrefused
  | newBool =>
      exact hsparing ((sparing_addInt _).bind fun _ => willing_pure _) hrefused
  | newFloat lower upper => exact hsparing (sparing_newFloat _ _) hrefused
  | newSet glb lub card => exact hsparing (sparing_newSet _ _ _) hrefused
  | post keepGoing narrowings => exact hsparing (sparing_post _ _) hrefused
  | addPropagator p rejection => exact hsparing (sparing_addPropagator _ _) hrefused
  | addBrancher b => exact hsparing (sparing_addBrancher _) hrefused
  | propagate => exact hsparing willing_propagate.sparing hrefused
  | status => exact hsparing willing_status.sparing hrefused
  | observe observer => exact hsparing (sparing_observe _) hrefused
  | commit chosen alternative => exact hsparing (sparing_commit _ _) hrefused
  | choice =>
      cases hchoice : Space.choice s with
      | ok chosen t => simp [Act.refusal, hchoice, refusal] at hrefused
      | error fault t =>
          cases fault with
          | refused error' =>
              exact ⟨t, by rw [Act.perform, hchoice, resume], choice_advances hchoice,
                Or.inl rfl⟩
          | breached breach => simp [Act.refusal, hchoice, refusal] at hrefused
  | fail => simp [Act.refusal] at hrefused
  | copy mode next => simp [Act.refusal] at hrefused
  | readJournal => simp [Act.refusal] at hrefused
  | rescript id script => simp [Act.refusal] at hrefused

/-- Where all views are fixed the choice is refused, and the brancher has passed them. -/
theorem choice_without_open_views :
    let b : ViewBrancher :=
      { start := 0, selector := .inputOrder, branching := .int [.var 0, .var 1] .min
          .assignOrExclude, label := none, selectionNotices := false, commitNotices := false }
    let acts : List Act := [.newInt 3 3, .newInt 0 5, .addBrancher (.viewValue b),
      .post false [.fix (.var 1) 4]]
    ∃ s, performAll acts new = some s ∧ Act.choice.refusal s = some .noBrancher ∧
      ∃ s', Act.choice.perform s = some s' ∧
        s'.findBrancher? 0 b.kind = some { b with start := 2 } ∧
        s.Advances s' ∧ (Act.choice = .choice ∨ s.Spares s') := by
  intro b acts
  have hrun : (performAll acts new).map (fun s => (Act.choice.refusal s,
      (Act.choice.perform s).map fun s' => s'.findBrancher? 0 b.kind)) =
        some (some .noBrancher, some (some { b with start := 2 })) := by
    decide +kernel
  obtain ⟨s, hperform, hs⟩ := Option.map_eq_some_iff.mp hrun
  simp only [Prod.mk.injEq] at hs
  obtain ⟨hrefused, hfind⟩ := hs
  obtain ⟨s', hs', hadvances, hspares⟩ := refused_act_advances hrefused
  rw [hs', Option.map_some, Option.some.injEq] at hfind
  exact ⟨s, hperform, hrefused, s', hs', hfind, hadvances, hspares⟩

end Space

end ConstraintSpace
