import ConstraintSpace.Path
import ConstraintSpace.Proofs.Space.Acts

/-!
# Spaces without warnings

The only warning is that of a selector without views.  A brancher over views proposes a
choice once its cursor is at an open view, so its selector always has views left.  What
runs, is notified or is copied writes no warnings.  So unless an observer warns, no warning
comes into the journal of a space.
-/

namespace ConstraintSpace

/-! ## Invariants of computations -/

section Keeping

variable {ε σ α β : Type} {P : σ → Prop} {Q : α → Prop} {R : β → Prop}

/-- A run that goes well keeps the invariant, and the condition holds of what it gives. -/
def Keeping (P : σ → Prop) (Q : α → Prop) (m : EStateM ε σ α) : Prop :=
  ∀ s x s', m s = .ok x s' → P s → Q x ∧ P s'

theorem Keeping.pure {x : α} (hx : Q x) : Keeping P Q (Pure.pure x : EStateM ε σ α) := by
  rintro s _ _ ⟨⟩ hs
  exact ⟨hx, hs⟩

theorem Keeping.bind {m : EStateM ε σ α} {k : α → EStateM ε σ β} (hm : Keeping P Q m)
    (hk : ∀ x, Q x → Keeping P R (k x)) : Keeping P R (m >>= k) := by
  intro s y t hrun hs
  cases hfirst : m s with
  | error fault u => simp [Bind.bind, EStateM.bind, hfirst] at hrun
  | ok x u =>
      obtain ⟨hx, hu⟩ := hm s x u hfirst hs
      refine hk x hx u y t ?_ hu
      simpa only [Bind.bind, EStateM.bind, hfirst] using hrun

theorem Keeping.modify {f : σ → σ} (hf : ∀ s, P s → P (f s)) :
    Keeping P (fun _ => True) (modify f : EStateM ε σ PUnit) := by
  rintro s _ _ ⟨⟩ hs
  exact ⟨trivial, hf s hs⟩

end Keeping

/-! ## Notes of propagators -/

theorem Scripted.level?_perform (name : String) (narrowings : List Narrowing) (s : Store) :
    ∀ h ∈ (Scripted.perform name narrowings s).2.2, h.level? = none := by
  induction narrowings generalizing s with
  | nil => simp [Scripted.perform]
  | cons narrowing rest ih =>
      unfold Scripted.perform
      split
      · simp
      · rintro h (_ | ⟨_, hrest⟩)
        · rfl
        · exact ih _ h hrest

theorem Propagator.level?_run (p : Propagator) (s : Store) :
    ∀ h ∈ (p.run s).notes, h.level? = none := by
  cases p with
  | scripted script =>
      rintro h (_ | ⟨_, hrest⟩)
      · rfl
      · exact Scripted.level?_perform _ _ _ h hrest
  | subset a b counts =>
      simp only [run]
      split
      · split <;> simp
      · simp
  | _ =>
      simp only [run, stateless]
      split
      · split <;> simp
      · simp

theorem Propagator.level?_notify {p : Propagator} {s : Store} {localId : Nat} {event : Event}
    {wanted : Bool} {notes : List Happening}
    (hnotify : p.notify s localId event = .ok (wanted, notes)) :
    ∀ h ∈ notes, h.level? = none := by
  cases p with
  | scripted script =>
      simp only [notify, Scripted.notify] at hnotify
      split at hnotify
      · simp at hnotify
      split at hnotify
      · simp at hnotify
      split at hnotify
      · simp only [Except.ok.injEq, Prod.mk.injEq] at hnotify
        obtain ⟨-, rfl⟩ := hnotify
        simp [Happening.level?]
      · simp at hnotify
  | _ =>
      simp only [notify, Except.ok.injEq, Prod.mk.injEq] at hnotify
      obtain ⟨-, rfl⟩ := hnotify
      simp

namespace Space

variable {s s' t : Space}

/-- There is no warning in the journal, and all branchers are over views. -/
structure Calm (s : Space) : Prop where
  journal : ∀ h ∈ s.journal, h.level? ≠ some .warn
  branchers : ∀ (j : Nat) (o : Observer), s.branchers[j]? ≠ some (.observer o)

/-- The operation brings no warning into the journal. -/
abbrev Calming {α : Type} (m : Operation α) : Prop := Keeping Calm (fun _ => True) m

theorem Calm.of_eq (hcalm : s.Calm) (hjournal : s'.journal = s.journal)
    (hbranchers : s'.branchers = s.branchers) : s'.Calm where
  journal := hjournal ▸ hcalm.journal
  branchers := hbranchers ▸ hcalm.branchers

theorem Calm.noteAll (hcalm : s.Calm) (notes : List Happening)
    (hnotes : ∀ h ∈ notes, h.level? ≠ some .warn) : (s.noteAll notes).Calm where
  journal := by
    intro h hh
    rcases List.mem_append.mp hh with hnew | hold
    · exact hnotes h (List.mem_reverse.mp hnew)
    · exact hcalm.journal h hold
  branchers := hcalm.branchers

theorem Calm.note (hcalm : s.Calm) (happening : Happening)
    (hlevel : happening.level? ≠ some .warn) : (s.note happening).Calm := by
  have hall := hcalm.noteAll [happening] (by simpa using hlevel)
  exact hall.of_eq rfl rfl

theorem Calm.setBrancher (hcalm : s.Calm) (j : Nat) (b : ViewBrancher) :
    Calm { s with branchers := s.branchers.setIfInBounds j (.viewValue b) } where
  journal := hcalm.journal
  branchers := by
    intro k o hk
    rw [Array.getElem?_setIfInBounds] at hk
    split at hk
    · split at hk <;> simp at hk
    · exact hcalm.branchers k o hk

/-! ## Propagation -/

theorem calming_notify (event : Event) (watcher : Watcher) : Calming (notify event watcher) := by
  intro s x t hrun hcalm
  refine ⟨trivial, ?_⟩
  unfold notify at hrun
  split at hrun
  · cases hrun
    exact hcalm
  split at hrun
  · simp at hrun
  next wanted notes hnotify =>
    have hnoted := hcalm.noteAll (.notified watcher.propagator watcher.localId event :: notes) (by
      rintro h (_ | ⟨_, hh⟩)
      · simp [Happening.level?]
      · simp [Propagator.level?_notify hnotify h hh])
    split at hrun
    · cases hrun
      exact hnoted.of_eq rfl rfl
    · cases hrun
      exact hnoted

theorem calming_notifyAll (ns : List (Event × Watcher)) : Calming (notifyAll ns) := by
  induction ns with
  | nil => exact .pure trivial
  | cons n rest ih => exact (calming_notify n.1 n.2).bind fun _ _ => ih

theorem calming_schedule (skip : Option Nat) : Calming (schedule skip) := by
  intro s x t hrun hcalm
  exact calming_notifyAll (s.notifications skip) _ x t hrun (hcalm.of_eq rfl rfl)

theorem Calm.failWith (hcalm : s.Calm) (reason : Inconsistency) : (s.failWith reason).Calm := by
  have hnoted := hcalm.note (.failed reason) (by simp [Happening.level?])
  unfold Space.failWith
  split
  · exact hcalm.of_eq rfl rfl
  · exact hnoted.of_eq rfl rfl

theorem Calm.subsume (hcalm : s.Calm) (id : Nat) : (s.subsume id).Calm := by
  unfold Space.subsume
  split
  · exact hcalm
  split
  · exact hcalm
  next p _ =>
    have hdisposed : ∀ {t : Space}, t.Calm → (t.note (.disposed (.propagator id p.name))).Calm :=
      fun ht => ht.note _ (by simp [Happening.level?])
    have hsubsumed : ∀ {t : Space}, t.Calm → (t.note (.subsumed id p.name)).Calm :=
      fun ht => ht.note _ (by simp [Happening.level?])
    refine Calm.of_eq (hsubsumed ?_) rfl rfl
    split
    · exact (hdisposed (hcalm.of_eq rfl rfl)).of_eq rfl rfl
    · exact hcalm.of_eq rfl rfl

theorem Calm.afterRun (hcalm : s.Calm) (id : Nat) (p : Propagator) : (s.afterRun id p).Calm := by
  have hstarted := hcalm.note (.propagating id p.name) (by simp [Happening.level?])
  have hran := hstarted.noteAll (p.run s.store).notes fun h hh => by
    simp [p.level?_run s.store h hh]
  exact hran.of_eq rfl rfl

theorem calming_runOne (id : Nat) : Calming (runOne id) := by
  intro s x t hrun hcalm
  cases hp : s.propagator? id with
  | none =>
      rw [runOne_of_gone hp] at hrun
      cases hrun
      exact ⟨trivial, hcalm⟩
  | some p =>
      have hafter := hcalm.afterRun id p
      rw [runOne_eq hp] at hrun
      split at hrun
      · exact calming_schedule _ _ x t hrun hafter
      · exact calming_schedule _ _ x t hrun hafter
      · exact calming_schedule _ _ x t hrun (hafter.subsume id)
      · cases hrun
        exact ⟨trivial, hafter.failWith _⟩
      · simp at hrun

theorem calming_runQueue (fuel : Nat) : Calming (runQueue fuel) := by
  intro s x t hrun hcalm
  refine ⟨trivial, runQueue_induction (P := Calm) (fun u v id q hbefore _ hone => ?_) hcalm hrun⟩
  exact (calming_runOne id _ () v hone (hbefore.of_eq rfl rfl)).2

theorem calming_propagate : Calming propagate := by
  intro s x t hrun hcalm
  rcases propagate_cases hrun with ⟨_, -, -, rfl⟩ | ⟨-, -, u, hschedule, hqueue⟩
  · exact ⟨trivial, hcalm⟩
  · have hscheduled := (calming_schedule none s () u hschedule hcalm).2
    exact ⟨trivial, (calming_runQueue _ u () t hqueue hscheduled).2⟩

/-! ## Status, choice and commit -/

/-- The active brancher has its cursor at a view. -/
def Poised (s : Space) : Prop :=
  ∃ b : ViewBrancher, s.branchers[s.active]? = some (.viewValue b) ∧
    b.start < b.branching.views.length

theorem start_lt_of_status {b next : ViewBrancher} {s : Store}
    (hstatus : b.status s = .ok (true, next)) : next.start < next.branching.views.length := by
  simp only [ViewBrancher.status] at hstatus
  split at hstatus
  · simp at hstatus
  next view hview =>
    split at hstatus
    · simp only [Except.ok.injEq, Prod.mk.injEq, true_and] at hstatus
      obtain rfl := hstatus
      exact (List.getElem?_eq_some_iff.mp hview).1
    · simp at hstatus

theorem Calm.advanceBy (hcalm : s.Calm) {fuel : Nat} {found : Bool}
    (hrun : Space.advanceBy fuel s = .ok found t) : t.Calm ∧ (found = true → t.Poised) := by
  induction fuel generalizing s with
  | zero =>
      cases hrun
      exact ⟨hcalm, by simp⟩
  | succ fuel ih =>
      unfold Space.advanceBy at hrun
      split at hrun
      · cases hrun
        exact ⟨hcalm, by simp⟩
      next brancher hactive =>
        cases brancher with
        | observer o => exact absurd hactive (hcalm.branchers _ o)
        | viewValue b =>
            simp only [Brancher.status] at hrun
            cases hstatus : b.status s.store with
            | error breach => simp [hstatus] at hrun
            | ok result =>
                obtain ⟨branches, next⟩ := result
                have hmoved : Calm ({ s with
                    branchers := s.branchers.setIfInBounds s.active (.viewValue next) }.noteAll
                    []) := (hcalm.setBrancher s.active next).noteAll [] (by simp)
                simp only [hstatus] at hrun
                cases branches with
                | false =>
                    rw [if_neg Bool.false_ne_true] at hrun
                    refine ih ?_ hrun
                    exact hmoved.of_eq rfl rfl
                | true =>
                    cases hrun
                    have hlt := (Array.getElem?_eq_some_iff.mp hactive).1
                    refine ⟨hmoved, fun _ => ⟨next, ?_, start_lt_of_status hstatus⟩⟩
                    show (s.branchers.setIfInBounds s.active (.viewValue next))[s.active]? = _
                    rw [Array.getElem?_setIfInBounds, if_pos rfl, if_pos hlt]

theorem calming_advance : Calming advance := by
  intro s x t hrun hcalm
  exact ⟨trivial, (hcalm.advanceBy hrun).1⟩

theorem calming_status : Calming status := by
  refine calming_propagate.bind fun reason _ => ?_
  cases reason with
  | some _ => exact .pure trivial
  | none => exact calming_advance.bind fun _ _ => .pure trivial

/-- A brancher whose cursor is at a view proposes without a warning. -/
theorem Poised.choice {b next : ViewBrancher} (hstart : b.start < b.branching.views.length)
    {store : Store} {proposed : Option Choice} {notes : List Happening}
    (hchoice : b.choice store = .ok (proposed, next, notes)) : notes = [] := by
  have hviews : (b.branching.views.drop b.start).isEmpty = false := by
    rw [List.isEmpty_eq_false_iff, Ne, List.drop_eq_nil_iff]
    omega
  simp only [ViewBrancher.choice, hviews] at hchoice
  split at hchoice
  · split at hchoice
    · cases hchoice
      rfl
    · split at hchoice
      · simp at hchoice
      · cases hchoice
        rfl
  · simp at hchoice

theorem Calm.propose (hcalm : s.Calm) (hpoised : s.Poised) {chosen : Choice}
    (hrun : Space.propose s = .ok chosen t) : t.Calm := by
  obtain ⟨b, hactive, hstart⟩ := hpoised
  simp only [Space.propose, hactive, Brancher.choice] at hrun
  cases hchoice : b.choice s.store with
  | error breach => simp [hchoice] at hrun
  | ok result =>
      obtain ⟨proposed, next, notes⟩ := result
      obtain rfl := Poised.choice hstart hchoice
      simp only [hchoice] at hrun
      split at hrun
      · simp at hrun
      · cases hrun
        exact (hcalm.setBrancher s.active next).noteAll [] (by simp)

theorem calming_choice : Calming choice := by
  intro s chosen t hrun hcalm
  obtain ⟨-, u, hadvance, hpropose⟩ := exists_propose_of_choice hrun
  obtain ⟨hadvanced, hpoised⟩ := hcalm.advanceBy hadvance
  exact ⟨trivial, hadvanced.propose (hpoised rfl) hpropose⟩

theorem Calm.of_tightens (hcalm : s.Calm) {P : Store → Prop} {log : List Entry}
    (htightens : s.Tightens P log t) : t.Calm := by
  have hnarrowed : ∀ store counts, Calm { s with store, counts } :=
    fun _ _ => hcalm.of_eq rfl rfl
  cases htightens with
  | idle => exact hcalm
  | passed counts _ _ hrun => exact (calming_schedule none _ () t hrun (hnarrowed _ counts)).2
  | failed counts => exact (hnarrowed _ counts).failWith .emptyDomain

theorem calming_commit (chosen : Choice) (alternative : Nat) :
    Calming (commit chosen alternative) := by
  intro s _ t hrun hcalm
  have htightens := commit_tightens (P := fun _ => True) (fun _ _ _ => trivial)
    (resume_of_ok hrun)
  exact ⟨trivial, hcalm.of_tightens htightens⟩

theorem calming_replay (edges : List (Choice × Nat)) : Calming (Path.replay edges) := by
  induction edges with
  | nil => exact .pure trivial
  | cons edge rest ih =>
      refine calming_status.bind fun _ _ => calming_choice.bind fun replayed _ => ?_
      split
      · exact (calming_commit _ _).bind fun _ _ => ih
      · intro s x t hrun
        cases hrun

/-! ## Copies -/

theorem Calm.tellCopy (hcalm : s.Calm) (mode : CopyMode) (context : CopyContext)
    (actor : Noticed) : (Space.tellCopy mode (s, context) actor).1.Calm := by
  cases actor with
  | propagator id =>
      simp only [Space.tellCopy]
      split
      · exact hcalm
      next p _ =>
        have htold : Calm (s.setPropagator id (p.onCopy context).1) := hcalm.of_eq rfl rfl
        exact htold.note _ (by simp [Happening.level?])
  | brancher id =>
      simp only [Space.tellCopy]
      split
      · exact hcalm
      next brancher hbrancher =>
        cases brancher with
        | observer o => exact absurd hbrancher (hcalm.branchers _ o)
        | viewValue b =>
            exact (hcalm.setBrancher id (b.onCopy context).1).note _ (by simp [Happening.level?])

theorem Calm.foldl_tellCopy (mode : CopyMode) (actors : List Noticed)
    {state : Space × CopyContext} (hcalm : state.1.Calm) :
    (actors.foldl (Space.tellCopy mode) state).1.Calm := by
  induction actors generalizing state with
  | nil => exact hcalm
  | cons actor rest ih => exact ih (hcalm.tellCopy mode state.2 actor)

/-- A copy starts with an empty journal. -/
theorem calm_clone (hviews : ∀ (j : Nat) (o : Observer), s.branchers[j]? ≠ some (.observer o)) :
    s.clone.Calm := by
  cases hfailure : s.failure with
  | some reason =>
      simp only [Space.clone, Space.copy, hfailure]
      exact ⟨by simp [new], by simp [new]⟩
  | none =>
      simp only [Space.clone, Space.copy, hfailure]
      exact Calm.foldl_tellCopy .sharing s.noticed ⟨by simp, hviews⟩

end Space

end ConstraintSpace
