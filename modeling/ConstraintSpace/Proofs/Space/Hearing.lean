import ConstraintSpace.Proofs.Space.Enrolment
import ConstraintSpace.Proofs.Space.Raising
import ConstraintSpace.Proofs.Space.Registry
import ConstraintSpace.Proofs.View.Perspective

/-!
# What a propagator hears

A post, a commit or the turn of a propagator that does not fail the space passes on every
event that it raised, to those on the watch list of that event, and the journal names each
of them.  A watch is on the lists of the events that are unpacked to what it watches.  So
a propagator hears, under each of its local numbers, what happened from the perspective of
the views that it registered, and through an exact view it hears of a bound exactly where
that bound moved.

Two things are not heard of: what a propagator did itself before it came to its fixpoint,
and what was narrowed before the space failed.
-/

namespace ConstraintSpace

/-- A propagator registers for the events that its views unpack to watched ones. -/
theorem Propagator.registers_iff {p : Propagator} {localId : Nat} {event : Event}
    {x : Variable} :
    p.Registers localId event x ↔
      ∃ watch ∈ p.watches, watch.localId = localId ∧ watch.view.target? = some x ∧
        ∃ seen, watch.view.unpack event = some seen ∧ watch.events.contains seen = true := by
  simp only [Registers, AnyView.asks_iff]

/-- The notification that a happening is. -/
def Happening.notification? : Happening → Option (Event × Watcher)
  | notified propagator localId event => some (event, ⟨propagator, localId⟩)
  | _ => none

theorem Happening.notification?_of_deed? {happening : Happening}
    (hdeed : happening.deed? = none) : happening.notification? = none := by
  cases happening <;> first | rfl | cases hdeed

theorem filterMap_notification?_of_deed? {notes : List Happening}
    (hdeeds : ∀ happening ∈ notes, happening.deed? = none) :
    notes.filterMap Happening.notification? = [] :=
  List.filterMap_eq_nil_iff.mpr fun happening hmem =>
    Happening.notification?_of_deed? (hdeeds happening hmem)

namespace Space

variable {s t u : Space} {ns ms : List (Event × Watcher)} {id : Nat} {p : Propagator}
  {log : List Entry} {skip : Option Nat}

/-! ## Notifications in the journal -/

/-- The journal goes on, with these notifications in this order. -/
def Tells (s : Space) (ns : List (Event × Watcher)) (t : Space) : Prop :=
  ∃ news : List Happening, t.journal = news.reverse ++ s.journal ∧
    news.filterMap Happening.notification? = ns

theorem Tells.trans (hfirst : s.Tells ns t) (hsecond : t.Tells ms u) :
    s.Tells (ns ++ ms) u := by
  obtain ⟨news, hjournal, rfl⟩ := hfirst
  obtain ⟨later, hjournal', rfl⟩ := hsecond
  refine ⟨news ++ later, ?_, List.filterMap_append⟩
  rw [hjournal', hjournal, List.reverse_append, List.append_assoc]

theorem tells_of_journal (hjournal : t.journal = s.journal) : s.Tells [] t :=
  ⟨[], hjournal, rfl⟩

theorem Tells.notified_mem_told (htells : s.Tells ns t) {localId : Nat} {event : Event} :
    .notified id localId event ∈ told s t ↔ (event, ⟨id, localId⟩) ∈ ns := by
  obtain ⟨news, hjournal, rfl⟩ := htells
  rw [told_eq hjournal, List.mem_filterMap]
  constructor
  · exact fun hmem => ⟨_, hmem, rfl⟩
  · rintro ⟨happening, hmem, hsome⟩
    cases happening with
    | notified propagator l e =>
        simp only [Happening.notification?, Option.some.injEq, Prod.mk.injEq,
          Watcher.mk.injEq] at hsome
        obtain ⟨rfl, rfl, rfl⟩ := hsome
        exact hmem
    | _ => cases hsome

theorem tells_notify {event : Event} {watcher : Watcher}
    (hlive : (s.propagator? watcher.propagator).isSome = true)
    (hrun : notify event watcher s = .ok () t) :
    s.Tells [(event, watcher)] t ∧ t.slots = s.slots := by
  obtain ⟨p, hp⟩ := Option.isSome_iff_exists.mp hlive
  simp only [notify, hp] at hrun
  split at hrun
  · simp at hrun
  next wanted notes hnotify =>
    have hnotes := filterMap_notification?_of_deed? (Propagator.deed?_of_mem_notify hnotify)
    have hnews : (Happening.notified watcher.propagator watcher.localId event
        :: notes).filterMap Happening.notification? = [(event, watcher)] := by
      rw [List.filterMap_cons, hnotes]
      rfl
    split at hrun <;>
    · simp only [EStateM.Result.ok.injEq, true_and] at hrun
      subst hrun
      exact ⟨⟨_, rfl, hnews⟩, rfl⟩

theorem tells_notifyAll (hlive : ∀ n ∈ ns, (s.propagator? n.2.propagator).isSome = true)
    (hrun : notifyAll ns s = .ok () t) : s.Tells ns t := by
  induction ns generalizing s with
  | nil =>
      obtain rfl : s = t := by simpa [notifyAll, pure, EStateM.pure] using hrun
      exact tells_of_journal rfl
  | cons n rest ih =>
      cases hnotify : notify n.1 n.2 s with
      | error fault u =>
          rw [notifyAll, bind_of_error hnotify] at hrun
          cases hrun
      | ok x u =>
          rw [notifyAll, bind_of_ok hnotify] at hrun
          obtain ⟨hfirst, hslots⟩ := tells_notify (hlive n List.mem_cons_self) hnotify
          refine hfirst.trans (ih (fun m hm => ?_) hrun)
          have hstill := hlive m (List.mem_cons_of_mem n hm)
          simpa only [propagator?, hslots] using hstill

/-- Whoever is on a watch list has its slot, so all notifications reach somebody. -/
theorem Filed.tells_schedule (hfiled : s.Filed)
    (hrun : Space.schedule skip s = .ok () t) : s.Tells (s.notifications skip) t := by
  have htells : Tells { s with store := s.store.silence } (s.notifications skip) t := by
    refine tells_notifyAll (fun n hn => ?_) hrun
    obtain ⟨v, -, hwatcher, -⟩ := mem_notifications.mp hn
    exact hfiled.live n.1 v n.2 hwatcher
  exact htells

theorem tells_afterRun (s : Space) (id : Nat) (p : Propagator) :
    s.Tells [] (s.afterRun id p) := by
  have hnote : s.Tells [] (s.note (.propagating id p.name)) :=
    ⟨[.propagating id p.name], rfl, rfl⟩
  exact hnote.trans ⟨(p.run s.store).notes, rfl,
    filterMap_notification?_of_deed? (p.deed?_of_mem_run s.store)⟩

theorem tells_subsume (hp : s.propagator? id = some p) : s.Tells [] (s.subsume id) := by
  have hjournal := journal_subsume hp
  split at hjournal
  · exact ⟨[.disposed (.propagator id p.name), .subsumed id p.name], hjournal, rfl⟩
  · exact ⟨[.subsumed id p.name], hjournal, rfl⟩

/-! ## Parties that narrow -/

/-- A space between two operations, or between two turns of one. -/
inductive Underway : Space → Prop where
  | reached {s : Space} (hreaches : new.Reaches s) : Underway s
  | turned {s t : Space} {id : Nat} {rest : Queue} (hunderway : Underway s)
      (hpop : s.queue.pop? = some (id, rest))
      (hrun : runOne id { s with queue := rest } = .ok () t) : Underway t

/-- The space is narrowed: by a caller that posts or commits, or by the propagator whose
turn it is. -/
inductive Intervenes (s : Space) : List Entry → Space → Prop where
  | post {t : Space} {keepGoing : Bool} {narrowings : List Narrowing}
      {outcomes : List Outcome} (hrun : Space.post keepGoing narrowings s = .ok outcomes t) :
      Intervenes s (postLog keepGoing narrowings s) t
  | commit {t : Space} {chosen : Choice} {alternative : Nat}
      (hrun : Space.commit chosen alternative s = .ok () t) :
      Intervenes s (commitLog chosen alternative s) t
  | turn {t : Space} {id : Nat} {rest : Queue} (hpop : s.queue.pop? = some (id, rest))
      (hrun : runOne id { s with queue := rest } = .ok () t) :
      Intervenes s (turnLog id s) t

/-- The log has no runs of the propagator but such that end short of its fixpoint, of whose
events it is told like the others. -/
def Listens (id : Nat) (log : List Entry) : Prop :=
  ∀ verdict raised, .ran id verdict raised ∈ log → verdict = .ended .noFixpoint

/-- The log says that the event of the variable was raised. -/
def Raised (log : List Entry) (event : Event) (x : Variable) : Prop :=
  ∃ entry ∈ log, (event, x) ∈ entry.raised

theorem raised_singleton {entry : Entry} {event : Event} {x : Variable} :
    Raised [entry] event x ↔ (event, x) ∈ entry.raised := by
  simp only [Raised, List.mem_singleton, exists_eq_left]

theorem Reaches.filed (hreaches : s.Reaches t) (htidy : s.Tidy) (hfiled : s.Filed) :
    t.Filed := by
  induction hreaches with
  | refl => exact hfiled
  | act act hreaches hperform ih =>
      have hbefore := hreaches.tidy htidy
      exact (act.unfolds hbefore.sound hperform).filed ih hbefore

/-- Between two turns a space is in the order in which operations find it. -/
theorem Underway.tidy_filed (hunderway : s.Underway) : s.Tidy ∧ s.Filed := by
  induction hunderway with
  | reached hreaches =>
      exact ⟨hreaches.tidy tidy_new, hreaches.filed tidy_new (filed_of_no_slots rfl rfl rfl)⟩
  | turned _ hpop hrun ih =>
      have heffect := Effect.turn ih.1.quiet hpop hrun
      exact ⟨heffect.tidy ih.1, heffect.filed ih.2 ih.1⟩

/-! ## Passing on what was raised -/

/-- The second space is narrowed and about to pass on what the log says was raised, to all
but the one to be skipped; nobody was told yet, and who listens stands where it stood. -/
structure Passes (s : Space) (log : List Entry) (skip : Option Nat) (t : Space) : Prop where
  filed : t.Filed
  attentive : t.Attentive
  accounts : s.store.Accounts t.store
  pending : ∀ event x, (event, x) ∈ t.store.pending ↔ Raised log event x
  tells : s.Tells [] t
  skips : ∀ j, Listens j log → skip ≠ some j
  stays : ∀ j, Listens j log → ∀ p, s.propagator? j = some p →
    ∃ q, t.propagator? j = some q ∧ q.watches = p.watches

theorem passes_narrowed {store : Store} (htidy : s.Tidy) (hfiled : s.Filed)
    (haccounts : s.store.Accounts store) (counts : SpaceCounts) :
    s.Passes [.narrowed store.pending] none { s with store, counts } where
  filed := hfiled.of_slots rfl rfl hfiled.waiting
  attentive := htidy.attentive.of_slots rfl rfl
  accounts := haccounts
  pending := fun _ _ => by rw [raised_singleton, Entry.raised]
  tells := tells_of_journal rfl
  skips := by simp
  stays := fun _ _ p hp => ⟨p, hp, rfl⟩

/-- Nothing was raised and nobody is told. -/
theorem passes_idle {queue : Queue} (htidy : s.Tidy) (hfiled : s.Filed)
    (hqueue : ∀ j ∈ queue.ids, j ∈ s.queue.ids) : s.Passes [] none { s with queue } where
  filed := hfiled.of_slots rfl rfl fun j hj => hfiled.waiting j (hqueue j hj)
  attentive := htidy.attentive.of_slots rfl rfl
  accounts := .refl htidy.sound.store
  pending := fun _ _ => by simp [Raised, Store.isQuiet_iff.mp htidy.quiet]
  tells := tells_of_journal rfl
  skips := by simp
  stays := fun _ _ p hp => ⟨p, hp, rfl⟩

theorem Tightens.passes (htightens : s.Tightens s.store.Accounts log u) (htidy : s.Tidy)
    (hfiled : s.Filed) (hok : u.failure = none) :
    ∃ skip t, s.Passes log skip t ∧ Space.schedule skip t = .ok () u := by
  cases htightens with
  | idle =>
      exact ⟨none, s, passes_idle htidy hfiled fun _ hj => hj,
        schedule_of_isQuiet htidy.quiet⟩
  | passed counts _ haccounts hrun =>
      exact ⟨none, _, passes_narrowed htidy hfiled haccounts counts, hrun⟩
  | failed counts => exact absurd hok (failure_failWith _ _)

theorem listens_turnLog_self {q : Propagator} (hq : s.propagator? id = some q) :
    Listens id (turnLog id s) ↔ (q.run s.store).verdict = .ended .noFixpoint := by
  simp [Listens, turnLog, hq]

theorem passes_afterRun {q : Propagator} {rest : Queue} (htidy : s.Tidy) (hfiled : s.Filed)
    (hrest : ∀ j ∈ rest.ids, j ∈ s.queue.ids) (hq : s.propagator? id = some q)
    (hskips : ∀ j, Listens j (turnLog id s) → skip ≠ some j) :
    s.Passes (turnLog id s) skip (afterRun { s with queue := rest } id q) where
  filed := by
    have hpopped : Filed { s with queue := rest } :=
      hfiled.of_slots rfl rfl fun j hj => hfiled.waiting j (hrest j hj)
    exact hpopped.afterRun hq
  attentive := by
    have hpopped : Attentive { s with queue := rest } := htidy.attentive.of_slots rfl rfl
    exact hpopped.afterRun hq
  accounts := q.run_accounts htidy.sound.store
  pending := fun _ _ => by
    simp only [turnLog, hq, raised_singleton, Entry.raised, store_afterRun]
  tells := (tells_of_journal rfl).trans (tells_afterRun { s with queue := rest } id q)
  skips := hskips
  stays := fun j _ p hp => by
    have hid : id < Array.size { s with queue := rest }.slots := lt_size_of_propagator? hq
    rw [propagator?_afterRun hid]
    split
    next heq =>
      obtain rfl : q = p := Option.some.inj (hq.symm.trans (heq ▸ hp))
      exact ⟨_, rfl, Propagator.watches_eq_of_guise (q.guise_run s.store)⟩
    next => exact ⟨p, hp, rfl⟩

/-- A subsumed propagator leaves before the others are told. -/
theorem Passes.subsume {q : Propagator} (hpasses : s.Passes log none t)
    (hq : t.propagator? id = some q) (hidle : id ∉ t.queue.ids) (hdeaf : ¬Listens id log) :
    s.Passes log none (t.subsume id) := by
  have hsubsumed := subsume_subsumed hq
  refine ⟨hpasses.filed.subsume hpasses.attentive hq hidle,
    hpasses.attentive.of_subsumed hsubsumed, ?_, ?_, hpasses.tells.trans (tells_subsume hq),
    hpasses.skips, fun j hlistens => ?_⟩
  · rw [hsubsumed.store]
    exact hpasses.accounts
  · rw [hsubsumed.store]
    exact hpasses.pending
  · have hne : j ≠ id := fun heq => hdeaf (heq ▸ hlistens)
    rw [hsubsumed.propagator?, if_neg hne]
    exact hpasses.stays j hlistens

theorem passes_turn {rest : Queue} (htidy : s.Tidy) (hfiled : s.Filed)
    (hpop : s.queue.pop? = some (id, rest))
    (hrun : runOne id { s with queue := rest } = .ok () u) (hok : u.failure = none) :
    ∃ skip t, s.Passes (turnLog id s) skip t ∧ Space.schedule skip t = .ok () u := by
  obtain ⟨-, hperm, -⟩ := htidy.sound.queue.pop? hpop
  have hrest : ∀ j ∈ rest.ids, j ∈ s.queue.ids := fun j hj =>
    hperm.mem_iff.mpr (List.mem_cons_of_mem id hj)
  cases hq : s.propagator? id with
  | none =>
      have hgone : propagator? { s with queue := rest } id = none := hq
      rw [runOne_of_gone hgone] at hrun
      obtain rfl : { s with queue := rest } = u := by simpa using hrun
      have hlog : turnLog id s = [] := by rw [turnLog, hq]
      rw [hlog]
      exact ⟨none, _, passes_idle htidy hfiled hrest, schedule_of_isQuiet htidy.quiet⟩
  | some q =>
      have hq' : propagator? { s with queue := rest } id = some q := hq
      have hself := listens_turnLog_self hq
      have hnobody : ∀ j, Listens j (turnLog id s) → none ≠ some j := by simp
      have hpasses := passes_afterRun htidy hfiled hrest hq hnobody
      rw [runOne_eq hq'] at hrun
      split at hrun
      next hverdict =>
        have hskips : ∀ j, Listens j (turnLog id s) → some id ≠ some j := by
          rintro j hlistens heq
          rw [← Option.some.inj heq, hself, hverdict] at hlistens
          cases hlistens
        exact ⟨some id, _, passes_afterRun htidy hfiled hrest hq hskips, hrun⟩
      next => exact ⟨none, _, hpasses, hrun⟩
      next hverdict =>
        have hlive : (afterRun { s with queue := rest } id q).propagator? id =
            some (q.run s.store).propagator :=
          propagator?_afterRun_self hq'
        have hidle : id ∉ rest.ids :=
          (List.nodup_cons.mp (hperm.nodup_iff.mp htidy.sound.queue.nodup)).1
        have hdeaf : ¬Listens id (turnLog id s) := by
          rw [hself]
          intro hother
          cases hverdict.symm.trans hother
        exact ⟨none, _, hpasses.subsume hlive hidle hdeaf, hrun⟩
      next reason _ =>
        simp only [EStateM.Result.ok.injEq, true_and] at hrun
        exact absurd hok (hrun ▸ failure_failWith reason _)
      next => cases hrun

/-- Whoever narrows a space without failing it passes on all that was raised. -/
theorem Intervenes.passes (hintervenes : s.Intervenes log u) (htidy : s.Tidy)
    (hfiled : s.Filed) (hok : u.failure = none) :
    ∃ skip t, s.Passes log skip t ∧ Space.schedule skip t = .ok () u := by
  cases hintervenes with
  | @post _ keepGoing narrowings _ hrun =>
      have haccounts := Narrowing.applyAll_accounts keepGoing narrowings htidy.sound.store
      exact (post_tightens haccounts (resume_of_ok hrun)).passes htidy hfiled hok
  | commit hrun =>
      refine (commit_tightens (fun b narrowing hcommit => ?_) (resume_of_ok hrun)).passes
        htidy hfiled hok
      exact Brancher.honest_commit hcommit s.store htidy.sound.store
  | turn hpop hrun => exact passes_turn htidy hfiled hpop hrun hok

/-! ## What the others hear -/

/-- A propagator that listens is notified of what it registered and was raised, and of
nothing else. -/
theorem Passes.notified_iff (hpasses : s.Passes log skip t)
    (hrun : Space.schedule skip t = .ok () u) (hp : s.propagator? id = some p)
    (hlistens : Listens id log) {localId : Nat} {event : Event} :
    .notified id localId event ∈ told s u ↔
      ∃ x, Raised log event x ∧ p.Registers localId event x := by
  obtain ⟨q, hq, hsame⟩ := hpasses.stays id hlistens p hp
  have hskip := hpasses.skips id hlistens
  have htells := hpasses.tells.trans (hpasses.filed.tells_schedule hrun)
  rw [htells.notified_mem_told, List.nil_append, mem_notifications]
  simp only [hpasses.pending, hpasses.filed.mem_watchers_iff hpasses.attentive, hq,
    Option.some.injEq, exists_eq_left', ne_eq, Ne.symm hskip, not_false_iff, and_true,
    Propagator.Registers, hsame]

theorem Passes.narrows_to (hpasses : s.Passes log skip t)
    (hrun : Space.schedule skip t = .ok () u) :
    u.store.Valid ∧ ∀ id, ∀ x ∈ u.store.int id, x ∈ s.store.int id := by
  have hnarrows := hpasses.accounts.narrows
  rw [store_schedule hrun]
  exact ⟨hpasses.accounts.valid.silence, hnarrows.int_subset⟩

/-- Of the discrete variables exactly what happened to them was raised. -/
theorem Passes.raised_iff (hpasses : s.Passes log skip t)
    (hrun : Space.schedule skip t = .ok () u) (htidy : s.Tidy) {event : Event} {x : Variable}
    (hdiscrete : x.IsDiscrete) :
    Raised log event x ↔ s.store.Happened u.store x event := by
  have hquiet : (event, x) ∉ s.store.pending := by
    rw [Store.isQuiet_iff.mp htidy.quiet]
    exact Array.not_mem_empty _
  rw [← hpasses.pending, hpasses.accounts.mem_pending_iff htidy.sound.store hdiscrete,
    store_schedule hrun, or_iff_right hquiet]
  cases x <;> cases event <;> exact Iff.rfl

/-- Whoever narrows a space without failing it raises what happened to the variables, and a
propagator that listens is notified, under each local number, of the events that a view
registered under it unpacks to watched ones.  So through an exact view that is watched for
any event it hears of a bound exactly where that bound moved; where views of several
variables share the local number, it hears under it of the others as well. -/
theorem views_hear_their_own_events (hunderway : s.Underway)
    (hintervenes : s.Intervenes log u) (hok : u.failure = none)
    (hp : s.propagator? id = some p) (hlistens : Listens id log) :
    (∀ event x, x.IsDiscrete → (Raised log event x ↔ s.store.Happened u.store x event)) ∧
      (∀ localId event, .notified id localId event ∈ told s u ↔
        ∃ watch ∈ p.watches, watch.localId = localId ∧ ∃ x, watch.view.target? = some x ∧
          Raised log event x ∧ ∃ seen, watch.view.unpack event = some seen ∧
            watch.events.contains seen = true) ∧
      ∀ v localId x, ⟨.int v, .any, localId⟩ ∈ p.watches → v.Exact s.store →
        v.target? = some x → ∀ side,
          (v.bound u.store side ≠ v.bound s.store side ↔
            ∃ event, .notified id localId event ∈ told s u ∧ Raised log event x ∧
              v.unpack event = some side.event) ∧
          ((∀ watch ∈ p.watches, watch.localId = localId → watch.view.target? = some x) →
            (v.bound u.store side ≠ v.bound s.store side ↔
              ∃ event, .notified id localId event ∈ told s u ∧
                v.unpack event = some side.event)) := by
  obtain ⟨htidy, hfiled⟩ := hunderway.tidy_filed
  obtain ⟨skip, t, hpasses, hschedule⟩ := hintervenes.passes htidy hfiled hok
  have hraised : ∀ event x, x.IsDiscrete →
      (Raised log event x ↔ s.store.Happened u.store x event) :=
    fun _ _ => hpasses.raised_iff hschedule htidy
  have htold : ∀ localId event, .notified id localId event ∈ told s u ↔
      ∃ watch ∈ p.watches, watch.localId = localId ∧ ∃ x, watch.view.target? = some x ∧
        Raised log event x ∧ ∃ seen, watch.view.unpack event = some seen ∧
          watch.events.contains seen = true := by
    intro localId event
    rw [hpasses.notified_iff hschedule hp hlistens]
    simp only [Propagator.registers_iff]
    constructor
    · rintro ⟨x, hevent, watch, hwatch, hlocal, htarget, hseen⟩
      exact ⟨watch, hwatch, hlocal, x, htarget, hevent, hseen⟩
    · rintro ⟨watch, hwatch, hlocal, x, htarget, hevent, hseen⟩
      exact ⟨x, hevent, watch, hwatch, hlocal, htarget, hseen⟩
  refine ⟨hraised, htold, fun v localId x hwatch hexact htarget side => ?_⟩
  obtain ⟨base, hbase, rfl⟩ := Option.map_eq_some_iff.mp htarget
  obtain ⟨hvalid, hsubset⟩ := hpasses.narrows_to hschedule
  have hexact' : v.Exact u.store := hexact.of_domain_subset fun x hx => by
    rw [IntView.domain_of_base? hbase] at hx ⊢
    exact hsubset base x hx
  have hmoved := hexact.bound_moved_iff hexact' htidy.sound.store hvalid hbase side
  simp only [← hraised _ (.int base) trivial] at hmoved
  -- what is unpacked to the event of a bound is watched, as any event is
  have hheard : ∀ event, Raised log event (.int base) → v.unpack event = some side.event →
      .notified id localId event ∈ told s u := fun event hevent hunpack =>
    (htold localId event).mpr ⟨_, hwatch, rfl, .int base, htarget, hevent, side.event, hunpack,
      by cases side <;> rfl⟩
  constructor
  · rw [hmoved]
    exact exists_congr fun event =>
      ⟨fun h => ⟨hheard event h.1 h.2, h⟩, fun h => h.2⟩
  · intro hsole
    rw [hmoved]
    refine exists_congr fun event => ⟨fun h => ⟨hheard event h.1 h.2, h.2⟩, fun h => ⟨?_, h.2⟩⟩
    obtain ⟨watch, hwatch', hlocal, y, hy, hevent, -⟩ := (htold localId event).mp h.1
    rw [hsole watch hwatch' hlocal, Option.some.injEq] at hy
    exact hy ▸ hevent

/-- Listens to the negation of the first variable, and narrows nothing. -/
def mirrored : Scripted where
  name := "mirrored"
  priority := .low
  notices := false
  watches := [⟨.int (.affine (.var 0) (-1) 0), .any, 0⟩]
  script := fun _ _ => { narrowings := [], verdict := .ended .fix }
  vetoes := fun _ _ _ _ => false
  runs := 0
  shared := []

theorem exact_negation {store : Store} (hdomain : store.int 0 = .interval 0 5) :
    IntView.Exact store (.affine (.var 0) (-1) 0) := by
  refine ⟨trivial, by decide, by decide, by decide, fun x hx => ?_⟩
  rw [IntView.domain_var, hdomain, IntDomain.mem_interval] at hx
  simp only [IntView.valueAt, Fits32, lowest32, highest32]
  omega

/-- The lower bound of the variable is raised, which lowers the upper bound that is read
through its negation: the propagator hears of that bound and not of the other one. -/
theorem negation_hears_other_bound :
    let v : IntView := .affine (.var 0) (-1) 0
    ∃ s u outcomes p, new.Reaches s ∧ s.propagator? 0 = some p ∧
      ⟨.int v, .any, 0⟩ ∈ p.watches ∧ v.Exact s.store ∧
      Space.post false [.lower (.var 0) 3] s = .ok outcomes u ∧
      v.bound u.store .upper ≠ v.bound s.store .upper ∧
      (∃ event, .notified 0 0 event ∈ told s u ∧ v.unpack event = some Side.upper.event) ∧
      ¬∃ event, .notified 0 0 event ∈ told s u ∧ v.unpack event = some Side.lower.event := by
  intro v
  have hrun : (performAll [.newInt 0 5, .addPropagator (.scripted mirrored) none] new).bind
      (fun s => match Space.post false [.lower (.var 0) 3] s with
        | .ok _ u => some ((s.propagator? 0).map Propagator.watches, s.store.int 0,
            u.store.int 0, u.failure.isNone)
        | .error _ _ => none) =
      some (some mirrored.watches, .interval 0 5, .interval 3 5, true) := by
    decide +kernel
  obtain ⟨s, hperform, hrun⟩ := Option.bind_eq_some_iff.mp hrun
  cases hpost : Space.post false [.lower (.var 0) 3] s with
  | error fault u => simp [hpost] at hrun
  | ok outcomes u =>
      simp only [hpost, Option.some.injEq, Prod.mk.injEq, Option.map_eq_some_iff,
        Option.isNone_iff_eq_none] at hrun
      obtain ⟨⟨p, hp, hwatches⟩, hbefore, hafter, hok⟩ := hrun
      have hreaches := reaches_of_performAll hperform
      have hwatch : ⟨.int v, .any, 0⟩ ∈ p.watches := hwatches ▸ List.mem_cons_self
      have hexact : v.Exact s.store := exact_negation hbefore
      have hlistens : Listens 0 (postLog false [.lower (.var 0) 3] s) := by
        intro verdict raised hmem
        simp [postLog] at hmem
      obtain ⟨-, -, hbounds⟩ := views_hear_their_own_events (.reached hreaches) (.post hpost)
        hok hp hlistens
      have hsole : ∀ watch ∈ p.watches, watch.localId = 0 →
          watch.view.target? = some (.int 0) := by
        rw [hwatches]
        decide
      have hheard := fun side => (hbounds v 0 (.int 0) hwatch hexact rfl side).2 hsole
      have hupper : v.bound u.store .upper ≠ v.bound s.store .upper := by
        simp only [v, IntView.bound, IntView.upper, IntView.bounds, hbefore, hafter]
        decide
      have hlower : v.bound u.store .lower = v.bound s.store .lower := by
        simp only [v, IntView.bound, IntView.lower, IntView.bounds, hbefore, hafter]
        decide
      exact ⟨s, u, outcomes, p, hreaches, hp, hwatch, hexact, hpost, hupper,
        (hheard .upper).mp hupper, fun hlow => (hheard .lower).mpr hlow hlower⟩

/-- The first narrowing moves the bound, the second one fails the space, and nobody hears
of either. -/
theorem failing_post_unheard :
    let v : IntView := .affine (.var 0) (-1) 0
    ∃ s u outcomes p, new.Reaches s ∧ s.propagator? 0 = some p ∧
      ⟨.int v, .any, 0⟩ ∈ p.watches ∧ v.Exact s.store ∧
      Space.post false [.lower (.var 0) 3, .lower (.var 0) 9] s = .ok outcomes u ∧
      v.bound u.store .upper ≠ v.bound s.store .upper ∧
      ∀ localId event, .notified 0 localId event ∉ told s u := by
  intro v
  have hrun : (performAll [.newInt 0 5, .addPropagator (.scripted mirrored) none] new).bind
      (fun s => match Space.post false [.lower (.var 0) 3, .lower (.var 0) 9] s with
        | .ok _ u => some ((s.propagator? 0).map Propagator.watches, s.store.int 0,
            u.store.int 0, told s u)
        | .error _ _ => none) =
      some (some mirrored.watches, .interval 0 5, .interval 3 5, [.failed .emptyDomain]) := by
    decide +kernel
  obtain ⟨s, hperform, hrun⟩ := Option.bind_eq_some_iff.mp hrun
  cases hpost : Space.post false [.lower (.var 0) 3, .lower (.var 0) 9] s with
  | error fault u => simp [hpost] at hrun
  | ok outcomes u =>
      simp only [hpost, Option.some.injEq, Prod.mk.injEq, Option.map_eq_some_iff] at hrun
      obtain ⟨⟨p, hp, hwatches⟩, hbefore, hafter, htold⟩ := hrun
      refine ⟨s, u, outcomes, p, reaches_of_performAll hperform, hp,
        hwatches ▸ List.mem_cons_self, exact_negation hbefore, hpost, ?_, fun _ _ => ?_⟩
      · simp only [v, IntView.bound, IntView.upper, IntView.bounds, hbefore, hafter]
        decide
      · simp [htold]

end Space

end ConstraintSpace
