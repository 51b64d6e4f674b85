import ConstraintSpace.Proofs.Space.Building
import ConstraintSpace.Proofs.Space.Family
import ConstraintSpace.Proofs.Space.Stories

/-!
# Who joins and what is done

An operation may add one actor to the space.  It gets a number that no actor of the space
had before, and it is entered last in the registry if it declares that it is to be told.
All else that an operation does to actors is a story that the journal tells, except for the
commits: nothing is noted when a brancher is asked to commit.  A copy starts with the actors
of the copied space, and its journal with the copies that were told of.
-/

namespace ConstraintSpace

namespace Space

variable {s t u : Space} {a : Noticed} {b : Bool} {mode : CopyMode} {next : Nat}

/-! ## The journal of an operation -/

/-- What the journal of the second space has beyond that of the first. -/
def told (s t : Space) : List Happening := t.journal.reverse.drop s.journal.length

theorem told_eq {happenings : List Happening}
    (hjournal : t.journal = happenings.reverse ++ s.journal) : told s t = happenings := by
  rw [told, hjournal, List.reverse_append, List.reverse_reverse, ← List.length_reverse,
    List.drop_left]

theorem told_of_journal (hjournal : t.journal = s.journal) : told s t = [] := by
  rw [told, hjournal, ← List.length_reverse, List.drop_length]

theorem recorded_rescript (id : Nat) (script : Nat → Store → Step) (s : Space) :
    s.Recorded (Space.rescript id script s).2 := by
  unfold Space.rescript
  split
  next p hp =>
    have hset : s.Steady (s.setPropagator id (.scripted { p with script, runs := 0 })) :=
      .setPropagator hp rfl rfl
    exact hset.recorded_of_journal rfl
  next => exact .refl s

/-! ## One operation -/

/-- A new actor is in the space with its handles, and last in the registry if it is to be
told. -/
structure Joins (s : Space) (a : Noticed) (b : Bool) (brings : List (Shared Content))
    (t : Space) : Prop where
  fresh : ¬ s.Numbers a
  noticed : t.noticed = s.noticed ++ (if b then [a] else [])
  notices? : ∀ x, t.notices? x = if x = a then some b else s.notices? x
  handles : ∀ x, t.handles x = if x = a then brings else s.handles x
  numbers : ∀ x, t.Numbers x ↔ x = a ∨ s.Numbers x

def Enrols (s : Space) (joined : Option (Noticed × Bool)) (brings : List (Shared Content))
    (t : Space) : Prop :=
  match joined with
  | none => s.Steady t
  | some (a, b) => s.Joins a b brings t

theorem Steady.joins {brings : List (Shared Content)} (hsteady : s.Steady t)
    (hjoins : t.Joins a b brings u) : s.Joins a b brings u where
  fresh := fun hnumbers => hjoins.fresh ((hsteady.numbers a).mpr hnumbers)
  noticed := by rw [hjoins.noticed, hsteady.noticed]
  notices? := fun x => by rw [hjoins.notices?, hsteady.notices?]
  handles := fun x => by rw [hjoins.handles, hsteady.handles]
  numbers := fun x => by rw [hjoins.numbers, hsteady.numbers]

theorem joins_register (p : Propagator) (s : Space) :
    s.Joins (.propagator s.slots.size) p.notices p.handles (s.register p) where
  fresh := by simp [Numbers]
  noticed := by
    unfold register
    split <;> simp_all
  notices? := fun x => by
    cases x with
    | brancher id => simp [Space.notices?, register]
    | propagator id =>
        simp only [Space.notices?, propagator?_register, Noticed.propagator.injEq]
        split <;> rfl
  handles := fun x => by
    cases x with
    | brancher id => simp [Space.handles, register]
    | propagator id =>
        simp only [Space.handles, propagator?_register, Noticed.propagator.injEq]
        split <;> rfl
  numbers := fun x => by
    cases x with
    | brancher id => simp [Numbers, register]
    | propagator id =>
        simp only [Numbers, register, Array.size_push, Noticed.propagator.injEq]
        omega

theorem joins_push (brancher : Brancher) (s : Space) :
    s.Joins (.brancher s.branchers.size) brancher.notices brancher.handles
      { s with
        branchers := s.branchers.push brancher
        noticed :=
          if brancher.notices then s.noticed ++ [.brancher s.branchers.size]
          else s.noticed } where
  fresh := by simp [Numbers]
  noticed := by split <;> simp_all
  notices? := fun x => by
    cases x with
    | propagator id => simp [Space.notices?, propagator?]
    | brancher id =>
        simp only [Space.notices?, Array.getElem?_push, Noticed.brancher.injEq]
        split <;> rfl
  handles := fun x => by
    cases x with
    | propagator id => simp [Space.handles, propagator?]
    | brancher id =>
        simp only [Space.handles, Array.getElem?_push, Noticed.brancher.injEq]
        split <;> rfl
  numbers := fun x => by
    cases x with
    | propagator id => simp [Numbers]
    | brancher id =>
        simp only [Numbers, Array.size_push, Noticed.brancher.injEq]
        omega

theorem plain_push {brancher : Brancher} (hplain : s.Plain) (hcandid : brancher.Plain)
    (hbranchers : t.branchers = s.branchers.push brancher) : t.Plain := by
  intro id o ho
  rw [hbranchers, Array.getElem?_push] at ho
  split at ho
  · obtain rfl := Option.some.inj ho
    exact hcandid
  · exact hplain id o ho

/-- Whom an act adds to the space. -/
def Act.joined (s : Space) : Act → Option (Noticed × Bool)
  | .addPropagator p rejection =>
    match Space.addPropagator p rejection s with
    | .ok id _ => some (.propagator id, p.notices)
    | .error _ _ => none
  | .addBrancher b =>
    match Space.addBrancher b s with
    | .ok id _ => some (.brancher id, b.notices)
    | .error _ _ => none
  | .observe observer =>
    match Space.addBrancher (.observer observer) s with
    | .ok id _ => some (.brancher id, (Brancher.observer observer).notices)
    | .error _ _ => none
  | _ => none

/-- The handles of the actor that an act is to add. -/
def Act.brings : Act → List (Shared Content)
  | .addPropagator p _ => p.handles
  | .addBrancher b => b.handles
  | _ => []

/-- The brancher that an act asks to commit. -/
def Act.commits (s : Space) : Act → List (Noticed × Deed)
  | .commit chosen alternative =>
    if s.isFailed || chosen.alternatives ≤ alternative ||
      (s.notices? (.brancher chosen.brancher)).isNone then []
    else [(.brancher chosen.brancher, .committed)]
  | _ => []

/-- All that an act does to the actors of the space, in order. -/
def Act.deeds (act : Act) (s t : Space) : List (Noticed × Deed) :=
  act.commits s ++ (told s t).filterMap Happening.deed?

/-- The observers that the act adds note only what they find. -/
def Act.Candid : Act → Prop
  | .addBrancher b => b.Plain
  | .observe observer => observer.Plain
  | _ => True

/-- One actor may join, and then only deeds are done, those that the act is known for if
all observers note only what they find. -/
def Proceeds (s : Space) (act : Act) (t : Space) : Prop :=
  ∃ u deeds, s.Enrols (act.joined s) act.brings u ∧ u.Story deeds t ∧
    (s.Plain → act.Candid → u.Plain ∧ deeds = act.deeds s t)

theorem Recorded.proceeds {act : Act} (hrecorded : s.Recorded t)
    (hjoined : act.joined s = none) (hcommits : act.commits s = []) : s.Proceeds act t := by
  obtain ⟨happenings, deeds, hjournal, hstory, hdeeds⟩ := hrecorded
  refine ⟨s, deeds, ?_, hstory, fun hplain _ => ⟨hplain, ?_⟩⟩
  · rw [hjoined]
    exact Steady.refl s
  · rw [Act.deeds, hcommits, List.nil_append, told_eq hjournal, hdeeds hplain]

/-- Nothing is done to any actor. -/
structure Idle (s t : Space) : Prop where
  steady : s.Steady t
  notes : ∃ happenings : List Happening, t.journal = happenings.reverse ++ s.journal ∧
    happenings.filterMap Happening.deed? = []

theorem Idle.refl (s : Space) : s.Idle s := ⟨.refl s, [], rfl, rfl⟩

theorem Idle.recorded (hidle : s.Idle t) : s.Recorded t := by
  obtain ⟨happenings, hjournal, hnone⟩ := hidle.notes
  exact ⟨happenings, [], hjournal, hidle.steady.story, fun _ => hnone⟩

theorem Idle.deeds_eq_nil (hidle : s.Idle t) :
    (told s t).filterMap Happening.deed? = [] := by
  obtain ⟨happenings, hjournal, hnone⟩ := hidle.notes
  rw [told_eq hjournal, hnone]

theorem idle_announce {name : String} {position : Nat} {watches : List Watch}
    (hrun : resume (announce name position watches s) = some t) : s.Idle t := by
  induction watches generalizing position s with
  | nil =>
      obtain rfl := Option.some.inj hrun
      exact .refl s
  | cons watch rest ih =>
      unfold announce at hrun
      split at hrun
      · obtain ⟨hsteady, happenings, hjournal, hnone⟩ := ih hrun
        have hnoted : s.Steady
            (s.note (.registered name position (watch.view.isFixed s.store))) :=
          .of_actors rfl rfl rfl
        refine ⟨hnoted.trans hsteady,
          .registered name position (watch.view.isFixed s.store) :: happenings, ?_, hnone⟩
        rw [hjournal, List.reverse_cons, List.append_assoc]
        rfl
      · simp [resume] at hrun

theorem idle_present {p : Propagator} (hrun : resume (present p s) = some t) : s.Idle t := by
  cases p with
  | scripted script => exact idle_announce hrun
  | _ =>
      obtain rfl := Option.some.inj hrun
      exact .refl s

theorem proceeds_addPropagator {p : Propagator} {rejection : Option SpaceError}
    (hrun : resume (Space.addPropagator p rejection s) = some t) :
    s.Proceeds (.addPropagator p rejection) t := by
  by_cases hfailed : s.isFailed = true
  · obtain ⟨reason, hfailure⟩ := Option.isSome_iff_exists.mp hfailed
    have hrefused := (defunct_of_failed hfailure).addPropagator p rejection
    rw [hrefused] at hrun
    obtain rfl := Option.some.inj hrun
    exact (Recorded.refl s).proceeds (by simp only [Act.joined, hrefused]) rfl
  have hcheck : checkNotFailed s = .ok () s := by rw [checkNotFailed, if_neg hfailed]
  have hidle : ∀ {u}, resume (present p s) = some u → s.Idle u := idle_present
  cases hpresent : present p s with
  | error fault u =>
      have hadd : Space.addPropagator p rejection s = .error fault u := by
        unfold Space.addPropagator
        rw [bind_of_ok hcheck, bind_of_error hpresent]
      rw [hadd] at hrun
      rw [hpresent] at hidle
      have hrecorded : s.Recorded t := by cases fault <;> exact (hidle hrun).recorded
      exact hrecorded.proceeds (by simp only [Act.joined, hadd]) rfl
  | ok x u =>
      have hidle' : s.Idle u := hidle (resume_of_ok hpresent)
      cases rejection with
      | some error =>
          have hadd : Space.addPropagator p (some error) s = .error (.refused error) u := by
            rw [Space.addPropagator, bind_of_ok hcheck, bind_of_ok hpresent]
            rfl
          rw [hadd] at hrun
          obtain rfl := Option.some.inj hrun
          exact hidle'.recorded.proceeds (by simp only [Act.joined, hadd]) rfl
      | none =>
          have hadd : Space.addPropagator p none s = .ok u.slots.size (u.register p) := by
            rw [Space.addPropagator, bind_of_ok hcheck, bind_of_ok hpresent]
            rfl
          rw [hadd] at hrun
          obtain rfl := Option.some.inj hrun
          have hquiet : (told s (u.register p)).filterMap Happening.deed? = [] :=
            hidle'.deeds_eq_nil
          refine ⟨u.register p, [], ?_, .refl, fun hplain _ => ?_⟩
          · simp only [Act.joined, hadd]
            exact hidle'.steady.joins (joins_register p u)
          · refine ⟨hidle'.steady.toKindred.plain hplain, ?_⟩
            rw [Act.deeds, hquiet]
            rfl

theorem proceeds_addBrancher {brancher : Brancher}
    (hrun : resume (Space.addBrancher brancher s) = some t) :
    s.Proceeds (.addBrancher brancher) t := by
  have hadd := addBrancher_eq brancher s
  by_cases hfailed : s.isFailed = true
  · rw [if_pos hfailed] at hadd
    rw [hadd] at hrun
    obtain rfl := Option.some.inj hrun
    exact (Recorded.refl s).proceeds (by simp only [Act.joined, hadd]) rfl
  · rw [if_neg hfailed] at hadd
    rw [hadd] at hrun
    obtain rfl := Option.some.inj hrun
    refine ⟨_, [], ?_, .refl, fun hplain hcandid => ⟨plain_push hplain hcandid rfl, ?_⟩⟩
    · simp only [Act.joined, hadd]
      exact joins_push brancher s
    · have hquiet : ∀ branchers noticed, told s { s with branchers, noticed } = [] :=
        fun _ _ => told_of_journal rfl
      rw [Act.deeds, hquiet]
      rfl

theorem proceeds_observe {observer : Observer}
    (hrun : resume (Space.observe observer s) = some t) :
    s.Proceeds (.observe observer) t := by
  have hadd := addBrancher_eq (.observer observer) s
  by_cases hfailed : s.isFailed = true
  · rw [if_pos hfailed] at hadd
    rw [Space.observe, bind_of_error hadd] at hrun
    obtain rfl := Option.some.inj hrun
    exact (Recorded.refl s).proceeds (by simp only [Act.joined, hadd]) rfl
  · rw [if_neg hfailed] at hadd
    rw [Space.observe, bind_of_ok hadd] at hrun
    obtain ⟨happenings, deeds, hjournal, hstory, hdeeds⟩ := narrates_status _ t hrun
    refine ⟨_, deeds, ?_, hstory, fun hplain hcandid => ?_⟩
    · simp only [Act.joined, hadd]
      exact joins_push (.observer observer) s
    · have hcandid' : (Brancher.observer observer).Plain := hcandid
      have hplain' : ∀ noticed, Plain
          { s with branchers := s.branchers.push (.observer observer), noticed } :=
        fun _ => plain_push hplain hcandid' rfl
      refine ⟨hplain' _, ?_⟩
      have htold : told s t = happenings := told_eq hjournal
      rw [← hdeeds (hplain' _), Act.deeds, htold]
      rfl

theorem proceeds_commit {chosen : Choice} {alternative : Nat}
    (hrun : resume (Space.commit chosen alternative s) = some t) :
    s.Proceeds (.commit chosen alternative) t := by
  obtain ⟨happenings, deeds, hjournal, hstory, hdeeds⟩ :=
    tolerant_recorded.commit chosen alternative s t hrun
  -- the brancher is asked first, of which nothing is noted
  refine ⟨s, (Act.commit chosen alternative).commits s ++ deeds, Steady.refl s, ?_,
    fun hplain _ => ⟨hplain, ?_⟩⟩
  · simp only [Act.commits]
    split
    next => exact hstory
    next hlegal =>
      have hlive : (s.notices? (.brancher chosen.brancher)).isSome = true := by
        simp only [Bool.or_eq_true, not_or, Bool.not_eq_true,
          Option.isNone_eq_false_iff] at hlegal
        exact hlegal.2
      have hcommits : s.Story [(.brancher chosen.brancher, .committed)] s :=
        .work _ .committed .refl hlive rfl
      exact hcommits.trans hstory
  · rw [Act.deeds, told_eq hjournal, hdeeds hplain]

/-- Whatever an operation is, at most one actor joins and then only its deeds are done. -/
theorem Act.proceeds {act : Act} (hkeeps : act.replaces = false)
    (hperform : act.perform s = some t) : s.Proceeds act t := by
  cases act with
  | newInt lower upper => exact (tolerant_recorded.addInt _ s t hperform).proceeds rfl rfl
  | newSparse values => exact (tolerant_recorded.addInt _ s t hperform).proceeds rfl rfl
  | newBool => exact (tolerant_recorded.newBool s t hperform).proceeds rfl rfl
  | newFloat lower upper =>
      exact (tolerant_recorded.newFloat lower upper s t hperform).proceeds rfl rfl
  | newSet glb lub card =>
      exact (tolerant_recorded.newSet glb lub card s t hperform).proceeds rfl rfl
  | post keepGoing narrowings =>
      exact (tolerant_recorded.post keepGoing narrowings s t hperform).proceeds rfl rfl
  | addPropagator p rejection => exact proceeds_addPropagator hperform
  | addBrancher b => exact proceeds_addBrancher hperform
  | propagate => exact (narrates_propagate s t hperform).proceeds rfl rfl
  | status => exact (narrates_status s t hperform).proceeds rfl rfl
  | observe observer => exact proceeds_observe hperform
  | choice => exact (narrates_choice s t hperform).proceeds rfl rfl
  | commit chosen alternative => exact proceeds_commit hperform
  | fail =>
      obtain rfl := Option.some.inj hperform
      exact (recorded_failWith .conflict s).proceeds rfl rfl
  | copy mode next => cases hkeeps
  | readJournal =>
      obtain rfl := Option.some.inj hperform
      refine ⟨s.readJournal.2, [], ?_, .refl, fun hplain _ => ⟨hplain, ?_⟩⟩
      · exact Steady.of_actors rfl rfl rfl
      · simp [Act.deeds, Act.commits, told, Space.readJournal]
  | rescript id script =>
      obtain rfl := Option.some.inj hperform
      exact (recorded_rescript id script s).proceeds rfl rfl

/-! ## Copies and disposal -/

theorem tellCopy_told (mode : CopyMode) (context : CopyContext)
    (hlive : (s.notices? a).isSome = true) :
    s.Kindred (tellCopy mode (s, context) a).1 ∧
      ∃ actor : Actor, actor.noticed = a ∧
        (tellCopy mode (s, context) a).1.journal = .copied actor mode :: s.journal := by
  cases a with
  | propagator id =>
      cases hp : s.propagator? id with
      | none => simp [notices?, hp] at hlive
      | some p =>
          simp only [tellCopy, hp]
          have hset : s.Kindred (s.setPropagator id (p.onCopy context).1) :=
            .setPropagator hp (Propagator.notices_eq_of_guise (p.guise_onCopy context))
          exact ⟨hset.trans (.of_actors rfl rfl rfl), .propagator id p.name, rfl, rfl⟩
  | brancher id =>
      cases hb : s.branchers[id]? with
      | none => simp [notices?, hb] at hlive
      | some b =>
          simp only [tellCopy, hb]
          have hset := Kindred.setBrancher hb (b.same_onCopy context)
          exact ⟨hset.trans (.of_actors rfl rfl rfl), .brancher id b.label, rfl, rfl⟩

theorem foldl_tellCopy_told (mode : CopyMode) (actors : List Noticed) (context : CopyContext)
    (hlive : ∀ a ∈ actors, (s.notices? a).isSome = true) :
    s.Kindred (actors.foldl (tellCopy mode) (s, context)).1 ∧
      ∃ happenings : List Happening,
        (actors.foldl (tellCopy mode) (s, context)).1.journal =
            happenings.reverse ++ s.journal ∧
          happenings.filterMap Happening.deed? = actors.map fun a => (a, .copied mode) := by
  -- the actors are there for the whole of the copy, whoever was told before
  induction actors generalizing s context with
  | nil => exact ⟨(Steady.refl s).toKindred, [], rfl, rfl⟩
  | cons actor rest ih =>
      obtain ⟨hactor, hrest⟩ := List.forall_mem_cons.mp hlive
      obtain ⟨hfirst, told, htold, hjournal⟩ := tellCopy_told mode context hactor
      rw [List.foldl_cons]
      generalize tellCopy mode (s, context) actor = state at hfirst hjournal
      obtain ⟨t, context⟩ := state
      obtain ⟨hkindred, happenings, hgrown, hdeeds⟩ := ih context fun a ha => by
        rw [hfirst.notices?]
        exact hrest a ha
      refine ⟨hfirst.trans hkindred, .copied told mode :: happenings, ?_, ?_⟩
      · rw [hgrown, hjournal, List.reverse_cons, List.append_assoc]
        rfl
      · simp only [List.filterMap_cons, Happening.deed?, htold, hdeeds, List.map_cons]

theorem copy_of_not_failed (hok : s.failure = none) (mode : CopyMode) (next : Nat) :
    s.copy mode next =
      let told := s.noticed.foldl (tellCopy mode)
        ({ s with counts := .zero, journal := [] }, .begin mode next)
      (told.1, told.2.next) := by
  unfold copy
  split
  next reason hfailure => simp [hok] at hfailure
  next => rfl

/-- A copy has the same actors, and those in the registry were told of it, in order and
before anything else. -/
theorem copy_told (hok : s.failure = none)
    (hlive : ∀ a ∈ s.noticed, (s.notices? a).isSome = true) (mode : CopyMode) (next : Nat) :
    s.Kindred (s.copy mode next).1 ∧
      (s.copy mode next).1.journal.reverse.filterMap Happening.deed? =
        s.noticed.map fun a => (a, .copied mode) := by
  have hbegin : s.Kindred { s with counts := .zero, journal := [] } := .of_actors rfl rfl rfl
  obtain ⟨hkindred, happenings, hjournal, hdeeds⟩ :=
    foldl_tellCopy_told mode s.noticed (s := { s with counts := .zero, journal := [] })
      (.begin mode next) hlive
  rw [copy_of_not_failed hok]
  refine ⟨hbegin.trans hkindred, ?_⟩
  rw [hjournal, List.append_nil, List.reverse_reverse, hdeeds]

/-- All actors in the registry are disposed when the space is dropped, in order. -/
theorem deeds_drop (hlive : ∀ a ∈ s.noticed, (s.notices? a).isSome = true) :
    s.drop.filterMap Happening.deed? = s.noticed.map fun a => (a, .disposed) := by
  unfold drop
  generalize s.noticed = actors at hlive ⊢
  induction actors with
  | nil => rfl
  | cons actor rest ih =>
      obtain ⟨hactor, hrest⟩ := List.forall_mem_cons.mp hlive
      cases actor with
      | propagator id =>
          cases hp : s.propagator? id with
          | none => simp [notices?, hp] at hactor
          | some p =>
              simp only [List.filterMap_cons, hp, Option.map_some, Happening.deed?,
                Actor.noticed, ih hrest, List.map_cons]
      | brancher id =>
          cases hb : s.branchers[id]? with
          | none => simp [notices?, hb] at hactor
          | some b =>
              simp only [List.filterMap_cons, hb, Option.map_some, Happening.deed?,
                Actor.noticed, ih hrest, List.map_cons]

/-! ## The registry -/

/-- The registry names the actors that are to be told, each once. -/
structure Registered (s : Space) : Prop where
  nodup : s.noticed.Nodup
  mem_iff : ∀ a, a ∈ s.noticed ↔ s.notices? a = some true

theorem registered_new : new.Registered where
  nodup := List.nodup_nil
  mem_iff := fun a => by cases a <;> simp [new, Space.notices?, propagator?]

theorem Registered.live (hregistered : s.Registered) :
    ∀ a ∈ s.noticed, (s.notices? a).isSome = true := by
  intro a ha
  rw [(hregistered.mem_iff a).mp ha, Option.isSome_some]

theorem Registered.kindred (hregistered : s.Registered) (hkindred : s.Kindred t) :
    t.Registered where
  nodup := hkindred.noticed ▸ hregistered.nodup
  mem_iff := fun a => by rw [hkindred.noticed, hregistered.mem_iff, hkindred.notices?]

theorem Registered.leaves {id : Nat} (hregistered : s.Registered) (hleaves : s.Leaves id t) :
    t.Registered where
  nodup := hleaves.noticed ▸ hregistered.nodup.erase _
  mem_iff := fun a => by
    rw [hleaves.noticed, hregistered.nodup.mem_erase_iff, hregistered.mem_iff, hleaves.notices?]
    split
    next heq => simp [heq]
    next hne => simp [hne]

theorem Registered.joins {brings : List (Shared Content)} (hregistered : s.Registered)
    (hjoins : s.Joins a b brings t) : t.Registered := by
  -- a number that nobody had before is not in the registry yet
  have hnew : a ∉ s.noticed := fun hmem =>
    hjoins.fresh (numbers_of_notices? ((hregistered.mem_iff a).mp hmem))
  refine ⟨?_, fun x => ?_⟩
  · rw [hjoins.noticed, List.nodup_append]
    refine ⟨hregistered.nodup, by split <;> simp, fun x hx y hy => ?_⟩
    rintro rfl
    split at hy
    · exact hnew (List.mem_singleton.mp hy ▸ hx)
    · exact absurd hy List.not_mem_nil
  · rw [hjoins.noticed, hjoins.notices?, List.mem_append]
    by_cases heq : x = a
    · cases b <;> simp [heq, hnew]
    · cases b <;> simp [heq, hregistered.mem_iff]

theorem Registered.enrols {joined : Option (Noticed × Bool)} {brings : List (Shared Content)}
    (hregistered : s.Registered) (henrols : s.Enrols joined brings t) : t.Registered :=
  match joined, henrols with
  | none, hsteady => hregistered.kindred hsteady.toKindred
  | some _, hjoins => hregistered.joins hjoins

theorem Registered.story {deeds : List (Noticed × Deed)} (hregistered : s.Registered)
    (hstory : s.Story deeds t) : t.Registered := by
  induction hstory with
  | refl => exact hregistered
  | rest _ hsteady ih => exact ih.kindred hsteady.toKindred
  | work _ _ _ _ _ ih => exact ih
  | leave _ _ hleaves ih => exact ih.leaves hleaves

theorem Registered.proceeds {act : Act} (hregistered : s.Registered)
    (hproceeds : s.Proceeds act t) : t.Registered := by
  obtain ⟨u, deeds, henrols, hstory, -⟩ := hproceeds
  exact (hregistered.enrols henrols).story hstory

theorem Registered.copy (hregistered : s.Registered) (mode : CopyMode) (next : Nat) :
    (s.copy mode next).1.Registered := by
  cases hfailure : s.failure with
  | none => exact hregistered.kindred (copy_told hfailure hregistered.live mode next).1
  | some reason =>
      simp only [Space.copy, hfailure]
      exact registered_new.kindred (.of_actors rfl rfl rfl)

end Space

end ConstraintSpace
