import ConstraintSpace.Proofs.Space.Attention
import ConstraintSpace.Proofs.Space.Enrolment

/-!
# Who holds which number

A propagator has its number from the act that adds it until a run of it ends with the
propagator subsumed, or until a copy of the failed space is made.  The acts alone tell who
that is: the propagators that they add, in order, without those that left.  The slots of a
reachable space agree with what its acts tell.
-/

namespace ConstraintSpace

namespace Space

variable {s s' t u : Space} {id : Nat} {p : Propagator} {log : List Entry}

/-! ## What the acts tell -/

/-- The propagator that an act adds. -/
def Act.arrival? (s : Space) : Act → Option Propagator
  | .addPropagator p rejection =>
    match Space.addPropagator p rejection s with
    | .ok _ _ => some p
    | .error _ _ => none
  | _ => none

/-- The propagators that acts add, in order. -/
def arrivals : List Act → Space → List Propagator
  | [], _ => []
  | act :: rest, s =>
    (act.arrival? s).toList ++
      match act.perform s with
      | some s => arrivals rest s
      | none => []

/-- The propagator that a run left subsumed. -/
def Entry.departure? : Entry → Option Nat
  | ran id (.ended .subsumed) _ => some id
  | _ => none

def departures (log : List Entry) : List Nat := log.filterMap Entry.departure?

/-- A copy of the failed space was made, which has no propagators. -/
def discarded : List Act → Space → Bool
  | [], _ => false
  | act :: rest, s =>
    (act.replaces && s.isFailed) ||
      match act.perform s with
      | some s => discarded rest s
      | none => false

/-- The propagator that holds a number after some acts: the one that came with this
number, unless it left. -/
def serving? (acts : List Act) (id : Nat) : Option Propagator :=
  if discarded acts new ∨ id ∈ departures (history acts new) then none
  else (arrivals acts new)[id]?

/-! ## Numbers -/

/-- Who holds a number when some propagators were added to the space. -/
def enrolled? (s : Space) (added : List Propagator) (id : Nat) : Option Propagator :=
  if id < s.slots.size then s.propagator? id else added[id - s.slots.size]?

/-- Who was added holds the next numbers, who left holds none, and nothing else changed
about who holds which number. -/
structure Serves (s : Space) (added : List Propagator) (gone : List Nat) (t : Space) :
    Prop where
  size : t.slots.size = s.slots.size + added.length
  gone_lt : ∀ id ∈ gone, id < t.slots.size
  guise : ∀ id, (t.propagator? id).map Propagator.guise =
    if id ∈ gone then none else (s.enrolled? added id).map Propagator.guise

theorem propagator?_of_size_le (hid : s.slots.size ≤ id) : s.propagator? id = none := by
  cases hp : s.propagator? id with
  | none => rfl
  | some p => exact absurd (lt_size_of_propagator? hp) (Nat.not_lt.mpr hid)

@[simp] theorem enrolled?_nil (s : Space) (id : Nat) :
    s.enrolled? [] id = s.propagator? id := by
  unfold enrolled?
  split
  next => rfl
  next hge => rw [propagator?_of_size_le (Nat.not_lt.mp hge), List.getElem?_nil]

theorem Serves.of_guise (hsize : t.slots.size = s.slots.size)
    (hguise : ∀ id, (t.propagator? id).map Propagator.guise =
      (s.propagator? id).map Propagator.guise) : s.Serves [] [] t where
  size := hsize
  gone_lt := by simp
  guise := fun id => by simp [hguise]

theorem Serves.of_slots (hslots : t.slots = s.slots) : s.Serves [] [] t :=
  .of_guise (by rw [hslots]) fun id => by simp only [propagator?, hslots]

theorem Kin.serves (hkin : s.Kin t) : s.Serves [] [] t :=
  .of_guise hkin.size_slots hkin.guise

theorem Serves.trans {added added' : List Propagator} {gone gone' : List Nat}
    (hfirst : s.Serves added gone t) (hsecond : t.Serves added' gone' u) :
    s.Serves (added ++ added') (gone ++ gone') u := by
  have hsize := hfirst.size
  have hsize' := hsecond.size
  refine ⟨by rw [List.length_append]; omega, ?_, fun id => ?_⟩
  · intro id hid
    rcases List.mem_append.mp hid with hold | hnew
    · have := hfirst.gone_lt id hold
      omega
    · exact hsecond.gone_lt id hnew
  · rw [hsecond.guise]
    by_cases hleft : id ∈ gone'
    · simp [hleft]
    rw [if_neg hleft]
    by_cases hid : id < t.slots.size
    · have hsame : s.enrolled? (added ++ added') id = s.enrolled? added id := by
        unfold enrolled?
        split
        next => rfl
        next => rw [List.getElem?_append_left (by omega)]
      rw [enrolled?, if_pos hid, hfirst.guise, hsame]
      simp [hleft]
    · -- the number was given after those of the first list had left
      have hstays : id ∉ gone := fun hgone => hid (hfirst.gone_lt id hgone)
      have hlater : s.enrolled? (added ++ added') id = added'[id - t.slots.size]? := by
        unfold enrolled?
        rw [if_neg (by omega), List.getElem?_append_right (by omega), hsize,
          Nat.sub_sub]
      rw [enrolled?, if_neg hid, hlater]
      simp [hstays, hleft]

theorem serves_register (p : Propagator) (s : Space) :
    s.Serves [p] [] (s.register p) where
  size := by simp [register]
  gone_lt := by simp
  guise := fun id => by
    rw [propagator?_register, if_neg List.not_mem_nil]
    unfold enrolled?
    by_cases hid : id < s.slots.size
    · rw [if_neg (Nat.ne_of_lt hid), if_pos hid]
    rw [if_neg hid]
    split
    next heq => simp [heq]
    next hne =>
      rw [propagator?_of_size_le (Nat.not_lt.mp hid),
        List.getElem?_eq_none (by simp only [List.length_singleton]; omega)]

theorem departures_append (log log' : List Entry) :
    departures (log ++ log') = departures log ++ departures log' :=
  List.filterMap_append

theorem departures_turnLog (hp : s.propagator? id = some p) :
    departures (turnLog id s) =
      match (p.run s.store).verdict with
      | .ended .subsumed => [id]
      | _ => [] := by
  simp only [departures, turnLog, hp, List.filterMap_cons, List.filterMap_nil]
  split
  next heq =>
    unfold Entry.departure? at heq
    split at heq <;> simp_all
  next heq =>
    unfold Entry.departure? at heq
    split at heq <;> simp_all

theorem serves_subsumed (hid : id < s.slots.size) (hsubsumed : s.Subsumed id t) :
    s.Serves [] [id] t where
  size := hsubsumed.size_slots
  gone_lt := fun j hj => by rwa [List.mem_singleton.mp hj, hsubsumed.size_slots]
  guise := fun j => by
    simp only [hsubsumed.propagator?, enrolled?_nil, List.mem_singleton]
    split <;> rfl

/-- A run ends with the number of a subsumed propagator free, and with the others held by
those who held them. -/
theorem serves_runOne (hsound : s.Sound) (hrun : runOne id s = .ok () t) :
    s.Serves [] (departures (turnLog id s)) t := by
  cases hp : s.propagator? id with
  | none =>
      rw [runOne_of_gone hp] at hrun
      obtain rfl : s = t := by simpa using hrun
      simp only [turnLog, hp]
      exact .of_slots rfl
  | some p =>
      have hid := lt_size_of_propagator? hp
      have hafter : s.Serves [] [] (s.afterRun id p) := by
        refine .of_guise size_slots_afterRun fun j => ?_
        rw [propagator?_afterRun hid]
        split
        next heq => rw [heq, hp, Option.map_some, Option.map_some, p.guise_run]
        next => rfl
      have hsound' := hsound.afterRun id p
      have hsubsumed := subsume_subsumed (propagator?_afterRun_self hp)
      have hschedule : ∀ {r : Space} {skip : Option Nat}, r.Sound →
          schedule skip r = .ok () t → r.Serves [] [] t :=
        fun hsound hrun => .of_slots (hsound.schedule hrun).2.2.1
      rw [departures_turnLog hp]
      rw [runOne_eq hp] at hrun
      split at hrun
      next hverdict =>
        rw [hverdict]
        exact hafter.trans (hschedule hsound' hrun)
      next hverdict =>
        rw [hverdict]
        exact hafter.trans (hschedule hsound' hrun)
      next hverdict =>
        rw [hverdict]
        have hgone := serves_subsumed (by rwa [size_slots_afterRun]) hsubsumed
        exact (hafter.trans hgone).trans (hschedule (hsound'.of_subsumed hsubsumed) hrun)
      next reason hverdict =>
        simp only [EStateM.Result.ok.injEq, true_and] at hrun
        rw [hverdict, ← hrun]
        exact hafter.trans (.of_slots (slots_failWith _ _))
      next => simp at hrun

/-! ## Operations -/

theorem serves_runQueue {fuel : Nat} (hsound : s.Sound) (hquiet : s.store.isQuiet = true)
    (hrun : runQueue fuel s = .ok () t) :
    s.Serves [] (departures (queueLog fuel s)) t := by
  induction fuel generalizing s with
  | zero =>
      have hrun' : (.ok () s : EStateM.Result Fault Space Unit) = .ok () t := hrun
      obtain rfl : s = t := by simpa using hrun'
      exact .of_slots rfl
  | succ fuel ih =>
      cases hpop : s.queue.pop? with
      | none =>
          rw [runQueue_of_pop?_eq_none hpop] at hrun
          obtain rfl : s = t := by simpa using hrun
          simp only [queueLog, hpop]
          exact .of_slots rfl
      | some result =>
          obtain ⟨id, q⟩ := result
          rw [runQueue_succ hpop] at hrun
          cases hone : runOne id { s with queue := q } with
          | error fault u => simp [hone] at hrun
          | ok _ u =>
              rw [hone] at hrun
              have hpopped := hsound.popped hpop
              have hran := hpopped.runOne hquiet hone
              have hturn : s.Serves [] (departures (turnLog id s)) u := by
                obtain ⟨hsize, hgone, hguise⟩ := serves_runOne hpopped hone
                exact ⟨hsize, hgone, hguise⟩
              simp only [queueLog, hpop, hone, departures_append]
              exact hturn.trans (ih hran.sound hran.quiet hrun)

theorem serves_propagate {reason : Option Inconsistency} (hsound : s.Sound)
    (hrun : propagate s = .ok reason t) :
    s.Serves [] (departures (propagateLog s)) t := by
  cases hfailure : s.failure with
  | some first =>
      simp only [propagate, hfailure, EStateM.Result.ok.injEq] at hrun
      obtain rfl := hrun.2
      simp only [propagateLog, hfailure]
      exact .of_slots rfl
  | none =>
      cases hschedule : schedule none s with
      | error fault u => simp [propagate, hfailure, hschedule] at hrun
      | ok _ u =>
          obtain ⟨hsound', hstore, hslots, -⟩ := hsound.schedule hschedule
          have hquiet : u.store.isQuiet = true := by
            rw [hstore]
            rfl
          cases hqueue : runQueue u.enoughRuns u with
          | error fault v => simp [propagate, hfailure, hschedule, hqueue] at hrun
          | ok _ v =>
              simp only [propagate, hfailure, hschedule, hqueue, EStateM.Result.ok.injEq] at hrun
              obtain rfl := hrun.2
              simp only [propagateLog, hfailure, hschedule]
              exact (Serves.of_slots hslots).trans (serves_runQueue hsound' hquiet hqueue)

theorem serves_status (hsound : s.Sound) (hrun : resume (status s) = some t) :
    s.Serves [] (departures (propagateLog s)) t := by
  cases hpropagate : propagate s with
  | error fault u =>
      cases fault with
      | refused error => exact absurd hpropagate (willing_propagate s error u)
      | breached breach => simp [status_eq, hpropagate, resume] at hrun
  | ok reason u =>
      have hserves := serves_propagate hsound hpropagate
      rw [status_eq, hpropagate] at hrun
      cases reason with
      | some reason =>
          obtain rfl := Option.some.inj hrun
          exact hserves
      | none =>
          simp only at hrun
          cases hadvance : advance u with
          | ok found v =>
              simp only [hadvance] at hrun
              obtain rfl := Option.some.inj hrun
              simpa using hserves.trans (kin_of_advanceBy hadvance).serves
          | error fault v =>
              cases fault with
              | refused error => exact absurd hadvance (willing_advanceBy _ u error v)
              | breached breach => simp [hadvance, resume] at hrun

theorem Effect.empties (heffect : s.Effect log t) (hslots : s.slots = #[])
    (hfailed : s.failure ≠ none) : t.slots = #[] ∧ t.failure ≠ none := by
  cases heffect with
  | touch hkin =>
      have hsize := hkin.size_slots
      rw [hslots] at hsize
      exact ⟨Array.eq_empty_of_size_eq_zero hsize, hkin.failure ▸ hfailed⟩
  | grow _ => exact ⟨hslots, hfailed⟩
  | drain hok _ => exact absurd hok hfailed
  | narrow _ hok _ _ _ => exact absurd hok hfailed
  | fail counts _ reason _ _ _ =>
      exact ⟨(slots_failWith _ _).trans hslots, failure_failWith reason _⟩
  | @turn _ id q _ _ hrun =>
      have hgone : Space.propagator? { s with queue := q } id = none := by
        simp [propagator?, hslots]
      rw [runOne_of_gone hgone] at hrun
      obtain rfl := (EStateM.Result.ok.inj hrun).2
      exact ⟨hslots, hfailed⟩
  | register hok _ => exact absurd hok hfailed
  | discard _ => exact ⟨rfl, by simp⟩

theorem departures_eq_nil_of_narrowed
    (hlog : ∀ entry ∈ log, ∃ raised, entry = .narrowed raised) : departures log = [] := by
  refine List.filterMap_eq_nil_iff.mpr fun entry hentry => ?_
  obtain ⟨raised, rfl⟩ := hlog entry hentry
  rfl

/-- An effect leaves the numbers as they are but for those of propagators that are added
or leave, unless it discards all. -/
theorem Effect.serves (heffect : s.Effect log t) (hsound : s.Sound) :
    (∃ added, s.Serves added (departures log) t) ∨ t.slots = #[] ∧ t.failure ≠ none := by
  cases heffect with
  | touch hkin => exact Or.inl ⟨[], hkin.serves⟩
  | grow _ => exact Or.inl ⟨[], .of_slots rfl⟩
  | drain _ hrun => exact Or.inl ⟨[], .of_slots (hsound.schedule hrun).2.2.1⟩
  | narrow counts _ hvalid _ hrun =>
      have hnarrowed : Sound { s with store := _, counts } :=
        ⟨hvalid, hsound.queue, hsound.waiting⟩
      exact Or.inl ⟨[], .of_slots (hnarrowed.schedule hrun).2.2.1⟩
  | fail counts log reason _ _ hlog =>
      rw [departures_eq_nil_of_narrowed hlog]
      exact Or.inl ⟨[], .of_slots (slots_failWith reason _)⟩
  | turn _ hpop hrun =>
      obtain ⟨hsize, hgone, hguise⟩ := serves_runOne (hsound.popped hpop) hrun
      exact Or.inl ⟨[], hsize, hgone, hguise⟩
  | register _ p => exact Or.inl ⟨[p], serves_register p s⟩
  | discard _ => exact Or.inr ⟨rfl, by simp⟩

theorem Unfolds.serves (hunfolds : s.Unfolds log t) (hsound : s.Sound) :
    (∃ added, s.Serves added (departures log) t) ∨ t.slots = #[] ∧ t.failure ≠ none := by
  induction hunfolds with
  | refl => exact Or.inl ⟨[], .of_slots rfl⟩
  | tail hunfolds heffect ih =>
      rcases ih with ⟨added, hserves⟩ | ⟨hslots, hfailed⟩
      · rcases heffect.serves (hunfolds.sound hsound) with ⟨added', hserves'⟩ | hempty
        · rw [departures_append]
          exact Or.inl ⟨added ++ added', hserves.trans hserves'⟩
        · exact Or.inr hempty
      · exact Or.inr (heffect.empties hslots hfailed)

/-- An operation that runs nobody and gives no number leaves the numbers as they are. -/
theorem Unfolds.serves_of_size (hunfolds : s.Unfolds log t) (hsound : s.Sound)
    (hnobody : departures log = []) (hsize : t.slots.size = s.slots.size) :
    s.Serves [] [] t := by
  rcases hunfolds.serves hsound with ⟨added, hserves⟩ | ⟨hslots, -⟩
  · have hlength := hserves.size
    obtain rfl : added = [] := List.length_eq_zero_iff.mp (by omega)
    rwa [hnobody] at hserves
  · have hnone : s.slots = #[] := by
      apply Array.eq_empty_of_size_eq_zero
      rw [← hsize, hslots]
      rfl
    exact .of_slots (hslots.trans hnone.symm)

/-! ## Acts -/

theorem Story.numbers {deeds : List (Noticed × Deed)} (hstory : s.Story deeds t)
    (a : Noticed) : t.Numbers a ↔ s.Numbers a := by
  induction hstory with
  | refl => rfl
  | rest _ hsteady ih => rw [hsteady.numbers, ih]
  | work _ _ _ _ _ ih => exact ih
  | leave _ _ hleaves ih => rw [hleaves.numbers, ih]

theorem Act.joined_of_arrival? {act : Act} (hnobody : act.arrival? s = none) (id : Nat)
    (b : Bool) : act.joined s ≠ some (.propagator id, b) := by
  cases act with
  | addPropagator p rejection =>
      simp only [Act.arrival?, Act.joined] at hnobody ⊢
      split at hnobody <;> simp_all
  | addBrancher b =>
      simp only [Act.joined]
      split <;> simp
  | observe observer =>
      simp only [Act.joined]
      split <;> simp
  | _ => simp [Act.joined]

/-- An act that adds no propagator gives no number. -/
theorem Proceeds.size {act : Act} (hproceeds : s.Proceeds act t)
    (hnobody : act.arrival? s = none) : t.slots.size = s.slots.size := by
  obtain ⟨u, deeds, henrols, hstory, -⟩ := hproceeds
  have hfirst : ∀ id, u.Numbers (.propagator id) ↔ s.Numbers (.propagator id) := by
    cases hjoined : act.joined s with
    | none =>
        rw [hjoined] at henrols
        have hsteady : s.Steady u := henrols
        exact fun id => hsteady.numbers _
    | some actor =>
        obtain ⟨a, b⟩ := actor
        rw [hjoined] at henrols
        intro id
        rw [Joins.numbers henrols, or_iff_right]
        rintro rfl
        exact Act.joined_of_arrival? hnobody id b hjoined
  have hless : ∀ id, id < t.slots.size ↔ id < s.slots.size :=
    fun id => (hstory.numbers (.propagator id)).trans (hfirst id)
  have hbelow := hless s.slots.size
  have habove := hless t.slots.size
  omega

theorem departures_postLog (keepGoing : Bool) (narrowings : List Narrowing) (s : Space) :
    departures (postLog keepGoing narrowings s) = [] := by
  apply departures_eq_nil_of_narrowed
  unfold postLog
  split <;> simp

theorem departures_commitLog (chosen : Choice) (alternative : Nat) (s : Space) :
    departures (commitLog chosen alternative s) = [] := by
  apply departures_eq_nil_of_narrowed
  rcases commitLog_cases chosen alternative s with hlog | ⟨b, narrowing, -, hlog⟩ <;>
    simp [hlog]

theorem serves_observe {observer : Observer} (hsound : s.Sound)
    (hrun : resume (observe observer s) = some t) :
    s.Serves [] (departures ((Act.observe observer).log s)) t := by
  have hadd := addBrancher_eq (.observer observer) s
  by_cases hfailed : s.isFailed = true
  · rw [if_pos hfailed] at hadd
    rw [observe, bind_of_error hadd] at hrun
    obtain rfl := Option.some.inj hrun
    simp only [Act.log, hadd]
    exact .of_slots rfl
  · rw [if_neg hfailed] at hadd
    rw [observe, bind_of_ok hadd] at hrun
    simp only [Act.log, hadd]
    generalize hpushed : ({ s with branchers := _, noticed := _ } : Space) = r at hrun ⊢
    have hsound' : r.Sound := by
      rw [← hpushed]
      exact ⟨hsound.store, hsound.queue, hsound.waiting⟩
    have hslots : r.slots = s.slots := by rw [← hpushed]
    exact (Serves.of_slots hslots).trans (serves_status hsound' hrun)

theorem failure_of_addPropagator {rejection : Option SpaceError} {r : Space}
    (hadd : addPropagator p rejection s = .ok id r) : s.failure = none := by
  cases hfailure : s.failure with
  | none => rfl
  | some reason =>
      rw [(defunct_of_failed hfailure).addPropagator] at hadd
      cases hadd

theorem serves_addPropagator {rejection : Option SpaceError} {r : Space}
    (hsound : s.Sound) (hadd : addPropagator p rejection s = .ok id r) :
    id = s.slots.size ∧ s.Serves [p] [] r := by
  have hcheck : checkNotFailed s = .ok () s := by
    simp [checkNotFailed, isFailed, failure_of_addPropagator hadd]
  unfold Space.addPropagator at hadd
  rw [bind_of_ok hcheck] at hadd
  cases hpresent : present p s with
  | error fault u =>
      rw [bind_of_error hpresent] at hadd
      cases hadd
  | ok _ u =>
      rw [bind_of_ok hpresent] at hadd
      have hidle : s.Idle u := idle_present (p := p) (by rw [hpresent, resume])
      have hfirst : s.Serves [] [] u := by
        have hunfolds := (present_cases p).1 s hsound u (by rw [hpresent, resume])
        have hless : ∀ id, id < u.slots.size ↔ id < s.slots.size :=
          fun id => hidle.steady.numbers (.propagator id)
        have hbelow := hless s.slots.size
        have habove := hless u.slots.size
        exact hunfolds.serves_of_size hsound rfl (by omega)
      cases rejection with
      | some error => cases hadd
      | none =>
          have hadd' : (.ok u.slots.size (u.register p) : EStateM.Result Fault Space Nat) =
            .ok id r := hadd
          obtain ⟨rfl, rfl⟩ := EStateM.Result.ok.inj hadd'
          exact ⟨hfirst.size, hfirst.trans (serves_register p u)⟩

/-- Whatever an operation is, the numbers change by who is added and who leaves only. -/
theorem Act.serves {act : Act} (hsound : s.Sound) (hkeeps : act.replaces = false)
    (hperform : act.perform s = some t) :
    s.Serves (act.arrival? s).toList (departures (act.log s)) t := by
  have hquiet : act.arrival? s = none → departures (act.log s) = [] →
      s.Serves [] [] t := fun hnobody hnone =>
    (act.unfolds hsound hperform).serves_of_size hsound hnone
      ((act.proceeds hkeeps hperform).size hnobody)
  cases act with
  | addPropagator p rejection =>
      cases hadd : Space.addPropagator p rejection s with
      | ok id r =>
          simp only [Act.perform, hadd, resume, Option.some.injEq] at hperform
          simp only [Act.arrival?, hadd, Option.toList_some]
          rw [← hperform]
          exact (serves_addPropagator hsound hadd).2
      | error fault r =>
          have hnobody : (Act.addPropagator p rejection).arrival? s = none := by
            simp only [Act.arrival?, hadd]
          rw [hnobody]
          exact hquiet hnobody rfl
  | propagate =>
      obtain ⟨reason, hok⟩ := willing_propagate.ok_of_resume hperform
      exact serves_propagate hsound hok
  | status => exact serves_status hsound hperform
  | observe observer => exact serves_observe hsound hperform
  | post keepGoing narrowings =>
      simp only [Act.log, departures_postLog]
      exact hquiet rfl (departures_postLog keepGoing narrowings s)
  | commit chosen alternative =>
      simp only [Act.log, departures_commitLog]
      exact hquiet rfl (departures_commitLog chosen alternative s)
  | copy mode next => cases hkeeps
  | _ => exact hquiet rfl rfl

theorem Unfolds.empties (hunfolds : s.Unfolds log t) (hslots : s.slots = #[])
    (hfailed : s.failure ≠ none) : t.slots = #[] ∧ t.failure ≠ none := by
  induction hunfolds with
  | refl => exact ⟨hslots, hfailed⟩
  | tail _ heffect ih => exact heffect.empties ih.1 ih.2

/-- The numbers after acts are those that the acts tell. -/
theorem serves_performAll {acts : List Act} (hsound : s.Sound)
    (hperform : performAll acts s = some t) :
    (discarded acts s = false →
        s.Serves (arrivals acts s) (departures (history acts s)) t) ∧
      (discarded acts s = true → t.slots = #[] ∧ t.failure ≠ none) := by
  induction acts generalizing s with
  | nil =>
      obtain rfl := Option.some.inj hperform
      exact ⟨fun _ => .of_slots rfl, by simp [discarded]⟩
  | cons act rest ih =>
      obtain ⟨u, hact, hrest⟩ := Option.bind_eq_some_iff.mp hperform
      have hunfolds := act.unfolds hsound hact
      have hrest' := ih (hunfolds.sound hsound) hrest
      have hkept : (act.replaces && s.isFailed) = false →
          s.Serves (act.arrival? s).toList (departures (act.log s)) u := by
        intro hkeeps
        cases hreplaces : act.replaces with
        | false => exact act.serves hsound hreplaces hact
        | true =>
            cases act with
            | copy mode next =>
                obtain rfl := Option.some.inj hact
                have hok : s.failure = none := by
                  simpa [hreplaces, isFailed] using hkeeps
                rw [copy_of_not_failed hok]
                have hkin := kin_foldl_tellCopy mode s.noticed
                  ({ s with counts := .zero, journal := [] }, .begin mode next)
                obtain ⟨hsize, hgone, hguise⟩ := hkin.serves
                exact ⟨hsize, hgone, hguise⟩
            | _ => cases hreplaces
      simp only [discarded, arrivals, history, hact, Bool.or_eq_false_iff,
        Bool.or_eq_true, departures_append]
      refine ⟨fun hboth => (hkept hboth.1).trans (hrest'.1 hboth.2), ?_⟩
      rintro (hcopied | hlater)
      · obtain ⟨hreplaces, hfailed⟩ := Bool.and_eq_true_iff.mp hcopied
        obtain ⟨reason, hfailure⟩ := Option.isSome_iff_exists.mp hfailed
        cases act with
        | copy mode next =>
            obtain rfl := Option.some.inj hact
            have hempty : (s.copy mode next).1.slots = #[] ∧
                (s.copy mode next).1.failure ≠ none := by
              simp only [Space.copy, hfailure]
              exact ⟨rfl, by simp⟩
            exact (unfolds_of_performAll (hunfolds.sound hsound) hrest).empties
              hempty.1 hempty.2
        | _ => cases hreplaces
      · exact hrest'.2 hlater

end Space

end ConstraintSpace
