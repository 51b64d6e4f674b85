import ConstraintSpace.Space.Exploration
import ConstraintSpace.Proofs.Space.Running

/-!
# Propagation reaches the fixpoint

Between two runs that narrow nothing, the queue gets shorter; a run that narrows
lowers the measure of the store, and afterwards no more propagators wait than
there are slots.  So the measure of the store times the number of slots, plus the
number of waiting propagators, falls with every run, and the bound on the runs
that the space computes is enough: propagation ends with nobody waiting and
nothing pending.  Every posted propagator is upheld all the way.
-/

namespace ConstraintSpace

namespace Space

variable {s s' : Space} {id j : Nat} {p : Propagator} {q : Queue}

/-! ## The loop -/

theorem Sound.popped (hsound : s.Sound) (hpop : s.queue.pop? = some (id, q)) :
    Sound { s with queue := q } := by
  obtain ⟨hvalid, hperm, _⟩ := hsound.queue.pop? hpop
  exact ⟨hsound.store, hvalid, fun x hx =>
    hsound.waiting x (hperm.mem_iff.mpr (List.mem_cons_of_mem id hx))⟩

theorem Posted.popped (hposted : s.Posted j p) (q : Queue) :
    Posted { s with queue := q } j p :=
  ⟨hposted.fit, hposted.steady, hposted.registered, hposted.slot⟩

/-- Every run of the loop lowers the bound that the space computes. -/
theorem Sound.enoughRuns_lt (hsound : s.Sound) (hquiet : s.store.isQuiet = true)
    (hpop : s.queue.pop? = some (id, q))
    (hrun : Space.runOne id { s with queue := q } = .ok () s') :
    s'.enoughRuns < s.enoughRuns := by
  have hran := (hsound.popped hpop).runOne hquiet hrun
  obtain ⟨-, -, hcount⟩ := hsound.queue.pop? hpop
  have hsize : s'.slots.size = s.slots.size := hran.size_slots
  unfold enoughRuns
  rw [hsize]
  rcases hran.progress with hless | ⟨hsame, hcount'⟩
  · have hslots := hran.sound.count_le
    rw [hsize] at hslots
    have hmul : (s'.store.measure + 1) * (s.slots.size + 1) ≤
        s.store.measure * (s.slots.size + 1) := Nat.mul_le_mul_right _ hless
    rw [Nat.add_mul, Nat.one_mul] at hmul
    omega
  · rw [hsame]
    have hless : s'.queue.count < s.queue.count := by
      have : s'.queue.count ≤ q.count := hcount'
      omega
    exact Nat.add_lt_add_left hless _

theorem runQueue_succ (hpop : s.queue.pop? = some (id, q)) (fuel : Nat) :
    runQueue (fuel + 1) s =
      match runOne id { s with queue := q } with
      | .ok _ s => runQueue fuel s
      | .error fault s => .error fault s := by
  cases hone : runOne id { s with queue := q } <;> simp only [runQueue, hpop, hone]

theorem runQueue_of_pop?_eq_none (hpop : s.queue.pop? = none) (fuel : Nat) :
    runQueue fuel s = .ok () s := by
  cases fuel with
  | zero => rfl
  | succ fuel => simp only [runQueue, hpop]

/-- A property that every run of the loop keeps holds at its end. -/
theorem runQueue_induction {P : Space → Prop}
    (hstep : ∀ s s' id q, P s → s.queue.pop? = some (id, q) →
      runOne id { s with queue := q } = .ok () s' → P s')
    {fuel : Nat} (hstart : P s) (hrun : runQueue fuel s = .ok () s') : P s' := by
  induction fuel generalizing s with
  | zero =>
      have hrun' : (.ok () s : EStateM.Result Fault Space Unit) = .ok () s' := hrun
      obtain rfl : s = s' := by simpa using hrun'
      exact hstart
  | succ fuel ih =>
      cases hpop : s.queue.pop? with
      | none =>
          rw [runQueue_of_pop?_eq_none hpop] at hrun
          obtain rfl : s = s' := by simpa using hrun
          exact hstart
      | some result =>
          obtain ⟨id, q⟩ := result
          rw [runQueue_succ hpop] at hrun
          cases hone : Space.runOne id { s with queue := q } with
          | ok _ t =>
              rw [hone] at hrun
              exact ih (hstep s t id q hstart hpop hone) hrun
          | error fault t =>
              rw [hone] at hrun
              simp at hrun

/-- Nobody waits and nothing is pending. -/
structure Rests (s : Space) : Prop where
  queue : s.queue.ids = []
  quiet : s.store.isQuiet = true

/-- With enough fuel the loop ends with nobody waiting. -/
theorem Sound.runQueue {fuel : Nat} (hsound : s.Sound) (hquiet : s.store.isQuiet = true)
    (hfuel : s.enoughRuns ≤ fuel) (hrun : Space.runQueue fuel s = .ok () s') :
    s'.Sound ∧ s'.Rests ∧ s.Frame s' := by
  induction fuel generalizing s with
  | zero =>
      have hrun' : (.ok () s : EStateM.Result Fault Space Unit) = .ok () s' := hrun
      obtain rfl : s = s' := by simpa using hrun'
      have hcount : s.queue.count = 0 := by
        unfold enoughRuns at hfuel
        omega
      rw [hsound.queue.count_eq, List.length_eq_zero_iff] at hcount
      exact ⟨hsound, ⟨hcount, hquiet⟩, .refl s⟩
  | succ fuel ih =>
      cases hpop : s.queue.pop? with
      | none =>
          rw [runQueue_of_pop?_eq_none hpop] at hrun
          obtain rfl : s = s' := by simpa using hrun
          exact ⟨hsound, ⟨Queue.ids_eq_nil_of_pop?_eq_none hsound.queue hpop, hquiet⟩,
            .refl s⟩
      | some result =>
          obtain ⟨id, q⟩ := result
          rw [runQueue_succ hpop] at hrun
          cases hone : Space.runOne id { s with queue := q } with
          | ok _ t =>
              rw [hone] at hrun
              have hran := (hsound.popped hpop).runOne hquiet hone
              have hless := hsound.enoughRuns_lt hquiet hpop hone
              obtain ⟨hsound', hrests, hframe⟩ := ih hran.sound hran.quiet (by omega) hrun
              have hfirst := hran.toFrame
              exact ⟨hsound', hrests, Frame.trans
                ⟨hfirst.refines, hfirst.ints_size, hfirst.sets_size, hfirst.size_slots,
                  hfirst.branchers, hfirst.active, hfirst.failure⟩ hframe⟩
          | error fault t =>
              rw [hone] at hrun
              simp at hrun

/-- The turn of a waiting propagator keeps the posted ones upheld. -/
theorem Upholds.turn (hupholds : s.Upholds j p) (hsound : s.Sound)
    (hquiet : s.store.isQuiet = true) (hpop : s.queue.pop? = some (id, q))
    (hone : Space.runOne id { s with queue := q } = .ok () s') : s'.Upholds j p := by
  obtain ⟨_, hperm, _⟩ := hsound.queue.pop? hpop
  refine Posted.runOne (hupholds.popped q) (fun hok => ?_) (hsound.popped hpop) hquiet hone
  rcases hupholds.awake hok with hgone | hwaits | hrest
  · exact Or.inl hgone
  · rcases List.mem_cons.mp (hperm.mem_iff.mp hwaits) with heq | hwaits'
    · exact Or.inr (Or.inl heq)
    · exact Or.inr (Or.inr (Or.inl hwaits'))
  · exact Or.inr (Or.inr (Or.inr hrest))

theorem Upholds.runQueue {fuel : Nat} (hupholds : s.Upholds j p) (hsound : s.Sound)
    (hquiet : s.store.isQuiet = true) (hrun : Space.runQueue fuel s = .ok () s') :
    s'.Upholds j p := by
  refine (runQueue_induction
    (P := fun s => s.Upholds j p ∧ s.Sound ∧ s.store.isQuiet = true)
    (fun s t id q ⟨hupholds, hsound, hquiet⟩ hpop hone => ?_)
    ⟨hupholds, hsound, hquiet⟩ hrun).1
  have hran := (hsound.popped hpop).runOne hquiet hone
  exact ⟨hupholds.turn hsound hquiet hpop hone, hran.sound, hran.quiet⟩

/-! ## Propagation -/

/-- What propagation leaves behind when it gives an answer. -/
structure Propagated (s : Space) (reason : Option Inconsistency) (s' : Space) :
    Prop where
  sound : s'.Sound
  failure : s'.failure = reason
  frame : s.Frame s'
  rests : reason = none → s'.Rests
  upholds : ∀ j p, s.Upholds j p → s'.Upholds j p

/-- A failed space answers at once; another one passes its events on and runs its queue. -/
theorem propagate_cases {reason : Option Inconsistency}
    (hrun : propagate s = .ok reason s') :
    (∃ first, s.failure = some first ∧ reason = some first ∧ s' = s) ∨
      (s.failure = none ∧ s'.failure = reason ∧
        ∃ t, schedule none s = .ok () t ∧ runQueue t.enoughRuns t = .ok () s') := by
  unfold propagate at hrun
  split at hrun
  next first hfailure =>
    obtain ⟨rfl, rfl⟩ := EStateM.Result.ok.inj hrun
    exact Or.inl ⟨first, hfailure, rfl, rfl⟩
  next hfailure =>
    split at hrun
    · simp at hrun
    next t hschedule =>
      split at hrun
      · simp at hrun
      next u hqueue =>
        obtain ⟨hreason, rfl⟩ := EStateM.Result.ok.inj hrun
        exact Or.inr ⟨hfailure, hreason, t, hschedule, hqueue⟩

theorem Sound.propagate (hsound : s.Sound) {reason : Option Inconsistency}
    (hrun : Space.propagate s = .ok reason s') : s.Propagated reason s' := by
  rcases propagate_cases hrun with
    ⟨first, hfailure, rfl, rfl⟩ | ⟨-, hreason, t, hschedule, hqueue⟩
  · exact ⟨hsound, hfailure, .refl s', fun h => by simp at h, fun _ _ h => h⟩
  · obtain ⟨hsound', hstore, -⟩ := hsound.schedule hschedule
    have hquiet : t.store.isQuiet = true := by rw [hstore]; rfl
    obtain ⟨hsound'', hrests, hframe⟩ := hsound'.runQueue hquiet (le_refl _) hqueue
    refine ⟨hsound'', hreason, (Frame.schedule hsound hschedule).trans hframe,
      fun _ => hrests, fun j p hupholds => ?_⟩
    refine Upholds.runQueue ?_ hsound' hquiet hqueue
    exact Upholds.schedule hupholds.toPosted (fun hok =>
      (hupholds.awake hok).imp_right fun h => Or.inl ⟨by simp, h⟩)
      hsound hschedule

/-- In a space at rest a posted propagator whose views are fixed is entailed. -/
theorem Upholds.entailed (hupholds : s.Upholds j p) (hsound : s.Sound)
    (hrests : s.Rests) (hok : s.failure = none) (hfixed : p.AllFixed s.store) :
    p.Entailed s.store := by
  rcases hupholds.awake hok with hgone | hwaits | ⟨_, _, _, _, hpending⟩ | hsettled
  · rcases hupholds.slot hok with ⟨_, hentailed⟩ | ⟨q, hq, _⟩
    · exact hentailed
    · simp [hgone] at hq
  · simp [hrests.queue] at hwaits
  · rw [Store.isQuiet_iff.mp hrests.quiet] at hpending
    simp at hpending
  · exact hsettled.entailed hupholds.fit hsound.store hfixed

end Space

end ConstraintSpace
