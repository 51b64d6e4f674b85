import ConstraintSpace.Space.Copy
import ConstraintSpace.Proofs.Space.Fixpoint
import ConstraintSpace.Proofs.Store.Growth

/-!
# What can happen to a space

Whatever operation a caller asks for, a space changes in a few ways only: its
propagators are touched where nothing depends on it, it gets a variable, it is
narrowed and passes the events on, a waiting propagator takes its turn, a
propagator is registered, or it fails.  Each such effect carries what is to be
remembered of it: which propagator ran, how the run ended, and which events the
narrowings raised.  Effects in a row keep a space in order.
-/

namespace ConstraintSpace

namespace Propagator

variable {p q : Propagator}

/-- The propagator apart from what its runs change. -/
def guise : Propagator → Propagator
  | subset a b _ => subset a b ⟨0, 0⟩
  | scripted p =>
    scripted { p with
      script := fun _ _ => { narrowings := [], verdict := .ended .fix }, runs := 0, shared := [] }
  | p => p

@[simp] theorem watches_guise (p : Propagator) : p.guise.watches = p.watches := by
  cases p <;> rfl

theorem watches_eq_of_guise (hguise : q.guise = p.guise) : q.watches = p.watches := by
  rw [← q.watches_guise, hguise, p.watches_guise]

theorem guise_run (p : Propagator) (s : Store) : (p.run s).propagator.guise = p.guise := by
  cases p with
  | notEqual a b => exact congrArg guise (propagator_stateless _ s)
  | lessOrEqual a b => exact congrArg guise (propagator_stateless _ s)
  | floatLessOrEqual a b => exact congrArg guise (propagator_stateless _ s)
  | subset a b counts =>
      simp only [run]
      split
      · split <;> rfl
      · rfl
  | scripted script => rfl

theorem guise_onCopy (p : Propagator) (context : CopyContext) :
    (p.onCopy context).1.guise = p.guise := by
  cases p <;> rfl

/-- A propagator that fits is told by its guise but for its counts. -/
theorem Fit.core_eq_of_guise {s : Store} (hfit : p.Fit s) (hguise : q.guise = p.guise) :
    q.core = p.core := by
  cases p with
  | scripted script => exact hfit.elim
  | floatLessOrEqual a b => exact hfit.elim
  | _ => cases q <;> simp_all [guise, core]

end Propagator

namespace Space

variable {s s' t u : Space} {id : Nat} {p : Propagator}

/-! ## Kin -/

/-- The variables that the slot of a number is subscribed to. -/
def subscribed? (s : Space) (id : Nat) : Option (List Variable) :=
  s.slots[id]?.map Slot.subscribed

theorem subscribed?_setPropagator (s : Space) (id : Nat) (q : Propagator) (j : Nat) :
    (s.setPropagator id q).subscribed? j = s.subscribed? j := by
  simp only [subscribed?, Space.setPropagator, Array.getElem?_modify]
  split
  · rw [Option.map_map]
    rfl
  · rfl

/-- The spaces agree on the store, the queue, the watches, the subscriptions and the
failure, and their propagators have the same guises. -/
structure Kin (s s' : Space) : Prop where
  store : s'.store = s.store
  queue : s'.queue = s.queue
  watches : s'.watches = s.watches
  failure : s'.failure = s.failure
  size_slots : s'.slots.size = s.slots.size
  subscribed? : ∀ j, s'.subscribed? j = s.subscribed? j
  guise : ∀ j, (s'.propagator? j).map Propagator.guise =
    (s.propagator? j).map Propagator.guise

theorem Kin.of_slots (hstore : s'.store = s.store) (hqueue : s'.queue = s.queue)
    (hwatches : s'.watches = s.watches) (hfailure : s'.failure = s.failure)
    (hslots : s'.slots = s.slots) : s.Kin s' :=
  ⟨hstore, hqueue, hwatches, hfailure, by rw [hslots],
    fun j => by simp only [Space.subscribed?, hslots],
    fun j => by simp only [propagator?, hslots]⟩

theorem Kin.refl (s : Space) : s.Kin s := .of_slots rfl rfl rfl rfl rfl

theorem Kin.trans (hfirst : s.Kin s') (hsecond : s'.Kin t) : s.Kin t where
  store := hsecond.store.trans hfirst.store
  queue := hsecond.queue.trans hfirst.queue
  watches := hsecond.watches.trans hfirst.watches
  failure := hsecond.failure.trans hfirst.failure
  size_slots := hsecond.size_slots.trans hfirst.size_slots
  subscribed? := fun j => (hsecond.subscribed? j).trans (hfirst.subscribed? j)
  guise := fun j => (hsecond.guise j).trans (hfirst.guise j)

/-- Another propagator of the same guise in a slot. -/
theorem Kin.setPropagator {q : Propagator} (hp : s.propagator? id = some p)
    (hguise : q.guise = p.guise) : s.Kin (s.setPropagator id q) := by
  refine ⟨rfl, rfl, rfl, rfl, by simp [Space.setPropagator],
    subscribed?_setPropagator s id q, fun j => ?_⟩
  rw [propagator?_setPropagator (lt_size_of_propagator? hp)]
  split
  next heq => rw [heq, hp, Option.map_some, Option.map_some, hguise]
  next => rfl

theorem Kin.sound (hkin : s.Kin s') (hsound : s.Sound) : s'.Sound where
  store := hkin.store ▸ hsound.store
  queue := hkin.queue ▸ hsound.queue
  waiting := fun id hid => by
    rw [hkin.size_slots]
    exact hsound.waiting id (hkin.queue ▸ hid)

theorem Kin.eq_none_of_eq_none (hkin : s.Kin s') (hgone : s.propagator? id = none) :
    s'.propagator? id = none := by
  have hguise := hkin.guise id
  rwa [hgone, Option.map_none, Option.map_eq_none_iff] at hguise

theorem Kin.exists_guise (hkin : s.Kin s') (hp : s.propagator? id = some p) :
    ∃ q, s'.propagator? id = some q ∧ q.guise = p.guise := by
  have hguise := hkin.guise id
  rwa [hp, Option.map_some, Option.map_eq_some_iff] at hguise

/-! ## Registration -/

/-- The space with a propagator in a new slot, where it waits. -/
def register (p : Propagator) (s : Space) : Space :=
  let wishes := subscriptions s.slots.size p.watches
  { s with
    watches := wishes.foldl WatchList.subscribe s.watches
    slots := s.slots.push
      { propagator := some p, subscribed := (wishes.map (·.target)).eraseDups }
    noticed := if p.notices then s.noticed ++ [.propagator s.slots.size] else s.noticed
    queue := s.queue.enqueue s.slots.size p.priority }

theorem propagator?_register (p : Propagator) (s : Space) (j : Nat) :
    (s.register p).propagator? j =
      if j = s.slots.size then some p else s.propagator? j := by
  simp only [propagator?, register, Array.getElem?_push]
  by_cases heq : j = s.slots.size <;> simp [heq]

theorem Sound.register (hsound : s.Sound) (p : Propagator) : (s.register p).Sound := by
  obtain ⟨hvalid, hmem⟩ := hsound.queue.enqueue s.slots.size p.priority
  refine ⟨hsound.store, hvalid, fun id hid => ?_⟩
  simp only [Space.register, Array.size_push]
  rcases (hmem id).mp hid with rfl | hold
  · exact Nat.lt_succ_self _
  · exact (hsound.waiting id hold).trans (Nat.lt_succ_self _)

/-! ## Effects -/

/-- What is remembered of an effect: a narrowing of the store or a run of a
propagator, with the events that were raised. -/
inductive Entry where
  | narrowed (raised : Array (Event × Variable))
  | ran (id : Nat) (verdict : Verdict) (raised : Array (Event × Variable))

def Entry.raised : Entry → Array (Event × Variable)
  | narrowed raised => raised
  | ran _ _ raised => raised

/-- What is remembered of the turn of a propagator. -/
def turnLog (id : Nat) (s : Space) : List Entry :=
  match s.propagator? id with
  | none => []
  | some p => [.ran id (p.run s.store).verdict (p.run s.store).store.pending]

/-- One change of a space and what is remembered of it. -/
inductive Effect (s : Space) : List Entry → Space → Prop where
  | touch {s' : Space} (hkin : s.Kin s') : Effect s [] s'
  | grow {store : Store} (hgrows : s.store.Grows store) : Effect s [] { s with store }
  | drain {s' : Space} (hok : s.failure = none) (hrun : schedule none s = .ok () s') :
      Effect s [] s'
  | narrow {store : Store} {s' : Space} (counts : SpaceCounts) (hok : s.failure = none)
      (hvalid : store.Valid) (hnarrows : s.store.Narrows store)
      (hrun : schedule none { s with store, counts } = .ok () s') :
      Effect s [.narrowed store.pending] s'
  | fail {store : Store} (counts : SpaceCounts) (log : List Entry) (reason : Inconsistency)
      (hvalid : store.Valid) (hnarrows : s.store.Narrows store)
      (hlog : ∀ entry ∈ log, ∃ raised, entry = .narrowed raised) :
      Effect s log ({ s with store, counts }.failWith reason)
  | turn {s' : Space} {id : Nat} {q : Queue} (hquiet : s.store.isQuiet = true)
      (hpop : s.queue.pop? = some (id, q))
      (hrun : runOne id { s with queue := q } = .ok () s') :
      Effect s (turnLog id s) s'
  | register (hok : s.failure = none) (p : Propagator) : Effect s [] (s.register p)
  | discard {reason : Inconsistency} (hfailure : s.failure = some reason) :
      Effect s [] { new with store := s.store, failure := some reason }

/-- Effects one after the other, and what is remembered of all of them. -/
inductive Unfolds (s : Space) : List Entry → Space → Prop where
  | refl : Unfolds s [] s
  | tail {log entries : List Entry} {t u : Space} (hunfolds : Unfolds s log t)
      (heffect : t.Effect entries u) : Unfolds s (log ++ entries) u

theorem Effect.unfolds {log : List Entry} (heffect : s.Effect log s') : s.Unfolds log s' := by
  simpa using Unfolds.refl.tail heffect

theorem Unfolds.trans {log log' : List Entry} (hfirst : s.Unfolds log t)
    (hsecond : t.Unfolds log' u) : s.Unfolds (log ++ log') u := by
  induction hsecond with
  | refl => simpa using hfirst
  | tail hunfolds heffect ih =>
      rw [← List.append_assoc]
      exact ih.tail heffect

theorem Effect.sound {log : List Entry} (heffect : s.Effect log s') (hsound : s.Sound) :
    s'.Sound := by
  cases heffect with
  | touch hkin => exact hkin.sound hsound
  | grow hgrows => exact ⟨hgrows.valid hsound.store, hsound.queue, hsound.waiting⟩
  | drain hok hrun => exact (hsound.schedule hrun).1
  | narrow counts hok hvalid hnarrows hrun =>
      have hnarrowed : Sound { s with store := _, counts } :=
        ⟨hvalid, hsound.queue, hsound.waiting⟩
      exact (hnarrowed.schedule hrun).1
  | fail counts log reason hvalid hnarrows =>
      have hnarrowed : Sound { s with store := _, counts } :=
        ⟨hvalid, hsound.queue, hsound.waiting⟩
      exact hnarrowed.failWith reason
  | turn hquiet hpop hrun => exact ((hsound.popped hpop).runOne hquiet hrun).sound
  | register hok p => exact hsound.register p
  | discard hfailure =>
      refine ⟨hsound.store, Queue.valid_empty, ?_⟩
      simp [new, Queue.ids, Queue.empty]

theorem Unfolds.sound {log : List Entry} (hunfolds : s.Unfolds log s') (hsound : s.Sound) :
    s'.Sound := by
  induction hunfolds with
  | refl => exact hsound
  | tail _ heffect ih => exact heffect.sound ih

end Space

end ConstraintSpace
