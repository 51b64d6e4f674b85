import ConstraintSpace.Proofs.Domain.FloatInterval
import ConstraintSpace.Proofs.Domain.IntegerNarrowing
import ConstraintSpace.Proofs.Domain.Creation
import ConstraintSpace.Proofs.Domain.SetNarrowing
import ConstraintSpace.Store

/-!
# Narrowing a store

One store narrows to another when no domain gained a value, every change of a
domain is pending as an event, nothing pending was forgotten, and a store that
changed at all is smaller.  The relation is reflexive and transitive, and every
narrowing of one variable follows it, also one that is refused.
-/

namespace ConstraintSpace

theorem EventSet.mem_toList {events : EventSet} {event : Event} :
    event ∈ events.toList ↔ events.contains event = true := by
  cases event <;> simp [toList, Event.all]

@[simp] theorem EventSet.not_contains_empty (event : Event) :
    EventSet.empty.contains event = false := by
  cases event <;> rfl

@[simp] theorem EventSet.toList_empty : EventSet.empty.toList = [] := by
  decide

/-! ## Events of two changes in a row -/

theorem IntDomain.eventsTo_trans {d d' d'' : IntDomain} {event : Event}
    (hevent : (d.eventsTo d'').contains event = true) :
    (d.eventsTo d').contains event = true ∨
      (d'.eventsTo d'').contains event = true := by
  cases event <;>
    simp only [IntDomain.eventsTo, EventSet.contains, Bool.and_eq_true,
      Bool.not_eq_true', decide_eq_true_eq] at hevent ⊢ <;>
    grind

theorem SetDomain.eventsTo_trans {d d' d'' : SetDomain} {event : Event}
    (hevent : (d.eventsTo d'').contains event = true) :
    (d.eventsTo d').contains event = true ∨
      (d'.eventsTo d'').contains event = true := by
  cases event <;>
    simp only [SetDomain.eventsTo, EventSet.contains, Bool.and_eq_true,
      Bool.not_eq_true', decide_eq_true_eq] at hevent ⊢ <;>
    grind

theorem FloatDomain.eventsTo_trans {d d' d'' : FloatDomain} {event : Event}
    (hevent : (d.eventsTo d'').contains event = true) :
    (d.eventsTo d').contains event = true ∨
      (d'.eventsTo d'').contains event = true := by
  have htrans : ∀ x y z : Double, y.eqv x = true → z.eqv y = true →
      z.eqv x = true := by
    intro x y z hyx hzy
    rw [Double.eqv_iff] at *
    exact ⟨hzy.1, hyx.2.1, hzy.2.2.trans hyx.2.2⟩
  have hlower := htrans d.lower d'.lower d''.lower
  have hupper := htrans d.upper d'.upper d''.upper
  cases event <;>
    simp only [FloatDomain.eventsTo, EventSet.contains, Bool.and_eq_true,
      Bool.not_eq_true'] at hevent ⊢ <;>
    grind

namespace Store

/-- Every domain is valid, and integer variables lie within their limits. -/
structure Valid (s : Store) : Prop where
  int : ∀ id, (s.int id).Valid
  limits : ∀ id, (s.int id).InLimits
  float : ∀ id, (s.float id).Valid
  set : ∀ id, (s.set id).Valid

/-! ## Pending events -/

theorem mem_raise {v : Variable} {pending : Array (Event × Variable)}
    {event : Event} {p : Event × Variable} :
    p ∈ raise v pending event ↔ p ∈ pending ∨ p = (event, v) := by
  unfold raise
  split
  next hin =>
    have hmem : (event, v) ∈ pending := by simpa using hin
    constructor
    · exact Or.inl
    · rintro (hp | rfl)
      · exact hp
      · exact hmem
  next => simp

theorem mem_foldl_raise {v : Variable} {events : List Event}
    {pending : Array (Event × Variable)} {p : Event × Variable} :
    p ∈ events.foldl (raise v) pending ↔
      p ∈ pending ∨ (p.1 ∈ events ∧ p.2 = v) := by
  induction events generalizing pending with
  | nil => simp
  | cons event rest ih =>
      rw [List.foldl_cons, ih, mem_raise, List.mem_cons]
      obtain ⟨event', v'⟩ := p
      simp only [Prod.mk.injEq]
      tauto

theorem mem_pending_record {s : Store} {v : Variable} {events : EventSet}
    {p : Event × Variable} :
    p ∈ (s.record v events).pending ↔
      p ∈ s.pending ∨ (events.contains p.1 = true ∧ p.2 = v) := by
  unfold record
  rw [mem_foldl_raise, EventSet.mem_toList]

@[simp] theorem record_empty (s : Store) (v : Variable) :
    s.record v .empty = s := by
  simp [record]

@[simp] theorem ints_record (s : Store) (v : Variable) (events : EventSet) :
    (s.record v events).ints = s.ints := rfl

@[simp] theorem floats_record (s : Store) (v : Variable) (events : EventSet) :
    (s.record v events).floats = s.floats := rfl

@[simp] theorem sets_record (s : Store) (v : Variable) (events : EventSet) :
    (s.record v events).sets = s.sets := rfl

@[simp] theorem int_record (s : Store) (v : Variable) (events : EventSet)
    (id : Nat) : (s.record v events).int id = s.int id := rfl

@[simp] theorem float_record (s : Store) (v : Variable) (events : EventSet)
    (id : Nat) : (s.record v events).float id = s.float id := rfl

@[simp] theorem set_record (s : Store) (v : Variable) (events : EventSet)
    (id : Nat) : (s.record v events).set id = s.set id := rfl

@[simp] theorem measure_record (s : Store) (v : Variable) (events : EventSet) :
    (s.record v events).measure = s.measure := rfl

/-! ## The measure -/

theorem foldl_add_eq_sum {α : Type} (f : α → Nat) (xs : Array α) :
    xs.foldl (fun n x => n + f x) 0 = (xs.toList.map f).sum := by
  have hshift : ∀ (ys : List α) (n : Nat),
      ys.foldl (fun n x => n + f x) n = n + (ys.map f).sum := by
    intro ys
    induction ys with
    | nil => simp
    | cons y rest ih =>
        intro n
        rw [List.foldl_cons, ih, List.map_cons, List.sum_cons]
        omega
  rw [← Array.foldl_toList, hshift, Nat.zero_add]

/-- Replacing an element by a smaller one makes the sum smaller. -/
theorem foldl_setIfInBounds_lt {α : Type} (f : α → Nat) {xs : Array α}
    {id : Nat} {x y : α} (hx : xs[id]? = some x) (hlt : f y < f x) :
    (xs.setIfInBounds id y).foldl (fun n x => n + f x) 0 <
      xs.foldl (fun n x => n + f x) 0 := by
  rw [foldl_add_eq_sum, foldl_add_eq_sum, Array.toList_setIfInBounds]
  rw [← Array.getElem?_toList] at hx
  generalize xs.toList = l at hx
  induction l generalizing id with
  | nil => simp at hx
  | cons head rest ih =>
      cases id with
      | zero =>
          simp only [List.getElem?_cons_zero, Option.some.injEq] at hx
          subst hx
          simpa using hlt
      | succ id =>
          simp only [List.getElem?_cons_succ] at hx
          simpa using ih hx

/-! ## The relation -/

structure Narrows (s s' : Store) : Prop where
  ints_size : s'.ints.size = s.ints.size
  floats_size : s'.floats.size = s.floats.size
  sets_size : s'.sets.size = s.sets.size
  int_subset : ∀ id x, x ∈ s'.int id → x ∈ s.int id
  set_shrinks : ∀ id, (s.set id).Shrinks (s'.set id)
  pending_mono : ∀ p ∈ s.pending, p ∈ s'.pending
  int_events : ∀ id event,
    ((s.int id).eventsTo (s'.int id)).contains event = true →
      (event, .int id) ∈ s'.pending
  float_events : ∀ id event,
    ((s.float id).eventsTo (s'.float id)).contains event = true →
      (event, .float id) ∈ s'.pending
  set_events : ∀ id event,
    ((s.set id).eventsTo (s'.set id)).contains event = true →
      (event, .set id) ∈ s'.pending
  progress : s' = s ∨ s'.measure < s.measure

theorem Narrows.refl {s : Store} (hvalid : s.Valid) : s.Narrows s where
  ints_size := rfl
  floats_size := rfl
  sets_size := rfl
  int_subset := fun _ _ hx => hx
  set_shrinks := fun _ => SetDomain.Shrinks.refl _
  pending_mono := fun _ hp => hp
  int_events := by simp
  float_events := by simp [(hvalid.float _).eventsTo_self]
  set_events := by simp
  progress := Or.inl rfl

theorem Narrows.trans {s s' s'' : Store}
    (hfirst : s.Narrows s') (hsecond : s'.Narrows s'') : s.Narrows s'' where
  ints_size := hsecond.ints_size.trans hfirst.ints_size
  floats_size := hsecond.floats_size.trans hfirst.floats_size
  sets_size := hsecond.sets_size.trans hfirst.sets_size
  int_subset := fun id x hx => hfirst.int_subset id x (hsecond.int_subset id x hx)
  set_shrinks := fun id => (hfirst.set_shrinks id).trans (hsecond.set_shrinks id)
  pending_mono := fun p hp => hsecond.pending_mono p (hfirst.pending_mono p hp)
  int_events := fun id event hevent =>
    (IntDomain.eventsTo_trans hevent).elim
      (fun h => hsecond.pending_mono _ (hfirst.int_events id event h))
      (hsecond.int_events id event)
  float_events := fun id event hevent =>
    (FloatDomain.eventsTo_trans hevent).elim
      (fun h => hsecond.pending_mono _ (hfirst.float_events id event h))
      (hsecond.float_events id event)
  set_events := fun id event hevent =>
    (SetDomain.eventsTo_trans hevent).elim
      (fun h => hsecond.pending_mono _ (hfirst.set_events id event h))
      (hsecond.set_events id event)
  progress := by
    rcases hsecond.progress with rfl | hlt
    · exact hfirst.progress
    · rcases hfirst.progress with rfl | hlt'
      · exact Or.inr hlt
      · exact Or.inr (hlt.trans hlt')

end Store

end ConstraintSpace
