import ConstraintSpace.Proofs.View.Passage

/-!
# Events from the perspective of a view

To watch a view for some events is to ask for events of the variable under it, and an
event of that variable is unpacked to an event of the view.  Asking goes down the levels of
the view and unpacking goes up, and both exchange the bounds at the same levels.  So what is
asked for are exactly the events that are unpacked to a watched one, whatever the view.

Through an exact view the bounds move where an event says so that is unpacked to it: each
bound that the view reads comes from one bound of the variable, and no level hides its
moves.
-/

namespace ConstraintSpace

/-! ## Asking and unpacking -/

namespace IntView

theorem exists_watch {v : IntView} {id : Nat} (hbase : v.base? = some id) (events : EventSet) :
    ∃ asked, v.watch events = some (id, asked) ∧
      ∀ event, ∃ seen, v.unpack event = some seen ∧
        asked.contains event = events.contains seen := by
  induction v generalizing events with
  | var _ =>
      obtain rfl := Option.some.inj hbase
      exact ⟨events, rfl, fun event => ⟨event, rfl, rfl⟩⟩
  | const _ => cases hbase
  | affine inner scale offset ih =>
      by_cases hscale : scale < 0
      · obtain ⟨asked, hwatch, hasked⟩ := ih hbase events.flip
        refine ⟨asked, by simp only [watch, hscale, if_true, hwatch], fun event => ?_⟩
        obtain ⟨seen, hunpack, hsame⟩ := hasked event
        refine ⟨seen.flip, by simp only [unpack, hscale, if_true, hunpack, Option.map_some], ?_⟩
        rw [hsame, EventSet.contains_flip]
      · obtain ⟨asked, hwatch, hasked⟩ := ih hbase events
        exact ⟨asked, by simp only [watch, hscale, if_false, hwatch],
          by simpa only [unpack, hscale, if_false] using hasked⟩
  | literal image ih => exact ih hbase events

theorem watch_eq_none {v : IntView} (hbase : v.base? = none) (events : EventSet) :
    v.watch events = none := by
  induction v generalizing events with
  | var _ => cases hbase
  | const _ => rfl
  | affine inner scale offset ih => exact ih hbase _
  | literal image ih => exact ih hbase events

end IntView

namespace FloatView

theorem watch_eq (v : FloatView) (events : EventSet) :
    (v.watch events).1 = v.base ∧
      ∀ event, (v.watch events).2.contains event = events.contains (v.unpack event) := by
  induction v generalizing events with
  | var id => exact ⟨rfl, fun _ => rfl⟩
  | neg inner ih =>
      obtain ⟨hbase, hasked⟩ := ih events.flip
      exact ⟨hbase, fun event => (hasked event).trans (EventSet.contains_flip _ _)⟩

end FloatView

namespace AnyView

/-- The variable under the view; a constant has none. -/
def target? : AnyView → Option Variable
  | int view => view.target?
  | float view => some (.float view.base)
  | set id => some (.set id)

variable {v : AnyView} {x : Variable} {events : EventSet}

/-- A watch asks its variable for the events that are unpacked to a watched one. -/
theorem exists_watch (htarget : v.target? = some x) (events : EventSet) :
    ∃ asked, v.watch events = some (x, asked) ∧
      ∀ event, ∃ seen, v.unpack event = some seen ∧
        asked.contains event = events.contains seen := by
  cases v with
  | int view =>
      obtain ⟨id, hbase, rfl⟩ := Option.map_eq_some_iff.mp htarget
      obtain ⟨asked, hwatch, hasked⟩ := IntView.exists_watch hbase events
      exact ⟨asked, by simp only [watch, hwatch, Option.map_some], hasked⟩
  | float view =>
      obtain rfl := Option.some.inj htarget
      obtain ⟨hbase, hasked⟩ := view.watch_eq events
      exact ⟨_, by simp only [watch, hbase], fun event => ⟨_, rfl, hasked event⟩⟩
  | set id =>
      obtain rfl := Option.some.inj htarget
      exact ⟨events, rfl, fun event => ⟨event, rfl, rfl⟩⟩

theorem watch_eq_none (htarget : v.target? = none) (events : EventSet) :
    v.watch events = none := by
  cases v with
  | int view =>
      have hbase : view.base? = none := Option.map_eq_none_iff.mp htarget
      simp only [watch, IntView.watch_eq_none hbase, Option.map_none]
  | float _ => cases htarget
  | set _ => cases htarget

theorem asks_iff {event : Event} :
    (∃ asked, v.watch events = some (x, asked) ∧ asked.contains event = true) ↔
      v.target? = some x ∧ ∃ seen, v.unpack event = some seen ∧ events.contains seen = true := by
  constructor
  · rintro ⟨asked, hwatch, hevent⟩
    cases htarget : v.target? with
    | none =>
        rw [watch_eq_none htarget] at hwatch
        cases hwatch
    | some y =>
        obtain ⟨asked', hwatch', hasked⟩ := exists_watch htarget events
        rw [hwatch', Option.some.injEq, Prod.mk.injEq] at hwatch
        obtain ⟨rfl, rfl⟩ := hwatch
        obtain ⟨seen, hunpack, hsame⟩ := hasked event
        exact ⟨rfl, seen, hunpack, hsame ▸ hevent⟩
  · rintro ⟨htarget, seen, hunpack, hevent⟩
    obtain ⟨asked, hwatch, hasked⟩ := exists_watch htarget events
    obtain ⟨seen', hunpack', hsame⟩ := hasked event
    obtain rfl := Option.some.inj (hunpack.symm.trans hunpack')
    exact ⟨asked, hwatch, hsame.trans hevent⟩

end AnyView

/-! ## Bounds of exact views -/

/-- The event of a bound that moved. -/
def Side.event : Side → Event
  | .lower => .lowerBound
  | .upper => .upperBound

namespace IntView

variable {s s' : Store} {v : IntView}

theorem unpack_affine_iff {inner : IntView} {scale offset : Int} {side : Side} {event : Event} :
    (affine inner scale offset).unpack event = some side.event ↔
      inner.unpack event = some (side.through scale).event := by
  by_cases hscale : scale < 0
  · have hflip : ∀ seen : Event, seen.flip = side.event ↔ seen = side.opposite.event := by
      intro seen
      cases seen <;> cases side <;> decide
    simp only [unpack, Side.through, hscale, if_true, Option.map_eq_some_iff, hflip,
      exists_eq_right]
  · simp only [unpack, Side.through, hscale, if_false]

theorem Exact.exists_bound (hexact : v.Exact s) (hvalid : s.Valid) (side : Side) :
    ∃ x ∈ v.domain s, v.valueAt x = v.bound s side := by
  cases side with
  | lower => exact hexact.exists_lower hvalid
  | upper => exact hexact.exists_upper hvalid

/-- Nothing saturates in a bound that an exact view reads. -/
theorem Exact.bound_affine_eq {scale offset : Int} (hexact : (affine v scale offset).Exact s)
    (hvalid : s.Valid) (side : Side) :
    (affine v scale offset).bound s side = scale * v.bound s (side.through scale) + offset := by
  obtain ⟨hinner, -, hscale, hoffset, himage⟩ := hexact
  obtain ⟨x, hx, hbound⟩ := hinner.exists_bound hvalid (side.through scale)
  rw [bound_affine, ← hbound]
  exact image_eq hscale hoffset (hinner.fits32 hvalid hx) (himage x hx)

/-- A bound of an exact view moved where an event happened to the variable that is unpacked
to the event of that bound. -/
theorem Exact.bound_moved_iff (hexact : v.Exact s) (hexact' : v.Exact s') (hvalid : s.Valid)
    (hvalid' : s'.Valid) {id : Nat} (hbase : v.base? = some id) (side : Side) :
    v.bound s' side ≠ v.bound s side ↔
      ∃ event, s.Happened s' (.int id) event ∧ v.unpack event = some side.event := by
  induction v generalizing side with
  | var _ =>
      obtain rfl := Option.some.inj hbase
      simp only [unpack, Option.some.injEq, exists_eq_right]
      cases side <;> rfl
  | const _ => cases hbase
  | affine inner scale offset ih =>
      rw [hexact.bound_affine_eq hvalid, hexact'.bound_affine_eq hvalid', ne_eq, add_left_inj,
        mul_right_inj' hexact.2.1]
      simp only [unpack_affine_iff]
      exact ih hexact.1 hexact'.1 hbase (side.through scale)
  | literal image ih =>
      have hinner := ih hexact hexact' hbase side
      cases side <;> exact hinner

end IntView

end ConstraintSpace
