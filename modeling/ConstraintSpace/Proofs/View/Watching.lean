import ConstraintSpace.Propagator.Scripted
import ConstraintSpace.Proofs.View.Valuation

/-!
# What a watch hears

A watch of a view asks for events of the variable under it; through a negative
slope the two bounds trade places.  Where nothing that a watch asks for changed
between a store and a refinement of it, the watched part of the view is as it
was: its lower bound, its upper bound, whether it is fixed, or all of it.
-/

namespace ConstraintSpace

theorem EventSet.flip_flip (events : EventSet) : events.flip.flip = events := rfl

namespace IntView

/-- Through a negative slope a watch asks for the opposite bounds. -/
theorem Exact.watch_eq {s : Store} {v : IntView} (hexact : v.Exact s)
    {id : Nat} (hbase : v.base? = some id) (events : EventSet) :
    v.watch events = some (id, if v.slope < 0 then events.flip else events) := by
  induction v generalizing events with
  | var _ =>
      simp only [base?, Option.some.injEq] at hbase
      simp [watch, slope, hbase]
  | const _ => simp [base?] at hbase
  | affine inner scale offset ih =>
      have hinner := hexact.1.slope_ne_zero (v := inner) hbase
      simp only [watch, slope]
      rw [ih hexact.1 hbase]
      rcases lt_or_gt_of_ne hexact.2.1 with hscale | hscale <;>
        rcases lt_or_gt_of_ne hinner with hslope | hslope
      · simp [hscale, hslope, (mul_pos_of_neg_of_neg hscale hslope).not_gt,
          EventSet.flip_flip]
      · simp [hscale, hslope.not_gt, mul_neg_of_neg_of_pos hscale hslope]
      · simp [hscale.not_gt, hslope, mul_neg_of_pos_of_neg hscale hslope]
      · simp [hscale.not_gt, hslope.not_gt, (mul_pos hscale hslope).not_gt]
  | literal image ih => exact ih hexact hbase events

end IntView

/-- Nothing that the watch asks for changed between the two stores. -/
def Watch.Silent (w : Watch) (s s' : Store) : Prop :=
  ∀ v events, w.view.watch w.events = some (v, events) →
    ∀ event, events.contains event = true →
      (s.eventsTo s' v).contains event = false

namespace IntView

variable {s s' : Store} {v : IntView} {localId : Nat}

theorem Fit.silent_events (hfit : v.Fit s) {id : Nat} (hbase : v.base? = some id)
    {events : EventSet} (hsilent : Watch.Silent ⟨.int v, events, localId⟩ s s')
    (event : Event)
    (hevent : (if v.slope < 0 then events.flip else events).contains event = true) :
    ((s.int id).eventsTo (s'.int id)).contains event = false := by
  have hwatch := hfit.exact.watch_eq hbase events
  refine hsilent (.int id) _ ?_ event hevent
  simp only [AnyView.watch, hwatch, Option.map_some]

theorem bounds_of_base?_none (hbase : v.base? = none) : v.bounds s' = v.bounds s := by
  induction v with
  | var _ => simp [base?] at hbase
  | const _ => rfl
  | affine inner scale offset ih => simp only [bounds, ih hbase]
  | literal image ih => exact ih hbase

/-- A lower bound that nobody heard of did not move. -/
theorem Fit.lower_eq_of_silent (hfit : v.Fit s) (hvalid : s.Valid)
    (hvalid' : s'.Valid) (hrefines : s.Refines s')
    (hsilent : Watch.Silent ⟨.int v, .onLowerBound, localId⟩ s s') :
    v.lower s' = v.lower s := by
  cases hbase : v.base? with
  | none => exact congrArg Prod.fst (bounds_of_base?_none hbase)
  | some id =>
      have hheard := hfit.silent_events hbase hsilent
      have hfit' := hfit.refines hrefines
      simp only [lower, hfit.exact.bounds_eq hvalid, hfit'.exact.bounds_eq hvalid',
        domain_of_base? hbase]
      split
      next hslope =>
        have := hheard .upperBound (by simp [hslope]; rfl)
        simp only [IntDomain.eventsTo, EventSet.contains, decide_eq_false_iff_not,
          not_not] at this
        simp only [this]
      next hslope =>
        have := hheard .lowerBound (by simp [hslope]; rfl)
        simp only [IntDomain.eventsTo, EventSet.contains, decide_eq_false_iff_not,
          not_not] at this
        simp only [this]

/-- An upper bound that nobody heard of did not move. -/
theorem Fit.upper_eq_of_silent (hfit : v.Fit s) (hvalid : s.Valid)
    (hvalid' : s'.Valid) (hrefines : s.Refines s')
    (hsilent : Watch.Silent ⟨.int v, .onUpperBound, localId⟩ s s') :
    v.upper s' = v.upper s := by
  cases hbase : v.base? with
  | none => exact congrArg Prod.snd (bounds_of_base?_none hbase)
  | some id =>
      have hheard := hfit.silent_events hbase hsilent
      have hfit' := hfit.refines hrefines
      simp only [upper, hfit.exact.bounds_eq hvalid, hfit'.exact.bounds_eq hvalid',
        domain_of_base? hbase]
      split
      next hslope =>
        have := hheard .lowerBound (by simp [hslope]; rfl)
        simp only [IntDomain.eventsTo, EventSet.contains, decide_eq_false_iff_not,
          not_not] at this
        simp only [this]
      next hslope =>
        have := hheard .upperBound (by simp [hslope]; rfl)
        simp only [IntDomain.eventsTo, EventSet.contains, decide_eq_false_iff_not,
          not_not] at this
        simp only [this]

/-- A view whose assignment nobody heard of is still open. -/
theorem Fit.isFixed_of_silent (hfit : v.Fit s)
    (hsilent : Watch.Silent ⟨.int v, .onAssign, localId⟩ s s')
    (hopen : v.isFixed s = false) : v.isFixed s' = false := by
  cases hbase : v.base? with
  | none => simp [isFixed, hbase] at hopen
  | some id =>
      have hheard := hfit.silent_events hbase hsilent .assign (by split <;> rfl)
      simp only [isFixed, hbase] at hopen ⊢
      simpa [IntDomain.eventsTo, EventSet.contains, hopen] using hheard

end IntView

/-- A set variable that nobody heard of is as it was. -/
theorem Watch.Silent.set_eq {s s' : Store} {id localId : Nat}
    (hsilent : Watch.Silent ⟨.set id, .any, localId⟩ s s') :
    s'.set id = s.set id := by
  have hheard := hsilent (.set id) .any rfl .removal rfl
  simpa [Store.eventsTo, SetDomain.eventsTo, EventSet.contains] using hheard

end ConstraintSpace
