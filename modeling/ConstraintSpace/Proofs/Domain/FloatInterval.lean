import ConstraintSpace.Domain.Float
import Mathlib

/-!
# Narrowing float domains

The bounds of a float domain are numbers in order.  A narrowing keeps them so,
says which bound moved, and either leaves the domain as it is or leaves fewer
doubles between the bounds.
-/

namespace ConstraintSpace

namespace Double

theorem le_iff {x y : Double} :
    x.le y = true ↔ x.isNaN = false ∧ y.isNaN = false ∧ x.ordinal ≤ y.ordinal := by
  simp [le, and_assoc]

theorem lt_iff {x y : Double} :
    x.lt y = true ↔ x.isNaN = false ∧ y.isNaN = false ∧ x.ordinal < y.ordinal := by
  simp [lt, and_assoc]

theorem eqv_iff {x y : Double} :
    x.eqv y = true ↔ x.isNaN = false ∧ y.isNaN = false ∧ x.ordinal = y.ordinal := by
  simp [eqv, and_assoc]

theorem eqv_self {x : Double} (hx : x.isNaN = false) : x.eqv x = true :=
  eqv_iff.mpr ⟨hx, hx, rfl⟩

end Double

namespace FloatDomain

structure Valid (d : FloatDomain) : Prop where
  lower_number : d.lower.isNaN = false
  upper_number : d.upper.isNaN = false
  lower_le_upper : d.lower.ordinal ≤ d.upper.ordinal

/-- The events of the change from one domain to another. -/
def eventsTo (d d' : FloatDomain) : EventSet :=
  { assign := !d.isFixed && d'.isFixed
    lowerBound := !d'.lower.eqv d.lower
    upperBound := !d'.upper.eqv d.upper
    removal := !(d'.lower.eqv d.lower && d'.upper.eqv d.upper) }

theorem Valid.eventsTo_self {d : FloatDomain} (hvalid : d.Valid) :
    d.eventsTo d = .empty := by
  simp [eventsTo, Double.eqv_self hvalid.lower_number,
    Double.eqv_self hvalid.upper_number, EventSet.empty]

/-- The narrowing leaves a valid domain, says what changed, and makes the domain
smaller where it changes it. -/
def Shrinks (op : FloatDomain → Option (FloatDomain × EventSet)) : Prop :=
  ∀ d : FloatDomain, d.Valid → ∀ d' events, op d = some (d', events) →
    d'.Valid ∧ events = d.eventsTo d' ∧ (d' = d ∨ d'.measure < d.measure)

theorem setLower_shrinks {value : Double} (hvalue : value.isNaN = false) :
    Shrinks (setLower value) := by
  intro d hvalid d' events hop
  obtain ⟨hlower, hupper, hle⟩ := hvalid
  unfold setLower at hop
  split at hop
  next =>
    simp only [Option.some.injEq, Prod.mk.injEq] at hop
    obtain ⟨rfl, rfl⟩ := hop
    exact ⟨⟨hlower, hupper, hle⟩,
      (Valid.eventsTo_self ⟨hlower, hupper, hle⟩).symm, Or.inl rfl⟩
  next hgt =>
    split at hop
    · simp at hop
    next hin =>
      have hgt : d.lower.ordinal < value.ordinal := by
        simpa [Double.le_iff, hvalue, hlower] using hgt
      have hin : value.ordinal ≤ d.upper.ordinal := by
        simpa [Double.lt_iff, hvalue, hupper] using hin
      simp only [withAssign, Option.some.injEq, Prod.mk.injEq] at hop
      obtain ⟨rfl, rfl⟩ := hop
      refine ⟨⟨hvalue, hupper, hin⟩, ?_, Or.inr (by simp only [measure]; omega)⟩
      have hmoved : value.eqv d.lower = false := by
        simp [Double.eqv, hvalue, hlower]
        omega
      have hopen : d.lower.eqv d.upper = false := by
        simp [Double.eqv, hlower, hupper]
        omega
      cases hfixed : value.eqv d.upper <;>
        simp [eventsTo, isFixed, hmoved, hopen, hfixed, Double.eqv_self hupper,
          EventSet.empty, EventSet.insert]

theorem setUpper_shrinks {value : Double} (hvalue : value.isNaN = false) :
    Shrinks (setUpper value) := by
  intro d hvalid d' events hop
  obtain ⟨hlower, hupper, hle⟩ := hvalid
  unfold setUpper at hop
  split at hop
  next =>
    simp only [Option.some.injEq, Prod.mk.injEq] at hop
    obtain ⟨rfl, rfl⟩ := hop
    exact ⟨⟨hlower, hupper, hle⟩,
      (Valid.eventsTo_self ⟨hlower, hupper, hle⟩).symm, Or.inl rfl⟩
  next hlt =>
    split at hop
    · simp at hop
    next hin =>
      have hlt : value.ordinal < d.upper.ordinal := by
        simpa [Double.le_iff, hvalue, hupper] using hlt
      have hin : d.lower.ordinal ≤ value.ordinal := by
        simpa [Double.lt_iff, hvalue, hlower] using hin
      simp only [withAssign, Option.some.injEq, Prod.mk.injEq] at hop
      obtain ⟨rfl, rfl⟩ := hop
      refine ⟨⟨hlower, hvalue, hin⟩, ?_, Or.inr (by simp only [measure]; omega)⟩
      have hmoved : value.eqv d.upper = false := by
        simp [Double.eqv, hvalue, hupper]
        omega
      have hopen : d.lower.eqv d.upper = false := by
        simp [Double.eqv, hlower, hupper]
        omega
      cases hfixed : d.lower.eqv value <;>
        simp [eventsTo, isFixed, hmoved, hopen, hfixed, Double.eqv_self hlower,
          EventSet.empty, EventSet.insert]

theorem fix_shrinks (value : Double) : Shrinks (fix value) := by
  intro d hvalid d' events hop
  obtain ⟨hlower, hupper, hle⟩ := hvalid
  unfold fix at hop
  split at hop
  next => simp at hop
  next hin =>
    have hin : d.lower.le value = true ∧ value.le d.upper = true := by
      simpa using hin
    obtain ⟨⟨_, hvalue, hge⟩, _, _, hle'⟩ :=
      And.intro (Double.le_iff.mp hin.1) (Double.le_iff.mp hin.2)
    split at hop
    next =>
      simp only [Option.some.injEq, Prod.mk.injEq] at hop
      obtain ⟨rfl, rfl⟩ := hop
      exact ⟨⟨hlower, hupper, hle⟩,
        (Valid.eventsTo_self ⟨hlower, hupper, hle⟩).symm, Or.inl rfl⟩
    next hopen =>
      have hopen : d.lower.ordinal ≠ d.upper.ordinal := by
        simpa [isFixed, Double.eqv_iff, hlower, hupper] using hopen
      simp only [Option.some.injEq, Prod.mk.injEq] at hop
      obtain ⟨rfl, rfl⟩ := hop
      refine ⟨⟨hvalue, hvalue, le_refl _⟩, ?_,
        Or.inr (by simp only [measure]; omega)⟩
      have hopen' : d.lower.eqv d.upper = false := by
        simp [Double.eqv, hlower, hupper, hopen]
      have hmoved : (value.eqv d.lower && value.eqv d.upper) = false := by
        simp [Double.eqv, hvalue, hlower, hupper]
        omega
      simp [eventsTo, isFixed, hopen', hmoved, Double.eqv_self hvalue]

end FloatDomain

end ConstraintSpace
