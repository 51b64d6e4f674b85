import ConstraintSpace.Propagator
import ConstraintSpace.Proofs.View.Watching

/-!
# One pass of a comparison

A pass of the propagator for `a ≠ b` waits until one view is fixed and then
decides.  A pass of the propagator for `a ≤ b` moves one bound of each view.
Both keep every assignment that satisfies the relation.

A bound does not see lax values, so what the pass for `a ≤ b` accepts is the
relation or the case that both views are lax.  Where the two views share their
variable, the second bound can remove what the first one was computed from; a
staircase of three values is exactly what this takes.
-/

namespace ConstraintSpace

/-! ## Not equal -/

namespace NotEqual

variable {a b : IntView} {s : Store}

theorem propagate_eq (a b : IntView) (s : Store) :
    propagate a b s =
      (if a.upper s < b.lower s ∨ b.upper s < a.lower s then pure .subsumed
      else if a.lower s = a.upper s then
        b.remove (a.lower s) >>= fun _ => pure .subsumed
      else if b.lower s = b.upper s then
        a.remove (b.lower s) >>= fun _ => pure .subsumed
      else pure .fix : Narrow Status) s := rfl

/-- A pass fails, decides the relation, or leaves both views open. -/
theorem propagate_cases (ha : a.Fit s) (hb : b.Fit s) (hvalid : s.Valid) :
    (propagate a b s = .error .emptied s ∧
        ∀ v, s.Admits v → a.value v = b.value v) ∨
      (∃ s', propagate a b s = .ok .subsumed s' ∧
        ∀ v, s'.Admits v ↔ s.Admits v ∧ a.value v ≠ b.value v) ∨
      (propagate a b s = .ok .fix s ∧
        a.isFixed s = false ∧ b.isFixed s = false) := by
  by_cases hapart : a.upper s < b.lower s ∨ b.upper s < a.lower s
  · have hrun : propagate a b s = .ok .subsumed s := by
      rw [propagate_eq, if_pos hapart]
      rfl
    refine Or.inr (Or.inl ⟨s, hrun, fun v => ⟨fun hv => ⟨hv, ?_⟩, And.left⟩⟩)
    have := ha.lower_le hvalid hv
    have := ha.le_upper hvalid hv
    have := hb.lower_le hvalid hv
    have := hb.le_upper hvalid hv
    omega
  by_cases hfixed : a.lower s = a.upper s
  · have hvalue := fun v hv => ha.value_of_isFixed hvalid
      ((ha.exact.isFixed_iff hvalid).mpr hfixed) (a := v) hv
    have hstep : propagate a b s =
        (b.remove (a.lower s) >>= fun _ => pure Status.subsumed) s := by
      rw [propagate_eq, if_neg hapart, if_pos hfixed]
    rcases hb.remove_keeps hvalid (a.lower s) with ⟨hrun, hempty⟩ | ⟨x, s', hrun, hmem⟩
    · refine Or.inl ⟨hstep.trans (Narrow.bind_of_error hrun), fun v hv => ?_⟩
      rw [hvalue v hv]
      exact (not_not.mp (hempty v hv)).symm
    · refine Or.inr (Or.inl ⟨s', hstep.trans (Narrow.bind_of_ok hrun), fun v => ?_⟩)
      rw [hmem v]
      exact and_congr_right fun hv => by rw [hvalue v hv]; exact ne_comm
  by_cases hfixed' : b.lower s = b.upper s
  · have hvalue := fun v hv => hb.value_of_isFixed hvalid
      ((hb.exact.isFixed_iff hvalid).mpr hfixed') (a := v) hv
    have hstep : propagate a b s =
        (a.remove (b.lower s) >>= fun _ => pure Status.subsumed) s := by
      rw [propagate_eq, if_neg hapart, if_neg hfixed, if_pos hfixed']
    rcases ha.remove_keeps hvalid (b.lower s) with ⟨hrun, hempty⟩ | ⟨x, s', hrun, hmem⟩
    · refine Or.inl ⟨hstep.trans (Narrow.bind_of_error hrun), fun v hv => ?_⟩
      rw [hvalue v hv]
      exact not_not.mp (hempty v hv)
    · refine Or.inr (Or.inl ⟨s', hstep.trans (Narrow.bind_of_ok hrun), fun v => ?_⟩)
      rw [hmem v]
      exact and_congr_right fun hv => by rw [hvalue v hv]
  · have hrun : propagate a b s = .ok .fix s := by
      rw [propagate_eq, if_neg hapart, if_neg hfixed, if_neg hfixed']
      rfl
    refine Or.inr (Or.inr ⟨hrun, ?_, ?_⟩)
    · rw [Bool.eq_false_iff, Ne, ha.exact.isFixed_iff hvalid]
      exact hfixed
    · rw [Bool.eq_false_iff, Ne, hb.exact.isFixed_iff hvalid]
      exact hfixed'

theorem safe_propagate (a b : IntView) : Narrow.Safe (propagate a b) := by
  refine Narrow.safe_get.bind fun s => ?_
  simp only
  split
  · exact Narrow.safe_pure _
  split
  · exact (IntView.safe_remove b _).bind fun _ => Narrow.safe_pure _
  split
  · exact (IntView.safe_remove a _).bind fun _ => Narrow.safe_pure _
  · exact Narrow.safe_pure _

end NotEqual

/-! ## Less or equal -/

namespace LessOrEqual

variable {a b : IntView} {s s' : Store} {v : Assignment}

/-- What the pass accepts: the relation, or two lax views. -/
def Accepts (a b : IntView) (v : Assignment) : Prop :=
  a.value v ≤ b.value v ∨
    (a.Lax .upper (a.point v) ∧ b.Lax .lower (b.point v))

/-- The relation is accepted wherever both watched bounds are reached. -/
def Settled (a b : IntView) (s : Store) : Prop :=
  ∀ v, s.Admits v → a.value v = a.lower s → b.value v = b.upper s → Accepts a b v

/-- Three values of one variable that step up through both views. -/
def Staircase (a b : IntView) (s : Store) : Prop :=
  a.base? = b.base? ∧
    ∃ x ∈ a.domain s, ∃ y ∈ a.domain s, ∃ z ∈ a.domain s,
      b.valueAt x < a.valueAt x ∧ a.valueAt x ≤ b.valueAt y ∧
        b.valueAt y < a.valueAt y ∧ a.valueAt y ≤ b.valueAt z ∧
          b.valueAt z < a.valueAt z

/-- The first bound keeps what is accepted. -/
theorem Accepts.below_top (hb : b.Fit s) (hvalid : s.Valid) (hv : s.Admits v)
    (haccepts : Accepts a b v) :
    a.value v ≤ b.upper s ∨ a.Lax .upper (a.point v) :=
  haccepts.imp (fun hle => hle.trans (hb.le_upper hvalid hv)) And.left

/-- The second bound keeps what is accepted. -/
theorem Accepts.above_bottom (ha : a.Fit s) (hvalid : s.Valid) (hv : s.Admits v)
    (haccepts : Accepts a b v) :
    a.lower s ≤ b.value v ∨ b.Lax .lower (b.point v) :=
  haccepts.imp (fun hle => (ha.lower_le hvalid hv).trans hle) And.right

/-- What both bounds kept is accepted, or lies between the values that the two
bounds were computed from. -/
theorem between_of_not_accepts (ha : a.Fit s) (hb : b.Fit s) (hvalid : s.Valid)
    {p q r : Assignment} (hp : s.Admits p) (hr : s.Admits r)
    (htop : a.value q ≤ b.value r ∨ a.Lax .upper (a.point q))
    (hbottom : a.value p ≤ b.value q ∨ b.Lax .lower (b.point q))
    (hnot : ¬Accepts a b q) : a.value q ≤ b.value r ∧ a.value p ≤ b.value q := by
  unfold Accepts at hnot
  rw [not_or, not_le, not_and_or] at hnot
  obtain ⟨hgt, hlax⟩ := hnot
  -- a lax value is the last on its side, so it cannot exceed its own bound
  have hfirst : a.value q ≤ b.value r := by
    refine htop.resolve_right fun hlaxA => ?_
    have hle := ha.value_le_of_lax hvalid hlaxA hp
    have := hbottom.resolve_right (hlax.resolve_left (not_not.mpr hlaxA))
    omega
  refine ⟨hfirst, hbottom.resolve_right fun hlaxB => ?_⟩
  have := hb.le_value_of_lax hvalid hlaxB hr
  omega

theorem propagate_eq (a b : IntView) (s : Store) :
    propagate a b s =
      (a.setUpper (b.upper s) >>= fun _ => get >>= fun s₁ =>
        b.setLower (a.lower s₁) >>= fun _ => get >>= fun s₂ =>
          pure (if a.upper s₂ ≤ b.lower s₂ then .subsumed else .fix) :
        Narrow Status) s := rfl

/-- The first view got the upper bound of the second one. -/
structure Capped (a b : IntView) (s s₁ : Store) : Prop where
  valid : s₁.Valid
  refines : s.Refines s₁
  admits : ∀ v, s₁.Admits v ↔ s.Admits v ∧
    (a.value v ≤ b.upper s ∨ a.Lax .upper (a.point v))

/-- The second view got the lower bound of the first one. -/
structure Raised (a b : IntView) (s₁ s₂ : Store) : Prop where
  valid : s₂.Valid
  refines : s₁.Refines s₂
  admits : ∀ v, s₂.Admits v ↔ s₁.Admits v ∧
    (a.lower s₁ ≤ b.value v ∨ b.Lax .lower (b.point v))

/-- A pass puts one bound after the other in place, or is refused at one of them. -/
theorem propagate_steps (ha : a.Fit s) (hb : b.Fit s) (hvalid : s.Valid) :
    (propagate a b s = .error .emptied s ∧
        ∀ v, s.Admits v → ¬(a.value v ≤ b.upper s ∨ a.Lax .upper (a.point v))) ∨
      ∃ s₁, Capped a b s s₁ ∧
        ((propagate a b s = .error .emptied s₁ ∧
            ∀ v, s₁.Admits v → ¬(a.lower s₁ ≤ b.value v ∨ b.Lax .lower (b.point v))) ∨
          ∃ s₂, Raised a b s₁ s₂ ∧
            propagate a b s =
              .ok (if a.upper s₂ ≤ b.lower s₂ then .subsumed else .fix) s₂) := by
  rcases ha.setUpper_keeps hvalid (hb.exact.fits32_upper hvalid) with
    ⟨hrun, hempty⟩ | ⟨_, s₁, hrun, hfirst⟩
  · exact Or.inl ⟨(propagate_eq a b s).trans (Narrow.bind_of_error hrun), hempty⟩
  obtain ⟨hvalid₁, hnarrows⟩ := (IntView.safe_setUpper a _).of_ok hvalid hrun
  have ha₁ := ha.refines hnarrows.refines
  have hb₁ := hb.refines hnarrows.refines
  refine Or.inr ⟨s₁, ⟨hvalid₁, hnarrows.refines, hfirst⟩, ?_⟩
  rcases hb₁.setLower_keeps hvalid₁ (ha₁.exact.fits32_lower hvalid₁) with
    ⟨hrun', hempty⟩ | ⟨_, s₂, hrun', hsecond⟩
  · refine Or.inl ⟨?_, hempty⟩
    rw [propagate_eq, Narrow.bind_of_ok hrun]
    exact (Narrow.bind_of_ok rfl).trans (Narrow.bind_of_error hrun')
  obtain ⟨hvalid₂, hnarrows'⟩ := (IntView.safe_setLower b _).of_ok hvalid₁ hrun'
  refine Or.inr ⟨s₂, ⟨hvalid₂, hnarrows'.refines, hsecond⟩, ?_⟩
  rw [propagate_eq, Narrow.bind_of_ok hrun]
  exact Narrow.bind_of_ok hrun'

/-- Where no staircase stands, two bounds in a row settle the relation. -/
theorem settled_of_bounds {s₁ s₂ : Store} (ha : a.Fit s) (hb : b.Fit s)
    (hvalid : s.Valid) (hcapped : Capped a b s s₁) (hraised : Raised a b s₁ s₂)
    (hflat : ¬Staircase a b s) : Settled a b s₂ := by
  intro q hq hlow hhigh
  by_contra hnot
  have hrefines := hcapped.refines.trans hraised.refines
  have ha₁ := ha.refines hcapped.refines
  -- the two bounds were computed from `r` and `p`
  obtain ⟨r, hr, hrtop⟩ := hb.exists_upper hvalid
  obtain ⟨p, hp, hpbottom⟩ := ha₁.exists_lower hcapped.valid
  obtain ⟨hq₁, hbottom⟩ := (hraised.admits q).mp hq
  obtain ⟨hq₀, htop⟩ := (hcapped.admits q).mp hq₁
  have hp₀ := ((hcapped.admits p).mp hp).1
  have hgt : b.value q < a.value q := not_le.mp fun hle => hnot (Or.inl hle)
  obtain ⟨hqr, hpq⟩ := between_of_not_accepts ha hb hvalid hp₀ hr
    (hrtop ▸ htop) (hpbottom ▸ hbottom) hnot
  have hrout : ¬s₂.Admits r := fun hr₂ => by
    have := (hb.refines hrefines).le_upper hraised.valid hr₂
    omega
  have hpout : ¬s₂.Admits p := fun hp₂ => by
    have := (ha.refines hrefines).lower_le hraised.valid hp₂
    omega
  by_cases hbase : a.base? = b.base?
  · refine hflat ⟨hbase, a.point p, ha.point_mem hp₀, a.point q, ha.point_mem hq₀,
      a.point r, ha.point_mem hr, ?_⟩
    have hvalue : ∀ v, b.valueAt (a.point v) = b.value v := fun v => by
      rw [IntView.value, IntView.point_eq_of_base? hbase]
    simp only [hvalue]
    have hpstep : b.value p < a.value p := by
      rw [hpbottom, ← not_le]
      exact fun hle => hpout ((hraised.admits p).mpr ⟨hp, Or.inl hle⟩)
    have hrstep : b.value r < a.value r := by
      by_contra hle
      have hr₁ := (hcapped.admits r).mpr ⟨hr, Or.inl (hrtop ▸ not_lt.mp hle)⟩
      refine hrout ((hraised.admits r).mpr ⟨hr₁, Or.inl ?_⟩)
      omega
    exact ⟨hpstep, hpq, hgt, hqr, hrstep⟩
  · -- the views move on their own, so `q` may take the top of `b` from `r`
    have hplace := IntView.admits_place hq₀ (hb.point_mem hr)
    have hsameA : a.point (b.place (b.point r) q) = a.point q :=
      IntView.point_place_of_ne hbase _
    have hsameB : b.point (b.place (b.point r) q) = b.point r :=
      IntView.point_place (hb.point_mem hr)
    have hplace₁ : s₁.Admits (b.place (b.point r) q) := by
      refine (hcapped.admits _).mpr ⟨hplace, ?_⟩
      rw [IntView.value, hsameA]
      exact htop
    have hvalueB : b.value (b.place (b.point r) q) = b.value r := by
      rw [IntView.value, hsameB]
      rfl
    have hplace₂ : s₂.Admits (b.place (b.point r) q) := by
      refine (hraised.admits _).mpr ⟨hplace₁, Or.inl ?_⟩
      omega
    have := (hb.refines hrefines).le_upper hraised.valid hplace₂
    omega

/-- A pass fails where nothing is accepted; otherwise it keeps what is accepted
and settles the relation, for good where it is subsumed. -/
theorem propagate_cases (ha : a.Fit s) (hb : b.Fit s) (hvalid : s.Valid) :
    (∃ s', propagate a b s = .error .emptied s' ∧
        ∀ v, s.Admits v → ¬Accepts a b v) ∨
      ∃ s', (∀ v, s.Admits v → Accepts a b v → s'.Admits v) ∧
        ((propagate a b s = .ok .subsumed s' ∧
            ∀ v, s'.Admits v → a.value v ≤ b.value v) ∨
          (propagate a b s = .ok .fix s' ∧
            (¬Staircase a b s → Settled a b s'))) := by
  rcases propagate_steps ha hb hvalid with ⟨hrun, hempty⟩ | ⟨s₁, hcapped, hsecond⟩
  · exact Or.inl ⟨s, hrun, fun v hv haccepts => hempty v hv (haccepts.below_top hb hvalid hv)⟩
  have hkept₁ : ∀ v, s.Admits v → Accepts a b v → s₁.Admits v := fun v hv haccepts =>
    (hcapped.admits v).mpr ⟨hv, haccepts.below_top hb hvalid hv⟩
  have habove : ∀ v, s₁.Admits v → Accepts a b v →
      a.lower s₁ ≤ b.value v ∨ b.Lax .lower (b.point v) := fun v hv haccepts =>
    haccepts.above_bottom (ha.refines hcapped.refines) hcapped.valid hv
  rcases hsecond with ⟨hrun, hempty⟩ | ⟨s₂, hraised, hrun⟩
  · refine Or.inl ⟨s₁, hrun, fun v hv haccepts => ?_⟩
    have hv₁ := hkept₁ v hv haccepts
    exact hempty v hv₁ (habove v hv₁ haccepts)
  refine Or.inr ⟨s₂, fun v hv haccepts => ?_, ?_⟩
  · have hv₁ := hkept₁ v hv haccepts
    exact (hraised.admits v).mpr ⟨hv₁, habove v hv₁ haccepts⟩
  have hrefines := hcapped.refines.trans hraised.refines
  by_cases hentailed : a.upper s₂ ≤ b.lower s₂
  · refine Or.inl ⟨by rw [hrun, if_pos hentailed], fun v hv => ?_⟩
    exact ((ha.refines hrefines).le_upper hraised.valid hv).trans
      (hentailed.trans ((hb.refines hrefines).lower_le hraised.valid hv))
  · exact Or.inr ⟨by rw [hrun, if_neg hentailed],
      settled_of_bounds ha hb hvalid hcapped hraised⟩

/-- A violation that lies between two bounds, or is lax, gets past the pass. -/
theorem propagate_misses (ha : a.Fit s) (hb : b.Fit s) (hvalid : s.Valid)
    (hv : s.Admits v) (hgt : b.value v < a.value v)
    (htop : a.value v ≤ b.upper s ∨ a.Lax .upper (a.point v))
    (hbottom : (∃ w, s.Admits w ∧ a.value w ≤ b.upper s ∧ a.value w ≤ b.value v) ∨
      b.Lax .lower (b.point v)) :
    ∃ s', propagate a b s = .ok .fix s' ∧ s'.Valid ∧ s.Refines s' ∧
      ∀ w, s'.Admits w → s.Admits w ∧
        (a.value w ≤ b.upper s ∨ a.Lax .upper (a.point w)) ∧
          (a.lower s ≤ b.value w ∨ b.Lax .lower (b.point w)) := by
  rcases propagate_steps ha hb hvalid with ⟨-, hempty⟩ | ⟨s₁, hcapped, hsecond⟩
  · exact absurd htop (hempty v hv)
  have ha₁ := ha.refines hcapped.refines
  have hv₁ := (hcapped.admits v).mpr ⟨hv, htop⟩
  have hbottom₁ : a.lower s₁ ≤ b.value v ∨ b.Lax .lower (b.point v) :=
    hbottom.imp_left fun ⟨w, hw, htopw, hle⟩ =>
      (ha₁.lower_le hcapped.valid ((hcapped.admits w).mpr ⟨hw, Or.inl htopw⟩)).trans hle
  rcases hsecond with ⟨-, hempty⟩ | ⟨s₂, hraised, hrun⟩
  · exact absurd hbottom₁ (hempty v hv₁)
  have hrefines := hcapped.refines.trans hraised.refines
  have hv₂ := (hraised.admits v).mpr ⟨hv₁, hbottom₁⟩
  have hmissed : ¬a.upper s₂ ≤ b.lower s₂ := by
    have := (ha.refines hrefines).le_upper hraised.valid hv₂
    have := (hb.refines hrefines).lower_le hraised.valid hv₂
    omega
  refine ⟨s₂, by rw [hrun, if_neg hmissed], hraised.valid, hrefines, fun w hw => ?_⟩
  obtain ⟨hw₁, hlow⟩ := (hraised.admits w).mp hw
  obtain ⟨hw₀, htopw⟩ := (hcapped.admits w).mp hw₁
  refine ⟨hw₀, htopw, hlow.imp_left fun hle => le_trans ?_ hle⟩
  obtain ⟨u, hu, hlower⟩ := ha₁.exists_lower hcapped.valid
  rw [← hlower]
  exact ha.lower_le hvalid ((hcapped.admits u).mp hu).1

theorem safe_propagate (a b : IntView) : Narrow.Safe (propagate a b) :=
  Narrow.safe_get.bind fun _ => (IntView.safe_setUpper a _).bind fun _ =>
    Narrow.safe_get.bind fun _ => (IntView.safe_setLower b _).bind fun _ =>
      Narrow.safe_get.bind fun _ => Narrow.safe_pure _

end LessOrEqual

namespace FloatLessOrEqual

theorem safe_propagate (a b : FloatView) : Narrow.Safe (propagate a b) :=
  Narrow.safe_get.bind fun _ => (FloatView.safe_setUpper a _).bind fun _ =>
    Narrow.safe_get.bind fun _ => (FloatView.safe_setLower b _).bind fun _ =>
      Narrow.safe_get.bind fun _ => Narrow.safe_pure _

end FloatLessOrEqual

end ConstraintSpace
