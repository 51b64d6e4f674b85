import ConstraintSpace.Proofs.View.Restriction

/-!
# Values of views under an assignment

Under an assignment a view has the value that its linear function takes at the
number of its variable.  A view fits a store when its variable was created and
the view is exact there; the narrowings of a view that fits keep exactly the
assignments under which its value satisfies the condition.
-/

namespace ConstraintSpace

namespace IntView

/-- The number that the assignment gives to the variable of the view. -/
def point (a : Assignment) (v : IntView) : Int :=
  match v.base? with
  | some id => a.int id
  | none => 0

/-- The value of the view under the assignment. -/
def value (a : Assignment) (v : IntView) : Int := v.valueAt (v.point a)

/-- The variable of the view was created, and the view is exact. -/
structure Fit (s : Store) (v : IntView) : Prop where
  known : v.known s = true
  exact : v.Exact s

variable {s s' : Store} {v : IntView} {a : Assignment}

theorem Fit.refines (hfit : v.Fit s) (hrefines : s.Refines s') : v.Fit s' :=
  ⟨known_refines hrefines hfit.known, hfit.exact.refines hrefines hfit.known⟩

theorem point_eq_of_base? {u : IntView} (hbase : u.base? = v.base?) :
    u.point a = v.point a := by
  simp only [point, hbase]

theorem point_mem (hknown : v.known s = true) (ha : s.Admits a) :
    v.point a ∈ v.domain s := by
  cases hbase : v.base? with
  | none => simp [point, domain, hbase, IntDomain.mem_interval]
  | some id =>
      have hid := known_of_base? hknown hbase
      simpa [point, domain, hbase] using ha.int id hid

theorem Fit.point_mem (hfit : v.Fit s) (ha : s.Admits a) :
    v.point a ∈ v.domain s :=
  IntView.point_mem hfit.known ha

theorem Fit.lower_le (hfit : v.Fit s) (hvalid : s.Valid) (ha : s.Admits a) :
    v.lower s ≤ v.value a :=
  hfit.exact.lower_le hvalid (hfit.point_mem ha)

theorem Fit.le_upper (hfit : v.Fit s) (hvalid : s.Valid) (ha : s.Admits a) :
    v.value a ≤ v.upper s :=
  hfit.exact.le_upper hvalid (hfit.point_mem ha)

/-- The assignment with another number for the variable of the view. -/
def place (v : IntView) (x : Int) (a : Assignment) : Assignment :=
  match v.base? with
  | some id => a.putInt id x
  | none => a

theorem point_place {x : Int} (hx : x ∈ v.domain s) : v.point (v.place x a) = x := by
  cases hbase : v.base? with
  | none =>
      simp only [domain, hbase, IntDomain.mem_interval] at hx
      simp only [point, hbase]
      omega
  | some id => simp [point, place, hbase, Assignment.int_putInt]

theorem point_place_of_ne {u : IntView} (hne : u.base? ≠ v.base?) (x : Int) :
    u.point (v.place x a) = u.point a := by
  cases hbase : v.base? with
  | none => simp [place, hbase]
  | some id =>
      cases hother : u.base? with
      | none => simp [point, hother]
      | some other =>
          have hdistinct : other ≠ id := fun heq => hne (by rw [hother, hbase, heq])
          simp [point, place, hbase, hother, Assignment.int_putInt, hdistinct]

/-- Placing a number for one view says nothing to a view without a common variable. -/
theorem point_place_of_apart {u : IntView}
    (hapart : ∀ id, u.base? = some id → v.base? ≠ some id) (x : Int) :
    u.point (v.place x a) = u.point a := by
  cases hbase : v.base? with
  | none => simp [place, hbase]
  | some id => exact point_place_of_ne (fun heq => hapart id (heq.trans hbase) hbase) x

theorem admits_place {x : Int} (ha : s.Admits a) (hx : x ∈ v.domain s) :
    s.Admits (v.place x a) := by
  cases hbase : v.base? with
  | none => simpa [place, hbase] using ha
  | some id =>
      rw [domain_of_base? hbase] at hx
      simp only [place, hbase]
      refine ⟨fun other hother => ?_, ha.set⟩
      rw [Assignment.int_putInt]
      split
      next heq => exact heq ▸ hx
      next => exact ha.int other hother

/-- Every value of the variable is the number of the view under some admitted
assignment. -/
theorem exists_admits (hvalid : s.Valid) {x : Int} (hx : x ∈ v.domain s) :
    ∃ a, s.Admits a ∧ v.point a = x := by
  obtain ⟨a, ha⟩ := hvalid.exists_admits
  exact ⟨v.place x a, admits_place ha hx, point_place hx⟩

theorem Fit.exists_lower (hfit : v.Fit s) (hvalid : s.Valid) :
    ∃ a, s.Admits a ∧ v.value a = v.lower s := by
  obtain ⟨x, hx, hvalue⟩ := hfit.exact.exists_lower hvalid
  obtain ⟨a, ha, hpoint⟩ := exists_admits hvalid hx
  exact ⟨a, ha, by rw [value, hpoint, hvalue]⟩

theorem Fit.exists_upper (hfit : v.Fit s) (hvalid : s.Valid) :
    ∃ a, s.Admits a ∧ v.value a = v.upper s := by
  obtain ⟨x, hx, hvalue⟩ := hfit.exact.exists_upper hvalid
  obtain ⟨a, ha, hpoint⟩ := exists_admits hvalid hx
  exact ⟨a, ha, by rw [value, hpoint, hvalue]⟩

/-- A fixed view has one value. -/
theorem Fit.value_of_isFixed (hfit : v.Fit s) (hvalid : s.Valid)
    (hfixed : v.isFixed s = true) (ha : s.Admits a) : v.value a = v.lower s := by
  have hlow := hfit.lower_le hvalid ha
  have hhigh := hfit.le_upper hvalid ha
  rw [← (hfit.exact.isFixed_iff hvalid).mp hfixed] at hhigh
  omega

/-- A view that has one value is fixed. -/
theorem Fit.isFixed_of_value (hfit : v.Fit s) (hvalid : s.Valid) {value : Int}
    (hsame : ∀ a, s.Admits a → v.value a = value) : v.isFixed s = true := by
  obtain ⟨a, ha, hlow⟩ := hfit.exists_lower hvalid
  obtain ⟨b, hb, hhigh⟩ := hfit.exists_upper hvalid
  rw [hfit.exact.isFixed_iff hvalid, ← hlow, ← hhigh, hsame a ha, hsame b hb]

theorem Fit.lower_lt_upper (hfit : v.Fit s) (hvalid : s.Valid)
    (hopen : v.isFixed s = false) : v.lower s < v.upper s := by
  obtain ⟨a, ha, hlow⟩ := hfit.exists_lower hvalid
  have hle := hfit.le_upper hvalid ha
  rw [hlow] at hle
  refine lt_of_le_of_ne hle fun heq => ?_
  simp [(hfit.exact.isFixed_iff hvalid).mpr heq] at hopen

/-- Restricting a view restricts the assignments. -/
theorem Restricts.keepsExactly {m : Narrow Change} {keep : Int → Prop}
    (hrestricts : v.Restricts m keep s) (hsafe : Narrow.Safe m)
    (hvalid : s.Valid) (hknown : v.known s = true) :
    Store.KeepsExactly m (fun a => keep (v.point a)) s := by
  rcases hrestricts with ⟨hrun, hempty⟩ | ⟨change, s', hrun, hsets, hframe, hmem⟩
  · exact Or.inl ⟨hrun, fun a ha => hempty _ (point_mem hknown ha)⟩
  · obtain ⟨hvalid', hnarrows⟩ := hsafe.of_ok hvalid hrun
    have hknown' := known_refines hnarrows.refines hknown
    refine Or.inr ⟨change, s', hrun, fun a => ⟨fun ha => ?_, fun ⟨ha, hkeep⟩ => ?_⟩⟩
    · exact ⟨hnarrows.refines.admits ha, ((hmem _).mp (point_mem hknown' ha)).2⟩
    · refine ⟨fun id hid => ?_, fun id hid => ?_⟩
      · rw [hnarrows.ints_size] at hid
        by_cases hbase : v.base? = some id
        · have hpoint := (hmem _).mpr ⟨point_mem hknown ha, hkeep⟩
          simpa [point, domain, hbase] using hpoint
        · rw [hframe id hbase]
          exact ha.int id hid
      · have hsame : s'.set id = s.set id := by
          simp only [Store.set, hsets]
        rw [hsets] at hid
        rw [hsame]
        exact ha.set id hid

/-! ## Narrowings of a view that fits -/

theorem Fit.setLower_keeps (hfit : v.Fit s) (hvalid : s.Valid) {bound : Int}
    (hbound : Fits32 bound) :
    Store.KeepsExactly (v.setLower bound)
      (fun a => bound ≤ v.value a ∨ v.Lax .lower (v.point a)) s :=
  (hfit.exact.restricts_setBound hvalid hfit.known .lower hbound).keepsExactly
    (safe_setLower v bound) hvalid hfit.known

theorem Fit.setUpper_keeps (hfit : v.Fit s) (hvalid : s.Valid) {bound : Int}
    (hbound : Fits32 bound) :
    Store.KeepsExactly (v.setUpper bound)
      (fun a => v.value a ≤ bound ∨ v.Lax .upper (v.point a)) s :=
  (hfit.exact.restricts_setBound hvalid hfit.known .upper hbound).keepsExactly
    (safe_setUpper v bound) hvalid hfit.known

theorem Fit.remove_keeps (hfit : v.Fit s) (hvalid : s.Valid) (value : Int) :
    Store.KeepsExactly (v.remove value) (fun a => v.value a ≠ value) s :=
  (hfit.exact.restricts_remove hvalid hfit.known value).keepsExactly
    (safe_remove v value) hvalid hfit.known

theorem Fit.fix_keeps (hfit : v.Fit s) (hvalid : s.Valid) (value : Int) :
    Store.KeepsExactly (v.fix value) (fun a => v.value a = value) s :=
  (hfit.exact.restricts_fix hvalid hfit.known value).keepsExactly
    (safe_fix v value) hvalid hfit.known

/-- A lax value is the smallest of the view, or the largest one. -/
theorem Fit.value_le_of_lax (hfit : v.Fit s) (hvalid : s.Valid) {b : Assignment}
    (hlax : v.Lax .upper (v.point a)) (hb : s.Admits b) : v.value a ≤ v.value b :=
  hfit.exact.keeps_of_lax hvalid hlax (hfit.point_mem hb)

theorem Fit.le_value_of_lax (hfit : v.Fit s) (hvalid : s.Valid) {b : Assignment}
    (hlax : v.Lax .lower (v.point a)) (hb : s.Admits b) : v.value b ≤ v.value a :=
  hfit.exact.keeps_of_lax hvalid hlax (hfit.point_mem hb)

end IntView

end ConstraintSpace
