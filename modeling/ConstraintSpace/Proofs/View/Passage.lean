import ConstraintSpace.Proofs.View.Reporting
import ConstraintSpace.Proofs.View.Restriction

/-!
# How bounds and values pass through a view

A view of any depth, whatever its coefficients, reads the number that saturating
arithmetic makes of the value of its variable, and passes a bound or a value down to
its variable level by level.  This module describes both without asking that nothing
saturates: which values of the variable a bound lets stand, and which one value is
named by a value of the view.
-/

namespace ConstraintSpace

theorem fits64_clamp64 (x : Int) : Fits64 (clamp64 x) := by
  unfold clamp64 Fits64 lowest64 highest64
  repeat' split
  all_goals omega

theorem clamp64_eq (x : Int) : clamp64 x = max lowest64 (min x highest64) := by
  unfold clamp64 lowest64 highest64
  repeat' split
  all_goals omega

theorem clamp32_eq (x : Int) : clamp32 x = max lowest32 (min x highest32) := by
  unfold clamp32 lowest32 highest32
  repeat' split
  all_goals omega

theorem clamp64_ne_zero {x : Int} (hx : x ≠ 0) : clamp64 x ≠ 0 := by
  unfold clamp64 lowest64 highest64
  repeat' split
  all_goals omega

theorem clamp64_mono {x y : Int} (hle : x ≤ y) : clamp64 x ≤ clamp64 y := by
  unfold clamp64 lowest64 highest64
  repeat' split
  all_goals omega

theorem fits32_image (scale offset x : Int) : Fits32 (IntView.image scale offset x) :=
  fits32_clamp32 _

namespace IntView

variable {s : Store} {v : IntView} {m : Narrow Change} {keep keep' : Int → Prop}

/-! ## Reading -/

/-- The number that the view reads where its variable has the value `x`. -/
def reading : IntView → Int → Int
  | var _, x => x
  | const value, _ => value
  | affine inner scale offset, x => image scale offset (inner.reading x)
  | literal image, x => image.reading x

def bound (s : Store) (v : IntView) : Side → Int
  | .lower => v.lower s
  | .upper => v.upper s

theorem bound_var_mem (hvalid : s.Valid) (id : Nat) (side : Side) :
    (var id).bound s side ∈ s.int id := by
  cases side with
  | lower => exact (hvalid.int id).lower_mem
  | upper => exact (hvalid.int id).upper_mem

theorem bound_affine (s : Store) (inner : IntView) (scale offset : Int) (side : Side) :
    (affine inner scale offset).bound s side =
      image scale offset (inner.bound s (side.through scale)) := by
  by_cases hscale : scale < 0 <;>
    cases side <;>
      simp only [bound, lower, upper, bounds, Side.through, hscale, if_true, if_false,
        Side.opposite]

theorem image_mono {side : Side} {scale x y : Int} (offset : Int)
    (hkeeps : (side.through scale).Keeps x y) :
    side.Keeps (image scale offset x) (image scale offset y) := by
  have hmono : ∀ p q : Int, p ≤ q →
      clamp32 (clamp64 (clamp64 p + offset)) ≤ clamp32 (clamp64 (clamp64 q + offset)) :=
    fun p q hle =>
      clamp32_mono (clamp64_mono (Int.add_le_add_right (clamp64_mono hle) offset))
  by_cases hscale : scale < 0
  · simp only [Side.through, hscale, if_true] at hkeeps
    cases side with
    | lower => exact hmono _ _ (mul_le_mul_of_nonpos_left hkeeps hscale.le)
    | upper => exact hmono _ _ (mul_le_mul_of_nonpos_left hkeeps hscale.le)
  · simp only [Side.through, hscale, if_false] at hkeeps
    cases side with
    | lower => exact hmono _ _ (mul_le_mul_of_nonneg_left hkeeps (not_lt.mp hscale))
    | upper => exact hmono _ _ (mul_le_mul_of_nonneg_left hkeeps (not_lt.mp hscale))

theorem keeps_bound_reading {x : Int} (hx : x ∈ v.domain s) (side : Side) :
    side.Keeps (v.bound s side) (v.reading x) := by
  induction v generalizing side with
  | var id =>
      cases side with
      | lower => exact IntDomain.lower_le_of_mem hx
      | upper => exact IntDomain.le_upper_of_mem hx
  | const value => cases side <;> exact le_refl value
  | affine inner scale offset ih =>
      rw [bound_affine]
      exact image_mono offset (ih hx (side.through scale))
  | literal image ih =>
      have hinner := ih hx side
      cases side <;> exact hinner

theorem between_of_reading {x : Int} (hx : x ∈ v.domain s) :
    v.lower s ≤ v.reading x ∧ v.reading x ≤ v.upper s :=
  ⟨keeps_bound_reading hx .lower, keeps_bound_reading hx .upper⟩

theorem exists_reading_of_mem_values (hvalid : s.Valid) {y : Int} (hy : y ∈ v.values s) :
    ∃ x ∈ v.domain s, v.reading x = y := by
  induction v generalizing y with
  | var id => exact ⟨y, (hvalid.int id).mem_values.mp hy, rfl⟩
  | const value =>
      obtain rfl : y = value := List.mem_singleton.mp hy
      exact ⟨0, IntDomain.mem_interval.mpr ⟨le_refl _, le_refl _⟩, rfl⟩
  | affine inner scale offset ih =>
      obtain ⟨z, hz, rfl⟩ := List.mem_map.mp hy
      obtain ⟨x, hx, rfl⟩ := ih hz
      exact ⟨x, hx, rfl⟩
  | literal image ih => exact ih hy

theorem length_values (hvalid : s.Valid) (v : IntView) : (v.values s).length = v.size s := by
  induction v with
  | var id => exact (hvalid.int id).length_values
  | const value => rfl
  | affine inner scale offset ih => rw [values, List.length_map, ih]; rfl
  | literal image ih => exact ih

theorem size_pos (hvalid : s.Valid) (v : IntView) : 0 < v.size s := by
  rw [size_eq]
  exact (domain_valid hvalid v).size_pos

/-! ## Passing down -/

/-- The value at the bottom of the view: that of its variable, or the constant. -/
def bottom : IntView → Int → Int
  | var _, x => x
  | const value, _ => value
  | affine inner _ _, x => inner.bottom x
  | literal image, x => image.bottom x

/-- The bound that arrives at the bottom lets the value stand. -/
def Lets : IntView → Side → Int → Int → Prop
  | var _, side, bound, x => side.Keeps bound x
  | const value, side, bound, _ => side.Keeps bound value
  | affine inner scale offset, side, bound, x =>
      ∃ y, preimage (side.through scale) scale offset bound = some y ∧
        inner.Lets (side.through scale) y x
  | literal image, side, bound, x => image.Lets side bound x

theorem setBound_affine (inner : IntView) (scale offset : Int) (side : Side) (bound : Int) :
    (affine inner scale offset).setBound side bound =
      match preimage (side.through scale) scale offset bound with
      | some y => inner.setBound (side.through scale) y
      | none => throw (.breached .overflow) := rfl

theorem restricts_setBound_var (hvalid : s.Valid) {id : Nat} (hid : id < s.ints.size)
    (side : Side) (bound : Int) :
    (var id).Restricts ((var id).setBound side bound) (side.Keeps bound) s := by
  have hop : IntDomain.Restricts (IntDomain.setBound side bound) (side.Keeps bound) := by
    cases side with
    | lower => exact IntDomain.setLower_restricts bound
    | upper => exact IntDomain.setUpper_restricts bound
  exact restricts_var hop hvalid hid

/-- A bound that gets through keeps what it lets stand at the bottom. -/
theorem restricts_setBound_or_breached (hvalid : s.Valid) (hknown : v.known s = true)
    (side : Side) (bound : Int) :
    v.setBound side bound s = .error (.breached .overflow) s ∨
      v.Restricts (v.setBound side bound) (v.Lets side bound) s := by
  induction v generalizing side bound with
  | var id =>
      right
      exact restricts_setBound_var hvalid (known_var.mp hknown) side bound
  | const n =>
      right
      cases side with
      | lower =>
          simp only [setBound]
          split
          next hlt => exact restricts_const_throw fun _ hkeep => not_le.mpr hlt hkeep
          next hge => exact restricts_const_pure _ fun _ => not_lt.mp hge
      | upper =>
          simp only [setBound]
          split
          next hlt => exact restricts_const_throw fun _ hkeep => not_le.mpr hlt hkeep
          next hge => exact restricts_const_pure _ fun _ => not_lt.mp hge
  | affine inner scale offset ih =>
      rw [setBound_affine]
      cases hpreimage : preimage (side.through scale) scale offset bound with
      | none =>
          -- the one division that leaves the 64-bit integers
          left
          rfl
      | some y =>
          have hstep : ∀ x, inner.Lets (side.through scale) y x ↔
              (affine inner scale offset).Lets side bound x := by
            intro x
            simp only [Lets, hpreimage, Option.some.injEq, exists_eq_left']
          rcases ih hknown (side.through scale) y with hbreach | hrestricts
          · exact Or.inl hbreach
          · exact Or.inr (hrestricts.affine fun x _ => hstep x)
  | literal image ih => exact ih hknown side bound

theorem restricts_remove_source (hvalid : s.Valid) (hknown : v.known s = true) (value : Int) :
    v.Restricts (v.remove value) (fun x => v.source? value ≠ some (v.bottom x)) s := by
  induction v generalizing value with
  | var id =>
      have hremove := restricts_var (IntDomain.remove_restricts value) hvalid
        (known_var.mp hknown)
      exact hremove.congr fun x _ => by simp only [source?, bottom, ne_eq, Option.some.injEq,
        eq_comm]
  | const n =>
      simp only [remove, source?, bottom, ne_eq, Option.some.injEq]
      split
      next heq => exact restricts_const_throw fun _ hne => hne heq
      next hne => exact restricts_const_pure _ fun _ => hne
  | affine inner scale offset ih =>
      simp only [remove, source?, bottom]
      cases preimage? scale offset value with
      | none => exact Or.inr ⟨_, s, rfl, rfl, fun _ _ => rfl, fun x => by simp⟩
      | some y => exact (ih hknown y).affine fun _ _ => Iff.rfl
  | literal image ih => exact ih hknown value

theorem restricts_fix_source (hvalid : s.Valid) (hknown : v.known s = true) (value : Int) :
    v.Restricts (v.fix value) (fun x => v.source? value = some (v.bottom x)) s := by
  induction v generalizing value with
  | var id =>
      have hfix := restricts_var (IntDomain.fix_restricts value) hvalid (known_var.mp hknown)
      exact hfix.congr fun x _ => by simp only [source?, bottom, Option.some.injEq, eq_comm]
  | const n =>
      simp only [fix, source?, bottom, Option.some.injEq]
      split
      next heq => exact restricts_const_pure _ fun _ => heq
      next hne => exact restricts_const_throw fun _ => hne
  | affine inner scale offset ih =>
      simp only [fix, source?, bottom]
      cases preimage? scale offset value with
      | none => exact Or.inl ⟨rfl, fun x _ => by simp⟩
      | some y => exact (ih hknown y).affine fun _ _ => Iff.rfl
  | literal image ih => exact ih hknown value

theorem contains_iff_source {value : Int} :
    v.contains s value = true ↔ ∃ x ∈ v.domain s, v.source? value = some (v.bottom x) := by
  induction v generalizing value with
  | var id => simp [contains, source?, bottom, IntDomain.mem_iff_contains]
  | const n =>
      have hzero : (0 : Int) ∈ (const n).domain s :=
        IntDomain.mem_interval.mpr ⟨le_refl _, le_refl _⟩
      simp only [contains, source?, bottom, decide_eq_true_eq, Option.some.injEq]
      constructor
      · intro heq
        exact ⟨0, hzero, heq⟩
      · rintro ⟨-, -, heq⟩
        exact heq
  | affine inner scale offset ih =>
      simp only [contains, source?, bottom, domain_affine]
      cases preimage? scale offset value with
      | none => simp
      | some y => exact ih
  | literal image ih => exact ih

/-! ## Two descriptions of one narrowing -/

theorem Restricts.mem_of_ok {s' : Store} {change : Change} (hrestricts : v.Restricts m keep s)
    (hrun : m s = .ok change s') (x : Int) :
    x ∈ v.domain s' ↔ x ∈ v.domain s ∧ keep x := by
  rcases hrestricts with ⟨hrefused, -⟩ | ⟨_, t, hok, -, -, hmem⟩
  · simp [hrun] at hrefused
  · rw [hrun, EStateM.Result.ok.injEq] at hok
    obtain ⟨-, rfl⟩ := hok
    exact hmem x

/-- What a narrowing keeps is determined by the narrowing. -/
theorem Restricts.keep_iff (hrestricts : v.Restricts m keep s)
    (hrestricts' : v.Restricts m keep' s) {x : Int} (hx : x ∈ v.domain s) :
    keep x ↔ keep' x := by
  rcases hrestricts with ⟨hrun, hempty⟩ | ⟨change, t, hrun, -, -, hmem⟩
  · rcases hrestricts' with ⟨-, hempty'⟩ | ⟨change', t', hrun', -⟩
    · exact iff_of_false (hempty x hx) (hempty' x hx)
    · simp [hrun] at hrun'
  · have hboth := (hmem x).symm.trans (hrestricts'.mem_of_ok hrun x)
    exact ⟨fun hkeep => (hboth.mp ⟨hx, hkeep⟩).2, fun hkeep => (hboth.mpr ⟨hx, hkeep⟩).2⟩

/-- A narrowing does nothing at all where it keeps every value of the domain. -/
theorem Restricts.idle_iff (hrestricts : v.Restricts m keep s)
    (hsingle : Narrow.Single v.target? m) (hvalid : s.Valid) :
    m s = .ok .none s ↔ ∀ x ∈ v.domain s, keep x := by
  constructor
  · intro hidle x hx
    exact ((hrestricts.mem_of_ok hidle x).mp hx).2
  intro hall
  rcases hrestricts with ⟨-, hempty⟩ | ⟨change, t, hrun, -, -, hmem⟩
  · have hlower := (domain_valid hvalid v).lower_mem
    exact absurd (hall _ hlower) (hempty _ hlower)
  have hmove := hsingle s hvalid
  rw [hrun] at hmove ⊢
  generalize htarget : v.target? = w at hmove
  cases hmove with
  | idle => rfl
  | @int id d hid hd hsubset =>
      have hbase : v.base? = some id := by
        simpa [target?] using htarget
      have hsame : d = s.int id := by
        refine hd.eq_of_mem_iff (hvalid.int id) fun x => ?_
        have hx := hmem x
        rw [domain_of_base? hbase, domain_of_base? hbase, Store.int_changeInt hid,
          if_pos rfl] at hx
        refine hx.trans ⟨And.left, fun hin => ⟨hin, hall x ?_⟩⟩
        rwa [domain_of_base? hbase]
      rw [hsame, Store.changeInt_self, IntDomain.eventsTo_self]
      rfl
  | float hid hd hsmaller => simp [target?] at htarget
  | set hid hd hshrinks => simp [target?] at htarget

end IntView

end ConstraintSpace
