import ConstraintSpace.Proofs.View.Machine

/-!
# Where view arithmetic overflows

A view is built by a chain of steps with 32-bit parameters, over which its scale and its
offset saturate.  Two steps of what is done with it can overflow.  The text of a view
negates an offset that is the least 64-bit integer, which three steps can reach.  A bound is
divided by -1 where the shift by the offset brought it to the least 64-bit integer; with a
scale of 1 or -1 each step moves the offset by at most `2 ^ 31`, so this takes a chain of
about `2 ^ 32` steps.  Nothing else that is done with a view can overflow.
-/

namespace ConstraintSpace

/-- The narrowing stops at an overflow. -/
def Narrow.Overflows (m : Narrow Change) (s : Store) : Prop :=
  ∃ s', m s = .error (.breached .overflow) s'

namespace IntView

variable {s : Store} {v w : IntView} {side : Side} {scale offset bound : Int}

/-! ## The steps that overflow -/

/-- On its way down the bound is divided by -1 after a shift to the least 64-bit integer. -/
def Leaves64 : IntView → Side → Int → Prop
  | var _, _, _ => False
  | const _, _, _ => False
  | affine inner scale offset, side, bound =>
      (scale = -1 ∧ bound - offset ≤ lowest64) ∨
        ∃ y, preimage (side.through scale) scale offset bound = some y ∧
          inner.Leaves64 (side.through scale) y
  | literal image, side, bound => image.Leaves64 side bound

/-- Some level has the least 64-bit integer as its offset. -/
def HasLeastOffset : IntView → Prop
  | var _ => False
  | const _ => False
  | affine inner _ offset => offset = lowest64 ∨ inner.HasLeastOffset
  | literal image => image.HasLeastOffset

theorem preimage_eq_none_iff (side : Side) :
    preimage side scale offset bound = none ↔ scale = -1 ∧ bound - offset ≤ lowest64 := by
  have hleast : clamp64 (bound - offset) = lowest64 ↔ bound - offset ≤ lowest64 := by
    rw [clamp64_eq]
    unfold lowest64 highest64
    omega
  unfold preimage
  simp only [hleast]
  split
  next hlowest => exact iff_of_true rfl hlowest
  next hinner => exact iff_of_false (by cases side <;> simp) hinner

theorem Restricts.not_overflows {m : Narrow Change} {keep : Int → Prop}
    (hrestricts : v.Restricts m keep s) : ¬Narrow.Overflows m s := by
  rintro ⟨s', hrun⟩
  rcases hrestricts with ⟨hemptied, -⟩ | ⟨change, t, hok, -⟩
  · simp [hrun] at hemptied
  · simp [hrun] at hok

theorem setBound_overflows_iff (hvalid : s.Valid) (hknown : v.known s = true) (side : Side)
    (bound : Int) : Narrow.Overflows (v.setBound side bound) s ↔ v.Leaves64 side bound := by
  induction v generalizing side bound with
  | var id =>
      have hrestricts := restricts_setBound_var hvalid (known_var.mp hknown) side bound
      exact iff_of_false hrestricts.not_overflows not_false
  | const n =>
      refine iff_of_false ?_ not_false
      rintro ⟨s', hrun⟩
      cases side <;> simp only [setBound] at hrun <;> split at hrun <;> cases hrun
  | affine inner scale offset ih =>
      rw [setBound_affine, Leaves64, ← preimage_eq_none_iff (side.through scale)]
      cases hpreimage : preimage (side.through scale) scale offset bound with
      | none => exact iff_of_true ⟨s, rfl⟩ (Or.inl rfl)
      | some y =>
          simp only [reduceCtorEq, false_or, Option.some.injEq, exists_eq_left']
          exact ih hknown (side.through scale) y
  | literal image ih => exact ih hknown side bound

theorem text?_eq_none_iff : v.text? = none ↔ v.HasLeastOffset := by
  induction v with
  | var id => simp [text?, HasLeastOffset]
  | const value => simp [text?, HasLeastOffset]
  | affine inner scale offset ih =>
      rw [HasLeastOffset, ← ih]
      cases hinner : inner.text? with
      | none => simp [text?, hinner]
      | some body => by_cases hlowest : offset = lowest64 <;> simp [text?, hinner, hlowest]
  | literal image ih =>
      rw [HasLeastOffset, ← ih]
      cases hinner : image.text? <;> simp [text?, hinner]

/-! ## Chains of building steps -/

/-- What a chain starts from. -/
inductive Start where
  | var (id : Nat)
  | const (value : Int)
  | truth (id : Nat)
deriving DecidableEq, Repr

/-- A step of building a view. -/
inductive Step where
  | nested (scale offset : Int)
  | identity
  | adjusted (adjustment : Adjustment)
  | negated
deriving DecidableEq, Repr

def Start.view : Start → IntView
  | var id => .var id
  | const value => .const value
  | truth id => .truth id

def Start.Fits : Start → Prop
  | const value => Fits32 value
  | _ => True

namespace Step

def apply : Step → IntView → Except SpaceError IntView
  | nested scale offset, v => v.nest scale offset
  | identity, v => .ok v.identity
  | adjusted adjustment, v => adjustment.apply v
  | negated, v => .ok v.negation

/-- The parameters are 32-bit integers. -/
def Fits : Step → Prop
  | nested scale offset => Fits32 scale ∧ Fits32 offset
  | adjusted (.scaled factor) => Fits32 factor
  | adjusted (.plus shift) => Fits32 shift
  | _ => True

end Step

structure Chain where
  start : Start
  steps : List Step
deriving DecidableEq, Repr

namespace Chain

def build (chain : Chain) : Except SpaceError IntView :=
  chain.steps.foldlM (fun v step => step.apply v) chain.start.view

def Fits (chain : Chain) : Prop := chain.start.Fits ∧ ∀ step ∈ chain.steps, step.Fits

end Chain

theorem fits64_of_fits32 {x : Int} (hx : Fits32 x) : Fits64 x := by
  unfold Fits32 lowest32 highest32 at hx
  unfold Fits64 lowest64 highest64
  omega

theorem Formed.step {step : Step} (hformed : v.Formed) (hfits : step.Fits)
    (happly : step.apply v = .ok w) : w.Formed := by
  cases step with
  | nested scale offset => exact hformed.nest (fits64_of_fits32 hfits.2) happly
  | identity =>
      obtain rfl := Except.ok.inj happly
      exact ⟨hformed, by decide, by decide⟩
  | adjusted adjustment =>
      cases adjustment with
      | scaled factor => exact hformed.scaled happly
      | plus shift =>
          obtain rfl := Except.ok.inj happly
          exact hformed.plus (fits64_of_fits32 hfits)
  | negated =>
      obtain rfl := Except.ok.inj happly
      unfold negation
      split
      · exact ⟨hformed.1, clamp64_ne_zero (neg_ne_zero.mpr hformed.2.1), fits64_clamp64 _⟩
      · exact hformed

/-! ## How far an offset gets -/

/-- Where a scale is 1 or -1, the offset is within `n` times `2 ^ 31`. -/
def Near (n : Nat) : IntView → Prop
  | var _ => True
  | const _ => True
  | affine inner scale offset =>
      inner.Near n ∧ (scale.natAbs = 1 → offset.natAbs ≤ n * 2147483648)
  | literal image => image.Near n

variable {n : Nat}

theorem Near.succ (hnear : v.Near n) : v.Near (n + 1) := by
  induction v with
  | var id => trivial
  | const value => trivial
  | affine inner scale offset ih =>
      refine ⟨ih hnear.1, fun hscale => (hnear.2 hscale).trans ?_⟩
      omega
  | literal image ih => exact ih hnear

theorem natAbs_clamp64_le (x : Int) : (clamp64 x).natAbs ≤ x.natAbs := by
  rw [clamp64_eq]
  unfold lowest64 highest64
  omega

theorem natAbs_of_clamp64_unit {x : Int} (hunit : (clamp64 x).natAbs = 1) : x.natAbs = 1 := by
  rw [clamp64_eq] at hunit
  unfold lowest64 highest64 at hunit
  omega

theorem Near.scaled {factor : Int} (hnear : v.Near n) (hscaled : v.scaled factor = .ok w) :
    w.Near n := by
  have hnest : ∀ u : IntView, u.Near n → u.nest factor 0 = .ok w → w.Near n := by
    intro u hu hnested
    unfold nest at hnested
    split at hnested
    next => cases hnested
    next =>
      obtain rfl := Except.ok.inj hnested
      exact ⟨hu, fun _ => Nat.zero_le _⟩
  cases v with
  | var id => exact hnest _ hnear hscaled
  | literal image => exact hnest _ hnear hscaled
  | const value =>
      simp only [IntView.scaled] at hscaled
      split at hscaled
      next => cases hscaled
      next =>
        split at hscaled
        next =>
          obtain rfl := Except.ok.inj hscaled
          trivial
        next => cases hscaled
  | affine inner scale offset =>
      simp only [IntView.scaled] at hscaled
      split at hscaled
      next => cases hscaled
      next =>
        obtain rfl := Except.ok.inj hscaled
        refine ⟨hnear.1, fun hunit => ?_⟩
        -- a unit is a product of units only, so the offset keeps its size
        have hproduct := natAbs_of_clamp64_unit hunit
        rw [Int.natAbs_mul, mul_eq_one] at hproduct
        calc (clamp64 (offset * factor)).natAbs
            ≤ (offset * factor).natAbs := natAbs_clamp64_le _
          _ = offset.natAbs := by rw [Int.natAbs_mul, hproduct.2, mul_one]
          _ ≤ n * 2147483648 := hnear.2 hproduct.1

theorem Near.plus {shift : Int} (hnear : v.Near n) (hshift : Fits32 shift) :
    (v.plus shift).Near (n + 1) := by
  unfold Fits32 lowest32 highest32 at hshift
  cases v with
  | var id => exact ⟨trivial, fun _ => by omega⟩
  | literal image => exact ⟨hnear.succ, fun _ => by omega⟩
  | const value => trivial
  | affine inner scale offset =>
      refine ⟨hnear.1.succ, fun hunit => ?_⟩
      have hoffset := hnear.2 hunit
      have hclamped := natAbs_clamp64_le (offset + shift)
      omega

theorem Near.step {step : Step} (hnear : v.Near n) (hfits : step.Fits)
    (happly : step.apply v = .ok w) : w.Near (n + 1) := by
  cases step with
  | nested scale offset =>
      unfold Step.Fits Fits32 lowest32 highest32 at hfits
      simp only [Step.apply, nest] at happly
      split at happly
      next => cases happly
      next =>
        obtain rfl := Except.ok.inj happly
        exact ⟨hnear.succ, fun _ => by omega⟩
  | identity =>
      obtain rfl := Except.ok.inj happly
      exact ⟨hnear.succ, fun _ => Nat.zero_le _⟩
  | adjusted adjustment =>
      cases adjustment with
      | scaled factor => exact (hnear.scaled happly).succ
      | plus shift =>
          obtain rfl := Except.ok.inj happly
          exact hnear.plus hfits
  | negated =>
      obtain rfl := Except.ok.inj happly
      unfold negation
      split
      next inner scale offset =>
        refine ⟨hnear.1.succ, fun hunit => ?_⟩
        have hscale := natAbs_of_clamp64_unit hunit
        rw [Int.natAbs_neg] at hscale
        have hoffset := hnear.2 hscale
        have hopposite := natAbs_clamp64_le (-offset)
        have hclamped := natAbs_clamp64_le (clamp64 (-offset) + 1)
        omega
      next => exact hnear.succ

/-- A short chain does not bring any bound to the division that overflows. -/
theorem Near.not_leaves64 (hnear : v.Near n) (hshort : n < 4294967295) (hbound : Fits32 bound) :
    ¬v.Leaves64 side bound := by
  induction v generalizing side bound with
  | var id => exact not_false
  | const value => exact not_false
  | affine inner scale offset ih =>
      rintro (⟨rfl, hleast⟩ | ⟨y, hpreimage, hleaves⟩)
      · have hoffset := hnear.2 rfl
        unfold Fits32 lowest32 at hbound
        unfold lowest64 at hleast
        omega
      · exact ih hnear.1 (fits32_of_preimage hpreimage) hleaves
  | literal image ih => exact ih hnear hbound

/-! ## Chains -/

namespace Chain

theorem formed_near_of_foldlM {steps : List Step} (hformed : v.Formed) (hnear : v.Near n)
    (hfits : ∀ step ∈ steps, step.Fits)
    (hrun : steps.foldlM (fun v step => step.apply v) v = .ok w) :
    w.Formed ∧ w.Near (n + steps.length) := by
  induction steps generalizing v n with
  | nil =>
      obtain rfl := Except.ok.inj hrun
      exact ⟨hformed, hnear⟩
  | cons step rest ih =>
      rw [List.foldlM_cons] at hrun
      cases happly : step.apply v with
      | error e =>
          rw [happly] at hrun
          cases hrun
      | ok u =>
          rw [happly] at hrun
          have hstep := hfits step List.mem_cons_self
          obtain ⟨hformed', hnear'⟩ := ih (hformed.step hstep happly) (hnear.step hstep happly)
            (fun other hother => hfits other (List.mem_cons_of_mem _ hother)) hrun
          rw [List.length_cons, Nat.add_comm rest.length, ← Nat.add_assoc]
          exact ⟨hformed', hnear'⟩

theorem formed_near {chain : Chain} (hfits : chain.Fits) (hbuild : chain.build = .ok v) :
    v.Formed ∧ v.Near chain.steps.length := by
  have hstart : chain.start.view.Formed ∧ chain.start.view.Near 0 := by
    have hconst := hfits.1
    cases hstart : chain.start with
    | var id => exact ⟨trivial, trivial⟩
    | const value =>
        rw [hstart] at hconst
        exact ⟨hconst, trivial⟩
    | truth id =>
        exact ⟨⟨trivial, by decide, by decide⟩, trivial, fun _ => Nat.zero_le _⟩
  have hrun := formed_near_of_foldlM hstart.1 hstart.2 hfits.2 hbuild
  rwa [Nat.zero_add] at hrun

theorem foldlM_plus_lowest (inner : IntView) (offset : Int) (n : Nat) (hoffset : offset ≤ 0)
    (hroom : lowest64 ≤ offset + n * lowest32) :
    (List.replicate n (Step.adjusted (.plus lowest32))).foldlM (fun v step => step.apply v)
        (affine inner 1 offset) = .ok (affine inner 1 (offset + n * lowest32)) := by
  induction n generalizing offset with
  | zero => simp [pure, Except.pure]
  | succ n ih =>
      have hnext : clamp64 (offset + lowest32) = offset + lowest32 := by
        refine clamp64_of_fits ?_
        unfold lowest32 lowest64 at *
        unfold Fits64 lowest64 highest64
        omega
      have happly : (Step.adjusted (.plus lowest32)).apply (affine inner 1 offset) =
          .ok (affine inner 1 (offset + lowest32)) := by
        simp only [Step.apply, Adjustment.apply, IntView.plus, hnext]
      have hsum : offset + lowest32 + n * lowest32 = offset + (n + 1 : Nat) * lowest32 := by
        push_cast
        ring
      have hrest := ih (offset + lowest32) (by unfold lowest32; omega)
        (by rw [hsum]; exact hroom)
      rw [List.replicate_succ, List.foldlM_cons, happly, ← hsum]
      exact hrest

/-- Shifts a variable down `n + 1` times as far as 32 bits go, and negates it. -/
def down (id n : Nat) : Chain :=
  ⟨.var id, .nested 1 lowest32 :: (List.replicate n (.adjusted (.plus lowest32)) ++
    [.adjusted (.scaled (-1))])⟩

theorem fits_down (id n : Nat) : (down id n).Fits := by
  refine ⟨trivial, fun step hstep => ?_⟩
  simp only [down, List.mem_cons, List.mem_append, List.mem_replicate, List.not_mem_nil,
    or_false] at hstep
  rcases hstep with rfl | ⟨-, rfl⟩ | rfl
  · exact ⟨by decide, by decide⟩
  · exact (by decide : Fits32 lowest32)
  · exact (by decide : Fits32 (-1))

theorem length_down (id n : Nat) : (down id n).steps.length = n + 2 := by
  simp only [down, List.length_cons, List.length_append, List.length_replicate, List.length_nil]

theorem build_down (id : Nat) {n : Nat} (hroom : n < 4294967295) :
    (down id n).build = .ok (affine (.var id) (-1) ((n + 1) * 2147483648)) := by
  have hfirst : (Step.nested 1 lowest32).apply (.var id) =
      .ok (affine (.var id) 1 lowest32) := rfl
  have hshifts := foldlM_plus_lowest (.var id) lowest32 n (by decide)
    (by unfold lowest64 lowest32; omega)
  have hnegated : clamp64 ((lowest32 + n * lowest32) * -1) = (n + 1) * 2147483648 := by
    rw [clamp64_eq]
    unfold lowest64 highest64 lowest32
    omega
  have hscaled : (Step.adjusted (.scaled (-1))).apply
      (affine (.var id) 1 (lowest32 + n * lowest32)) =
        .ok (affine (.var id) (-1) ((n + 1) * 2147483648)) := by
    simp only [Step.apply, Adjustment.apply, IntView.scaled, hnegated]
    rfl
  simp only [build, down, List.foldlM_cons, List.foldlM_append, Start.view, hfirst, bind,
    Except.bind, hshifts, hscaled]
  rfl

/-- A chain of `2 ^ 32` steps that brings a bound to the division that overflows. -/
theorem exists_leaves64 (id : Nat) :
    ∃ (chain : Chain) (v : IntView), chain.Fits ∧ chain.steps.length = 4294967296 ∧
      chain.build = .ok v ∧ v.Leaves64 .lower lowest32 :=
  ⟨down id 4294967294, _, fits_down id _, length_down id _, build_down id (by decide),
    Or.inl ⟨rfl, by decide⟩⟩

end Chain

/-- A view that is built from 32-bit parameters computes with 64-bit integers: reading it,
iterating it, looking up, removing and fixing any value do not overflow.  Moving a bound
overflows in one division, which takes a chain of more than `2 ^ 32 - 2` steps, and the text
overflows where an offset is the least 64-bit integer. -/
theorem arithmetic_fits_but_two_steps (harises : Space.Arises s) {chain : Chain}
    (hfits : chain.Fits) (hbuild : chain.build = .ok v) (hknown : v.known s = true) :
    (∀ side, v.bound? s side = some (v.bound s side)) ∧
    v.values? s = some (v.values s) ∧
    (v.textChecked = v.text? ∧ (v.text? = none ↔ v.HasLeastOffset)) ∧
    ∀ value, Fits32 value →
      v.contains? s value = some (v.contains s value) ∧
      (v.removeChecked value s = v.remove value s ∧ ¬Narrow.Overflows (v.remove value) s) ∧
      (v.fixChecked value s = v.fix value s ∧ ¬Narrow.Overflows (v.fix value) s) ∧
      ∀ side, v.setBoundChecked side value s = v.setBound side value s ∧
        (Narrow.Overflows (v.setBound side value) s ↔ v.Leaves64 side value) ∧
        (chain.steps.length < 4294967295 → ¬v.Leaves64 side value) := by
  have hvalid := harises.valid
  obtain ⟨hformed, hnear⟩ := Chain.formed_near hfits hbuild
  refine ⟨bound?_eq s v, values?_eq hvalid v, ⟨hformed.textChecked_eq, text?_eq_none_iff⟩,
    fun value hvalue => ⟨hformed.contains?_eq s value, ⟨hformed.removeChecked_eq hvalid value, ?_⟩,
      ⟨hformed.fixChecked_eq hvalid value, ?_⟩, fun side =>
        ⟨hformed.setBoundChecked_eq hvalid side value, ?_, fun hshort => ?_⟩⟩⟩
  · exact (restricts_remove_source hvalid hknown value).not_overflows
  · exact (restricts_fix_source hvalid hknown value).not_overflows
  · exact setBound_overflows_iff hvalid hknown side value
  · exact hnear.not_leaves64 hshort hvalue

/-- Shifted down as far as 32 bits go and doubly scaled up, the offset of a view of a variable
is the least 64-bit integer: the view has no text.  It is read and narrowed without any
overflow. -/
theorem text_overflows_after_three_steps :
    let chain : Chain := ⟨.var 0, [.adjusted (.plus lowest32), .adjusted (.scaled highest32),
      .adjusted (.scaled highest32)]⟩
    let v : IntView := .affine (.var 0) 4611686014132420609 lowest64
    ∃ s, Space.performAll [.newInt 0 1] Space.new = some s ∧ chain.build = .ok v ∧
      v.textChecked = none ∧ v.values? s.store = some [lowest32, lowest32] ∧
      ∀ (side : Side) (value : Int), Fits32 value →
        ¬Narrow.Overflows (v.setBound side value) s.store := by
  intro chain v
  have hrun : (Space.performAll [.newInt 0 1] Space.new).map
      (fun s => (s.store.int 0, s.store.ints.size)) = some (.interval 0 1, 1) := by
    decide +kernel
  obtain ⟨s, hperform, hstore⟩ := Option.map_eq_some_iff.mp hrun
  obtain ⟨hdomain, hsize⟩ := Prod.mk.inj hstore
  have harises : Space.Arises s.store := .reached (Space.reaches_of_performAll hperform)
  have hknown : v.known s.store = true := known_var.mpr (hsize ▸ Nat.zero_lt_one)
  have hfits : chain.Fits := by
    refine ⟨trivial, fun step hstep => ?_⟩
    simp only [chain, List.mem_cons, List.not_mem_nil, or_false] at hstep
    rcases hstep with rfl | rfl | rfl
    · exact (by decide : Fits32 lowest32)
    · exact (by decide : Fits32 highest32)
    · exact (by decide : Fits32 highest32)
  have hbuild : chain.build = .ok v := by decide +kernel
  obtain ⟨-, hvalues, ⟨htext, hleast⟩, hnarrow⟩ :=
    arithmetic_fits_but_two_steps harises hfits hbuild hknown
  refine ⟨s, hperform, hbuild, htext.trans (hleast.mpr (Or.inl rfl)), ?_,
    fun side value hvalue hoverflows => ?_⟩
  · rw [hvalues]
    simp only [v, values, hdomain]
    decide
  · obtain ⟨-, -, -, hbounds⟩ := hnarrow value hvalue
    obtain ⟨-, hiff, hshort⟩ := hbounds side
    exact hshort (by decide) (hiff.mp hoverflows)

end IntView
end ConstraintSpace
