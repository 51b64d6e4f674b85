import ConstraintSpace.Proofs.Propagator.Contract
import ConstraintSpace.Proofs.Store.Events

/-!
# Who accounts for what happened

A narrowing of a view is one narrowing of the variable under it, whatever the view
transforms, and a view of a constant narrows nothing.  Posts, commits and the runs of
propagators are made of such narrowings, so each of them makes pending what happened
between the store it found and the store it leaves.
-/

namespace ConstraintSpace

open Narrow

namespace IntView

/-- The variable under the view, as a variable of a store. -/
def target? (v : IntView) : Option Variable := v.base?.map .int

theorem single_setBound (v : IntView) (side : Side) (value : Int) :
    Single v.target? (v.setBound side value) := by
  induction v generalizing side value with
  | var id => exact single_narrowInt (IntDomain.setBound_restricts side value) id
  | const n =>
      cases side <;> simp only [setBound] <;> split
      · exact single_throw _ _
      · exact single_none _
      · exact single_throw _ _
      · exact single_none _
  | affine inner scale offset ih =>
      simp only [setBound]
      split
      · exact ih _ _
      · exact single_throw _ _
  | literal image ih => exact ih side value

theorem single_remove (v : IntView) (value : Int) :
    Single v.target? (v.remove value) := by
  induction v generalizing value with
  | var id => exact single_narrowInt (IntDomain.remove_restricts value) id
  | const n =>
      simp only [remove]
      split
      · exact single_throw _ _
      · exact single_none _
  | affine inner scale offset ih =>
      simp only [remove]
      split
      · exact ih _
      · exact single_none _
  | literal image ih => exact ih value

theorem single_fix (v : IntView) (value : Int) : Single v.target? (v.fix value) := by
  induction v generalizing value with
  | var id => exact single_narrowInt (IntDomain.fix_restricts value) id
  | const n =>
      simp only [fix]
      split
      · exact single_none _
      · exact single_throw _ _
  | affine inner scale offset ih =>
      simp only [fix]
      split
      · exact ih _
      · exact single_throw _ _
  | literal image ih => exact ih value

end IntView

namespace FloatView

theorem single_setBound (v : FloatView) (side : Side) (value : Double) :
    Single (some (.float v.base)) (v.setBound side value) := by
  induction v generalizing side value with
  | var id =>
      unfold setBound
      exact single_narrowFloatBound id side value
  | neg inner ih =>
      unfold setBound
      exact ih _ _

theorem single_fix (v : FloatView) (value : Double) :
    Single (some (.float v.base)) (v.fix value) := by
  induction v generalizing value with
  | var id =>
      unfold fix
      exact single_narrowFloat (FloatDomain.fix_shrinks value) id
  | neg inner ih =>
      unfold fix
      exact ih _

end FloatView

namespace Narrowing

/-- The variable that is narrowed; there is none where the view is of a constant. -/
def target? : Narrowing → Option Variable
  | lower view _ | upper view _ | remove view _ | fix view _ => view.target?
  | floatLower view _ | floatUpper view _ | floatFix view _ => some (.float view.base)
  | require id _ | forbid id _ | cardLower id _ | cardUpper id _ => some (.set id)

theorem single_apply (narrowing : Narrowing) : Single narrowing.target? narrowing.apply := by
  cases narrowing with
  | lower view value => exact view.single_setBound .lower value
  | upper view value => exact view.single_setBound .upper value
  | remove view value => exact view.single_remove value
  | fix view value => exact view.single_fix value
  | floatLower view value => exact view.single_setBound .lower value
  | floatUpper view value => exact view.single_setBound .upper value
  | floatFix view value => exact view.single_fix value
  | require id element => exact single_narrowSet (SetDomain.require_restricts element) id
  | forbid id element => exact single_narrowSet (SetDomain.forbid_restricts element) id
  | cardLower id count => exact single_narrowSet (SetDomain.setCardLower_restricts count) id
  | cardUpper id count => exact single_narrowSet (SetDomain.setCardUpper_restricts count) id

theorem honest_apply (narrowing : Narrowing) : Honest narrowing.apply :=
  narrowing.single_apply.honest

/-- A post accounts for all of its narrowings, however it ends. -/
theorem applyAll_accounts (keepGoing : Bool) (narrowings : List Narrowing) {s : Store}
    (hvalid : s.Valid) : s.Accounts (applyAll keepGoing narrowings s).2.2 := by
  induction narrowings generalizing s with
  | nil => exact .refl hvalid
  | cons narrowing rest ih =>
      have hfirst := narrowing.honest_apply s hvalid
      unfold applyAll
      split
      next change s' hrun =>
        rw [after_of_ok hrun] at hfirst
        exact hfirst.trans hvalid (ih hfirst.valid)
      next s' hrun =>
        rw [after_of_error hrun] at hfirst
        split
        · exact hfirst.trans hvalid (ih hfirst.valid)
        · exact hfirst
      next breach s' hrun =>
        rw [after_of_error hrun] at hfirst
        exact hfirst

end Narrowing

/-! ## Commits -/

theorem Narrow.Elementary.honest {m : Narrow Change} (helementary : Elementary m) :
    Honest m := by
  cases helementary with
  | apply narrowing => exact narrowing.honest_apply
  | refused misstep => exact (single_throw none misstep).honest
  | idle change => exact honest_pure change

theorem Brancher.honest_commit {b : Brancher} {choice : Choice} {alternative : Nat}
    {narrowing : Narrow Change} (hcommit : b.commit choice alternative = .ok narrowing) :
    Honest narrowing :=
  (Brancher.elementary_commit hcommit).honest

/-! ## Runs -/

theorem NotEqual.honest_propagate (a b : IntView) : Honest (NotEqual.propagate a b) := by
  refine honest_get.bind fun s => ?_
  dsimp only
  split_ifs
  · exact honest_pure _
  · exact (b.single_remove _).honest.bind fun _ => honest_pure _
  · exact (a.single_remove _).honest.bind fun _ => honest_pure _
  · exact honest_pure _

theorem LessOrEqual.honest_propagate (a b : IntView) : Honest (LessOrEqual.propagate a b) :=
  honest_get.bind fun _ => (a.single_setBound .upper _).honest.bind fun _ =>
    honest_get.bind fun _ => (b.single_setBound .lower _).honest.bind fun _ =>
      honest_get.bind fun _ => honest_pure _

theorem FloatLessOrEqual.honest_propagate (a b : FloatView) :
    Honest (FloatLessOrEqual.propagate a b) :=
  honest_get.bind fun _ => (a.single_setBound .upper _).honest.bind fun _ =>
    honest_get.bind fun _ => (b.single_setBound .lower _).honest.bind fun _ =>
      honest_get.bind fun _ => honest_pure _

namespace Subset

variable {α β : Type}

/-- The store at which the work ends or stops. -/
def Work.after (m : Work α) (state : Store × SubsetCounts) : Store :=
  match m state with
  | .ok _ (s, _) => s
  | .error _ (s, _) => s

/-- The work accounts for all that it does. -/
def Work.Honest (m : Work α) : Prop :=
  ∀ (s : Store) (counts : SubsetCounts), s.Valid → s.Accounts (Work.after m (s, counts))

theorem honest_pure (x : α) : Work.Honest (pure x : Work α) :=
  fun _ _ => Store.Accounts.refl

theorem honest_get : Work.Honest (get : Work (Store × SubsetCounts)) :=
  fun _ _ => Store.Accounts.refl

theorem honest_narrow {m : Narrow α} (hm : Narrow.Honest m) : Work.Honest (narrow m) := by
  intro s counts hvalid
  have hsame : Work.after (narrow m) (s, counts) = Narrow.after m s := by
    cases hrun : m s <;> simp only [Work.after, narrow, Narrow.after, hrun]
  rw [hsame]
  exact hm s hvalid

/-- Counting changes no store. -/
theorem honest_modify {count : Store × SubsetCounts → Store × SubsetCounts}
    (hcount : ∀ state, (count state).1 = state.1) : Work.Honest (modify count : Work Unit) := by
  intro s counts hvalid
  have hsame : Work.after (modify count) (s, counts) = s := hcount (s, counts)
  rw [hsame]
  exact .refl hvalid

theorem Work.Honest.bind {m : Work α} {k : α → Work β} (hm : Work.Honest m)
    (hk : ∀ x, Work.Honest (k x)) : Work.Honest (m >>= k) := by
  intro s counts hvalid
  have hfirst := hm s counts hvalid
  cases hrun : m (s, counts) with
  | ok x state =>
      simp only [Work.after, hrun] at hfirst
      have hafter : Work.after (m >>= k) (s, counts) = Work.after (k x) state := by
        simp only [Work.after, Bind.bind, EStateM.bind, hrun]
      rw [hafter]
      exact hfirst.trans hvalid (hk x state.1 state.2 hfirst.valid)
  | error e state =>
      simp only [Work.after, hrun] at hfirst
      have hafter : Work.after (m >>= k) (s, counts) = state.1 := by
        simp only [Work.after, Bind.bind, EStateM.bind, hrun]
      rwa [hafter]

theorem honest_requireAll (b : Nat) (xs : List Int) : Work.Honest (requireAll b xs) := by
  induction xs with
  | nil => exact honest_pure ()
  | cons x rest ih =>
      have hfirst := single_narrowSet (SetDomain.require_restricts x) b
      refine (honest_narrow hfirst.honest).bind fun _ => Work.Honest.bind ?_ fun _ => ih
      exact honest_modify fun _ => rfl

theorem honest_forbidAll (a : Nat) (xs : List Int) : Work.Honest (forbidAll a xs) := by
  induction xs with
  | nil => exact honest_pure ()
  | cons x rest ih =>
      have hfirst := single_narrowSet (SetDomain.forbid_restricts x) a
      refine (honest_narrow hfirst.honest).bind fun _ => Work.Honest.bind ?_ fun _ => ih
      exact honest_modify fun _ => rfl

theorem honest_round (a b : Nat) : Work.Honest (round a b) := by
  have hupper := fun top => single_narrowSet (SetDomain.setCardUpper_restricts top) a
  have hlower := fun bottom => single_narrowSet (SetDomain.setCardLower_restricts bottom) b
  exact honest_get.bind fun _ => (honest_requireAll b _).bind fun _ =>
    honest_get.bind fun _ => (honest_forbidAll a _).bind fun _ =>
      honest_get.bind fun _ => (honest_narrow (hupper _).honest).bind fun _ =>
        honest_get.bind fun _ => (honest_narrow (hlower _).honest).bind fun _ => honest_pure _

theorem honest_rounds (a b fuel : Nat) : Work.Honest (rounds a b fuel) := by
  induction fuel with
  | zero => exact honest_pure ()
  | succ fuel ih =>
      refine (honest_round a b).bind fun changed => ?_
      cases changed with
      | false => exact honest_pure ()
      | true => exact ih

theorem honest_propagate (a b : Nat) : Work.Honest (propagate a b) :=
  honest_get.bind fun _ => (honest_rounds a b _).bind fun _ =>
    honest_get.bind fun _ => honest_pure _

end Subset

namespace Propagator

variable {p : Propagator} {s : Store}

theorem stateless_accounts {pass : Narrow Status} (hhonest : Honest pass) (hvalid : s.Valid) :
    s.Accounts (p.stateless pass s).store := by
  have hpass := hhonest s hvalid
  cases hknown : p.known s with
  | false =>
      simp only [stateless, hknown]
      exact .refl hvalid
  | true =>
      cases hrun : pass s with
      | ok status s' =>
          rw [stateless_eq_of_ok hknown hrun]
          rwa [after_of_ok hrun] at hpass
      | error misstep s' =>
          rw [stateless_eq_of_error hknown hrun]
          rwa [after_of_error hrun] at hpass

theorem perform_accounts (name : String) (narrowings : List Narrowing) (hvalid : s.Valid) :
    s.Accounts (Scripted.perform name narrowings s).2.1 := by
  induction narrowings generalizing s with
  | nil => exact .refl hvalid
  | cons narrowing rest ih =>
      have hfirst := narrowing.honest_apply s hvalid
      cases hrun : narrowing.apply s with
      | ok change s' =>
          rw [after_of_ok hrun] at hfirst
          simp only [Scripted.perform, hrun]
          exact hfirst.trans hvalid (ih hfirst.valid)
      | error misstep s' =>
          rw [after_of_error hrun] at hfirst
          simpa only [Scripted.perform, hrun] using hfirst

/-- Whatever the propagator, a run accounts for all that it does. -/
theorem run_accounts (p : Propagator) (hvalid : s.Valid) : s.Accounts (p.run s).store := by
  cases p with
  | notEqual a b => exact stateless_accounts (NotEqual.honest_propagate a b) hvalid
  | lessOrEqual a b => exact stateless_accounts (LessOrEqual.honest_propagate a b) hvalid
  | floatLessOrEqual a b =>
      exact stateless_accounts (FloatLessOrEqual.honest_propagate a b) hvalid
  | subset a b counts =>
      have hwork := Subset.honest_propagate a b s counts hvalid
      unfold Subset.Work.after at hwork
      simp only [run]
      split
      · split <;> simp_all
      · exact .refl hvalid
  | scripted script => exact perform_accounts script.name _ hvalid

end Propagator

end ConstraintSpace
