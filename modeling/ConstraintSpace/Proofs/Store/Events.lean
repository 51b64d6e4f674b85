import ConstraintSpace.Proofs.Store.Assignment

/-!
# What the events of a change say

An event tells how the domain of a variable differs from what it was: one of its bounds
moved, its set of values is another one, or it came down to one value.  A single
narrowing makes exactly those events pending that happened to its variable, and what it
returns is the strongest of them.

Events add up.  Domains only shrink, so what happened in one of two narrowings in a row
happened in both together, and a whole computation makes pending what happened between
its first store and its last, and nothing else.
-/

namespace ConstraintSpace

namespace IntDomain

variable {d d' d'' : IntDomain} {event : Event}

theorem Valid.isFixed_iff_existsUnique (hvalid : d.Valid) :
    d.isFixed = true ↔ ∃! x, x ∈ d := by
  rw [isFixed_iff]
  constructor
  · intro heq
    exact ⟨d.lower, hvalid.lower_mem, fun x hx => eq_lower_of_isFixed (isFixed_iff.mpr heq) hx⟩
  · intro hunique
    exact hunique.unique hvalid.lower_mem hvalid.upper_mem

/-- What happened in one of two narrowings happened in both together. -/
theorem eventsTo_of_either (hvalid : d.Valid) (hvalid' : d'.Valid) (hvalid'' : d''.Valid)
    (hfirst : ∀ x, x ∈ d' → x ∈ d) (hsecond : ∀ x, x ∈ d'' → x ∈ d')
    (hevent : (d.eventsTo d').contains event = true ∨
      (d'.eventsTo d'').contains event = true) :
    (d.eventsTo d'').contains event = true := by
  have hlower := lower_le_of_mem (hfirst _ hvalid'.lower_mem)
  have hlower' := lower_le_of_mem (hsecond _ hvalid''.lower_mem)
  have hupper := le_upper_of_mem (hfirst _ hvalid'.upper_mem)
  have hupper' := le_upper_of_mem (hsecond _ hvalid''.upper_mem)
  have hbounds := le_upper_of_mem hvalid''.lower_mem
  have hsame : d'' = d → d' = d := by
    intro heq
    apply hvalid'.eq_of_mem_iff hvalid
    intro x
    exact ⟨hfirst x, fun hx => hsecond x (heq ▸ hx)⟩
  cases event <;>
    simp only [eventsTo, EventSet.contains, isFixed, Bool.and_eq_true, Bool.not_eq_true',
      decide_eq_true_eq, decide_eq_false_iff_not] at hevent ⊢
  case assign => omega
  case lowerBound => omega
  case upperBound => omega
  case removal =>
    intro heq
    rcases hevent with hne | hne
    · exact hne (hsame heq)
    · exact hne (heq.trans (hsame heq).symm)

end IntDomain

namespace SetDomain

variable {d d' d'' : SetDomain} {event : Event}

theorem Valid.isFixed_iff_existsUnique (hvalid : d.Valid) :
    d.isFixed = true ↔ ∃! elements : Finset Int, elements ∈ d := by
  constructor
  · intro hfixed
    exact ⟨d.glb.toFinset, (hvalid.mem_iff_of_isFixed hfixed).mpr rfl,
      fun elements helements => (hvalid.mem_iff_of_isFixed hfixed).mp helements⟩
  · rintro ⟨only, honly, hunique⟩
    have hsame : d.glb = d.lub := by
      apply Ascending.eq_of_mem_iff hvalid.glb_ascends hvalid.lub_ascends
      intro x
      rw [hvalid.mem_glb_iff, hvalid.mem_lub_iff]
      constructor
      · intro hall
        exact ⟨only, honly, hall only honly⟩
      · rintro ⟨elements, helements, hx⟩ other hother
        rwa [hunique other hother, ← hunique elements helements]
    rw [isFixed_iff, hsame]

theorem eventsTo_of_either (hvalid : d.Valid) (hvalid' : d'.Valid) (hvalid'' : d''.Valid)
    (hfirst : d.Shrinks d') (hsecond : d'.Shrinks d'')
    (hevent : (d.eventsTo d').contains event = true ∨
      (d'.eventsTo d'').contains event = true) :
    (d.eventsTo d'').contains event = true := by
  have hglb := length_le_of_subset hvalid.glb_ascends hfirst.glb_subset
  have hglb' := length_le_of_subset hvalid'.glb_ascends hsecond.glb_subset
  have hlub := length_le_of_subset hvalid'.lub_ascends hfirst.lub_subset
  have hlub' := length_le_of_subset hvalid''.lub_ascends hsecond.lub_subset
  have hbounds := length_le_of_subset hvalid''.glb_ascends hvalid''.glb_subset
  -- a component that ends as it began was the same in between
  have hsame_glb : d''.glb = d.glb → d'.glb = d.glb := fun heq =>
    Ascending.eq_of_mem_iff hvalid'.glb_ascends hvalid.glb_ascends fun x =>
      ⟨fun hx => heq ▸ hsecond.glb_subset hx, fun hx => hfirst.glb_subset hx⟩
  have hsame_lub : d''.lub = d.lub → d'.lub = d.lub := fun heq =>
    Ascending.eq_of_mem_iff hvalid'.lub_ascends hvalid.lub_ascends fun x =>
      ⟨fun hx => hfirst.lub_subset hx, fun hx => hsecond.lub_subset (heq ▸ hx)⟩
  have hsame : d'' = d → d' = d := fun heq =>
    (heq ▸ hsecond).antisymm hfirst hvalid'.toSpanned hvalid.toSpanned
  cases event <;>
    simp only [eventsTo, EventSet.contains, isFixed, Bool.and_eq_true, Bool.not_eq_true',
      decide_eq_true_eq, decide_eq_false_iff_not] at hevent ⊢
  case assign => omega
  case lowerBound =>
    intro heq
    rcases hevent with hne | hne
    · exact hne (hsame_glb heq)
    · exact hne (heq.trans (hsame_glb heq).symm)
  case upperBound =>
    intro heq
    rcases hevent with hne | hne
    · exact hne (hsame_lub heq)
    · exact hne (heq.trans (hsame_lub heq).symm)
  case removal =>
    intro heq
    rcases hevent with hne | hne
    · exact hne (hsame heq)
    · exact hne (heq.trans (hsame heq).symm)

end SetDomain

/-- Float variables have intervals for domains; the others have values one by one. -/
def Variable.IsDiscrete : Variable → Prop
  | int _ => True
  | float _ => False
  | set _ => True

namespace Store

variable {s s' s'' : Store} {v : Variable} {event : Event}

/-- What an event says of the domains of a discrete variable before and after. -/
def Happened (s s' : Store) : Variable → Event → Prop
  | .int id, .assign => (∃! x, x ∈ s'.int id) ∧ ¬∃! x, x ∈ s.int id
  | .int id, .lowerBound => (s'.int id).lower ≠ (s.int id).lower
  | .int id, .upperBound => (s'.int id).upper ≠ (s.int id).upper
  | .int id, .removal => ∃ x, ¬(x ∈ s'.int id ↔ x ∈ s.int id)
  | .set id, .assign =>
    (∃! elements : Finset Int, elements ∈ s'.set id) ∧
      ¬∃! elements : Finset Int, elements ∈ s.set id
  | .set id, .lowerBound => (s'.set id).glb ≠ (s.set id).glb
  | .set id, .upperBound => (s'.set id).lub ≠ (s.set id).lub
  | .set id, .removal => ∃ elements : Finset Int, ¬(elements ∈ s'.set id ↔ elements ∈ s.set id)
  | .float _, _ => False

/-- Between valid stores the events of a change are those that happened. -/
theorem contains_eventsTo (hdiscrete : v.IsDiscrete) (hvalid : s.Valid) (hvalid' : s'.Valid) :
    (s.eventsTo s' v).contains event = true ↔ s.Happened s' v event := by
  cases v with
  | float id => exact hdiscrete.elim
  | int id =>
      have hremoval : s'.int id ≠ s.int id ↔ ∃ x, ¬(x ∈ s'.int id ↔ x ∈ s.int id) := by
        rw [← not_forall, not_iff_not]
        exact ⟨fun heq x => by rw [heq], (hvalid'.int id).eq_of_mem_iff (hvalid.int id)⟩
      cases event <;>
        simp [eventsTo, Happened, IntDomain.eventsTo, EventSet.contains, hremoval, and_comm,
          ← (hvalid.int id).isFixed_iff_existsUnique,
          ← (hvalid'.int id).isFixed_iff_existsUnique]
  | set id =>
      have hremoval : s'.set id ≠ s.set id ↔
          ∃ elements : Finset Int, ¬(elements ∈ s'.set id ↔ elements ∈ s.set id) := by
        rw [← not_forall, not_iff_not]
        exact ⟨fun heq x => by rw [heq], (hvalid'.set id).eq_of_mem_iff (hvalid.set id)⟩
      cases event <;>
        simp [eventsTo, Happened, SetDomain.eventsTo, EventSet.contains, hremoval, and_comm,
          ← (hvalid.set id).isFixed_iff_existsUnique,
          ← (hvalid'.set id).isFixed_iff_existsUnique]

/-! ## Computations -/

/-- The second store is a narrowing of the first one, and of the discrete variables
nothing became pending that did not happen. -/
structure Accounts (s s' : Store) : Prop where
  valid : s'.Valid
  narrows : s.Narrows s'
  honest : ∀ v event, v.IsDiscrete → (event, v) ∈ s'.pending →
    (event, v) ∈ s.pending ∨ (s.eventsTo s' v).contains event = true

theorem Accounts.refl (hvalid : s.Valid) : s.Accounts s where
  valid := hvalid
  narrows := Narrows.refl hvalid
  honest := fun _ _ _ hpending => Or.inl hpending

theorem eventsTo_of_either (hvalid : s.Valid) (hfirst : s.Accounts s')
    (hsecond : s'.Accounts s'') (hdiscrete : v.IsDiscrete)
    (hevent : (s.eventsTo s' v).contains event = true ∨
      (s'.eventsTo s'' v).contains event = true) :
    (s.eventsTo s'' v).contains event = true := by
  cases v with
  | float id => exact hdiscrete.elim
  | int id =>
      exact IntDomain.eventsTo_of_either (hvalid.int id) (hfirst.valid.int id)
        (hsecond.valid.int id) (hfirst.narrows.int_subset id) (hsecond.narrows.int_subset id)
        hevent
  | set id =>
      exact SetDomain.eventsTo_of_either (hvalid.set id) (hfirst.valid.set id)
        (hsecond.valid.set id) (hfirst.narrows.set_shrinks id) (hsecond.narrows.set_shrinks id)
        hevent

theorem Accounts.trans (hvalid : s.Valid) (hfirst : s.Accounts s') (hsecond : s'.Accounts s'') :
    s.Accounts s'' where
  valid := hsecond.valid
  narrows := hfirst.narrows.trans hsecond.narrows
  honest := by
    intro v event hdiscrete hpending
    have hboth : (s.eventsTo s' v).contains event = true ∨
        (s'.eventsTo s'' v).contains event = true → (s.eventsTo s'' v).contains event = true :=
      eventsTo_of_either hvalid hfirst hsecond hdiscrete
    rcases hsecond.honest v event hdiscrete hpending with hbefore | hevent
    · exact (hfirst.honest v event hdiscrete hbefore).imp_right fun hevent =>
        hboth (Or.inl hevent)
    · exact Or.inr (hboth (Or.inr hevent))

/-- Whatever a computation does, what became pending is what happened. -/
theorem Accounts.mem_pending_iff (haccounts : s.Accounts s') (hvalid : s.Valid)
    (hdiscrete : v.IsDiscrete) :
    (event, v) ∈ s'.pending ↔ (event, v) ∈ s.pending ∨ s.Happened s' v event := by
  rw [← contains_eventsTo hdiscrete hvalid haccounts.valid]
  constructor
  · exact haccounts.honest v event hdiscrete
  · rintro (hbefore | hevent)
    · exact haccounts.narrows.pending_mono _ hbefore
    · exact haccounts.narrows.mem_pending hevent

end Store

namespace Narrow

variable {α β : Type}

/-- The computation accounts for all that it does. -/
def Honest (m : Narrow α) : Prop := ∀ s : Store, s.Valid → s.Accounts (Narrow.after m s)

theorem honest_pure (x : α) : Honest (pure x : Narrow α) := fun _ => Store.Accounts.refl

theorem honest_get : Honest (get : Narrow Store) := fun _ => Store.Accounts.refl

theorem Honest.bind {m : Narrow α} {k : α → Narrow β} (hm : Honest m)
    (hk : ∀ x, Honest (k x)) : Honest (m >>= k) := by
  intro s hvalid
  have hfirst := hm s hvalid
  cases hrun : m s with
  | ok x s' =>
      rw [after_of_ok hrun] at hfirst
      have hafter : Narrow.after (m >>= k) s = Narrow.after (k x) s' := by
        simp only [Narrow.after, bind_of_ok hrun]
      rw [hafter]
      exact hfirst.trans hvalid (hk x s' hfirst.valid)
  | error e s' =>
      rw [after_of_error hrun] at hfirst
      have hafter : Narrow.after (m >>= k) s = s' := by
        simp only [Narrow.after, bind_of_error hrun]
      rwa [hafter]

end Narrow

/-! ## Single narrowings -/

namespace Store

variable {s s' : Store} {v : Option Variable}

/-- How one narrowing can end: it is refused or does nothing, or it replaces the domain of
its variable and says what changed. -/
inductive Move (s : Store) : Option Variable → EStateM.Result Misstep Store Change → Prop where
  | refused {v : Option Variable} (misstep : Misstep) : Move s v (.error misstep s)
  | idle {v : Option Variable} : Move s v (.ok .none s)
  | int {id : Nat} {d : IntDomain} (hid : id < s.ints.size) (hd : d.Valid)
      (hsubset : ∀ x, x ∈ d → x ∈ s.int id) :
      Move s (some (.int id)) (.ok (.ofEvents ((s.int id).eventsTo d)) (s.changeInt id d))
  | float {id : Nat} {d : FloatDomain} (hid : id < s.floats.size) (hd : d.Valid)
      (hsmaller : d = s.float id ∨ d.measure < (s.float id).measure) :
      Move s (some (.float id))
        (.ok (.ofEvents ((s.float id).eventsTo d)) (s.changeFloat id d))
  | set {id : Nat} {d : SetDomain} (hid : id < s.sets.size) (hd : d.Valid)
      (hshrinks : (s.set id).Shrinks d) :
      Move s (some (.set id)) (.ok (.ofEvents ((s.set id).eventsTo d)) (s.changeSet id d))

theorem eventsTo_changeInt {id : Nat} (hid : id < s.ints.size) (d : IntDomain) :
    s.eventsTo (s.changeInt id d) (.int id) = (s.int id).eventsTo d := by
  simp only [eventsTo, int_changeInt hid, if_true]

theorem eventsTo_changeFloat {id : Nat} (hid : id < s.floats.size) (d : FloatDomain) :
    s.eventsTo (s.changeFloat id d) (.float id) = (s.float id).eventsTo d := by
  simp only [eventsTo, float_changeFloat hid, if_true]

theorem eventsTo_changeSet {id : Nat} (hid : id < s.sets.size) (d : SetDomain) :
    s.eventsTo (s.changeSet id d) (.set id) = (s.set id).eventsTo d := by
  simp only [eventsTo, set_changeSet hid, if_true]

/-- A domain replaced by a smaller one, with the events of the change made pending. -/
theorem accounts_of_record {w : Variable} {t : Store} (hvalid' : s'.Valid)
    (hnarrows : s.Narrows s') (hpending : t.pending = s.pending)
    (hrecord : s' = t.record w (s.eventsTo s' w)) : s.Accounts s' where
  valid := hvalid'
  narrows := hnarrows
  honest := by
    intro v event _ hmem
    rw [hrecord, mem_pending_record, hpending] at hmem
    rcases hmem with hbefore | ⟨hevent, hw⟩
    · exact Or.inl hbefore
    · obtain rfl : v = w := hw
      exact Or.inr hevent

theorem Move.accounts {m : Narrow Change} (hmove : s.Move v (m s)) (hvalid : s.Valid) :
    s.Accounts (Narrow.after m s) := by
  unfold Narrow.after
  generalize m s = result at hmove
  cases hmove with
  | refused misstep => exact Accounts.refl hvalid
  | idle => exact Accounts.refl hvalid
  | @int id d hid hd hsubset =>
      obtain ⟨hvalid', hnarrows⟩ := changeInt_narrows hvalid hid hd hsubset
      apply accounts_of_record (w := .int id) hvalid' hnarrows
        (t := { s with ints := s.ints.setIfInBounds id d }) rfl
      rw [eventsTo_changeInt hid]
      rfl
  | @float id d hid hd hsmaller =>
      obtain ⟨hvalid', hnarrows⟩ := changeFloat_narrows hvalid hid hd hsmaller
      apply accounts_of_record (w := .float id) hvalid' hnarrows
        (t := { s with floats := s.floats.setIfInBounds id d }) rfl
      rw [eventsTo_changeFloat hid]
      rfl
  | @set id d hid hd hshrinks =>
      obtain ⟨hvalid', hnarrows⟩ := changeSet_narrows hvalid hid hd hshrinks
      apply accounts_of_record (w := .set id) hvalid' hnarrows
        (t := { s with sets := s.sets.setIfInBounds id d }) rfl
      rw [eventsTo_changeSet hid]
      rfl

theorem changeSet_self (s : Store) (id : Nat) : s.changeSet id (s.set id) = s := by
  unfold changeSet
  rw [SetDomain.eventsTo_self, record_empty]
  exact congrArg (fun sets => { s with sets }) (setIfInBounds_getD _ _ _)

/-- What a narrowing of a discrete variable makes pending and what it returns are what
happened to the variable.  Nothing happened to the others. -/
structure Reports (s : Store) (w : Variable) (change : Change) (s' : Store) : Prop where
  recorded : ∃ events : EventSet, s'.pending = (s.record w events).pending ∧
    ∀ event, events.contains event = true ↔ s.Happened s' w event
  assigned : change = .assigned ↔ s.Happened s' w .assign
  bounds : change = .bounds ↔ ¬s.Happened s' w .assign ∧
    (s.Happened s' w .lowerBound ∨ s.Happened s' w .upperBound)
  domain : change = .domain ↔ ¬s.Happened s' w .assign ∧
    ¬s.Happened s' w .lowerBound ∧ ¬s.Happened s' w .upperBound ∧ s.Happened s' w .removal
  none : change = .none ↔ s' = s
  frame : ∀ other event, other ≠ w → ¬s.Happened s' other event

theorem not_happened_self (hvalid : s.Valid) (w : Variable) (event : Event) :
    ¬s.Happened s w event := by
  cases w with
  | float _ => exact not_false
  | int id =>
      have hdiscrete : (Variable.int id).IsDiscrete := trivial
      rw [← contains_eventsTo hdiscrete hvalid hvalid]
      simp [eventsTo]
  | set id =>
      have hdiscrete : (Variable.set id).IsDiscrete := trivial
      rw [← contains_eventsTo hdiscrete hvalid hvalid]
      simp [eventsTo]

/-- A change is reported that is told by its events and returns the strongest of them. -/
theorem reports_of_eventsTo {w : Variable} (hdiscrete : w.IsDiscrete) (hvalid : s.Valid)
    (hvalid' : s'.Valid) (hpending : s'.pending = (s.record w (s.eventsTo s' w)).pending)
    (hsame : (s.eventsTo s' w).removal = false → s' = s)
    (hframe : ∀ other event, other ≠ w → ¬s.Happened s' other event) :
    s.Reports w (.ofEvents (s.eventsTo s' w)) s' := by
  have hevents : ∀ event, (s.eventsTo s' w).contains event = true ↔ s.Happened s' w event :=
    fun _ => contains_eventsTo hdiscrete hvalid hvalid'
  have hnone : Change.ofEvents (s.eventsTo s' w) = .none ↔ s' = s := by
    constructor
    · intro hchange
      apply hsame
      by_contra hremoval
      unfold Change.ofEvents at hchange
      split_ifs at hchange
      simp_all
    · intro heq
      have hempty : s.eventsTo s' w = .empty := by
        cases w with
        | float id => exact hdiscrete.elim
        | int id => simp [eventsTo, heq]
        | set id => simp [eventsTo, heq]
      rw [hempty]
      rfl
  refine ⟨⟨_, hpending, hevents⟩, ?_, ?_, ?_, hnone, hframe⟩ <;>
  · simp only [← hevents, EventSet.contains, Change.ofEvents]
    cases (s.eventsTo s' w).assign <;> cases (s.eventsTo s' w).lowerBound <;>
      cases (s.eventsTo s' w).upperBound <;> cases (s.eventsTo s' w).removal <;> simp

/-- To the other variables nothing happens. -/
theorem happened_changeInt_of_ne {id : Nat} (hid : id < s.ints.size) (d : IntDomain)
    {other : Variable} (hother : other ≠ .int id) {event : Event} :
    s.Happened (s.changeInt id d) other event ↔ s.Happened s other event := by
  cases other with
  | int other =>
      have hne : other ≠ id := fun heq => hother (heq ▸ rfl)
      cases event <;> simp only [Happened, int_changeInt hid, if_neg hne]
  | float other => exact Iff.rfl
  | set other => cases event <;> exact Iff.rfl

theorem happened_changeSet_of_ne {id : Nat} (hid : id < s.sets.size) (d : SetDomain)
    {other : Variable} (hother : other ≠ .set id) {event : Event} :
    s.Happened (s.changeSet id d) other event ↔ s.Happened s other event := by
  cases other with
  | int other => cases event <;> exact Iff.rfl
  | float other => exact Iff.rfl
  | set other =>
      have hne : other ≠ id := fun heq => hother (heq ▸ rfl)
      cases event <;> simp only [Happened, set_changeSet hid, if_neg hne]

theorem Move.reports {w : Variable} {change : Change}
    (hmove : s.Move (some w) (.ok change s')) (hdiscrete : w.IsDiscrete) (hvalid : s.Valid) :
    s.Reports w change s' := by
  cases hmove with
  | idle =>
      have hempty : s.eventsTo s w = .empty := by
        cases w with
        | float id => exact hdiscrete.elim
        | int id => exact IntDomain.eventsTo_self _
        | set id => exact SetDomain.eventsTo_self _
      have hreports := reports_of_eventsTo hdiscrete hvalid hvalid (by simp [hempty])
        (fun _ => rfl) fun other event _ => not_happened_self hvalid other event
      rwa [hempty] at hreports
  | @int id d hid hd hsubset =>
      obtain ⟨hvalid', hnarrows⟩ := changeInt_narrows hvalid hid hd hsubset
      have hevents := eventsTo_changeInt hid d
      rw [← hevents]
      apply reports_of_eventsTo hdiscrete hvalid hvalid'
      · rw [hevents]
        rfl
      · intro hremoval
        obtain rfl : d = s.int id := by
          simpa [hevents, IntDomain.eventsTo] using hremoval
        exact changeInt_self s id
      · intro other event hother
        rw [happened_changeInt_of_ne hid d hother]
        exact not_happened_self hvalid other event
  | float hid hd hsmaller => exact hdiscrete.elim
  | @set id d hid hd hshrinks =>
      obtain ⟨hvalid', hnarrows⟩ := changeSet_narrows hvalid hid hd hshrinks
      have hevents := eventsTo_changeSet hid d
      rw [← hevents]
      apply reports_of_eventsTo hdiscrete hvalid hvalid'
      · rw [hevents]
        rfl
      · intro hremoval
        obtain rfl : d = s.set id := by
          simpa [hevents, SetDomain.eventsTo] using hremoval
        exact changeSet_self s id
      · intro other event hother
        rw [happened_changeSet_of_ne hid d hother]
        exact not_happened_self hvalid other event

end Store

namespace Narrow

/-- Every run of the computation is one narrowing, of the given variable if of any. -/
def Single (v : Option Variable) (m : Narrow Change) : Prop :=
  ∀ s : Store, s.Valid → s.Move v (m s)

variable {v : Option Variable} {m : Narrow Change}

theorem Single.honest (hsingle : Single v m) : Honest m :=
  fun s hvalid => (hsingle s hvalid).accounts hvalid

theorem single_none (v : Option Variable) : Single v (pure .none) := fun _ _ => .idle

theorem single_throw (v : Option Variable) (misstep : Misstep) : Single v (throw misstep) :=
  fun _ _ => .refused misstep

theorem single_narrowInt {op : IntDomain → Option (IntDomain × EventSet)}
    {keep : Int → Prop} (hop : IntDomain.Restricts op keep) (id : Nat) :
    Single (some (.int id)) (Store.narrowInt id op) := by
  intro s hvalid
  by_cases hid : id < s.ints.size
  · rcases Store.narrowInt_cases hop hvalid hid with ⟨hrun, -⟩ | ⟨d, hrun, hd, hmem⟩
    · rw [hrun]
      exact .refused _
    · rw [hrun]
      exact .int hid hd fun x hx => ((hmem x).mp hx).1
  · rw [Store.narrowInt_of_size_le (not_lt.mp hid)]
    exact .refused _

theorem single_narrowSet {op : SetDomain → Option (SetDomain × EventSet)}
    {keep : Finset Int → Prop} (hop : SetDomain.Restricts op keep) (id : Nat) :
    Single (some (.set id)) (Store.narrowSet id op) := by
  intro s hvalid
  by_cases hid : id < s.sets.size
  · rcases Store.narrowSet_cases hop hvalid hid with
      ⟨hrun, -⟩ | ⟨d, hrun, hd, hshrinks, -⟩
    · rw [hrun]
      exact .refused _
    · rw [hrun]
      exact .set hid hd hshrinks
  · rw [Store.narrowSet_of_size_le (not_lt.mp hid)]
    exact .refused _

theorem single_narrowFloat {op : FloatDomain → Option (FloatDomain × EventSet)}
    (hop : FloatDomain.Shrinks op) (id : Nat) :
    Single (some (.float id)) (Store.narrowFloat id op) := by
  intro s hvalid
  by_cases hid : id < s.floats.size
  · have hd : s.floats[id]? = some (s.float id) := by
      simp [Store.float, hid]
    cases hresult : op (s.float id) with
    | none =>
        simp only [Store.narrowFloat, hd, hresult]
        exact .refused _
    | some result =>
        obtain ⟨d, events⟩ := result
        obtain ⟨hd', rfl, hsmaller⟩ := hop _ (hvalid.float id) d events hresult
        simp only [Store.narrowFloat, hd, hresult]
        exact .float hid hd' hsmaller
  · have hnone : s.floats[id]? = none := by
      simp [not_lt.mp hid]
    simp only [Store.narrowFloat, hnone]
    exact .refused _

theorem single_narrowFloatBound (id : Nat) (side : Side) (value : Double) :
    Single (some (.float id)) (Store.narrowFloatBound id side value) := by
  intro s hvalid
  unfold Store.narrowFloatBound
  split
  · exact .refused _
  next hnumber =>
  by_cases hnan : value.isNaN = true
  · -- the variable was never created, so nothing is asked of the bound
    have hnone : s.floats[id]? = none := by
      simpa [Store.knows, hnan] using hnumber
    cases side <;>
    · simp only [Store.narrowFloat, hnone]
      exact .refused _
  · rw [Bool.not_eq_true] at hnan
    cases side with
    | lower => exact single_narrowFloat (FloatDomain.setLower_shrinks hnan) id s hvalid
    | upper => exact single_narrowFloat (FloatDomain.setUpper_shrinks hnan) id s hvalid

end Narrow

end ConstraintSpace
