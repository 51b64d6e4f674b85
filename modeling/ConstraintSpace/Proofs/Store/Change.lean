import ConstraintSpace.Proofs.Store.Narrowing

/-!
# Changing one domain

Every narrowing of a store replaces the domain of one variable by a smaller one
and makes the events of the change pending.  A computation that is built from
such narrowings leaves, wherever it stops, a valid store that the first one
narrows to.
-/

namespace ConstraintSpace

namespace Store

/-! ## Changing one domain -/

theorem getD_setIfInBounds {α : Type} {xs : Array α} {id : Nat}
    (hid : id < xs.size) (x default : α) (other : Nat) :
    (xs.setIfInBounds id x)[other]?.getD default =
      if other = id then x else xs[other]?.getD default := by
  rw [Array.getElem?_setIfInBounds]
  by_cases heq : id = other
  · subst heq
    simp [hid]
  · rw [if_neg heq, if_neg (Ne.symm heq)]

theorem setIfInBounds_self {α : Type} {xs : Array α} {id : Nat} {x : α}
    (hx : xs[id]? = some x) : xs.setIfInBounds id x = xs := by
  refine Array.ext_getElem? fun other => ?_
  rw [Array.getElem?_setIfInBounds]
  split
  next heq =>
    subst heq
    split
    · exact hx.symm
    next hge => simp [Array.getElem?_eq_none (not_lt.mp hge)]
  next => rfl

theorem setIfInBounds_getD {α : Type} (xs : Array α) (id : Nat) (default : α) :
    xs.setIfInBounds id (xs[id]?.getD default) = xs := by
  apply Array.ext_getElem?
  intro i
  rw [Array.getElem?_setIfInBounds]
  split
  next heq =>
    subst heq
    split
    next hlt => simp [hlt]
    next hge => simp [Array.getElem?_eq_none (not_lt.mp hge)]
  next => rfl

/-- The store after one integer domain changed. -/
def changeInt (s : Store) (id : Nat) (d : IntDomain) : Store :=
  { s with ints := s.ints.setIfInBounds id d }.record (.int id)
    ((s.int id).eventsTo d)

def changeFloat (s : Store) (id : Nat) (d : FloatDomain) : Store :=
  { s with floats := s.floats.setIfInBounds id d }.record (.float id)
    ((s.float id).eventsTo d)

def changeSet (s : Store) (id : Nat) (d : SetDomain) : Store :=
  { s with sets := s.sets.setIfInBounds id d }.record (.set id)
    ((s.set id).eventsTo d)

theorem int_changeInt {s : Store} {id : Nat} (hid : id < s.ints.size)
    (d : IntDomain) (other : Nat) :
    (s.changeInt id d).int other = if other = id then d else s.int other := by
  simp only [int, changeInt, ints_record, getD_setIfInBounds hid]

theorem float_changeFloat {s : Store} {id : Nat} (hid : id < s.floats.size)
    (d : FloatDomain) (other : Nat) :
    (s.changeFloat id d).float other = if other = id then d else s.float other := by
  simp only [float, changeFloat, floats_record, getD_setIfInBounds hid]

theorem set_changeSet {s : Store} {id : Nat} (hid : id < s.sets.size)
    (d : SetDomain) (other : Nat) :
    (s.changeSet id d).set other = if other = id then d else s.set other := by
  simp only [set, changeSet, sets_record, getD_setIfInBounds hid]

@[simp] theorem changeInt_self (s : Store) (id : Nat) :
    s.changeInt id (s.int id) = s := by
  unfold changeInt
  rw [IntDomain.eventsTo_self, record_empty]
  exact congrArg (fun ints => { s with ints }) (setIfInBounds_getD _ _ _)

theorem changeInt_narrows {s : Store} (hvalid : s.Valid) {id : Nat}
    (hid : id < s.ints.size) {d : IntDomain} (hd : d.Valid)
    (hsubset : ∀ x, x ∈ d → x ∈ s.int id) :
    (s.changeInt id d).Valid ∧ s.Narrows (s.changeInt id d) := by
  have hint := int_changeInt hid d
  have hlower := IntDomain.lower_le_of_mem (hsubset _ hd.lower_mem)
  have hupper := IntDomain.le_upper_of_mem (hsubset _ hd.upper_mem)
  refine ⟨⟨fun other => ?_, fun other => ?_, hvalid.float, hvalid.set⟩,
    ⟨by simp [changeInt, record], rfl, rfl, fun other x hx => ?_,
      fun _ => SetDomain.Shrinks.refl _, fun p hp => ?_, fun other event hevent => ?_,
      ?_, ?_, ?_⟩⟩
  · rw [hint]
    split
    · exact hd
    · exact hvalid.int other
  · rw [hint]
    split
    · have := hvalid.limits id
      unfold IntDomain.InLimits at *
      omega
    · exact hvalid.limits other
  · rw [hint] at hx
    split at hx
    next heq =>
      subst heq
      exact hsubset x hx
    next => exact hx
  · exact mem_pending_record.mpr (Or.inl hp)
  · rw [hint] at hevent
    split at hevent
    next heq =>
      subst heq
      exact mem_pending_record.mpr (Or.inr ⟨hevent, rfl⟩)
    next => simp at hevent
  · intro other event hevent
    have hsame : (s.changeInt id d).float other = s.float other := rfl
    rw [hsame, (hvalid.float other).eventsTo_self] at hevent
    simp at hevent
  · intro other event hevent
    have hsame : (s.changeInt id d).set other = s.set other := rfl
    rw [hsame, SetDomain.eventsTo_self] at hevent
    simp at hevent
  · by_cases hsame : d = s.int id
    · left
      rw [hsame, changeInt_self]
    · right
      have hlt := (hvalid.int id).size_lt_of_ssubset hd hsubset hsame
      have hold : s.ints[id]? = some (s.int id) := by
        simp [int, hid]
      have := foldl_setIfInBounds_lt IntDomain.size hold hlt
      simp only [changeInt, measure, ints_record, floats_record, sets_record]
      omega

theorem changeFloat_narrows {s : Store} (hvalid : s.Valid) {id : Nat}
    (hid : id < s.floats.size) {d : FloatDomain} (hd : d.Valid)
    (hsmaller : d = s.float id ∨ d.measure < (s.float id).measure) :
    (s.changeFloat id d).Valid ∧ s.Narrows (s.changeFloat id d) := by
  have hfloat := float_changeFloat hid d
  refine ⟨⟨hvalid.int, hvalid.limits, fun other => ?_, hvalid.set⟩,
    ⟨rfl, by simp [changeFloat, record], rfl, fun _ _ hx => hx,
      fun _ => SetDomain.Shrinks.refl _, fun p hp => ?_, ?_,
      fun other event hevent => ?_, ?_, ?_⟩⟩
  · rw [hfloat]
    split
    · exact hd
    · exact hvalid.float other
  · exact mem_pending_record.mpr (Or.inl hp)
  · intro other event hevent
    have hsame : (s.changeFloat id d).int other = s.int other := rfl
    rw [hsame, IntDomain.eventsTo_self] at hevent
    simp at hevent
  · rw [hfloat] at hevent
    split at hevent
    next heq =>
      subst heq
      exact mem_pending_record.mpr (Or.inr ⟨hevent, rfl⟩)
    next =>
      rw [(hvalid.float other).eventsTo_self] at hevent
      simp at hevent
  · intro other event hevent
    have hsame : (s.changeFloat id d).set other = s.set other := rfl
    rw [hsame, SetDomain.eventsTo_self] at hevent
    simp at hevent
  · rcases hsmaller with rfl | hlt
    · left
      unfold changeFloat
      rw [(hvalid.float id).eventsTo_self, record_empty]
      exact congrArg (fun floats => { s with floats }) (setIfInBounds_getD _ _ _)
    · right
      have hold : s.floats[id]? = some (s.float id) := by
        simp [float, hid]
      have := foldl_setIfInBounds_lt FloatDomain.measure hold hlt
      simp only [changeFloat, measure, ints_record, floats_record, sets_record]
      omega

theorem changeSet_narrows {s : Store} (hvalid : s.Valid) {id : Nat}
    (hid : id < s.sets.size) {d : SetDomain} (hd : d.Valid)
    (hshrinks : (s.set id).Shrinks d) :
    (s.changeSet id d).Valid ∧ s.Narrows (s.changeSet id d) := by
  have hset := set_changeSet hid d
  refine ⟨⟨hvalid.int, hvalid.limits, hvalid.float, fun other => ?_⟩,
    ⟨rfl, rfl, by simp [changeSet, record], fun _ _ hx => hx,
      fun other => ?_, fun p hp => ?_, ?_, ?_, fun other event hevent => ?_, ?_⟩⟩
  · rw [hset]
    split
    · exact hd
    · exact hvalid.set other
  · rw [hset]
    split
    next heq =>
      subst heq
      exact hshrinks
    next => exact SetDomain.Shrinks.refl _
  · exact mem_pending_record.mpr (Or.inl hp)
  · intro other event hevent
    have hsame : (s.changeSet id d).int other = s.int other := rfl
    rw [hsame, IntDomain.eventsTo_self] at hevent
    simp at hevent
  · intro other event hevent
    have hsame : (s.changeSet id d).float other = s.float other := rfl
    rw [hsame, (hvalid.float other).eventsTo_self] at hevent
    simp at hevent
  · rw [hset] at hevent
    split at hevent
    next heq =>
      subst heq
      exact mem_pending_record.mpr (Or.inr ⟨hevent, rfl⟩)
    next => simp at hevent
  · by_cases hsame : d = s.set id
    · left
      unfold changeSet
      rw [hsame, SetDomain.eventsTo_self, record_empty]
      exact congrArg (fun sets => { s with sets }) (setIfInBounds_getD _ _ _)
    · right
      have hlt := hshrinks.measure_lt (hvalid.set id).toSpanned hd.toSpanned hsame
      have hold : s.sets[id]? = some (s.set id) := by
        simp [set, hid]
      have := foldl_setIfInBounds_lt SetDomain.measure hold hlt
      simp only [changeSet, measure, ints_record, floats_record, sets_record]
      omega

end Store

/-! ## Computations that narrow -/

/-- The store at which a computation ends or stops. -/
def Narrow.after {α : Type} (m : Narrow α) (s : Store) : Store :=
  match m s with
  | .ok _ s' => s'
  | .error _ s' => s'

/-- The computation only narrows. -/
def Narrow.Safe {α : Type} (m : Narrow α) : Prop :=
  ∀ s : Store, s.Valid → (Narrow.after m s).Valid ∧ s.Narrows (Narrow.after m s)

namespace Narrow

variable {α β : Type}

theorem after_of_ok {m : Narrow α} {s s' : Store} {x : α}
    (hrun : m s = .ok x s') : Narrow.after m s = s' := by
  simp [Narrow.after, hrun]

theorem after_of_error {m : Narrow α} {s s' : Store} {e : Misstep}
    (hrun : m s = .error e s') : Narrow.after m s = s' := by
  simp [Narrow.after, hrun]

theorem Safe.of_ok {m : Narrow α} (hsafe : Narrow.Safe m) {s s' : Store} {x : α}
    (hvalid : s.Valid) (hrun : m s = .ok x s') : s'.Valid ∧ s.Narrows s' := by
  simpa only [after_of_ok hrun] using hsafe s hvalid

theorem Safe.of_error {m : Narrow α} (hsafe : Narrow.Safe m) {s s' : Store}
    {e : Misstep} (hvalid : s.Valid) (hrun : m s = .error e s') :
    s'.Valid ∧ s.Narrows s' := by
  simpa only [after_of_error hrun] using hsafe s hvalid

theorem safe_pure (x : α) : Narrow.Safe (pure x : Narrow α) :=
  fun _ hvalid => ⟨hvalid, Store.Narrows.refl hvalid⟩

theorem safe_throw (e : Misstep) : Narrow.Safe (throw e : Narrow α) :=
  fun _ hvalid => ⟨hvalid, Store.Narrows.refl hvalid⟩

theorem safe_get : Narrow.Safe (get : Narrow Store) :=
  fun _ hvalid => ⟨hvalid, Store.Narrows.refl hvalid⟩

theorem bind_of_ok {m : Narrow α} {k : α → Narrow β} {s s' : Store} {x : α}
    (hrun : m s = .ok x s') : (m >>= k) s = k x s' := by
  simp only [bind, EStateM.bind, hrun]

theorem bind_of_error {m : Narrow α} {k : α → Narrow β} {s s' : Store}
    {e : Misstep} (hrun : m s = .error e s') : (m >>= k) s = .error e s' := by
  simp only [bind, EStateM.bind, hrun]

theorem of_bind_eq_ok {m : Narrow α} {k : α → Narrow β} {s t : Store} {y : β}
    (hrun : (m >>= k) s = .ok y t) : ∃ x s', m s = .ok x s' ∧ k x s' = .ok y t := by
  cases hfirst : m s with
  | ok x s' =>
      rw [bind_of_ok hfirst] at hrun
      exact ⟨x, s', rfl, hrun⟩
  | error e s' =>
      rw [bind_of_error hfirst] at hrun
      cases hrun

theorem Safe.bind {m : Narrow α} {k : α → Narrow β}
    (hm : Narrow.Safe m) (hk : ∀ x, Narrow.Safe (k x)) :
    Narrow.Safe (m >>= k) := by
  intro s hvalid
  cases hrun : m s with
  | ok x s' =>
      obtain ⟨hvalid', hnarrows⟩ := hm.of_ok hvalid hrun
      obtain ⟨hvalid'', hnarrows'⟩ := hk x s' hvalid'
      have hafter : Narrow.after (m >>= k) s = Narrow.after (k x) s' := by
        simp only [Narrow.after, bind_of_ok hrun]
      rw [hafter]
      exact ⟨hvalid'', hnarrows.trans hnarrows'⟩
  | error e s' =>
      have hafter : Narrow.after (m >>= k) s = s' := by
        simp only [Narrow.after, bind_of_error hrun]
      rw [hafter]
      exact hm.of_error hvalid hrun

end Narrow

namespace Store

/-! ## Narrowing one variable -/

/-- Narrowing a known integer variable either is refused, where no value is
kept, or changes its domain to the values that are kept. -/
theorem narrowInt_cases {op : IntDomain → Option (IntDomain × EventSet)}
    {keep : Int → Prop} (hop : IntDomain.Restricts op keep)
    {s : Store} (hvalid : s.Valid) {id : Nat} (hid : id < s.ints.size) :
    (narrowInt id op s = .error .emptied s ∧ ∀ x ∈ s.int id, ¬keep x) ∨
      ∃ d, narrowInt id op s =
          .ok (.ofEvents ((s.int id).eventsTo d)) (s.changeInt id d) ∧
        d.Valid ∧ ∀ x, x ∈ d ↔ x ∈ s.int id ∧ keep x := by
  have hd : s.ints[id]? = some (s.int id) := by
    simp [int, hid]
  rcases hop (s.int id) (hvalid.int id) with ⟨hnone, hempty⟩ | ⟨d, hsome, hd', hmem⟩
  · exact Or.inl ⟨by simp only [narrowInt, hd, hnone], hempty⟩
  · exact Or.inr ⟨d, by simp only [narrowInt, hd, hsome, changeInt], hd', hmem⟩

theorem narrowInt_of_size_le {op : IntDomain → Option (IntDomain × EventSet)}
    {s : Store} {id : Nat} (hid : s.ints.size ≤ id) :
    narrowInt id op s = .error (.breached .missingVariable) s := by
  simp [narrowInt, hid]

theorem safe_narrowInt {op : IntDomain → Option (IntDomain × EventSet)}
    {keep : Int → Prop} (hop : IntDomain.Restricts op keep) (id : Nat) :
    Narrow.Safe (narrowInt id op) := by
  intro s hvalid
  by_cases hid : id < s.ints.size
  · rcases narrowInt_cases hop hvalid hid with ⟨hrun, _⟩ | ⟨d, hrun, hd, hmem⟩
    · rw [Narrow.after_of_error hrun]
      exact ⟨hvalid, Narrows.refl hvalid⟩
    · rw [Narrow.after_of_ok hrun]
      exact changeInt_narrows hvalid hid hd fun x hx => ((hmem x).mp hx).1
  · rw [Narrow.after_of_error (narrowInt_of_size_le (not_lt.mp hid))]
    exact ⟨hvalid, Narrows.refl hvalid⟩

theorem narrowSet_cases {op : SetDomain → Option (SetDomain × EventSet)}
    {keep : Finset Int → Prop} (hop : SetDomain.Restricts op keep)
    {s : Store} (hvalid : s.Valid) {id : Nat} (hid : id < s.sets.size) :
    (narrowSet id op s = .error .emptied s ∧
        ∀ x : Finset Int, x ∈ s.set id → ¬keep x) ∨
      ∃ d, narrowSet id op s =
          .ok (.ofEvents ((s.set id).eventsTo d)) (s.changeSet id d) ∧
        d.Valid ∧ (s.set id).Shrinks d ∧
        ∀ x : Finset Int, x ∈ d ↔ x ∈ s.set id ∧ keep x := by
  have hd : s.sets[id]? = some (s.set id) := by
    simp [set, hid]
  rcases hop (s.set id) (hvalid.set id) with
    ⟨hnone, hempty⟩ | ⟨d, hsome, hd', hshrinks, hmem⟩
  · exact Or.inl ⟨by simp only [narrowSet, hd, hnone], hempty⟩
  · exact Or.inr
      ⟨d, by simp only [narrowSet, hd, hsome, changeSet], hd', hshrinks, hmem⟩

theorem narrowSet_of_size_le {op : SetDomain → Option (SetDomain × EventSet)}
    {s : Store} {id : Nat} (hid : s.sets.size ≤ id) :
    narrowSet id op s = .error (.breached .missingVariable) s := by
  simp [narrowSet, hid]

theorem safe_narrowSet {op : SetDomain → Option (SetDomain × EventSet)}
    {keep : Finset Int → Prop} (hop : SetDomain.Restricts op keep) (id : Nat) :
    Narrow.Safe (narrowSet id op) := by
  intro s hvalid
  by_cases hid : id < s.sets.size
  · rcases narrowSet_cases hop hvalid hid with
      ⟨hrun, _⟩ | ⟨d, hrun, hd, hshrinks, _⟩
    · rw [Narrow.after_of_error hrun]
      exact ⟨hvalid, Narrows.refl hvalid⟩
    · rw [Narrow.after_of_ok hrun]
      exact changeSet_narrows hvalid hid hd hshrinks
  · rw [Narrow.after_of_error (narrowSet_of_size_le (not_lt.mp hid))]
    exact ⟨hvalid, Narrows.refl hvalid⟩

theorem safe_narrowFloat {op : FloatDomain → Option (FloatDomain × EventSet)}
    (hop : FloatDomain.Shrinks op) (id : Nat) :
    Narrow.Safe (narrowFloat id op) := by
  intro s hvalid
  by_cases hid : id < s.floats.size
  · have hd : s.floats[id]? = some (s.float id) := by
      simp [float, hid]
    cases hresult : op (s.float id) with
    | none =>
        have hrun : narrowFloat id op s = .error .emptied s := by
          simp only [narrowFloat, hd, hresult]
        rw [Narrow.after_of_error hrun]
        exact ⟨hvalid, Narrows.refl hvalid⟩
    | some result =>
        obtain ⟨d, events⟩ := result
        obtain ⟨hd', rfl, hsmaller⟩ := hop _ (hvalid.float id) d events hresult
        have hrun : narrowFloat id op s =
            .ok (.ofEvents ((s.float id).eventsTo d)) (s.changeFloat id d) := by
          simp only [narrowFloat, hd, hresult, changeFloat]
        rw [Narrow.after_of_ok hrun]
        exact changeFloat_narrows hvalid hid hd' hsmaller
  · have hrun : narrowFloat id op s = .error (.breached .missingVariable) s := by
      simp [narrowFloat, not_lt.mp hid]
    rw [Narrow.after_of_error hrun]
    exact ⟨hvalid, Narrows.refl hvalid⟩

theorem safe_narrowFloatBound (id : Nat) (side : Side) (value : Double) :
    Narrow.Safe (narrowFloatBound id side value) := by
  intro s hvalid
  by_cases hbreach : (s.knows (.float id) && value.isNaN) = true
  · have hrun : narrowFloatBound id side value s =
        .error (.breached .notANumber) s := by
      simp only [narrowFloatBound, hbreach, if_true]
    rw [Narrow.after_of_error hrun]
    exact ⟨hvalid, Narrows.refl hvalid⟩
  · by_cases hnumber : value.isNaN = true
    · have hid : ¬id < s.floats.size := by
        simpa [knows, hnumber] using hbreach
      have hrun : narrowFloatBound id side value s =
          .error (.breached .missingVariable) s := by
        cases side <;>
          simp [narrowFloatBound, hbreach, narrowFloat, not_lt.mp hid]
      rw [Narrow.after_of_error hrun]
      exact ⟨hvalid, Narrows.refl hvalid⟩
    · rw [Bool.not_eq_true] at hnumber
      cases side with
      | lower =>
          have hrun : Narrow.after (narrowFloatBound id .lower value) s =
              Narrow.after (narrowFloat id (FloatDomain.setLower value)) s := by
            simp [Narrow.after, narrowFloatBound, hnumber]
          rw [hrun]
          exact safe_narrowFloat (FloatDomain.setLower_shrinks hnumber) id s hvalid
      | upper =>
          have hrun : Narrow.after (narrowFloatBound id .upper value) s =
              Narrow.after (narrowFloat id (FloatDomain.setUpper value)) s := by
            simp [Narrow.after, narrowFloatBound, hnumber]
          rw [hrun]
          exact safe_narrowFloat (FloatDomain.setUpper_shrinks hnumber) id s hvalid

end Store

end ConstraintSpace
