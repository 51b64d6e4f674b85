import ConstraintSpace.Proofs.Store.Change

/-!
# Assignments

An assignment gives every integer variable a number and every set variable a
finite set.  A store admits an assignment when every variable has its value in
its domain; floating point variables are left out.  A store refines another one
when it has all variables of that one and no larger domain for any of them, so
that it admits nothing new.  Narrowing a store and adding variables to it both
refine it.
-/

namespace ConstraintSpace

structure Assignment where
  ints : List Int
  sets : List (Finset Int)
deriving DecidableEq

namespace Assignment

def int (a : Assignment) (id : Nat) : Int := a.ints[id]?.getD 0

def set (a : Assignment) (id : Nat) : Finset Int := a.sets[id]?.getD ∅

/-- The assignment that gives one integer variable another number. -/
def putInt (a : Assignment) (id : Nat) (x : Int) : Assignment :=
  { a with
    ints := (List.range (max (id + 1) a.ints.length)).map fun other =>
      if other = id then x else a.int other }

theorem int_putInt (a : Assignment) (id : Nat) (x : Int) (other : Nat) :
    (a.putInt id x).int other = if other = id then x else a.int other := by
  by_cases hother : other < max (id + 1) a.ints.length
  · simp [int, putInt, hother]
  · have hne : other ≠ id := by omega
    have hlength : a.ints.length ≤ other := by omega
    rw [if_neg hne]
    unfold int putInt
    rw [List.getElem?_eq_none (by simpa using hother), List.getElem?_eq_none hlength]

@[simp] theorem set_putInt (a : Assignment) (id : Nat) (x : Int) :
    (a.putInt id x).set = a.set := rfl

end Assignment

namespace Store

/-- Every variable of the store has its value in its domain. -/
structure Admits (s : Store) (a : Assignment) : Prop where
  int : ∀ id < s.ints.size, a.int id ∈ s.int id
  set : ∀ id < s.sets.size, a.set id ∈ s.set id

theorem Valid.exists_admits {s : Store} (hvalid : s.Valid) : ∃ a, s.Admits a := by
  choose sets hsets using fun id => (hvalid.set id).exists_mem
  refine ⟨⟨(List.range s.ints.size).map fun id => (s.int id).lower,
    (List.range s.sets.size).map sets⟩, fun id hid => ?_, fun id hid => ?_⟩
  · simpa [Assignment.int, hid] using (hvalid.int id).lower_mem
  · simpa [Assignment.set, hid] using hsets id

/-- Every set of a domain is the value of its variable in some admitted assignment. -/
theorem Valid.exists_admits_set {s : Store} (hvalid : s.Valid) {id : Nat}
    (hid : id < s.sets.size) {elements : Finset Int} (hmem : elements ∈ s.set id) :
    ∃ a, s.Admits a ∧ a.set id = elements := by
  obtain ⟨a, ha⟩ := hvalid.exists_admits
  let put : Assignment :=
    { a with
      sets := (List.range s.sets.size).map fun other =>
        if other = id then elements else a.set other }
  have hput : ∀ other < s.sets.size,
      put.set other = if other = id then elements else a.set other := by
    intro other hother
    simp [put, Assignment.set, hother]
  refine ⟨put, ⟨ha.int, ?_⟩, by rw [hput id hid, if_pos rfl]⟩
  intro other hother
  rw [hput other hother]
  split
  next heq => exact heq ▸ hmem
  next => exact ha.set other hother

/-- Every number of a domain is the value of its variable in some admitted assignment. -/
theorem Valid.exists_admits_int {s : Store} (hvalid : s.Valid) {id : Nat} {x : Int}
    (hmem : x ∈ s.int id) : ∃ a, s.Admits a ∧ a.int id = x := by
  obtain ⟨a, ha⟩ := hvalid.exists_admits
  refine ⟨a.putInt id x, ⟨fun other hother => ?_, ha.set⟩, ?_⟩
  · rw [Assignment.int_putInt]
    split
    next heq => exact heq ▸ hmem
    next => exact ha.int other hother
  · rw [Assignment.int_putInt, if_pos rfl]

/-- Two arrays of one size that read the same are equal. -/
theorem eq_of_getD_eq {α : Type} {xs ys : Array α} (default : α) (hsize : xs.size = ys.size)
    (hsame : ∀ id < xs.size, xs[id]?.getD default = ys[id]?.getD default) : xs = ys := by
  refine Array.ext hsize fun id hid hid' => ?_
  have hget := hsame id hid
  rwa [Array.getElem?_eq_getElem hid, Array.getElem?_eq_getElem hid', Option.getD_some,
    Option.getD_some] at hget

/-- The domains of a store are determined by the assignments that it admits. -/
theorem eq_of_admits_iff {s s' : Store} (hvalid : s.Valid) (hvalid' : s'.Valid)
    (hints : s.ints.size = s'.ints.size) (hsets : s.sets.size = s'.sets.size)
    (hsame : ∀ a, s.Admits a ↔ s'.Admits a) : s.ints = s'.ints ∧ s.sets = s'.sets := by
  have hint : ∀ id < s.ints.size, s.int id = s'.int id := by
    intro id hid
    refine (hvalid.int id).eq_of_mem_iff (hvalid'.int id) fun x => ⟨fun hx => ?_, fun hx => ?_⟩
    · obtain ⟨a, ha, rfl⟩ := hvalid.exists_admits_int hx
      exact ((hsame a).mp ha).int id (hints ▸ hid)
    · obtain ⟨a, ha, rfl⟩ := hvalid'.exists_admits_int hx
      exact ((hsame a).mpr ha).int id hid
  have hset : ∀ id < s.sets.size, s.set id = s'.set id := by
    intro id hid
    refine (hvalid.set id).eq_of_mem_iff (hvalid'.set id) fun x => ⟨fun hx => ?_, fun hx => ?_⟩
    · obtain ⟨a, ha, rfl⟩ := hvalid.exists_admits_set hid hx
      exact ((hsame a).mp ha).set id (hsets ▸ hid)
    · obtain ⟨a, ha, rfl⟩ := hvalid'.exists_admits_set (hsets ▸ hid) hx
      exact ((hsame a).mpr ha).set id hid
  exact ⟨eq_of_getD_eq _ hints hint, eq_of_getD_eq _ hsets hset⟩

/-- The store has all variables of the other one and no larger domains. -/
structure Refines (s s' : Store) : Prop where
  ints_size : s.ints.size ≤ s'.ints.size
  sets_size : s.sets.size ≤ s'.sets.size
  int_subset : ∀ id < s.ints.size, ∀ x, x ∈ s'.int id → x ∈ s.int id
  set_shrinks : ∀ id < s.sets.size, (s.set id).Shrinks (s'.set id)

theorem Refines.refl (s : Store) : s.Refines s :=
  ⟨le_refl _, le_refl _, fun _ _ _ hx => hx, fun _ _ => SetDomain.Shrinks.refl _⟩

theorem Refines.trans {s s' s'' : Store}
    (hfirst : s.Refines s') (hsecond : s'.Refines s'') : s.Refines s'' :=
  ⟨hfirst.ints_size.trans hsecond.ints_size, hfirst.sets_size.trans hsecond.sets_size,
    fun id hid x hx => hfirst.int_subset id hid x
      (hsecond.int_subset id (hid.trans_le hfirst.ints_size) x hx),
    fun id hid => (hfirst.set_shrinks id hid).trans
      (hsecond.set_shrinks id (hid.trans_le hfirst.sets_size))⟩

theorem Narrows.refines {s s' : Store} (hnarrows : s.Narrows s') : s.Refines s' :=
  ⟨hnarrows.ints_size.ge, hnarrows.sets_size.ge,
    fun id _ => hnarrows.int_subset id, fun id _ => hnarrows.set_shrinks id⟩

theorem Refines.admits {s s' : Store} (hrefines : s.Refines s')
    {a : Assignment} (ha : s'.Admits a) : s.Admits a :=
  ⟨fun id hid => hrefines.int_subset id hid _
      (ha.int id (hid.trans_le hrefines.ints_size)),
    fun id hid => (hrefines.set_shrinks id hid).mem
      (ha.set id (hid.trans_le hrefines.sets_size))⟩

/-- What changed of a variable between two stores. -/
def eventsTo (s s' : Store) : Variable → EventSet
  | .int id => (s.int id).eventsTo (s'.int id)
  | .float id => (s.float id).eventsTo (s'.float id)
  | .set id => (s.set id).eventsTo (s'.set id)

theorem Narrows.mem_pending {s s' : Store} (hnarrows : s.Narrows s')
    {v : Variable} {event : Event}
    (hevent : (s.eventsTo s' v).contains event = true) :
    (event, v) ∈ s'.pending := by
  cases v with
  | int id => exact hnarrows.int_events id event hevent
  | float id => exact hnarrows.float_events id event hevent
  | set id => exact hnarrows.set_events id event hevent

/-! ## Computations seen through assignments -/

/-- The computation keeps exactly the admitted assignments that satisfy `keep`,
or is refused where there is none. -/
def KeepsExactly {α : Type} (m : Narrow α) (keep : Assignment → Prop)
    (s : Store) : Prop :=
  (m s = .error .emptied s ∧ ∀ a, s.Admits a → ¬keep a) ∨
    ∃ x s', m s = .ok x s' ∧ ∀ a, s'.Admits a ↔ s.Admits a ∧ keep a

theorem KeepsExactly.admits_of_ok {α : Type} {m : Narrow α} {keep : Assignment → Prop}
    {s s' : Store} {x : α} (hkeeps : KeepsExactly m keep s) (hrun : m s = .ok x s')
    (a : Assignment) : s'.Admits a ↔ s.Admits a ∧ keep a := by
  rcases hkeeps with ⟨hrefused, -⟩ | ⟨_, t, hok, hmem⟩
  · simp [hrun] at hrefused
  · rw [hrun, EStateM.Result.ok.injEq] at hok
    obtain ⟨-, rfl⟩ := hok
    exact hmem a

theorem KeepsExactly.congr {α : Type} {m : Narrow α} {keep keep' : Assignment → Prop}
    {s : Store} (hkeeps : KeepsExactly m keep s)
    (hsame : ∀ a, s.Admits a → (keep a ↔ keep' a)) : KeepsExactly m keep' s := by
  rcases hkeeps with ⟨hrun, hempty⟩ | ⟨x, s', hrun, hmem⟩
  · exact Or.inl ⟨hrun, fun a ha hkeep => hempty a ha ((hsame a ha).mpr hkeep)⟩
  · exact Or.inr ⟨x, s', hrun, fun a => (hmem a).trans
      (and_congr_right fun ha => hsame a ha)⟩

/-- Narrowing a set variable keeps the assignments that give it a set kept. -/
theorem narrowSet_keepsExactly {op : SetDomain → Option (SetDomain × EventSet)}
    {keep : Finset Int → Prop} (hop : SetDomain.Restricts op keep)
    {s : Store} (hvalid : s.Valid) {id : Nat} (hid : id < s.sets.size) :
    KeepsExactly (narrowSet id op) (fun a => keep (a.set id)) s := by
  rcases narrowSet_cases hop hvalid hid with ⟨hrun, hempty⟩ | ⟨d, hrun, hd, hshrinks, hmem⟩
  · exact Or.inl ⟨hrun, fun a ha => hempty _ (ha.set id hid)⟩
  · refine Or.inr ⟨_, _, hrun, fun a => ⟨fun ha => ?_, fun ⟨ha, hkeep⟩ => ?_⟩⟩
    · have hrefines := (changeSet_narrows hvalid hid hd hshrinks).2.refines
      refine ⟨hrefines.admits ha, ?_⟩
      have hnew := ha.set id (hid.trans_le hrefines.sets_size)
      rw [set_changeSet hid, if_pos rfl] at hnew
      exact ((hmem _).mp hnew).2
    · refine ⟨ha.int, fun other hother => ?_⟩
      have hsize : other < s.sets.size := by
        simpa [changeSet] using hother
      rw [set_changeSet hid]
      split
      next heq =>
        subst heq
        exact (hmem _).mpr ⟨ha.set _ hid, hkeep⟩
      next => exact ha.set other hsize

end Store

end ConstraintSpace
