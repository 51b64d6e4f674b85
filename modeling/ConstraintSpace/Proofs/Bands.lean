import ConstraintSpace.Proofs.Waiting

/-!
# Four lists, first in, first out

To its callers the queue is four lists of propagators, one for every priority.  A
propagator that waits in none of them is put at the end of one, the first of the most
urgent list that is not empty is taken out, and clearing empties them all.  The queue
keeps in step with the lists through any sequence of calls, and gives the answers that they
give.  Beside the bands it keeps flags, a count and the priorities that are present; these
agree with the lists after every call, so that no call looks where there is nothing.
-/

namespace ConstraintSpace

/-! ## The lists -/

/-- The propagators that wait with each priority, the longest waiting first. -/
abbrev Bands : Type := Priority → List Nat

namespace Bands

def idle : Bands := fun _ => []

def Waits (bands : Bands) (id : Nat) : Prop := ∃ p, id ∈ bands p

theorem waits_iff {bands : Bands} {id : Nat} :
    bands.Waits id ↔ ∃ p ∈ Priority.all, id ∈ bands p :=
  exists_congr fun p => (and_iff_right (by cases p <;> decide)).symm

instance (bands : Bands) (id : Nat) : Decidable (bands.Waits id) :=
  decidable_of_iff _ waits_iff.symm

def enqueue (bands : Bands) (id : Nat) (p : Priority) : Bands :=
  if bands.Waits id then bands else Function.update bands p (bands p ++ [id])

/-- Takes the first of the most urgent list that is not empty. -/
def pop (bands : Bands) : Option Nat × Bands :=
  match Priority.all.find? fun p => bands p ≠ [] with
  | none => (none, bands)
  | some p => ((bands p).head?, Function.update bands p (bands p).tail)

end Bands

namespace Queue

/-! ## Calls -/

inductive Call where
  | enqueue (id : Nat) (p : Priority)
  | pop
  | clear
deriving DecidableEq, Repr

/-- One call after the other, with the answer to each; only popping has one. -/
def serve {State : Type} (step : State → Call → Option Nat × State) :
    State → List Call → List (Option Nat) × State
  | state, [] => ([], state)
  | state, call :: rest =>
    let (answer, next) := step state call
    let (answers, last) := serve step next rest
    (answer :: answers, last)

def step (q : Queue) : Call → Option Nat × Queue
  | .enqueue id p => (none, q.enqueue id p)
  | .pop =>
    match q.pop? with
    | none => (none, q)
    | some (id, rest) => (some id, rest)
  | .clear => (none, q.clear)

end Queue

def Bands.step (bands : Bands) : Queue.Call → Option Nat × Bands
  | .enqueue id p => (none, bands.enqueue id p)
  | .pop => bands.pop
  | .clear => (none, .idle)

namespace Queue

/-! ## Calls that look before they reach

An index has to be within its array, a band that is present has to have a propagator, and
the count has to be positive where one is taken off.  The calls have no result otherwise.
-/

/-- The bands in the places that the ranks of their priorities name. -/
def places (q : Queue) : Array (Fifo Nat) := #[q.high, q.medium, q.low, q.veryLow]

/-- Makes a flag for the propagator where there is none yet. -/
def accommodate (flags : Array Bool) (id : Nat) : Array Bool :=
  if id < flags.size then flags else flags ++ Array.replicate (id + 1 - flags.size) false

def setFlag? (flags : Array Bool) (id : Nat) (value : Bool) : Option (Array Bool) :=
  if id < flags.size then some (flags.setIfInBounds id value) else none

def countDown? (count : Nat) : Option Nat := if 0 < count then some (count - 1) else none

def enqueue? (q : Queue) (id : Nat) (p : Priority) : Option Queue :=
  if q.isQueued id then some q
  else do
    let queued ← setFlag? (accommodate q.queued id) id true
    let band ← q.places[p.rank]?
    let present := if band.isEmpty then insertPresent p q.present else q.present
    some { q.setBand p (band.push id) with queued, count := q.count + 1, present }

def popChecked? (q : Queue) : Option (Option Nat × Queue) :=
  match q.present with
  | [] => some (none, q)
  | p :: rest => do
    let band ← q.places[p.rank]?
    let (id, remaining) ← band.pop?
    let queued ← setFlag? q.queued id false
    let count ← countDown? q.count
    let present := if remaining.isEmpty then rest else q.present
    some (some id, { q.setBand p remaining with queued, count, present })

def emptyBand? (q : Queue) (p : Priority) : Option Queue := do
  let _ ← q.places[p.rank]?
  some (q.setBand p .empty)

def clear? (q : Queue) : Option Queue := do
  let emptied ← q.present.foldlM emptyBand? q
  some { emptied with queued := q.queued.map fun _ => false, count := 0, present := [] }

def step? (q : Queue) : Call → Option (Option Nat × Queue)
  | .enqueue id p => do
    let next ← q.enqueue? id p
    some (none, next)
  | .pop => q.popChecked?
  | .clear => do
    let next ← q.clear?
    some (none, next)

def serve? : Queue → List Call → Option (List (Option Nat) × Queue)
  | q, [] => some ([], q)
  | q, call :: rest => do
    let (answer, next) ← q.step? call
    let (answers, last) ← serve? next rest
    some (answer :: answers, last)

variable {q q' : Queue} {id : Nat} {p : Priority} {bands : Bands}

@[simp]
theorem places_rank (q : Queue) (p : Priority) : q.places[p.rank]? = some (q.band p) := by
  cases p <;> rfl

theorem setFlag?_accommodate (flags : Array Bool) (id : Nat) :
    setFlag? (accommodate flags id) id true = some (flag flags id) := by
  have hsize : id < (accommodate flags id).size := by
    unfold accommodate
    split
    next hless => exact hless
    next =>
      rw [Array.size_append, Array.size_replicate]
      omega
  exact if_pos hsize

theorem setFlag?_of_isQueued (hqueued : q.isQueued id = true) (value : Bool) :
    setFlag? q.queued id value = some (q.queued.setIfInBounds id value) := by
  have hsize : id < q.queued.size := by
    by_contra hnot
    simp [isQueued, Array.getElem?_eq_none (not_lt.mp hnot)] at hqueued
  exact if_pos hsize

theorem enqueue?_eq (q : Queue) (id : Nat) (p : Priority) :
    q.enqueue? id p = some (q.enqueue id p) := by
  unfold enqueue? enqueue
  split
  · rfl
  · simp only [setFlag?_accommodate, places_rank, Option.bind_eq_bind, Option.bind_some]

theorem clear?_eq (q : Queue) : q.clear? = some q.clear := by
  have hband : emptyBand? = fun q p => pure (q.setBand p .empty) := by
    funext q p
    simp only [emptyBand?, places_rank, Option.bind_eq_bind, Option.bind_some, Option.pure_def]
  rw [clear?, hband, List.foldlM_pure]
  rfl

/-! ## The queue in step with the lists -/

/-- The bands of the queue are the lists, and its other parts agree with them. -/
structure Holds (q : Queue) (bands : Bands) : Prop where
  valid : q.Valid
  band : ∀ p, (q.band p).toList = bands p

theorem holds_empty : Holds .empty .idle where
  valid := valid_empty
  band := fun p => by cases p <;> rfl

theorem mem_ids_iff {x : Nat} : x ∈ q.ids ↔ ∃ p, x ∈ (q.band p).toList := by
  simp only [ids, List.mem_append]
  constructor
  · rintro (((h | h) | h) | h)
    exacts [⟨.high, h⟩, ⟨.medium, h⟩, ⟨.low, h⟩, ⟨.veryLow, h⟩]
  · rintro ⟨p, h⟩
    cases p <;> simp_all [Queue.band]

theorem Holds.isQueued_iff (hholds : q.Holds bands) (id : Nat) :
    q.isQueued id = true ↔ bands.Waits id := by
  rw [hholds.valid.flags, mem_ids_iff]
  exact exists_congr fun p => by rw [hholds.band p]

theorem Holds.present_eq (hholds : q.Holds bands) :
    q.present = Priority.all.filter fun p => bands p ≠ [] := by
  rw [hholds.valid.present_eq]
  refine List.filter_congr fun p _ => ?_
  rw [Fifo.isEmpty_eq, hholds.band p]
  cases bands p <;> rfl

theorem Holds.ids_eq (hholds : q.Holds bands) : q.ids = Priority.all.flatMap bands := by
  have hhigh := hholds.band .high
  have hmedium := hholds.band .medium
  have hlow := hholds.band .low
  have hvery := hholds.band .veryLow
  simp only [Queue.band] at hhigh hmedium hlow hvery
  simp [ids, Priority.all, hhigh, hmedium, hlow, hvery]

theorem band_enqueue (hwaits : q.isQueued id = false) (p r : Priority) :
    (q.enqueue id p).band r = if r = p then (q.band p).push id else q.band r := by
  simp only [enqueue, hwaits]
  cases p <;> cases r <;> rfl

theorem Holds.enqueue (hholds : q.Holds bands) (id : Nat) (p : Priority) :
    (q.enqueue id p).Holds (bands.enqueue id p) := by
  refine ⟨(hholds.valid.enqueue id p).1, fun r => ?_⟩
  cases hwaits : q.isQueued id with
  | true =>
      have hspec := (hholds.isQueued_iff id).mp hwaits
      rw [enqueue_of_isQueued hwaits, Bands.enqueue, if_pos hspec, hholds.band r]
  | false =>
      have hspec : ¬ bands.Waits id := fun h => by
        rw [(hholds.isQueued_iff id).mpr h] at hwaits
        cases hwaits
      rw [band_enqueue hwaits, Bands.enqueue, if_neg hspec, Function.update_apply]
      split
      · rw [Fifo.toList_push, hholds.band p]
      · exact hholds.band r

theorem Holds.clear (hholds : q.Holds bands) : q.clear.Holds .idle := by
  obtain ⟨hvalid, hnone⟩ := hholds.valid.clear
  refine ⟨hvalid, fun p => List.eq_nil_iff_forall_not_mem.mpr fun x hx => ?_⟩
  have hmem : x ∈ q.clear.ids := mem_ids_iff.mpr ⟨p, hx⟩
  rw [hnone] at hmem
  cases hmem

/-- Popping looks at the first list that is not empty, where its first propagator waits. -/
theorem Holds.pop (hholds : q.Holds bands) :
    (q.pop? = none ∧ bands.pop = (none, bands) ∧ q.popChecked? = some (none, q)) ∨
      ∃ id rest, q.pop? = some (id, rest) ∧ bands.pop.1 = some id ∧
        rest.Holds bands.pop.2 ∧ q.popChecked? = some (some id, rest) := by
  have hfind : Priority.all.find? (fun p => bands p ≠ []) = q.present.head? := by
    rw [hholds.present_eq, List.head?_filter]
  cases hpresent : q.present with
  | nil =>
      rw [hpresent, List.head?_nil] at hfind
      refine Or.inl ⟨?_, ?_, ?_⟩
      · simp only [pop?, hpresent]
      · simp only [Bands.pop, hfind]
      · simp only [popChecked?, hpresent]
  | cons p rest =>
      rw [hpresent, List.head?_cons] at hfind
      have hsome : bands p ≠ [] := by simpa using List.find?_some hfind
      cases hband : (q.band p).pop? with
      | none => exact absurd (hholds.band p ▸ (Fifo.pop?_eq_none_iff _).mp hband) hsome
      | some result =>
          obtain ⟨id, remaining⟩ := result
          have hlist : bands p = id :: remaining.toList :=
            (hholds.band p).symm.trans (Fifo.toList_of_pop? hband)
          obtain ⟨next, hpop⟩ : ∃ next, q.pop? = some (id, next) := by
            simp only [pop?, hpresent, hband]
            exact ⟨_, rfl⟩
          obtain ⟨hvalid, hperm, hcount⟩ := hholds.valid.pop? hpop
          have hqueued : q.isQueued id = true :=
            (hholds.isQueued_iff id).mpr ⟨p, hlist ▸ List.mem_cons_self⟩
          have hdown : countDown? q.count = some (q.count - 1) := if_pos (by omega)
          refine Or.inr ⟨id, next, hpop, ?_, ⟨hvalid, fun r => ?_⟩, ?_⟩
          · simp only [Bands.pop, hfind, hlist, List.head?_cons]
          · simp only [pop?, hpresent, hband, Option.some.injEq, Prod.mk.injEq, true_and] at hpop
            have hnext : next.band r = (q.setBand p remaining).band r := by
              rw [← hpop]
              cases r <;> rfl
            simp only [hnext, band_setBand, Bands.pop, hfind, hlist, List.tail_cons,
              Function.update_apply]
            split
            · rfl
            · exact hholds.band r
          · simp only [pop?, hpresent, hband, Option.some.injEq, Prod.mk.injEq, true_and] at hpop
            simp only [popChecked?, hpresent, places_rank, hband, setFlag?_of_isQueued hqueued,
              hdown, Option.bind_eq_bind, Option.bind_some, ← hpop]

/-- A call finds all that it reaches for, and goes with the call of the lists. -/
theorem Holds.step (hholds : q.Holds bands) (call : Call) :
    q.step? call = some (q.step call) ∧ (q.step call).1 = (bands.step call).1 ∧
      (q.step call).2.Holds (bands.step call).2 := by
  cases call with
  | enqueue id p =>
      refine ⟨?_, rfl, hholds.enqueue id p⟩
      simp only [step?, enqueue?_eq, Option.bind_eq_bind, Option.bind_some, Queue.step]
  | pop =>
      rcases hholds.pop with ⟨hnone, hspec, hchecked⟩ | ⟨id, rest, hsome, hspec, hrest, hchecked⟩
      · simp only [step?, Queue.step, Bands.step, hnone, hspec, hchecked, true_and]
        exact hholds
      · simp only [step?, Queue.step, Bands.step, hsome, hspec, hchecked, true_and]
        exact hrest
  | clear =>
      refine ⟨?_, rfl, hholds.clear⟩
      simp only [step?, clear?_eq, Option.bind_eq_bind, Option.bind_some, Queue.step]

theorem Holds.serve (hholds : q.Holds bands) (calls : List Call) :
    q.serve? calls = some (Queue.serve Queue.step q calls) ∧
      (Queue.serve Queue.step q calls).1 = (Queue.serve Bands.step bands calls).1 ∧
      (Queue.serve Queue.step q calls).2.Holds (Queue.serve Bands.step bands calls).2 := by
  induction calls generalizing q bands with
  | nil => exact ⟨rfl, rfl, hholds⟩
  | cons call rest ih =>
      obtain ⟨hchecked, hanswer, hnext⟩ := hholds.step call
      obtain ⟨hrest, hanswers, hlast⟩ := ih hnext
      refine ⟨?_, ?_, hlast⟩
      · simp only [serve?, hchecked, hrest, Option.bind_eq_bind, Option.bind_some, Queue.serve]
      · simp only [Queue.serve, hanswer, hanswers]

/-- What the queue tells about itself is true of the lists. -/
structure Shows (q : Queue) (bands : Bands) : Prop where
  band : ∀ p, (q.band p).toList = bands p
  once : (Priority.all.flatMap bands).Nodup
  isEmpty : q.isEmpty = true ↔ ∀ id, ¬ bands.Waits id
  isQueued : ∀ id, q.isQueued id = true ↔ bands.Waits id
  present : q.present = Priority.all.filter fun p => bands p ≠ []
  pop : q.pop? = none ↔ ∀ id, ¬ bands.Waits id

theorem Holds.ids_eq_nil_iff (hholds : q.Holds bands) :
    q.ids = [] ↔ ∀ id, ¬ bands.Waits id := by
  rw [List.eq_nil_iff_forall_not_mem]
  exact forall_congr' fun id => by rw [← hholds.isQueued_iff, hholds.valid.flags]

theorem Holds.shows (hholds : q.Holds bands) : q.Shows bands where
  band := hholds.band
  once := hholds.ids_eq ▸ hholds.valid.nodup
  isEmpty := by
    rw [← hholds.ids_eq_nil_iff, isEmpty, decide_eq_true_eq, hholds.valid.count_eq,
      List.length_eq_zero_iff]
  isQueued := hholds.isQueued_iff
  present := hholds.present_eq
  pop := by
    rw [← hholds.ids_eq_nil_iff]
    exact ⟨ids_eq_nil_of_pop?_eq_none hholds.valid, pop?_eq_none hholds.valid⟩

theorem Valid.isQueued_of_pop? (hvalid : q.Valid) (hpop : q.pop? = some (id, q')) :
    q'.isQueued id = false := by
  obtain ⟨hvalid', hperm, -⟩ := hvalid.pop? hpop
  have hnodup := hperm.nodup_iff.mp hvalid.nodup
  have hout : id ∉ q'.ids := (List.nodup_cons.mp hnodup).1
  rwa [← hvalid'.flags, Bool.not_eq_true] at hout

/-- Through every sequence of calls the queue answers as four lists do that are served
first in, first out, the most urgent first.  No call reaches for what is not there, and all
parts of the queue agree with the lists at the end.  A propagator that waits is not queued
again, with any priority; once popped or cleared it goes to the end of its band. -/
theorem serves_four_lists (calls : List Call) :
    ∃ (answers : List (Option Nat)) (q : Queue) (bands : Bands),
      serve Bands.step .idle calls = (answers, bands) ∧
      serve Queue.step .empty calls = (answers, q) ∧
      serve? .empty calls = some (answers, q) ∧
      q.Shows bands ∧
      (∀ id p, q.isQueued id = true → q.enqueue id p = q) ∧
      (∀ id rest, q.pop? = some (id, rest) → rest.isQueued id = false ∧
        ∀ p, ((rest.enqueue id p).band p).toList = (rest.band p).toList ++ [id]) ∧
      ∀ id, q.clear.isQueued id = false ∧
        ∀ p, ((q.clear.enqueue id p).band p).toList = [id] := by
  have hholds := holds_empty.serve calls
  obtain ⟨hchecked, hanswers, hholds⟩ := hholds
  refine ⟨_, _, _, Prod.ext rfl rfl, Prod.ext hanswers rfl, ?_, hholds.shows,
    fun id p => enqueue_of_isQueued, fun id rest hpop => ?_, fun id => ?_⟩
  · rw [hchecked, ← hanswers]
  · have hnew := hholds.valid.isQueued_of_pop? hpop
    refine ⟨hnew, fun p => ?_⟩
    rw [band_enqueue hnew, if_pos rfl, Fifo.toList_push]
  · have hclear := hholds.clear
    have hnew : (serve Queue.step .empty calls).2.clear.isQueued id = false := by
      rw [← Bool.not_eq_true, hclear.isQueued_iff]
      rintro ⟨p, hp⟩
      cases hp
    refine ⟨hnew, fun p => ?_⟩
    rw [band_enqueue hnew, if_pos rfl, Fifo.toList_push, hclear.band p]
    rfl

end Queue

end ConstraintSpace
