import Mathlib
import ConstraintSpace.Queue

/-!
# Who waits in the queue

The four bands, the flags, the count and the list of bands that are not empty
all describe one list of waiting propagators.  They agree in the empty queue,
and queueing, popping and clearing keep them in agreement: queueing adds a
propagator that does not wait, popping takes one out wherever one waits, and
clearing takes out all.
-/

namespace ConstraintSpace

namespace Priority

def all : List Priority := [high, medium, low, veryLow]

theorem nodup_all : all.Nodup := by decide

theorem insertPresent_filter (waits : Priority → Bool) (p : Priority)
    (hempty : waits p = false) :
    Queue.insertPresent p (all.filter waits) =
      all.filter fun r => decide (r = p) || waits r := by
  cases p <;> cases hhigh : waits .high <;> cases hmedium : waits .medium <;>
    cases hlow : waits .low <;> cases hvery : waits .veryLow <;>
    simp_all [all, Queue.insertPresent, rank]

theorem filter_eq_cons {waits : Priority → Bool} {p : Priority}
    {rest : List Priority} (hfilter : all.filter waits = p :: rest) :
    waits p = true ∧
      rest = all.filter fun r => !decide (r = p) && waits r := by
  have hmem : p ∈ all.filter waits := by simp [hfilter]
  have hnodup : (p :: rest).Nodup := hfilter ▸ nodup_all.filter _
  refine ⟨(List.mem_filter.mp hmem).2, ?_⟩
  have hrest : (p :: rest).filter (fun r => !decide (r = p)) = rest := by
    rw [List.filter_cons_of_neg (by simp), List.filter_eq_self]
    intro r hr
    simpa using fun heq : r = p => (List.nodup_cons.mp hnodup).1 (heq ▸ hr)
  rw [← hrest, ← hfilter, List.filter_filter]

end Priority

namespace Queue

variable {q q' : Queue} {id : Nat} {p : Priority}

/-- The waiting propagators, the more urgent bands first. -/
def ids (q : Queue) : List Nat :=
  q.high.toList ++ q.medium.toList ++ q.low.toList ++ q.veryLow.toList

/-- The parts of the queue agree on who waits. -/
structure Valid (q : Queue) : Prop where
  nodup : q.ids.Nodup
  flags : ∀ id, q.isQueued id = true ↔ id ∈ q.ids
  count_eq : q.count = q.ids.length
  present_eq : q.present = Priority.all.filter fun p => !(q.band p).isEmpty

theorem valid_empty : Valid .empty where
  nodup := by simp [ids, Queue.empty]
  flags := fun id => by simp [ids, Queue.empty, isQueued]
  count_eq := rfl
  present_eq := rfl

@[simp] theorem band_setBand (q : Queue) (p r : Priority) (f : Fifo Nat) :
    (q.setBand p f).band r = if r = p then f else q.band r := by
  cases p <;> cases r <;> rfl

theorem ids_setBand_push (q : Queue) (p : Priority) (id : Nat) :
    (q.setBand p ((q.band p).push id)).ids.Perm (id :: q.ids) := by
  rw [List.perm_iff_count]
  intro x
  cases p <;>
    simp only [ids, setBand, band, Fifo.toList_push, List.count_append,
      List.count_cons, List.count_nil] <;>
    omega

theorem ids_setBand_pop {f : Fifo Nat} (hpop : (q.band p).pop? = some (id, f)) :
    q.ids.Perm (id :: (q.setBand p f).ids) := by
  have htoList := Fifo.toList_of_pop? hpop
  rw [List.perm_iff_count]
  intro x
  cases p <;>
    simp only [band] at htoList <;>
    simp only [ids, setBand, htoList, List.count_append, List.count_cons] <;>
    omega

theorem isQueued_flag {flags : Array Bool} {other : Nat} :
    (flag flags id)[other]?.getD false =
      (decide (other = id) || flags[other]?.getD false) := by
  unfold flag
  by_cases hid : id < flags.size
  · simp only [hid, if_true, Array.getElem?_setIfInBounds]
    by_cases heq : id = other
    · simp [heq, heq ▸ hid]
    · simp [heq, Ne.symm heq]
  · have hsize : id < (flags ++ Array.replicate (id + 1 - flags.size) false).size := by
      simp
      omega
    simp only [hid, if_false, Array.getElem?_setIfInBounds]
    by_cases heq : id = other
    · subst heq
      rw [if_pos rfl, if_pos hsize]
      simp
    · simp only [heq, if_false, Ne.symm heq, decide_false, Bool.false_or]
      rw [Array.getElem?_append]
      split
      · rfl
      next hlt =>
        rw [Array.getElem?_eq_none (not_lt.mp hlt), Array.getElem?_replicate]
        split <;> rfl

theorem enqueue_of_isQueued (hqueued : q.isQueued id = true) : q.enqueue id p = q := by
  simp [enqueue, hqueued]

/-- After queueing, the propagator waits beside those that waited. -/
theorem Valid.enqueue (hvalid : q.Valid) (id : Nat) (p : Priority) :
    (q.enqueue id p).Valid ∧
      ∀ x, x ∈ (q.enqueue id p).ids ↔ x = id ∨ x ∈ q.ids := by
  cases hqueued : q.isQueued id with
  | true =>
      rw [enqueue_of_isQueued hqueued]
      have hmem := (hvalid.flags id).mp hqueued
      exact ⟨hvalid, fun x => ⟨Or.inr, fun h => h.elim (fun heq => heq ▸ hmem) fun hx => hx⟩⟩
  | false =>
      have hnew : id ∉ q.ids := fun hmem => by
        simp [(hvalid.flags id).mpr hmem] at hqueued
      have hids : (q.enqueue id p).ids = (q.setBand p ((q.band p).push id)).ids := by
        simp only [Queue.enqueue, hqueued]
        cases p <;> rfl
      have hperm : (q.enqueue id p).ids.Perm (id :: q.ids) :=
        hids ▸ ids_setBand_push q p id
      have hmem : ∀ x, x ∈ (q.enqueue id p).ids ↔ x = id ∨ x ∈ q.ids := fun x => by
        rw [hperm.mem_iff, List.mem_cons]
      refine ⟨⟨?_, fun x => ?_, ?_, ?_⟩, hmem⟩
      · exact hperm.nodup_iff.mpr (List.nodup_cons.mpr ⟨hnew, hvalid.nodup⟩)
      · have hflag : (q.enqueue id p).isQueued x =
            (decide (x = id) || q.isQueued x) := by
          have : (q.enqueue id p).queued = flag q.queued id := by
            simp [Queue.enqueue, hqueued]
          rw [isQueued, this, isQueued_flag]
          rfl
        rw [hflag, hmem x, Bool.or_eq_true, decide_eq_true_eq, hvalid.flags x]
      · have hcount : (q.enqueue id p).count = q.count + 1 := by
          simp [Queue.enqueue, hqueued]
        rw [hcount, hperm.length_eq, List.length_cons, hvalid.count_eq]
      · have hband : ∀ r, (q.enqueue id p).band r =
            if r = p then (q.band p).push id else q.band r := fun r => by
          simp only [Queue.enqueue, hqueued]
          cases p <;> cases r <;> rfl
        have hpresent : (q.enqueue id p).present =
            if (q.band p).isEmpty then insertPresent p q.present else q.present := by
          simp [Queue.enqueue, hqueued]
        have hopen : ∀ r, (!((q.enqueue id p).band r).isEmpty) =
            (decide (r = p) || !(q.band r).isEmpty) := fun r => by
          rw [hband]
          by_cases heq : r = p
          · simp [heq, Fifo.isEmpty, Fifo.push]
          · simp [heq]
        rw [hpresent]
        simp only [hopen]
        split
        next hempty =>
          rw [hvalid.present_eq]
          exact Priority.insertPresent_filter _ p (by simp [hempty])
        next hfull =>
          rw [hvalid.present_eq]
          refine List.filter_congr fun r _ => ?_
          by_cases heq : r = p
          · simp [heq, hfull]
          · simp [heq]

theorem ids_eq_nil_of_pop?_eq_none (hvalid : q.Valid) (hpop : q.pop? = none) :
    q.ids = [] := by
  have hnil : q.present = [] := by
    cases hpresent : q.present with
    | nil => rfl
    | cons p rest =>
        obtain ⟨hopen, _⟩ := Priority.filter_eq_cons (hvalid.present_eq ▸ hpresent)
        simp only [pop?, hpresent] at hpop
        cases hband : (q.band p).pop? with
        | none =>
            have hempty := (Fifo.pop?_eq_none_iff _).mp hband
            simp [Fifo.isEmpty_eq, hempty] at hopen
        | some result => simp [hband] at hpop
  have hempty : ∀ p, (q.band p).toList = [] := fun p => by
    have hall : p ∈ Priority.all := by cases p <;> decide
    have hfilter := hvalid.present_eq.symm.trans hnil
    rw [List.filter_eq_nil_iff] at hfilter
    simpa [Fifo.isEmpty_eq] using hfilter p hall
  have hhigh := hempty .high
  have hmedium := hempty .medium
  have hlow := hempty .low
  have hvery := hempty .veryLow
  simp only [band] at hhigh hmedium hlow hvery
  simp [ids, hhigh, hmedium, hlow, hvery]

/-- Popping takes one waiting propagator out of the queue. -/
theorem Valid.pop? (hvalid : q.Valid) (hpop : q.pop? = some (id, q')) :
    q'.Valid ∧ q.ids.Perm (id :: q'.ids) ∧ q'.count + 1 = q.count := by
  cases hpresent : q.present with
  | nil => simp [Queue.pop?, hpresent] at hpop
  | cons p rest =>
      cases hband : (q.band p).pop? with
      | none => simp [Queue.pop?, hpresent, hband] at hpop
      | some result =>
          obtain ⟨x, remaining⟩ := result
          simp only [Queue.pop?, hpresent, hband, Option.some.injEq, Prod.mk.injEq]
            at hpop
          obtain ⟨rfl, rfl⟩ := hpop
          obtain ⟨hopen, hrest⟩ :=
            Priority.filter_eq_cons (hvalid.present_eq ▸ hpresent)
          have hperm : q.ids.Perm (x :: (q.setBand p remaining).ids) :=
            ids_setBand_pop hband
          have hcount := hvalid.count_eq
          rw [hperm.length_eq, List.length_cons] at hcount
          have hnodup := hperm.nodup_iff.mp hvalid.nodup
          refine ⟨⟨(List.nodup_cons.mp hnodup).2, fun y => ?_, ?_, ?_⟩, hperm, ?_⟩
          · have hflag : ((q.queued.setIfInBounds x false)[y]?.getD false = true) ↔
                y ≠ x ∧ y ∈ q.ids := by
              rw [← hvalid.flags, isQueued, Array.getElem?_setIfInBounds]
              by_cases heq : x = y
              · subst heq
                simp only [if_true, ne_eq, not_true, false_and, iff_false]
                split <;> simp
              · simp [heq, Ne.symm heq]
            refine hflag.trans ?_
            change _ ↔ y ∈ (q.setBand p remaining).ids
            rw [hperm.mem_iff, List.mem_cons]
            refine ⟨fun ⟨hne, hor⟩ => hor.resolve_left hne, fun hy => ⟨?_, Or.inr hy⟩⟩
            exact fun heq => (List.nodup_cons.mp hnodup).1 (heq ▸ hy)
          · change q.count - 1 = (q.setBand p remaining).ids.length
            omega
          · change (if remaining.isEmpty = true then rest else p :: rest) =
              Priority.all.filter fun r => !((q.setBand p remaining).band r).isEmpty
            simp only [band_setBand]
            by_cases hempty : remaining.isEmpty = true
            · rw [if_pos hempty, hrest]
              refine List.filter_congr fun r _ => ?_
              by_cases heq : r = p
              · simp [heq, hempty]
              · simp [heq]
            · rw [if_neg hempty, ← hpresent, hvalid.present_eq]
              refine List.filter_congr fun r _ => ?_
              by_cases heq : r = p
              · simp only [heq, if_true]
                simp [hopen, hempty]
              · simp [heq]
          · change q.count - 1 + 1 = q.count
            omega

theorem pop?_eq_none (hvalid : q.Valid) (hnil : q.ids = []) : q.pop? = none := by
  cases hpop : q.pop? with
  | none => rfl
  | some result =>
      obtain ⟨x, rest⟩ := result
      obtain ⟨-, hperm, -⟩ := hvalid.pop? hpop
      rw [hnil] at hperm
      exact absurd hperm.symm (List.not_perm_cons_nil)

/-- After clearing, nobody waits. -/
theorem Valid.clear (hvalid : q.Valid) : q.clear.Valid ∧ q.clear.ids = [] := by
  have hfold : ∀ (present : List Priority) (q : Queue) (r : Priority),
      (present.foldl (fun q p => q.setBand p .empty) q).band r =
        if r ∈ present then .empty else q.band r := by
    intro present
    induction present with
    | nil => simp
    | cons p rest ih =>
        intro q r
        rw [List.foldl_cons, ih, band_setBand]
        by_cases hrest : r ∈ rest
        · simp [hrest]
        · by_cases heq : r = p <;> simp [hrest, heq]
  have hband : ∀ r, (q.clear.band r).toList = [] := fun r => by
    have hclear : q.clear.band r =
        (q.present.foldl (fun q p => q.setBand p .empty) q).band r := by
      cases r <;> rfl
    rw [hclear, hfold]
    split
    · rfl
    next hout =>
      have hall : r ∈ Priority.all := by cases r <;> decide
      rw [hvalid.present_eq, List.mem_filter] at hout
      simpa [hall, Fifo.isEmpty_eq] using hout
  have hids : q.clear.ids = [] := by
    have hhigh := hband .high
    have hmedium := hband .medium
    have hlow := hband .low
    have hvery := hband .veryLow
    simp only [band] at hhigh hmedium hlow hvery
    simp [ids, hhigh, hmedium, hlow, hvery]
  refine ⟨⟨by simp [hids], fun id => ?_, by rw [hids]; rfl, ?_⟩, hids⟩
  · rw [hids]
    simp only [List.not_mem_nil, iff_false, Bool.not_eq_true]
    change ((q.queued.map fun _ => false)[id]?).getD false = false
    rw [Array.getElem?_map]
    cases q.queued[id]? <;> rfl
  · have hpresent : q.clear.present = [] := rfl
    rw [hpresent]
    symm
    rw [List.filter_eq_nil_iff]
    intro p _
    simp [Fifo.isEmpty_eq, hband]

end Queue

end ConstraintSpace
