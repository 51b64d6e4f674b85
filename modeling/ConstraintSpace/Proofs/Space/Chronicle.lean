import ConstraintSpace.Proofs.Space.Enrolment

/-!
# The actors of a family

A chronicle goes along with a family.  It records for every space, also for one that is
dropped by now, with which actors it started, who joined, and what was done to whom in
order.  What is done to one actor is then a career: an actor that is to be told is told
first of the copy that it came with, may work, and is disposed last, when it is subsumed or
when its space is dropped.
-/

namespace ConstraintSpace

inductive Origin where
  | created
  | copied (mode : CopyMode) (failed : Bool)
deriving DecidableEq, Repr

/-- The record of one space: how it came about, the actors it started with and those that
joined, each with whether it is to be told, and what was done to them. -/
structure Record where
  origin : Origin
  inherited : List (Noticed × Bool)
  joined : List (Noticed × Bool)
  history : List (Noticed × Deed)
deriving DecidableEq, Repr

namespace Record

def fresh : Record := { origin := .created, inherited := [], joined := [], history := [] }

/-- All actors that the space ever had, in the order in which they were added. -/
def roster (r : Record) : List (Noticed × Bool) := r.inherited ++ r.joined

/-- The actors that were not subsumed. -/
def present (r : Record) : List (Noticed × Bool) :=
  r.roster.filter fun e => (e.1, .subsumed) ∉ r.history

/-- What was done to an actor, in order. -/
def deeds (r : Record) (a : Noticed) : List Deed :=
  (r.history.filter fun x => x.1 = a).map (·.2)

/-- A copy starts with the actors that are present, or with none if the copied space is
failed. -/
def copy (r : Record) (mode : CopyMode) (failed : Bool) (told : List (Noticed × Deed)) :
    Record :=
  { origin := .copied mode failed, inherited := if failed then [] else r.present
    joined := [], history := told }

def welcome (r : Record) (joined : Option (Noticed × Bool)) : Record :=
  { r with joined := r.joined ++ joined.toList }

def after (r : Record) (deeds : List (Noticed × Deed)) : Record :=
  { r with history := r.history ++ deeds }

/-- The copies that the actors are told of: those that the space started with and that are
to be told, in order. -/
def copies (r : Record) : List (Noticed × Deed) :=
  match r.origin with
  | .created => []
  | .copied mode _ => (r.inherited.filter (·.2)).map fun e => (e.1, .copied mode)

/-- What is done to an actor before all else. -/
def opening (r : Record) (e : Noticed × Bool) : List Deed :=
  match r.origin with
  | .created => []
  | .copied mode _ => if e.2 ∧ e ∈ r.inherited then [.copied mode] else []

/-- What is done to an actor after all else: it is subsumed, or its space is dropped. -/
def ending (r : Record) (dropped : Bool) (e : Noticed × Bool) : List Deed :=
  if (e.1, .subsumed) ∈ r.history then (if e.2 then [.disposed] else []) ++ [.subsumed]
  else if dropped ∧ e.2 then [.disposed] else []

/-- Between the opening and the ending there is only work. -/
def Career (r : Record) (dropped : Bool) (e : Noticed × Bool) : Prop :=
  ∃ work : List Deed, (∀ deed ∈ work, deed.isWork = true) ∧
    r.deeds e.1 = r.opening e ++ work ++ r.ending dropped e

end Record

/-- A family and the record of each of its spaces. -/
structure Chronicle where
  family : Family
  records : List Record

namespace Chronicle

def empty : Chronicle := { family := .empty, records := [] }

/-- The records after a move of the family, from the spaces before and after it. -/
def recordsAfter (c : Chronicle) (g : Family) : Move → List Record
  | .create => c.records ++ [.fresh]
  | .issue => c.records
  | .ask place act =>
    match c.family.space? place, g.space? place with
    | some s, some t =>
      c.records.modify place fun r => (r.welcome (act.joined s)).after (act.deeds s t)
    | _, _ => c.records
  | .copy place mode =>
    match c.family.space? place, c.records[place]?, g.space? c.family.spaces.length with
    | some s, some r, some t =>
      c.records ++
        [r.copy mode s.isFailed (t.journal.reverse.filterMap Happening.deed?)]
    | _, _, _ => c.records
  | .drop place =>
    match c.family.space? place with
    | some s => c.records.modify place fun r => r.after (s.drop.filterMap Happening.deed?)
    | none => c.records

def move (c : Chronicle) (move : Move) : Option Chronicle :=
  (c.family.move move).map fun g => { family := g, records := c.recordsAfter g move }

end Chronicle

/-- The observers that a move adds note only what they find. -/
def Move.Candid : Move → Prop
  | .ask _ act => act.Candid
  | _ => True

namespace Record

variable {r : Record} {s t : Space} {a : Noticed} {b : Bool} {e : Noticed × Bool}
  {deed : Deed} {dropped : Bool}

/-! ## Reading a record -/

@[simp] theorem roster_after (later : List (Noticed × Deed)) :
    (r.after later).roster = r.roster := rfl

@[simp] theorem roster_welcome (joined : Option (Noticed × Bool)) :
    (r.welcome joined).roster = r.roster ++ joined.toList := by
  simp [roster, welcome]

theorem mem_present :
    e ∈ r.present ↔ e ∈ r.roster ∧ (e.1, .subsumed) ∉ r.history := by
  simp [present]

theorem deeds_after (later : List (Noticed × Deed)) (a : Noticed) :
    (r.after later).deeds a = r.deeds a ++ (later.filter fun x => x.1 = a).map (·.2) := by
  simp [deeds, after]

theorem deeds_eq_nil (hnone : ∀ x ∈ r.history, x.1 ≠ a) : r.deeds a = [] := by
  rw [deeds, List.map_eq_nil_iff, List.filter_eq_nil_iff]
  simpa using hnone

theorem present_after {later : List (Noticed × Deed)}
    (hkeep : ∀ x ∈ later, x.2 ≠ .subsumed) :
    (r.after later).present = r.present := by
  have hnone : ∀ a, (a, Deed.subsumed) ∉ later := fun a hmem => hkeep _ hmem rfl
  simp [present, roster, after, hnone]

/-- What is done to others leaves a career as it is. -/
theorem Career.after_others {later : List (Noticed × Deed)} (hcareer : r.Career dropped e)
    (hothers : ∀ x ∈ later, x.1 ≠ e.1) : (r.after later).Career dropped e := by
  obtain ⟨work, hwork, hdeeds⟩ := hcareer
  have hnone : later.filter (fun x => x.1 = e.1) = [] := by
    simpa [List.filter_eq_nil_iff] using hothers
  have hending : (r.after later).ending dropped e = r.ending dropped e := by
    have hsubsumed : (e.1, Deed.subsumed) ∉ later := fun hmem => hothers _ hmem rfl
    simp [ending, after, hsubsumed]
  refine ⟨work, hwork, ?_⟩
  rw [deeds_after, hnone, hending, hdeeds]
  exact List.append_nil _

theorem Career.count_disposed (hcareer : r.Career dropped e) :
    (r.deeds e.1).count .disposed =
      if e.2 ∧ (dropped ∨ (e.1, .subsumed) ∈ r.history) then 1 else 0 := by
  obtain ⟨work, hwork, hdeeds⟩ := hcareer
  have hworked : work.count .disposed = 0 := by
    rw [List.count_eq_zero]
    intro hmem
    cases hwork _ hmem
  have hopening : (r.opening e).count .disposed = 0 := by
    unfold opening
    split
    · rfl
    · split <;> rfl
  rw [hdeeds, List.count_append, List.count_append, hworked, hopening, ending]
  by_cases hsubsumed : (e.1, Deed.subsumed) ∈ r.history
  · cases e.2 <;> simp [hsubsumed]
  · cases e.2 <;> cases dropped <;> simp [hsubsumed]

/-! ## A space and its record -/

structure Tracks (r : Record) (s : Space) : Prop where
  registered : s.Registered
  nodup : (r.roster.map (·.1)).Nodup
  noticed : s.noticed = (r.present.filter (·.2)).map (·.1)
  notices? : ∀ a b, s.notices? a = some b ↔ (a, b) ∈ r.present
  numbers : ∀ e ∈ r.roster, s.Numbers e.1
  career : ∀ e ∈ r.roster, r.Career false e
  strangers : ∀ x ∈ r.history, x.1 ∈ r.roster.map (·.1)
  copies : r.copies <+: r.history

theorem tracks_fresh : fresh.Tracks .new where
  registered := Space.registered_new
  nodup := List.nodup_nil
  noticed := rfl
  notices? := fun a b => by
    cases a <;> simp [fresh, present, roster, Space.new, Space.notices?, Space.propagator?]
  numbers := by simp [fresh, roster]
  career := by simp [fresh, roster]
  strangers := by simp [fresh]
  copies := List.prefix_rfl

theorem Tracks.kindred (htracks : r.Tracks s) (hkindred : s.Kindred t) : r.Tracks t where
  registered := htracks.registered.kindred hkindred
  nodup := htracks.nodup
  noticed := hkindred.noticed.trans htracks.noticed
  notices? := fun a b => by rw [hkindred.notices?, htracks.notices?]
  numbers := fun e he => (hkindred.numbers e.1).mpr (htracks.numbers e he)
  career := htracks.career
  strangers := htracks.strangers
  copies := htracks.copies

theorem Tracks.mem_present_of_live (htracks : r.Tracks s)
    (hlive : (s.notices? a).isSome = true) : ∃ b, (a, b) ∈ r.present := by
  obtain ⟨b, hb⟩ := Option.isSome_iff_exists.mp hlive
  exact ⟨b, (htracks.notices? a b).mp hb⟩

theorem Tracks.strangers_after (htracks : r.Tracks s) {later : List (Noticed × Deed)}
    (hknown : ∀ x ∈ later, x.1 ∈ r.roster.map (·.1)) :
    ∀ x ∈ (r.after later).history, x.1 ∈ (r.after later).roster.map (·.1) := by
  intro x hx
  rcases List.mem_append.mp hx with hx | hx
  · exact htracks.strangers x hx
  · exact hknown x hx

theorem Tracks.work (htracks : r.Tracks s) (hlive : (s.notices? a).isSome = true)
    (hwork : deed.isWork = true) : (r.after [(a, deed)]).Tracks s := by
  obtain ⟨b, hb⟩ := htracks.mem_present_of_live hlive
  obtain ⟨hmem, hhere⟩ := mem_present.mp hb
  have hkeep : deed ≠ .subsumed := by
    rintro rfl
    simp [Deed.isWork] at hwork
  have hpresent : (r.after [(a, deed)]).present = r.present :=
    present_after (by simpa using hkeep)
  refine {
    registered := htracks.registered
    nodup := htracks.nodup
    noticed := by rw [hpresent, htracks.noticed]
    notices? := fun x c => by rw [hpresent, htracks.notices?]
    numbers := htracks.numbers
    career := fun e he => ?_
    strangers := htracks.strangers_after ?_
    copies := htracks.copies.trans (List.prefix_append _ _) }
  · by_cases heq : e.1 = a
    · obtain ⟨done, hdone, hdeeds⟩ := htracks.career e he
      have hending : r.ending false e = [] := by simp [ending, heq, hhere]
      have hending' : (r.after [(a, deed)]).ending false e = [] := by
        simp [ending, heq, after, hhere, hkeep.symm]
      refine ⟨done ++ [deed], ?_, ?_⟩
      · simp only [List.mem_append, List.mem_singleton]
        rintro d (hd | rfl)
        · exact hdone d hd
        · exact hwork
      · have hthis : ([(a, deed)].filter fun x => x.1 = e.1).map (·.2) = [deed] := by
          simp [heq]
        rw [deeds_after, hthis, hdeeds, hending, hending', List.append_nil, List.append_nil,
          List.append_assoc]
        rfl
    · exact (htracks.career e he).after_others (by simpa using Ne.symm heq)
  · intro x hx
    obtain rfl := List.mem_singleton.mp hx
    exact List.mem_map_of_mem hmem

theorem Tracks.contains_iff (htracks : r.Tracks s) (he : e ∈ r.present) :
    s.noticed.contains e.1 = e.2 := by
  have hnotices : s.notices? e.1 = some e.2 := (htracks.notices? e.1 e.2).mpr he
  rw [Bool.eq_iff_iff, List.contains_iff_mem, htracks.registered.mem_iff, hnotices]
  simp

/-- A propagator that leaves is disposed just before if it is to be told. -/
theorem Tracks.leave {id : Nat} (htracks : r.Tracks s) (hleaves : s.Leaves id t) :
    (r.after (Space.leaving id s)).Tracks t := by
  obtain ⟨b, hb⟩ := htracks.mem_present_of_live hleaves.live
  obtain ⟨hmem, hhere⟩ := mem_present.mp hb
  have hnames : ∀ x ∈ Space.leaving id s, x.1 = .propagator id := by
    unfold Space.leaving
    split <;> simp
  have hsubsumed : ∀ a, (a, Deed.subsumed) ∈ Space.leaving id s ↔ a = .propagator id := by
    unfold Space.leaving
    split <;> simp
  have hpresent : (r.after (Space.leaving id s)).present =
      r.present.filter fun e => e.1 ≠ .propagator id := by
    simp only [present, after, List.mem_append, not_or, hsubsumed,
      List.filter_filter, Bool.decide_and]
    congr 1
    funext e
    exact Bool.and_comm _ _
  refine {
    registered := htracks.registered.leaves hleaves
    nodup := htracks.nodup
    noticed := ?_
    notices? := fun a c => ?_
    numbers := fun e he => (hleaves.numbers e.1).mpr (htracks.numbers e he)
    career := fun e he => ?_
    strangers := htracks.strangers_after ?_
    copies := htracks.copies.trans (List.prefix_append _ _) }
  · rw [hleaves.noticed, htracks.registered.nodup.erase_eq_filter, htracks.noticed, hpresent,
      List.filter_map, List.filter_filter, List.filter_filter]
    congr 2
    funext e
    by_cases heq : e.1 = .propagator id <;> simp [heq]
  · rw [hleaves.notices?, hpresent, List.mem_filter]
    split
    next heq => simp [heq]
    next hne => simp [hne, htracks.notices?]
  · by_cases heq : e.1 = .propagator id
    · obtain ⟨done, hdone, hdeeds⟩ := htracks.career e he
      have hending : r.ending false e = [] := by simp [ending, heq, hhere]
      have hcontains : s.noticed.contains (.propagator id) = e.2 := by
        rw [← heq]
        exact htracks.contains_iff (mem_present.mpr ⟨he, heq ▸ hhere⟩)
      have hending' : (r.after (Space.leaving id s)).ending false e =
          ((Space.leaving id s).filter fun x => x.1 = e.1).map (·.2) := by
        have hin : (e.1, Deed.subsumed) ∈ (r.after (Space.leaving id s)).history :=
          List.mem_append_right _ ((hsubsumed e.1).mpr heq)
        rw [ending, if_pos hin, Space.leaving, hcontains, heq]
        cases e.2 <;> simp
      refine ⟨done, hdone, ?_⟩
      rw [deeds_after, hdeeds, hending, hending', List.append_nil]
      rfl
    · exact (htracks.career e he).after_others fun x hx =>
        (hnames x hx).trans_ne (Ne.symm heq)
  · intro x hx
    rw [hnames x hx]
    exact List.mem_map_of_mem hmem

theorem Tracks.join {brings : List (Shared Content)} (htracks : r.Tracks s)
    (hjoins : s.Joins a b brings t) :
    (r.welcome (some (a, b))).Tracks t := by
  -- the number is new, so nothing was done yet under it
  have hnew : a ∉ r.roster.map (·.1) := by
    intro hmem
    obtain ⟨e, he, rfl⟩ := List.mem_map.mp hmem
    exact hjoins.fresh (htracks.numbers e he)
  have hnone : ∀ x ∈ r.history, x.1 ≠ a := by
    rintro x hx rfl
    exact hnew (htracks.strangers x hx)
  have hhere : (a, Deed.subsumed) ∉ r.history := fun hmem => hnone _ hmem rfl
  have hpresent : (r.welcome (some (a, b))).present = r.present ++ [(a, b)] := by
    have hhistory : (r.welcome (some (a, b))).history = r.history := rfl
    simp [present, hhistory, hhere]
  refine {
    registered := htracks.registered.joins hjoins
    nodup := ?_
    noticed := ?_
    notices? := fun x c => ?_
    numbers := fun e he => ?_
    career := fun e he => ?_
    strangers := fun x hx => ?_
    copies := htracks.copies }
  · rw [roster_welcome, List.map_append]
    refine htracks.nodup.append (List.nodup_singleton a) fun x hx hx' => ?_
    obtain rfl := List.mem_singleton.mp hx'
    exact hnew hx
  · rw [hjoins.noticed, htracks.noticed, hpresent, List.filter_append, List.map_append]
    cases b <;> rfl
  · rw [hjoins.notices?, hpresent, List.mem_append, ← htracks.notices?]
    split
    next heq =>
      have hgone : s.notices? a ≠ some c := fun hc =>
        hjoins.fresh (Space.numbers_of_notices? hc)
      simp [heq, hgone, eq_comm]
    next hne => simp [hne]
  · rw [roster_welcome] at he
    rcases List.mem_append.mp he with he | he
    · exact (hjoins.numbers e.1).mpr (Or.inr (htracks.numbers e he))
    · obtain rfl := List.mem_singleton.mp he
      exact (hjoins.numbers a).mpr (Or.inl rfl)
  · rw [roster_welcome] at he
    rcases List.mem_append.mp he with he | he
    · exact htracks.career e he
    · obtain rfl := List.mem_singleton.mp he
      have hopening : (r.welcome (some (a, b))).opening (a, b) = [] := by
        have hout : (a, b) ∉ r.inherited := fun hmem =>
          hnew (List.mem_map_of_mem (List.mem_append_left r.joined hmem))
        simp only [opening, welcome, hout, and_false, if_false]
        split <;> rfl
      have hending : (r.welcome (some (a, b))).ending false (a, b) = [] := by
        simp [ending, welcome, hhere]
      refine ⟨[], by simp, ?_⟩
      rw [hopening, hending]
      exact deeds_eq_nil hnone
  · rw [roster_welcome, List.map_append]
    exact List.mem_append_left _ (htracks.strangers x hx)

theorem Tracks.enrols {joined : Option (Noticed × Bool)} {brings : List (Shared Content)}
    (htracks : r.Tracks s) (henrols : s.Enrols joined brings t) :
    (r.welcome joined).Tracks t :=
  match joined, henrols with
  | none, hsteady => by
      have hsame : r.welcome none = r := by simp [welcome]
      rw [hsame]
      exact htracks.kindred hsteady.toKindred
  | some _, hjoins => htracks.join hjoins

theorem after_append (first later : List (Noticed × Deed)) :
    r.after (first ++ later) = (r.after first).after later := by
  simp [after]

theorem Tracks.story {deeds : List (Noticed × Deed)} (htracks : r.Tracks s)
    (hstory : s.Story deeds t) : (r.after deeds).Tracks t := by
  -- each deed of the story is entered where it is done
  induction hstory with
  | refl =>
      have hsame : r.after [] = r := by simp [after]
      rw [hsame]
      exact htracks
  | rest _ hsteady ih => exact ih.kindred hsteady.toKindred
  | work a deed _ hlive hwork ih =>
      rw [after_append]
      exact ih.work hlive hwork
  | leave id _ hleaves ih =>
      rw [after_append]
      exact ih.leave hleaves

theorem Tracks.discards (htracks : r.Tracks s) (hempty : r.roster = []) : r.history = [] := by
  rw [List.eq_nil_iff_forall_not_mem]
  intro x hx
  have hmem := htracks.strangers x hx
  rw [hempty] at hmem
  exact List.not_mem_nil hmem

theorem filter_map_deed {actors : List Noticed} (hnodup : actors.Nodup) (deed : Deed)
    (a : Noticed) :
    ((actors.map fun x => (x, deed)).filter fun x => x.1 = a).map (·.2) =
      if a ∈ actors then [deed] else [] := by
  rw [List.filter_map, List.map_map]
  have hcount : actors.filter (fun x => x = a) = List.replicate (actors.count a) a :=
    List.filter_eq a
  have hthis : actors.filter ((fun x => decide (x.1 = a)) ∘ fun x => (x, deed)) =
      List.replicate (actors.count a) a := hcount
  rw [hthis]
  split
  next hmem => simp [List.count_eq_one_of_mem hnodup hmem]
  next hout => simp [List.count_eq_zero_of_not_mem hout]

theorem Tracks.mem_noticed_iff (htracks : r.Tracks s) (he : e ∈ r.present) :
    e.1 ∈ s.noticed ↔ e.2 = true := by
  rw [← htracks.contains_iff he, List.contains_iff_mem]

theorem Tracks.copy (htracks : r.Tracks s) (hkindred : s.Kindred t) (mode : CopyMode) :
    (r.copy mode false (s.noticed.map fun a => (a, .copied mode))).Tracks t := by
  let told := s.noticed.map fun a => (a, Deed.copied mode)
  have hhere : ∀ a, (a, Deed.subsumed) ∉ told := by simp [told]
  have hroster : (r.copy mode false told).roster = r.present := by
    simp [Record.copy, roster]
  have hpresent : (r.copy mode false told).present = r.present := by
    rw [present, hroster]
    simp [Record.copy, hhere]
  refine {
    registered := htracks.registered.kindred hkindred
    nodup := hroster ▸ htracks.nodup.sublist (List.filter_sublist.map _)
    noticed := hpresent ▸ hkindred.noticed.trans htracks.noticed
    notices? := fun a b => by rw [hkindred.notices?, htracks.notices?, hpresent]
    numbers := fun e he => ?_
    career := fun e he => ⟨[], by simp, ?_⟩
    strangers := fun x hx => ?_
    copies := ?_ }
  · rw [hroster] at he
    exact (hkindred.numbers e.1).mpr (htracks.numbers e (mem_present.mp he).1)
  · rw [hroster] at he
    have hdeeds : (r.copy mode false told).deeds e.1 =
        if e.1 ∈ s.noticed then [.copied mode] else [] :=
      filter_map_deed htracks.registered.nodup _ _
    have hopening : (r.copy mode false told).opening e = if e.2 then [.copied mode] else [] := by
      simp [opening, Record.copy, he]
    have hending : (r.copy mode false told).ending false e = [] := by
      simp [ending, Record.copy, hhere]
    rw [hdeeds, hopening, hending, List.append_nil, List.append_nil]
    exact if_congr (htracks.mem_noticed_iff he) rfl rfl
  · obtain ⟨a, ha, rfl⟩ := List.mem_map.mp hx
    rw [hroster]
    exact List.mem_map_of_mem ((htracks.notices? a true).mp ((htracks.registered.mem_iff a).mp ha))
  · have htold : told = (r.copy mode false told).copies := by
      simp only [told, Record.copy, Bool.false_eq_true, if_false, htracks.noticed,
        List.map_map]
      rfl
    exact htold ▸ List.prefix_rfl

theorem Tracks.drop (htracks : r.Tracks s) (he : e ∈ r.roster) :
    (r.after (s.noticed.map fun a => (a, .disposed))).Career true e := by
  obtain ⟨work, hwork, hdeeds⟩ := htracks.career e he
  let told := s.noticed.map fun a => (a, Deed.disposed)
  have hsame : (e.1, Deed.subsumed) ∉ told := by simp [told]
  refine ⟨work, hwork, ?_⟩
  rw [deeds_after, filter_map_deed htracks.registered.nodup, hdeeds, List.append_assoc]
  congr 1
  -- whoever was subsumed is out of the registry and is not disposed again
  by_cases hleft : (e.1, Deed.subsumed) ∈ r.history
  · have hout : e.1 ∉ s.noticed := by
      rw [htracks.registered.mem_iff, htracks.notices?, mem_present]
      exact fun hmem => hmem.2 hleft
    have hleft' : (e.1, Deed.subsumed) ∈ (r.after told).history := List.mem_append_left _ hleft
    rw [if_neg hout, List.append_nil, ending, if_pos hleft, ending, if_pos hleft']
  · have hleft' : (e.1, Deed.subsumed) ∉ (r.after told).history := by
      simp [after, hleft, hsame]
    have hnotices := htracks.mem_noticed_iff (mem_present.mpr ⟨he, hleft⟩)
    rw [ending, if_neg hleft, ending, if_neg hleft']
    simp [hnotices]

/-! ## Spaces that are there and spaces that were dropped -/

/-- What the record of a space tells, whether the space is still there or was dropped. -/
structure Complete (r : Record) (entry : Option Space) : Prop where
  nodup : (r.roster.map (·.1)).Nodup
  present : ∀ s, entry = some s → ∀ a b, s.notices? a = some b ↔ (a, b) ∈ r.present
  career : ∀ e ∈ r.roster, r.Career entry.isNone e
  disposals : ∀ e ∈ r.roster, (r.deeds e.1).count .disposed =
    if e.2 ∧ (entry.isNone ∨ (e.1, .subsumed) ∈ r.history) then 1 else 0
  strangers : ∀ a, a ∉ r.roster.map (·.1) → r.deeds a = []
  copies : r.copies <+: r.history
  discarded : ∀ mode, r.origin = .copied mode true → r.roster = [] ∧ r.history = []

/-- The record of a space that is there.  Nobody ever joins a copy of a failed space. -/
structure Stands (r : Record) (s : Space) : Prop where
  tracks : r.Tracks s
  reaches : Space.new.Reaches s
  plain : s.Plain
  discarded : ∀ mode, r.origin = .copied mode true → r.roster = [] ∧ s.isFailed = true

theorem Stands.complete (hstands : r.Stands s) : r.Complete (some s) where
  nodup := hstands.tracks.nodup
  present := fun t ht a b => by
    obtain rfl := Option.some.inj ht
    exact hstands.tracks.notices? a b
  career := hstands.tracks.career
  disposals := fun e he => (hstands.tracks.career e he).count_disposed
  strangers := fun a hout => deeds_eq_nil fun x hx heq =>
    hout (heq ▸ hstands.tracks.strangers x hx)
  copies := hstands.tracks.copies
  discarded := fun mode horigin => by
    have hempty := (hstands.discarded mode horigin).1
    exact ⟨hempty, hstands.tracks.discards hempty⟩

theorem stands_fresh : fresh.Stands .new where
  tracks := tracks_fresh
  reaches := .refl
  plain := by simp [Space.Plain, Space.new]
  discarded := by simp [fresh]

/-- A failed space stays failed, and nobody joins it. -/
theorem failed_of_perform {act : Space.Act} (hreaches : Space.new.Reaches s)
    (hfailed : s.isFailed = true) (hperform : act.perform s = some t) :
    act.joined s = none ∧ t.isFailed = true := by
  obtain ⟨reason, hfailure⟩ := Option.isSome_iff_exists.mp hfailed
  have hdefunct := Space.defunct_of_failed hfailure
  obtain ⟨u, hperform', -, hfreezes⟩ :=
    (hreaches.tidy Space.tidy_new).perform_freezes hfailure act
  obtain rfl := Option.some.inj (hperform'.symm.trans hperform)
  refine ⟨?_, by rw [Space.isFailed, hfreezes.failure, hfailure, Option.isSome_some]⟩
  cases act <;>
    simp only [Space.Act.joined, hdefunct.addPropagator, hdefunct.addBrancher]

theorem Stands.ask {act : Space.Act} (hstands : r.Stands s) (hkeeps : act.replaces = false)
    (hcandid : act.Candid) (hperform : act.perform s = some t) :
    ((r.welcome (act.joined s)).after (act.deeds s t)).Stands t := by
  obtain ⟨u, deeds, henrols, hstory, hknown⟩ := Space.Act.proceeds hkeeps hperform
  obtain ⟨hplain, rfl⟩ := hknown hstands.plain hcandid
  refine {
    tracks := (hstands.tracks.enrols henrols).story hstory
    reaches := hstands.reaches.act act hperform
    plain := hstory.plain hplain
    discarded := fun mode horigin => ?_ }
  obtain ⟨hempty, hfailed⟩ := hstands.discarded mode horigin
  obtain ⟨hjoined, hfailed'⟩ := failed_of_perform hstands.reaches hfailed hperform
  refine ⟨?_, hfailed'⟩
  rw [roster_after, roster_welcome, hempty, hjoined]
  rfl

theorem Stands.copy (hstands : r.Stands s) (mode : CopyMode) (next : Nat) :
    (r.copy mode s.isFailed ((s.copy mode next).1.journal.reverse.filterMap
      Happening.deed?)).Stands (s.copy mode next).1 := by
  have hreaches : Space.new.Reaches (s.copy mode next).1 :=
    hstands.reaches.act (.copy mode next) rfl
  cases hfailure : s.failure with
  | none =>
      have hok : s.isFailed = false := by rw [Space.isFailed, hfailure, Option.isSome_none]
      obtain ⟨hkindred, htold⟩ :=
        Space.copy_told hfailure hstands.tracks.registered.live mode next
      rw [hok, htold]
      exact {
        tracks := hstands.tracks.copy hkindred mode
        reaches := hreaches
        plain := hkindred.plain hstands.plain
        discarded := by simp [Record.copy] }
  | some reason =>
      have hfailed : s.isFailed = true := by rw [Space.isFailed, hfailure, Option.isSome_some]
      have hcopy : (s.copy mode next).1 =
          { Space.new with store := s.store, failure := some reason } := by
        simp only [Space.copy, hfailure]
      have hkindred : Space.new.Kindred (s.copy mode next).1 := by
        rw [hcopy]
        exact .of_actors rfl rfl rfl
      have hjournal : (s.copy mode next).1.journal = [] := by
        rw [hcopy]
        rfl
      rw [hfailed, hjournal]
      exact {
        tracks := { tracks_fresh.kindred hkindred with
          career := by simp [Record.copy, roster]
          copies := List.prefix_rfl }
        reaches := hreaches
        plain := hkindred.plain stands_fresh.plain
        discarded := fun _ _ => ⟨rfl, by rw [hcopy]; rfl⟩ }

theorem Stands.drop (hstands : r.Stands s) :
    (r.after (s.drop.filterMap Happening.deed?)).Complete none := by
  have htracks := hstands.tracks
  rw [Space.deeds_drop htracks.registered.live]
  have hknown : ∀ x ∈ s.noticed.map fun a => (a, Deed.disposed),
      x.1 ∈ r.roster.map (·.1) := by
    intro x hx
    obtain ⟨a, ha, rfl⟩ := List.mem_map.mp hx
    have hmem := (htracks.notices? a true).mp ((htracks.registered.mem_iff a).mp ha)
    exact List.mem_map_of_mem (mem_present.mp hmem).1
  exact {
    nodup := htracks.nodup
    present := by simp
    career := fun e he => htracks.drop he
    disposals := fun e he => (htracks.drop he).count_disposed
    strangers := fun a hout => deeds_eq_nil fun x hx heq =>
      hout (heq ▸ htracks.strangers_after hknown x hx)
    copies := htracks.copies.trans (List.prefix_append _ _)
    discarded := fun mode horigin => by
      have hempty := (hstands.discarded mode horigin).1
      have hnobody : s.noticed = [] := by
        rw [htracks.noticed, present, hempty]
        rfl
      refine ⟨hempty, ?_⟩
      rw [after, htracks.discards hempty, hnobody]
      rfl }

def Kept (r : Record) : Option Space → Prop
  | some s => r.Stands s
  | none => r.Complete none

theorem Kept.complete {entry : Option Space} (hkept : r.Kept entry) : r.Complete entry :=
  match entry, hkept with
  | some _, hstands => Stands.complete hstands
  | none, hcomplete => hcomplete

end Record

namespace Chronicle

variable {c d : Chronicle} {r : Record} {s : Space} {place : Nat} {entry : Option Space}

/-! ## Moves -/

structure Faithful (c : Chronicle) : Prop where
  length : c.records.length = c.family.spaces.length
  kept : ∀ (place : Nat) (r : Record), c.records[place]? = some r →
    r.Kept (c.family.space? place)

theorem faithful_empty : empty.Faithful := ⟨rfl, by simp [empty]⟩

theorem Faithful.push (hfaithful : c.Faithful) (hkept : r.Kept entry) (next : Nat) :
    Faithful { family := { spaces := c.family.spaces ++ [entry], next },
               records := c.records ++ [r] } where
  length := by simp [hfaithful.length]
  kept := fun place r' hr' => by
    rw [Family.space?_push, ← hfaithful.length]
    have hr' : (c.records ++ [r])[place]? = some r' := hr'
    split
    next heq =>
      rw [heq, List.getElem?_concat_length] at hr'
      obtain rfl := Option.some.inj hr'
      exact hkept
    next hne =>
      apply hfaithful.kept
      rw [List.getElem?_append] at hr'
      split at hr'
      · exact hr'
      next hge =>
        have hlast : place - c.records.length ≠ 0 := by omega
        obtain ⟨k, hk⟩ := Nat.exists_eq_succ_of_ne_zero hlast
        rw [hk] at hr'
        simp at hr'

theorem Faithful.set (hfaithful : c.Faithful) (hs : c.family.space? place = some s)
    {update : Record → Record} (hkept : ∀ r, r.Stands s → (update r).Kept entry) :
    Faithful { family := { c.family with spaces := c.family.spaces.set place entry },
               records := c.records.modify place update } where
  length := by simp [hfaithful.length]
  kept := fun other r hr => by
    rw [Family.space?_set hs]
    have hr : (c.records.modify place update)[other]? = some r := hr
    rw [List.getElem?_modify] at hr
    obtain ⟨r', hr', heq⟩ := Option.map_eq_some_iff.mp hr
    have hkept' := hfaithful.kept other r' hr'
    by_cases hplace : place = other
    · subst hplace
      rw [if_pos rfl] at heq ⊢
      rw [hs] at hkept'
      rw [← heq]
      exact hkept r' hkept'
    · rw [if_neg hplace] at heq
      rw [if_neg (Ne.symm hplace), ← heq]
      exact hkept'

theorem Faithful.move {move : Move} (hfaithful : c.Faithful) (hcandid : move.Candid)
    (hmove : c.move move = some d) : d.Faithful := by
  obtain ⟨g, hg, rfl⟩ := Option.map_eq_some_iff.mp hmove
  cases move with
  | create =>
      obtain rfl := Option.some.inj hg
      have hkept : Record.fresh.Kept (some .new) := Record.stands_fresh
      exact hfaithful.push hkept _
  | issue =>
      obtain rfl := Option.some.inj hg
      exact ⟨hfaithful.length, hfaithful.kept⟩
  | ask place act =>
      cases hs : c.family.space? place with
      | none => simp [Family.move, hs] at hg
      | some s =>
          cases hkeeps : act.replaces with
          | true => simp [Family.move, hs, hkeeps] at hg
          | false =>
              rw [Family.move_ask hs hkeeps] at hg
              obtain ⟨t, hperform, rfl⟩ := Option.map_eq_some_iff.mp hg
              have ht : Family.space?
                  { c.family with spaces := c.family.spaces.set place (some t) } place =
                    some t := by
                rw [Family.space?_set hs, if_pos rfl]
              simp only [recordsAfter, hs, ht]
              exact hfaithful.set hs fun r hstands => hstands.ask hkeeps hcandid hperform
  | copy place mode =>
      cases hs : c.family.space? place with
      | none => simp [Family.move, hs] at hg
      | some s =>
          rw [Family.move_copy hs] at hg
          obtain rfl := Option.some.inj hg
          have hlt : place < c.records.length := by
            by_contra hge
            rw [hfaithful.length] at hge
            rw [Family.space?_eq_some, List.getElem?_eq_none (not_lt.mp hge)] at hs
            simp at hs
          have hr := List.getElem?_eq_getElem hlt
          have hstands := hfaithful.kept place _ hr
          rw [hs] at hstands
          have ht : Family.space?
              { spaces := c.family.spaces ++ [some (s.copy mode c.family.next).1],
                next := (s.copy mode c.family.next).2 } c.family.spaces.length =
              some (s.copy mode c.family.next).1 := by
            rw [Family.space?_push, if_pos rfl]
          have hkept : Record.Kept _ (some (s.copy mode c.family.next).1) :=
            Record.Stands.copy hstands mode c.family.next
          simp only [recordsAfter, hs, hr, ht]
          exact hfaithful.push hkept _
  | drop place =>
      cases hs : c.family.space? place with
      | none => simp [Family.move, hs] at hg
      | some s =>
          simp only [Family.move, hs, Option.some.injEq] at hg
          subst hg
          simp only [recordsAfter, hs]
          exact hfaithful.set hs fun r hstands => hstands.drop

theorem Faithful.run {moves : List Move} (hfaithful : c.Faithful)
    (hcandid : ∀ move ∈ moves, move.Candid) (hrun : moves.foldlM Chronicle.move c = some d) :
    d.Faithful := by
  induction moves generalizing c with
  | nil =>
      obtain rfl := Option.some.inj hrun
      exact hfaithful
  | cons move rest ih =>
      obtain ⟨hfirst, hrest⟩ := List.forall_mem_cons.mp hcandid
      rw [List.foldlM_cons] at hrun
      obtain ⟨e, hmove, hrun⟩ := Option.bind_eq_some_iff.mp hrun
      exact ih (hfaithful.move hfirst hmove) hrest hrun

theorem exists_of_run {moves : List Move} {f : Family}
    (hrun : moves.foldlM Family.move c.family = some f) :
    ∃ d, moves.foldlM Chronicle.move c = some d ∧ d.family = f := by
  induction moves generalizing c with
  | nil => exact ⟨c, rfl, Option.some.inj hrun⟩
  | cons move rest ih =>
      rw [List.foldlM_cons] at hrun
      obtain ⟨g, hmove, hrun⟩ := Option.bind_eq_some_iff.mp hrun
      have hfirst : c.move move = some { family := g, records := c.recordsAfter g move } := by
        rw [Chronicle.move, hmove, Option.map_some]
      obtain ⟨d, hrest, hfamily⟩ :=
        ih (c := { family := g, records := c.recordsAfter g move }) hrun
      refine ⟨d, ?_, hfamily⟩
      rw [List.foldlM_cons, hfirst]
      exact hrest

end Chronicle

/-- In whatever order a family is built, searched, copied and dropped, every actor of
every space has its career: it is told of the copy that it came with if it is to be told,
and is disposed once, when it is subsumed or its space is dropped.  Nothing is done to it
after that.  The copies come first in the history of a copy and in the order of the
registry, and a copy of a failed space has no actors. -/
theorem actors_have_careers {moves : List Move} {f : Family}
    (hcandid : ∀ move ∈ moves, move.Candid) (hrun : moves.foldlM Family.move .empty = some f) :
    ∃ c, moves.foldlM Chronicle.move .empty = some c ∧ c.family = f ∧
      c.records.length = f.spaces.length ∧
      ∀ (place : Nat) (r : Record), c.records[place]? = some r →
        r.Complete (f.space? place) := by
  obtain ⟨c, hchronicle, rfl⟩ := Chronicle.exists_of_run (c := .empty) hrun
  have hfaithful := Chronicle.faithful_empty.run hcandid hchronicle
  exact ⟨c, hchronicle, rfl, hfaithful.length,
    fun place r hr => (hfaithful.kept place r hr).complete⟩

/-- One propagator is subsumed before the space is copied.  The copy commits and fails, is
copied again, and is dropped with its own copy. -/
theorem careers_of_copied_actors :
    let script (name : String) (status : Status) : Propagator := .scripted
      { name, priority := .high, notices := true, watches := [], runs := 0, shared := []
        script := fun _ _ => { narrowings := [], verdict := .ended status }
        vetoes := fun _ _ _ _ => false }
    let brancher : ViewBrancher :=
      { start := 0, selector := .inputOrder, branching := .int [.var 0] .min .assignOrExclude
        label := none, selectionNotices := false, commitNotices := true }
    let chosen : Choice := { brancher := 0, alternatives := 2, position := 0, value := .int 1 }
    let moves : List Move := [.create, .ask 0 (.newInt 0 3),
      .ask 0 (.addPropagator (script "once" .subsumed) none),
      .ask 0 (.addBrancher (.viewValue brancher)),
      .ask 0 (.addPropagator (script "always" .fix) none), .ask 0 (.observe .liar),
      .copy 0 .independent, .ask 1 (.commit chosen 0), .ask 1 .fail, .copy 1 .sharing,
      .drop 1, .drop 2]
    let once := Noticed.propagator 0
    let always := Noticed.propagator 1
    let branches := Noticed.brancher 0
    let observes := Noticed.brancher 1
    let records : List Record := [
      { origin := .created, inherited := []
        joined := [(once, true), (branches, true), (always, true), (observes, false)]
        history := [(once, .propagated), (once, .disposed), (once, .subsumed),
          (always, .propagated)] },
      { origin := .copied .independent false
        inherited := [(branches, true), (always, true), (observes, false)], joined := []
        history := [(branches, .copied .independent), (always, .copied .independent),
          (branches, .committed), (branches, .disposed), (always, .disposed)] },
      { origin := .copied .sharing true, inherited := [], joined := [], history := [] }]
    ∃ f c, moves.foldlM Family.move .empty = some f ∧
      moves.foldlM Chronicle.move .empty = some c ∧ c.records = records ∧ c.family = f ∧
      ∀ (place : Nat) (r : Record), c.records[place]? = some r →
        r.Complete (f.space? place) := by
  intro script brancher chosen moves once always branches observes records
  have hcandid : ∀ move ∈ moves, move.Candid := by
    simp [moves, Move.Candid, Space.Act.Candid, Brancher.Plain, Observer.plain_liar]
  have hfamily : (moves.foldlM Family.move .empty).isSome = true := by decide +kernel
  have hrecords : (moves.foldlM Chronicle.move .empty).map (·.records) = some records := by
    decide +kernel
  obtain ⟨f, hrun⟩ := Option.isSome_iff_exists.mp hfamily
  obtain ⟨c, hchronicle, heq, -, hcomplete⟩ := actors_have_careers hcandid hrun
  rw [hchronicle] at hrecords
  exact ⟨f, c, hrun, hchronicle, Option.some.inj hrecords, heq, hcomplete⟩

end ConstraintSpace
