import ConstraintSpace.Proofs.Space.Enrolment
import ConstraintSpace.Proofs.Space.Likeness

/-!
# Shared data in copies

A copy passes the handles of the actors that are told through one context, in the order of
the registry.  A sharing copy leaves every handle as it is.  An independent copy renames the
instances: each gets one new number, which no instance had before, and all handles of it get
that number.  So two handles of the copy are of one instance exactly if the handles that they
stand for are.
-/

namespace ConstraintSpace

namespace CopyContext

variable {α β : Type} {c d e : CopyContext} {first : Nat} {h h' : Shared α}

/-! ## The context of one copy -/

/-- The instances met so far got different numbers, and none below the first. -/
structure Fresh (first : Nat) (c : CopyContext) : Prop where
  independent : c.mode = .independent
  le_next : first ≤ c.next
  bounds : ∀ {i j}, c.copies.lookup i = some j → first ≤ j ∧ j < c.next
  injective : ∀ {i i' j}, c.copies.lookup i = some j → c.copies.lookup i' = some j → i = i'

/-- Whatever was met before got the number that it had. -/
def Extends (c d : CopyContext) : Prop :=
  ∀ i j, c.copies.lookup i = some j → d.copies.lookup i = some j

/-- The second handle is the copy of the first one. -/
structure Copied (c : CopyContext) (h h' : Shared α) : Prop where
  content : h'.content = h.content
  lookup : c.copies.lookup h.id = some h'.id

theorem fresh_begin (first : Nat) : (begin .independent first).Fresh first where
  independent := rfl
  le_next := le_refl _
  bounds := by simp [begin]
  injective := by simp [begin]

theorem Copied.extends (hcopied : c.Copied h h') (hextends : c.Extends d) : d.Copied h h' :=
  ⟨hcopied.content, hextends _ _ hcopied.lookup⟩

/-- An instance that was not met before gets the next number. -/
theorem Fresh.copyShared (hfresh : c.Fresh first) (h : Shared α) :
    (c.copyShared h).2.Fresh first ∧ c.Extends (c.copyShared h).2 ∧
      (c.copyShared h).2.Copied h (c.copyShared h).1 := by
  cases hlookup : c.copies.lookup h.id with
  | some j =>
      simp only [CopyContext.copyShared, hfresh.independent, hlookup]
      exact ⟨hfresh, fun _ _ hmet => hmet, rfl, hlookup⟩
  | none =>
      simp only [CopyContext.copyShared, hfresh.independent, hlookup]
      have hread : ∀ i, ((h.id, c.next) :: c.copies).lookup i =
          if i = h.id then some c.next else c.copies.lookup i := by
        intro i
        rw [List.lookup_cons]
        by_cases heq : i = h.id
        · simp [heq]
        · simp [heq, beq_eq_false_iff_ne.mpr heq]
      refine ⟨⟨rfl, ?_, ?_, ?_⟩, ?_, rfl, ?_⟩
      · exact hfresh.le_next.trans (Nat.le_succ _)
      · intro i j hj
        rw [hread] at hj
        split at hj
        · obtain rfl := Option.some.inj hj
          exact ⟨hfresh.le_next, Nat.lt_succ_self _⟩
        · exact ⟨(hfresh.bounds hj).1, (hfresh.bounds hj).2.trans (Nat.lt_succ_self _)⟩
      · intro i i' j hj hj'
        rw [hread] at hj hj'
        split at hj <;> split at hj'
        next heq heq' => rw [heq, heq']
        next =>
          obtain rfl := Option.some.inj hj
          exact absurd (hfresh.bounds hj').2 (lt_irrefl _)
        next =>
          obtain rfl := Option.some.inj hj'
          exact absurd (hfresh.bounds hj).2 (lt_irrefl _)
        next => exact hfresh.injective hj hj'
      · intro i j hj
        rw [hread]
        split
        next heq => rw [heq, hlookup] at hj; cases hj
        next => exact hj
      · rw [hread, if_pos rfl]

theorem Fresh.copyAll (hfresh : c.Fresh first) (handles : List (Shared α)) :
    (c.copyAll handles).2.Fresh first ∧ c.Extends (c.copyAll handles).2 ∧
      List.Forall₂ (c.copyAll handles).2.Copied handles (c.copyAll handles).1 := by
  -- what is copied first stays copied while the rest is
  induction handles generalizing c with
  | nil => exact ⟨hfresh, fun _ _ hmet => hmet, .nil⟩
  | cons h rest ih =>
      obtain ⟨hfirst, hextends, hcopied⟩ := hfresh.copyShared h
      obtain ⟨hlast, hextends', hrest⟩ := ih hfirst
      exact ⟨hlast, fun i j hmet => hextends' i j (hextends i j hmet),
        .cons (hcopied.extends hextends') hrest⟩

theorem copyShared_map (f : α → β) (h : Shared α) :
    c.copyShared (h.map f) = ((c.copyShared h).1.map f, (c.copyShared h).2) := by
  unfold CopyContext.copyShared Shared.map
  cases c.mode with
  | sharing => rfl
  | independent => cases c.copies.lookup h.id <;> rfl

theorem copyAll_map (f : α → β) (handles : List (Shared α)) :
    c.copyAll (handles.map fun h => h.map f) =
      ((c.copyAll handles).1.map fun h => h.map f, (c.copyAll handles).2) := by
  induction handles generalizing c with
  | nil => rfl
  | cons h rest ih => simp only [List.map_cons, CopyContext.copyAll, copyShared_map, ih]

end CopyContext

/-! ## One actor -/

theorem Propagator.handles_onCopy (p : Propagator) (c : CopyContext) :
    ((p.onCopy c).1.handles, (p.onCopy c).2) = c.copyAll p.handles := by
  cases p with
  | scripted script =>
      simp only [onCopy, handles, CopyContext.copyAll_map]
  | _ => rfl

theorem Brancher.handles_onCopy (b : Brancher) (c : CopyContext) :
    ((b.onCopy c).1.handles, (b.onCopy c).2) = c.copyAll b.handles := by
  cases b with
  | observer o => rfl
  | viewValue b =>
      obtain ⟨start, selector, branching, label, selectionNotices, commitNotices⟩ := b
      cases branching with
      | int views selection commit =>
          cases selection with
          | preferred table =>
              have hone := CopyContext.copyShared_map (c := c) Content.table table
              simp only [handles, Branching.table?, Option.toList_some, List.map_cons,
                List.map_nil, CopyContext.copyAll, hone]
              rfl
          | _ => rfl
      | float views commit => rfl
      | set views selection commit => rfl

namespace Space

variable {s t u : Space} {a : Noticed} {mode : CopyMode} {next first : Nat}

theorem handles_tellCopy (mode : CopyMode) (c : CopyContext)
    (hlive : (s.notices? a).isSome = true) :
    (tellCopy mode (s, c) a).2 = (c.copyAll (s.handles a)).2 ∧
      ∀ x, (tellCopy mode (s, c) a).1.handles x =
        if x = a then (c.copyAll (s.handles a)).1 else s.handles x := by
  cases a with
  | propagator id =>
      cases hp : s.propagator? id with
      | none => simp [notices?, hp] at hlive
      | some p =>
          have hown : s.handles (.propagator id) = p.handles := by
            simp only [handles, hp, Option.elim_some]
          have hcopy := p.handles_onCopy c
          rw [hown, ← hcopy]
          simp only [tellCopy, hp]
          exact ⟨trivial, handles_setPropagator hp (p.onCopy c).1⟩
  | brancher id =>
      cases hb : s.branchers[id]? with
      | none => simp [notices?, hb] at hlive
      | some b =>
          have hown : s.handles (.brancher id) = b.handles := by
            simp only [handles, hb, Option.elim_some]
          have hcopy := b.handles_onCopy c
          rw [hown, ← hcopy]
          simp only [tellCopy, hb]
          exact ⟨trivial, handles_setBrancher hb (b.onCopy c).1⟩

theorem handles_foldl_tellCopy {c : CopyContext} (hfresh : c.Fresh first)
    {actors : List Noticed} (hnodup : actors.Nodup)
    (hlive : ∀ a ∈ actors, (s.notices? a).isSome = true) :
    let told := actors.foldl (tellCopy .independent) (s, c)
    told.2.Fresh first ∧ c.Extends told.2 ∧
      (∀ a ∈ actors, List.Forall₂ told.2.Copied (s.handles a) (told.1.handles a)) ∧
      ∀ a, a ∉ actors → told.1.handles a = s.handles a := by
  -- no actor is told twice: one that was told keeps its handles, and one that is still to
  -- be told has those of the copied space
  induction actors generalizing s c with
  | nil => exact ⟨hfresh, fun _ _ hmet => hmet, by simp, fun _ _ => rfl⟩
  | cons actor rest ih =>
      obtain ⟨hactor, hrest⟩ := List.forall_mem_cons.mp hlive
      obtain ⟨hout, hnodup⟩ := List.nodup_cons.mp hnodup
      obtain ⟨hcontext, hhandles⟩ := handles_tellCopy .independent c hactor
      have hkindred := (tellCopy_told .independent c hactor).1
      obtain ⟨hfirst, hextends, hcopied⟩ := hfresh.copyAll (s.handles actor)
      rw [← hcontext] at hfirst hextends hcopied
      rw [List.foldl_cons]
      generalize tellCopy .independent (s, c) actor = state at *
      obtain ⟨t, d⟩ := state
      obtain ⟨hlast, hextends', htold, hothers⟩ := ih hfirst hnodup fun a ha => by
        rw [hkindred.notices?]
        exact hrest a ha
      refine ⟨hlast, fun i j hmet => hextends' i j (hextends i j hmet), fun a ha => ?_,
        fun a ha => ?_⟩
      · rcases List.mem_cons.mp ha with rfl | ha
        · rw [hothers a hout, hhandles, if_pos rfl]
          exact hcopied.imp fun _ _ hcopy => hcopy.extends hextends'
        · have hne : a ≠ actor := fun heq => hout (heq ▸ ha)
          have hsame : t.handles a = s.handles a := by rw [hhandles, if_neg hne]
          exact hsame ▸ htold a ha
      · obtain ⟨hne, hnot⟩ := not_or.mp (List.mem_cons.not.mp ha)
        rw [hothers a hnot, hhandles, if_neg hne]

/-- The actors that are told pass all their handles through the copy. -/
theorem handles_copy_independent (hregistered : s.Registered) (hok : s.failure = none)
    (next : Nat) :
    ∃ c : CopyContext, c.Fresh next ∧ c.next = (s.copy .independent next).2 ∧
      ∀ a, if s.notices? a = some true then
          List.Forall₂ c.Copied (s.handles a) ((s.copy .independent next).1.handles a)
        else (s.copy .independent next).1.handles a = s.handles a := by
  have hbegin : s.Steady { s with counts := .zero, journal := [] } := .of_actors rfl rfl rfl
  obtain ⟨hfresh, -, htold, hothers⟩ :=
    handles_foldl_tellCopy (s := { s with counts := .zero, journal := [] })
      (CopyContext.fresh_begin next) hregistered.nodup hregistered.live
  rw [copy_of_not_failed hok]
  refine ⟨_, hfresh, rfl, fun a => ?_⟩
  split
  next hnotices => exact hbegin.handles a ▸ htold a ((hregistered.mem_iff a).mpr hnotices)
  next hnotices =>
    rw [← hbegin.handles a]
    exact hothers a ((hregistered.mem_iff a).not.mpr hnotices)

theorem context_foldl_tellCopy_sharing {c : CopyContext} (hmode : c.mode = .sharing)
    (actors : List Noticed) (s : Space) :
    (actors.foldl (tellCopy .sharing) (s, c)).2 = c := by
  induction actors generalizing s with
  | nil => rfl
  | cons actor rest ih =>
      have hsame := (tellCopy_sharing (s := s) hmode actor).2
      rw [List.foldl_cons, ← Prod.mk.eta (p := tellCopy .sharing (s, c) actor), hsame]
      exact ih _

theorem handles_copy_sharing (hok : s.failure = none) (next : Nat) :
    s.Steady (s.copy .sharing next).1 ∧ (s.copy .sharing next).2 = next := by
  obtain ⟨counts, journal, heq⟩ := alike_copy hok next
  refine ⟨heq ▸ .of_actors rfl rfl rfl, ?_⟩
  rw [copy_of_not_failed hok]
  exact congrArg CopyContext.next (context_foldl_tellCopy_sharing rfl s.noticed _)

/-! ## What a copy keeps -/

/-- The handle at a position of an actor that is to be told of copies. -/
def handle? (s : Space) (x : Noticed × Nat) : Option (Shared Content) :=
  if s.notices? x.1 = some true then (s.handles x.1)[x.2]? else none

/-- There are handles at the same positions, of the same contents, and two of them are of
one instance in the one space exactly if they are in the other. -/
structure SharesAs (t s : Space) : Prop where
  contents : ∀ x, (t.handle? x).map (·.content) = (s.handle? x).map (·.content)
  aliases : ∀ x y h k h' k', s.handle? x = some h → s.handle? y = some k →
    t.handle? x = some h' → t.handle? y = some k' → (h'.id = k'.id ↔ h.id = k.id)

theorem Steady.handle?_eq (hsteady : s.Steady t) (x : Noticed × Nat) :
    t.handle? x = s.handle? x := by
  rw [handle?, handle?, hsteady.notices?, hsteady.handles]

theorem Steady.sharesAs (hsteady : s.Steady t) : t.SharesAs s where
  contents := fun x => by rw [hsteady.handle?_eq]
  aliases := fun x y h k h' k' hx hy hx' hy' => by
    rw [hsteady.handle?_eq] at hx' hy'
    obtain rfl := Option.some.inj (hx.symm.trans hx')
    obtain rfl := Option.some.inj (hy.symm.trans hy')
    exact Iff.rfl

theorem rel_getElem? {α β : Type} {R : α → β → Prop} {l : List α} {l' : List β}
    (hrel : List.Forall₂ R l l') (k : Nat) : Option.Rel R l[k]? l'[k]? := by
  induction hrel generalizing k with
  | nil => exact .none
  | cons hfirst _ ih =>
      cases k with
      | zero => exact .some hfirst
      | succ k => exact ih k

/-- An independent copy renames the instances. -/
theorem handle?_copy_independent (hregistered : s.Registered) (hok : s.failure = none)
    (next : Nat) :
    ∃ c : CopyContext, c.Fresh next ∧ c.next = (s.copy .independent next).2 ∧
      ∀ x, Option.Rel c.Copied (s.handle? x) ((s.copy .independent next).1.handle? x) := by
  obtain ⟨c, hfresh, hnext, hhandles⟩ := handles_copy_independent hregistered hok next
  have hkindred := (copy_told hok hregistered.live .independent next).1
  refine ⟨c, hfresh, hnext, fun x => ?_⟩
  have hown := hhandles x.1
  rw [handle?, handle?, hkindred.notices?]
  split
  next hnotices =>
    rw [if_pos hnotices] at hown
    exact rel_getElem? hown x.2
  next => exact .none

theorem sharesAs_of_copied {c : CopyContext} (hfresh : c.Fresh first)
    (hcopied : ∀ x, Option.Rel c.Copied (s.handle? x) (t.handle? x)) : t.SharesAs s where
  contents := fun x => by
    generalize hs : s.handle? x = entry
    generalize ht : t.handle? x = entry'
    have hx := hcopied x
    rw [hs, ht] at hx
    cases hx with
    | none => rfl
    | some hcopy => exact congrArg some hcopy.content
  aliases := fun x y h k h' k' hx hy hx' hy' => by
    have hh := hcopied x
    have hk := hcopied y
    rw [hx, hx'] at hh
    rw [hy, hy'] at hk
    cases hh with
    | some hh =>
    cases hk with
    | some hk =>
    have hfirst := hh.lookup
    have hsecond := hk.lookup
    constructor
    · intro heq
      exact hfresh.injective hfirst (heq ▸ hsecond)
    · intro heq
      rw [heq, hsecond] at hfirst
      exact (Option.some.inj hfirst).symm

theorem le_id_of_copied {c : CopyContext} (hfresh : c.Fresh first)
    (hcopied : ∀ x, Option.Rel c.Copied (s.handle? x) (t.handle? x)) {x : Noticed × Nat}
    {h : Shared Content} (hx : t.handle? x = some h) : first ≤ h.id := by
  have hown := hcopied x
  rw [hx] at hown
  generalize s.handle? x = entry at hown
  cases hown with
  | some hcopy => exact (hfresh.bounds hcopy.lookup).1

/-! ## The numbers of a family -/

/-- All handles of the space are of instances with lower numbers. -/
def Within (s : Space) (n : Nat) : Prop := ∀ a, ∀ h ∈ s.handles a, h.id < n

theorem within_new (n : Nat) : new.Within n := by
  intro a
  cases a <;> simp [new, handles, propagator?]

theorem Within.mono {n m : Nat} (hwithin : s.Within n) (hle : n ≤ m) : s.Within m :=
  fun a h hh => (hwithin a h hh).trans_le hle

theorem Within.steady {n : Nat} (hwithin : s.Within n) (hsteady : s.Steady t) : t.Within n :=
  fun a => hsteady.handles a ▸ hwithin a

theorem Within.story {n : Nat} {deeds : List (Noticed × Deed)} (hwithin : s.Within n)
    (hstory : s.Story deeds t) : t.Within n := by
  induction hstory with
  | refl => exact hwithin
  | rest _ hsteady ih => exact ih.steady hsteady
  | work _ _ _ _ _ ih => exact ih
  | leave id _ hleaves ih =>
      intro a
      rw [hleaves.handles]
      split
      · simp
      · exact ih a

theorem Within.enrols {n : Nat} {joined : Option (Noticed × Bool)}
    {brings : List (Shared Content)} (hwithin : s.Within n) (hbrings : ∀ h ∈ brings, h.id < n)
    (henrols : s.Enrols joined brings t) : t.Within n :=
  match joined, henrols with
  | none, hsteady => hwithin.steady hsteady
  | some _, hjoins => fun x => by
      rw [hjoins.handles]
      split
      · exact hbrings
      · exact hwithin x

theorem Within.proceeds {n : Nat} {act : Act} (hwithin : s.Within n)
    (hbrings : ∀ h ∈ act.brings, h.id < n) (hproceeds : s.Proceeds act t) : t.Within n := by
  obtain ⟨u, deeds, henrols, hstory, -⟩ := hproceeds
  exact (hwithin.enrols hbrings henrols).story hstory

/-- The copy goes on with a number above all that it gave. -/
theorem Within.copy (hwithin : s.Within next) (hregistered : s.Registered) (mode : CopyMode) :
    next ≤ (s.copy mode next).2 ∧ (s.copy mode next).1.Within (s.copy mode next).2 := by
  cases hfailure : s.failure with
  | some reason =>
      simp only [Space.copy, hfailure]
      exact ⟨le_refl _, (within_new next).steady (.of_actors rfl rfl rfl)⟩
  | none =>
      cases mode with
      | sharing =>
          obtain ⟨hsteady, hnext⟩ := handles_copy_sharing hfailure next
          rw [hnext]
          exact ⟨le_refl _, hwithin.steady hsteady⟩
      | independent =>
          obtain ⟨c, hfresh, hnext, hhandles⟩ :=
            handles_copy_independent hregistered hfailure next
          rw [← hnext]
          refine ⟨hfresh.le_next, fun a h hh => ?_⟩
          have hown := hhandles a
          split at hown
          · obtain ⟨k, hk⟩ := List.mem_iff_getElem?.mp hh
            have hrel := rel_getElem? hown k
            rw [hk] at hrel
            generalize (s.handles a)[k]? = entry at hrel
            cases hrel with
            | some hcopy => exact (hfresh.bounds hcopy.lookup).2
          · rw [hown] at hh
            exact (hwithin a h hh).trans_le hfresh.le_next

end Space

/-- The actors that a move adds refer only to instances that there are. -/
def Move.refers (next : Nat) : Move → Bool
  | .ask _ act => act.brings.all fun h => h.id < next
  | _ => true

namespace Family

variable {e f g : Family} {s : Space} {place : Nat} {mode : CopyMode}

def moveKnown (f : Family) (move : Move) : Option Family :=
  if move.refers f.next then f.move move else none

/-- The numbers of all instances are below the next one. -/
structure Numbered (f : Family) : Prop where
  registered : ∀ {place s}, f.space? place = some s → s.Registered
  within : ∀ {place s}, f.space? place = some s → s.Within f.next

theorem numbered_empty : empty.Numbered := by
  constructor <;> intro place s hs <;> simp [empty, space?] at hs

theorem Numbered.mono (hnumbered : f.Numbered) {n : Nat} (hle : f.next ≤ n) :
    Numbered { f with next := n } where
  registered := hnumbered.registered
  within := fun hs => (hnumbered.within hs).mono hle

theorem Numbered.push (hnumbered : f.Numbered) (hregistered : s.Registered)
    (hwithin : s.Within f.next) :
    Numbered { f with spaces := f.spaces ++ [some s] } where
  registered := fun hs => by
    rw [space?_push] at hs
    split at hs
    · exact Option.some.inj hs ▸ hregistered
    · exact hnumbered.registered hs
  within := fun hs => by
    rw [space?_push] at hs
    split at hs
    · exact Option.some.inj hs ▸ hwithin
    · exact hnumbered.within hs

theorem Numbered.set {t : Option Space} (hnumbered : f.Numbered) (hs : f.space? place = some s)
    (hregistered : ∀ u, t = some u → u.Registered)
    (hwithin : ∀ u, t = some u → u.Within f.next) :
    Numbered { f with spaces := f.spaces.set place t } where
  registered := fun hu => by
    rw [space?_set hs] at hu
    split at hu
    · exact hregistered _ hu
    · exact hnumbered.registered hu
  within := fun hu => by
    rw [space?_set hs] at hu
    split at hu
    · exact hwithin _ hu
    · exact hnumbered.within hu

theorem Numbered.move {move : Move} (hnumbered : f.Numbered)
    (hmove : f.moveKnown move = some g) : f.next ≤ g.next ∧ g.Numbered := by
  have hrefers : move.refers f.next = true := by
    by_contra hnot
    rw [moveKnown, if_neg hnot] at hmove
    cases hmove
  rw [moveKnown, if_pos hrefers] at hmove
  cases move with
  | create =>
      obtain rfl := Option.some.inj hmove
      exact ⟨le_refl _, hnumbered.push Space.registered_new (Space.within_new _)⟩
  | issue =>
      obtain rfl := Option.some.inj hmove
      exact ⟨Nat.le_succ _, hnumbered.mono (Nat.le_succ _)⟩
  | ask place act =>
      cases hs : f.space? place with
      | none => simp [Family.move, hs] at hmove
      | some s =>
          cases hkeeps : act.replaces with
          | true => simp [Family.move, hs, hkeeps] at hmove
          | false =>
              rw [move_ask hs hkeeps] at hmove
              obtain ⟨t, hperform, rfl⟩ := Option.map_eq_some_iff.mp hmove
              have hproceeds := Space.Act.proceeds hkeeps hperform
              have hbrings : ∀ h ∈ act.brings, h.id < f.next := by
                simpa [Move.refers] using hrefers
              refine ⟨le_refl _, hnumbered.set hs ?_ ?_⟩
              · rintro _ ⟨⟩
                exact (hnumbered.registered hs).proceeds hproceeds
              · rintro _ ⟨⟩
                exact (hnumbered.within hs).proceeds hbrings hproceeds
  | copy place mode =>
      cases hs : f.space? place with
      | none => simp [Family.move, hs] at hmove
      | some s =>
          rw [move_copy hs] at hmove
          obtain rfl := Option.some.inj hmove
          have hregistered := hnumbered.registered hs
          obtain ⟨hle, hwithin⟩ := (hnumbered.within hs).copy hregistered mode
          exact ⟨hle, (hnumbered.mono hle).push (hregistered.copy mode f.next) hwithin⟩
  | drop place =>
      cases hs : f.space? place with
      | none => simp [Family.move, hs] at hmove
      | some s =>
          simp only [Family.move, hs, Option.some.injEq] at hmove
          subst hmove
          exact ⟨le_refl _, hnumbered.set hs (by simp) (by simp)⟩

theorem Numbered.run {moves : List Move} (hnumbered : f.Numbered)
    (hrun : moves.foldlM moveKnown f = some g) : f.next ≤ g.next ∧ g.Numbered := by
  induction moves generalizing f with
  | nil =>
      obtain rfl := Option.some.inj hrun
      exact ⟨le_refl _, hnumbered⟩
  | cons move rest ih =>
      rw [List.foldlM_cons] at hrun
      obtain ⟨h, hmove, hrun⟩ := Option.bind_eq_some_iff.mp hrun
      obtain ⟨hle, hnumbered'⟩ := hnumbered.move hmove
      obtain ⟨hle', hlast⟩ := ih hnumbered' hrun
      exact ⟨hle.trans hle', hlast⟩

/-- A copy of a space that is not failed has handles of the same contents at the same
positions, and two of them are of one instance exactly if those of the copied space are.  The
handles of a sharing copy are those of the copied space.  An independent copy has no instance
in common with any space that the family has now or had at any earlier time.  All other
spaces stay as they are. -/
theorem copies_share_as_their_originals {earlier later : List Move}
    (hearlier : earlier.foldlM moveKnown empty = some e)
    (hlater : later.foldlM moveKnown e = some f)
    (hs : f.space? place = some s) (hok : s.failure = none)
    (hcopy : f.move (.copy place mode) = some g) :
    ∃ t, g.space? f.spaces.length = some t ∧
      (∀ other, other ≠ f.spaces.length → g.space? other = f.space? other) ∧
      t.SharesAs s ∧
      match mode with
      | .sharing => ∀ a, t.handles a = s.handles a
      | .independent => ∀ x h, t.handle? x = some h →
          ∀ other u, e.space? other = some u → ∀ a, ∀ k ∈ u.handles a, h.id ≠ k.id := by
  obtain ⟨-, hbefore⟩ := numbered_empty.run hearlier
  obtain ⟨hle, hnumbered⟩ := hbefore.run hlater
  have hregistered := hnumbered.registered hs
  rw [move_copy hs] at hcopy
  obtain rfl := Option.some.inj hcopy
  refine ⟨(s.copy mode f.next).1, ?_, fun other hother => ?_, ?_⟩
  · rw [space?_push, if_pos rfl]
  · rw [space?_push, if_neg hother]
  · cases mode with
    | sharing =>
        have hsteady := (Space.handles_copy_sharing hok f.next).1
        exact ⟨hsteady.sharesAs, hsteady.handles⟩
    | independent =>
        obtain ⟨c, hfresh, -, hcopied⟩ :=
          Space.handle?_copy_independent hregistered hok f.next
        refine ⟨Space.sharesAs_of_copied hfresh hcopied, ?_⟩
        intro x h hx other u hu a k hk heq
        have hnew := Space.le_id_of_copied hfresh hcopied hx
        have hold := hbefore.within hu a k hk
        omega

/-- Two propagators and the table of a brancher are copied independently, and the copy is
copied again after its original was dropped.  Two instances hold the same values. -/
theorem copies_of_a_copy_share :
    let script (name : String) (shared : List (Shared (List Int))) : Propagator := .scripted
      { name, priority := .high, notices := true, watches := [], runs := 0, shared
        script := fun _ _ => { narrowings := [], verdict := .ended .fix }
        vetoes := fun _ _ _ _ => false }
    let brancher : ViewBrancher :=
      { start := 0, selector := .inputOrder
        branching := .int [.var 0] (.preferred { id := 2, content := [(.var 0, 3)] })
          .assignOrExclude
        label := none, selectionNotices := false, commitNotices := false }
    let earlier : List Move := [.issue, .issue, .issue, .create, .ask 0 (.newInt 0 3),
      .ask 0 (.addPropagator (script "first" [⟨0, [5]⟩, ⟨1, [5]⟩]) none),
      .ask 0 (.addBrancher (.viewValue brancher)),
      .ask 0 (.addPropagator (script "second" [⟨1, [5]⟩, ⟨1, [5]⟩, ⟨0, [5]⟩]) none)]
    let later : List Move := [.copy 0 .independent, .ask 1 .status, .drop 0]
    let numbers (s : Space) : List (List Nat) :=
      [.propagator 0, .brancher 0, .propagator 1].map fun a => (s.handles a).map (·.id)
    ∃ e f g s t, earlier.foldlM moveKnown empty = some e ∧ later.foldlM moveKnown e = some f ∧
      f.space? 1 = some s ∧ s.failure = none ∧ f.move (.copy 1 .independent) = some g ∧
      g.space? 2 = some t ∧ numbers s = [[3, 4], [5], [4, 4, 3]] ∧
      numbers t = [[6, 7], [8], [7, 7, 6]] ∧ t.SharesAs s ∧
      ∀ x h, t.handle? x = some h →
        ∀ other u, e.space? other = some u → ∀ a, ∀ k ∈ u.handles a, h.id ≠ k.id := by
  intro script brancher earlier later numbers
  let summary : Option (Option Inconsistency × Nat × List (List Nat) × List (List Nat)) := do
    let e ← earlier.foldlM moveKnown empty
    let f ← later.foldlM moveKnown e
    let s ← f.space? 1
    let g ← f.move (.copy 1 .independent)
    let t ← g.space? 2
    pure (s.failure, f.spaces.length, numbers s, numbers t)
  have hsummary : summary =
      some (none, 2, [[3, 4], [5], [4, 4, 3]], [[6, 7], [8], [7, 7, 6]]) := by
    decide +kernel
  obtain ⟨e, hearlier, hsummary⟩ := Option.bind_eq_some_iff.mp hsummary
  obtain ⟨f, hlater, hsummary⟩ := Option.bind_eq_some_iff.mp hsummary
  obtain ⟨s, hs, hsummary⟩ := Option.bind_eq_some_iff.mp hsummary
  obtain ⟨g, hcopy, hsummary⟩ := Option.bind_eq_some_iff.mp hsummary
  obtain ⟨t, ht, hsummary⟩ := Option.bind_eq_some_iff.mp hsummary
  obtain ⟨hok, hrest⟩ := Prod.mk.inj (Option.some.inj hsummary)
  obtain ⟨hlength, hnumbers⟩ := Prod.mk.inj hrest
  obtain ⟨hnumbers, hnumbers'⟩ := Prod.mk.inj hnumbers
  obtain ⟨u, hu, -, hshares, hnew⟩ :=
    copies_share_as_their_originals hearlier hlater hs hok hcopy
  rw [hlength, ht] at hu
  obtain rfl := Option.some.inj hu
  exact ⟨e, f, g, s, t, hearlier, hlater, hs, hok, hcopy, ht, hnumbers, hnumbers', hshares,
    hnew⟩

end Family

end ConstraintSpace
