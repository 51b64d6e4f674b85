import ConstraintSpace.Propagator.Subset
import ConstraintSpace.Proofs.Store.Assignment

/-!
# The rounds of an inclusion

A round of the propagator for `a ⊆ b` either changes nothing, or it lowers the sum of
the measures of the two domains.  The fuel exceeds this sum, so the rounds end with
one that changes nothing.

What a round passes on are bounds that all assignments have in common.  A family of
assignments is level when every such bound of the one set is one of the other set, so
that a round takes nothing out of it.  Every step keeps the level families, and after
the last round the admitted assignments are one themselves.  A single assignment is a
level family when it satisfies the inclusion.
-/

namespace ConstraintSpace

namespace Subset

/-- From the store on, the computation only narrows.  It either gives a value
that satisfies the postcondition, or is refused for the given reason. -/
def Ends {α : Type} (m : Work α) (refused : Prop) (post : α → Store → Prop)
    (s : Store) : Prop :=
  ∀ counts, (∃ s' counts', m (s, counts) = .error .emptied (s', counts') ∧
      s'.Valid ∧ s.Narrows s' ∧ refused) ∨
    ∃ x s' counts', m (s, counts) = .ok x (s', counts') ∧
      s'.Valid ∧ s.Narrows s' ∧ post x s'

namespace Ends

variable {α β : Type} {m : Work α} {k : α → Work β} {refused refused' : Prop}
variable {post : α → Store → Prop} {post' : β → Store → Prop} {s : Store}

theorem mono {post'' : α → Store → Prop} (hm : Ends m refused post s)
    (hrefused : refused → refused')
    (hpost : ∀ x s', s'.Valid → s.Narrows s' → post x s' → post'' x s') :
    Ends m refused' post'' s := by
  intro counts
  rcases hm counts with ⟨s', c, hrun, hvalid, hnarrows, href⟩ |
    ⟨x, s', c, hrun, hvalid, hnarrows, hx⟩
  · exact Or.inl ⟨s', c, hrun, hvalid, hnarrows, hrefused href⟩
  · exact Or.inr ⟨x, s', c, hrun, hvalid, hnarrows, hpost x s' hvalid hnarrows hx⟩

theorem bind (hm : Ends m refused post s)
    (hk : ∀ x s', s'.Valid → s.Narrows s' → post x s' → Ends (k x) refused post' s') :
    Ends (m >>= k) refused post' s := by
  intro counts
  rcases hm counts with ⟨s', c, hrun, hvalid, hnarrows, href⟩ |
    ⟨x, s', c, hrun, hvalid, hnarrows, hx⟩
  · refine Or.inl ⟨s', c, ?_, hvalid, hnarrows, href⟩
    simp only [Bind.bind, EStateM.bind, hrun]
  · have hstep : (m >>= k) (s, counts) = k x (s', c) := by
      simp only [Bind.bind, EStateM.bind, hrun]
    rcases hk x s' hvalid hnarrows hx c with ⟨s'', c', hrun', hvalid', hnarrows', href⟩ |
      ⟨y, s'', c', hrun', hvalid', hnarrows', hy⟩
    · exact Or.inl ⟨s'', c', hstep.trans hrun', hvalid', hnarrows.trans hnarrows', href⟩
    · exact Or.inr
        ⟨y, s'', c', hstep.trans hrun', hvalid', hnarrows.trans hnarrows', hy⟩

theorem of_pure (hvalid : s.Valid) (x : α) (hx : post x s) :
    Ends (pure x) refused post s :=
  fun counts => Or.inr ⟨x, s, counts, rfl, hvalid, Store.Narrows.refl hvalid, hx⟩

theorem get_bind {k : Store × SubsetCounts → Work β}
    (hk : ∀ counts, Ends (k (s, counts)) refused post' s) :
    Ends (get >>= k) refused post' s :=
  fun counts => hk counts counts

/-- Counting comes before the rest and changes no store. -/
theorem count_bind {count : Store × SubsetCounts → Store × SubsetCounts}
    {k : Unit → Work β} (hcount : ∀ state, (count state).1 = state.1)
    (hk : Ends (k ()) refused post' s) :
    Ends (modify count >>= k) refused post' s := by
  intro counts
  have hstep : (modify count >>= k) (s, counts) = k () (s, (count (s, counts)).2) :=
    congrArg (k ()) (Prod.ext (hcount (s, counts)) rfl)
  rw [hstep]
  exact hk _

end Ends

variable {a b : Nat} {s s' t : Store} {K : Assignment → Prop}

/-! ## Level families -/

/-- Every bound that all assignments of the family share passes from the one set to
the other. -/
structure Level (a b : Nat) (K : Assignment → Prop) : Prop where
  required : ∀ x, (∀ v, K v → x ∈ v.set a) → ∀ v, K v → x ∈ v.set b
  excluded : ∀ x, (∀ v, K v → x ∉ v.set b) → ∀ v, K v → x ∉ v.set a
  most : ∀ n, (∀ v, K v → (v.set b).card ≤ n) → ∀ v, K v → (v.set a).card ≤ n
  least : ∀ n, (∀ v, K v → n ≤ (v.set a).card) → ∀ v, K v → n ≤ (v.set b).card

theorem level_of_subset (hsub : ∀ v, K v → v.set a ⊆ v.set b) : Level a b K where
  required := fun _ hall v hv => hsub v hv (hall v hv)
  excluded := fun _ hall v hv hx => hall v hv (hsub v hv hx)
  most := fun _ hall v hv => (Finset.card_le_card (hsub v hv)).trans (hall v hv)
  least := fun _ hall v hv => (hall v hv).trans (Finset.card_le_card (hsub v hv))

/-- The admitted assignments are level where the bounds of the two domains are. -/
theorem level_of_bounds (hvalid : s.Valid) (ha : a < s.sets.size) (hb : b < s.sets.size)
    (hglb : (s.set a).glb ⊆ (s.set b).glb) (hlub : (s.set a).lub ⊆ (s.set b).lub)
    (hmost : ∀ x : Finset Int, x ∈ s.set a → x.card ≤ (s.set b).cardUpper)
    (hleast : ∀ x : Finset Int, x ∈ s.set b → (s.set a).cardLower ≤ x.card) :
    Level a b s.Admits where
  required := fun x hall v hv => by
    have hx : x ∈ (s.set a).glb := by
      refine (hvalid.set a).mem_glb_iff.mpr fun elements hmem => ?_
      obtain ⟨w, hw, rfl⟩ := hvalid.exists_admits_set ha hmem
      exact hall w hw
    exact (hv.set b hb).1 x (hglb hx)
  excluded := fun x hall v hv hx => by
    obtain ⟨elements, hmem, hin⟩ :=
      (hvalid.set b).mem_lub_iff.mp (hlub ((hv.set a ha).2.1 x hx))
    obtain ⟨w, hw, rfl⟩ := hvalid.exists_admits_set hb hmem
    exact hall w hw hin
  most := fun n hall v hv => by
    obtain ⟨elements, hmem, hcard⟩ :=
      (hvalid.set b).exists_mem_of_card (hvalid.set b).cardLower_le (le_refl _)
    obtain ⟨w, hw, rfl⟩ := hvalid.exists_admits_set hb hmem
    have := hall w hw
    have := hmost _ (hv.set a ha)
    omega
  least := fun n hall v hv => by
    obtain ⟨elements, hmem, hcard⟩ :=
      (hvalid.set a).exists_mem_of_card (le_refl _) (hvalid.set a).cardLower_le
    obtain ⟨w, hw, rfl⟩ := hvalid.exists_admits_set ha hmem
    have := hall w hw
    have := hleast _ (hv.set b hb)
    omega

theorem Level.glb_subset (hlevel : Level a b s.Admits) (hvalid : s.Valid)
    (ha : a < s.sets.size) (hb : b < s.sets.size) : (s.set a).glb ⊆ (s.set b).glb := by
  intro x hx
  refine (hvalid.set b).mem_glb_iff.mpr fun elements hmem => ?_
  obtain ⟨w, hw, rfl⟩ := hvalid.exists_admits_set hb hmem
  exact hlevel.required x (fun v hv => (hv.set a ha).1 x hx) w hw

/-- No level family is admitted. -/
def Bars (a b : Nat) (s : Store) : Prop :=
  ∀ K, Level a b K → (∀ v, K v → s.Admits v) → ∀ v, ¬K v

/-- Every level family that the first store admits is admitted by the second. -/
def Spares (a b : Nat) (s s' : Store) : Prop :=
  ∀ K, Level a b K → (∀ v, K v → s.Admits v) → ∀ v, K v → s'.Admits v

theorem Spares.trans (hfirst : Spares a b s s') (hsecond : Spares a b s' t) :
    Spares a b s t :=
  fun K hlevel hK => hsecond K hlevel (hfirst K hlevel hK)

theorem Spares.bars (hspares : Spares a b s s') (hbars : Bars a b s') : Bars a b s :=
  fun K hlevel hK => hbars K hlevel (hspares K hlevel hK)

/-- What spares the level families keeps every assignment that satisfies the
inclusion. -/
theorem Spares.admits (hspares : Spares a b s s') {v : Assignment} (hv : s.Admits v)
    (hsub : v.set a ⊆ v.set b) : s'.Admits v :=
  hspares (fun w => w = v) (level_of_subset fun _ heq => heq ▸ hsub)
    (fun _ heq => heq ▸ hv) v rfl

theorem Bars.not_subset (hbars : Bars a b s) {v : Assignment} (hv : s.Admits v) :
    ¬v.set a ⊆ v.set b := fun hsub =>
  hbars (fun w => w = v) (level_of_subset fun _ heq => heq ▸ hsub)
    (fun _ heq => heq ▸ hv) v rfl

/-! ## Narrowings -/

/-- A computation that keeps what satisfies a condition spares the level families where
their members do. -/
theorem Ends.spares {α : Type} {m : Work α} {keep : Assignment → Prop}
    {post : α → Store → Prop}
    (hm : Ends m (∀ v, s.Admits v → ¬keep v)
      (fun x s' => post x s' ∧ ∀ v, s.Admits v → keep v → s'.Admits v) s)
    (hall : ∀ K, Level a b K → (∀ v, K v → s.Admits v) → ∀ v, K v → keep v) :
    Ends m (Bars a b s) (fun x s' => post x s' ∧ Spares a b s s') s := by
  refine hm.mono ?_ ?_
  · intro hempty K hlevel hK v hv
    exact hempty v (hK v hv) (hall K hlevel hK v hv)
  · rintro x s' - - ⟨hpost, hkept⟩
    exact ⟨hpost, fun K hlevel hK v hv => hkept v (hK v hv) (hall K hlevel hK v hv)⟩

theorem narrow_ends {op : SetDomain → Option (SetDomain × EventSet)}
    {keep : Finset Int → Prop} (hop : SetDomain.Restricts op keep)
    (hvalid : s.Valid) {id : Nat} (hid : id < s.sets.size) :
    Ends (narrow (Store.narrowSet id op)) (∀ v, s.Admits v → ¬keep (v.set id))
      (fun change s' => (change = .ofEvents ((s.set id).eventsTo (s'.set id)) ∧
        (∀ other, other ≠ id → s'.set other = s.set other) ∧
        (∀ x : Finset Int, x ∈ s'.set id → keep x)) ∧
        ∀ v, s.Admits v → keep (v.set id) → s'.Admits v) s := by
  intro counts
  rcases Store.narrowSet_cases hop hvalid hid with
    ⟨hrun, hempty⟩ | ⟨d, hrun, hd, hshrinks, hmem⟩
  · exact Or.inl ⟨s, counts, by simp only [narrow, hrun], hvalid,
      Store.Narrows.refl hvalid, fun v hv => hempty _ (hv.set id hid)⟩
  · obtain ⟨hvalid', hnarrows⟩ := Store.changeSet_narrows hvalid hid hd hshrinks
    have hset := Store.set_changeSet hid d
    have hself : (s.changeSet id d).set id = d := by rw [hset, if_pos rfl]
    refine Or.inr ⟨.ofEvents ((s.set id).eventsTo d), _, counts,
      by simp only [narrow, hrun], hvalid', hnarrows, ⟨?_, fun other hne => ?_, fun x hx => ?_⟩,
      fun v hv hkeep => ⟨hv.int, fun other hother => ?_⟩⟩
    · rw [hself]
    · rw [hset, if_neg hne]
    · rw [hself] at hx
      exact ((hmem x).mp hx).2
    · rw [hnarrows.sets_size] at hother
      rw [hset]
      split
      next heq => exact heq ▸ (hmem _).mpr ⟨hv.set id hid, hkeep⟩
      next => exact hv.set other hother

/-- One narrowing and one count for each element. -/
theorem sweep_ends {id : Nat} (sweep : List Int → Work Unit)
    {op : Int → SetDomain → Option (SetDomain × EventSet)}
    {count : Store × SubsetCounts → Store × SubsetCounts} {keep : Int → Finset Int → Prop}
    (hnil : sweep [] = pure ())
    (hcons : ∀ x rest, sweep (x :: rest) =
      narrow (Store.narrowSet id (op x)) >>= fun _ => modify count >>= fun _ => sweep rest)
    (hcount : ∀ state, (count state).1 = state.1)
    (hop : ∀ x, SetDomain.Restricts (op x) (keep x)) (xs : List Int)
    (hvalid : s.Valid) (hid : id < s.sets.size) :
    Ends (sweep xs) (∀ v, s.Admits v → ¬∀ x ∈ xs, keep x (v.set id))
      (fun _ s' => ((xs = [] → s' = s) ∧
        (∀ x ∈ xs, ∀ t : Finset Int, t ∈ s'.set id → keep x t)) ∧
        ∀ v, s.Admits v → (∀ x ∈ xs, keep x (v.set id)) → s'.Admits v) s := by
  induction xs generalizing s with
  | nil =>
      rw [hnil]
      exact Ends.of_pure hvalid () ⟨⟨fun _ => rfl, by simp⟩, fun v hv _ => hv⟩
  | cons x rest ih =>
      rw [hcons]
      refine ((narrow_ends (hop x) hvalid hid).mono
        (fun hempty v hv hall => hempty v hv (hall x List.mem_cons_self))
        (fun _ _ _ _ hpost => hpost)).bind fun _ s₁ hvalid₁ hnarrows₁ hpost => ?_
      refine Ends.count_bind hcount ?_
      obtain ⟨⟨-, -, hkeep⟩, hkept⟩ := hpost
      refine (ih hvalid₁ (by rwa [hnarrows₁.sets_size])).mono (fun hempty v hv hall => ?_)
        (fun _ s₂ _ hnarrows₂ hpost => ?_)
      · exact hempty v (hkept v hv (hall x List.mem_cons_self))
          fun y hy => hall y (List.mem_cons_of_mem x hy)
      · obtain ⟨⟨-, hrest⟩, hkept'⟩ := hpost
        refine ⟨⟨by simp, fun y hy t ht => ?_⟩, fun v hv hall => ?_⟩
        · rcases List.mem_cons.mp hy with rfl | hy
          · -- what the first narrowing excluded stays excluded
            exact hkeep t ((hnarrows₂.set_shrinks id).mem ht)
          · exact hrest y hy t ht
        · exact hkept' v (hkept v hv (hall x List.mem_cons_self))
            fun y hy => hall y (List.mem_cons_of_mem x hy)

/-! ## Rounds -/

/-- What is left to decide about the two sets. -/
def undecided (a b : Nat) (s : Store) : Nat :=
  (s.set a).measure + (s.set b).measure

theorem measure_le_of_narrows (hvalid : s.Valid) (hvalid' : s'.Valid)
    (hnarrows : s.Narrows s') (id : Nat) :
    (s'.set id).measure ≤ (s.set id).measure := by
  by_cases hsame : s'.set id = s.set id
  · rw [hsame]
  · exact ((hnarrows.set_shrinks id).measure_lt (hvalid.set id).toSpanned
      (hvalid'.set id).toSpanned hsame).le

theorem undecided_lt (hvalid : s.Valid) (hvalid' : s'.Valid)
    (hnarrows : s.Narrows s')
    (hchanged : s'.set a ≠ s.set a ∨ s'.set b ≠ s.set b) :
    undecided a b s' < undecided a b s := by
  have ha := measure_le_of_narrows hvalid hvalid' hnarrows a
  have hb := measure_le_of_narrows hvalid hvalid' hnarrows b
  have hlt := fun id => (hnarrows.set_shrinks id).measure_lt
    (hvalid.set id).toSpanned (hvalid'.set id).toSpanned
  unfold undecided
  rcases hchanged with hne | hne
  · have := hlt a hne
    omega
  · have := hlt b hne
    omega

/-- A narrowing that reports no change made none. -/
theorem set_eq_of_ofEvents {d d' : SetDomain}
    (hnone : Change.ofEvents (d.eventsTo d') = .none) : d' = d := by
  by_contra hne
  have hremoval : (d.eventsTo d').removal = true := by
    simp [SetDomain.eventsTo, hne]
  unfold Change.ofEvents at hnone
  split_ifs at hnone

theorem ne_of_ofEvents {d d' : SetDomain}
    (hsome : Change.ofEvents (d.eventsTo d') ≠ .none) : d' ≠ d := by
  rintro rfl
  rw [SetDomain.eventsTo_self] at hsome
  exact hsome rfl

theorem mem_missing {x : Int} :
    x ∈ missing s a b ↔ x ∈ (s.set a).glb ∧ x ∉ (s.set b).glb := by
  simp [missing]

theorem mem_surplus {x : Int} :
    x ∈ surplus s a b ↔ x ∈ (s.set a).lub ∧ x ∉ (s.set b).lub := by
  simp [surplus]

theorem glb_subset_of_missing (hnone : missing s a b = []) :
    (s.set a).glb ⊆ (s.set b).glb := by
  intro x hx
  by_contra hnew
  simpa [hnone] using mem_missing.mpr ⟨hx, hnew⟩

theorem lub_subset_of_surplus (hnone : surplus s a b = []) :
    (s.set a).lub ⊆ (s.set b).lub := by
  intro x hx
  by_contra hnew
  simpa [hnone] using mem_surplus.mpr ⟨hx, hnew⟩

/-- What one step of a round leaves behind: an idle step leaves the sets as they are, any
other decides something. -/
structure StepPost (a b : Nat) (s : Store) (idle : Prop) (s' : Store) : Prop where
  spares : Spares a b s s'
  same : idle → ∀ id, s'.set id = s.set id
  busy : ¬idle → undecided a b s' < undecided a b s

theorem StepPost.undecided_le {idle : Prop} (hpost : StepPost a b s idle s') :
    undecided a b s' ≤ undecided a b s := by
  by_cases hidle : idle
  · exact Nat.add_le_add (by rw [hpost.same hidle]) (by rw [hpost.same hidle])
  · exact (hpost.busy hidle).le

theorem requireMissing_ends (hvalid : s.Valid) (ha : a < s.sets.size)
    (hb : b < s.sets.size) :
    Ends (requireAll b (missing s a b)) (Bars a b s)
      (fun _ s' => StepPost a b s (missing s a b = []) s') s := by
  have hsweep := (sweep_ends (requireAll b) rfl (fun _ _ => rfl) (fun _ => rfl)
    SetDomain.require_restricts (missing s a b) hvalid hb).spares (a := a) (b := b)
    fun K hlevel hK v hv x hx =>
      hlevel.required x (fun w hw => ((hK w hw).set a ha).1 x (mem_missing.mp hx).1) v hv
  refine hsweep.mono (fun hbars => hbars) ?_
  rintro _ s' hvalid' hnarrows ⟨⟨hidle, hkeep⟩, hspares⟩
  refine ⟨hspares, fun hnone id => by rw [hidle hnone], fun hsome => ?_⟩
  obtain ⟨x, hx⟩ := List.exists_mem_of_ne_nil _ hsome
  refine undecided_lt hvalid hvalid' hnarrows (Or.inr fun heq => ?_)
  have hrequired : x ∈ (s'.set b).glb := (hvalid'.set b).mem_glb_iff.mpr (hkeep x hx)
  exact (mem_missing.mp hx).2 (heq ▸ hrequired)

theorem forbidSurplus_ends (hvalid : s.Valid) (ha : a < s.sets.size)
    (hb : b < s.sets.size) :
    Ends (forbidAll a (surplus s a b)) (Bars a b s)
      (fun _ s' => StepPost a b s (surplus s a b = []) s') s := by
  have hsweep := (sweep_ends (forbidAll a) rfl (fun _ _ => rfl) (fun _ => rfl)
    SetDomain.forbid_restricts (surplus s a b) hvalid ha).spares (a := a) (b := b)
    fun K hlevel hK v hv x hx =>
      hlevel.excluded x (fun w hw hmem =>
        (mem_surplus.mp hx).2 (((hK w hw).set b hb).2.1 x hmem)) v hv
  refine hsweep.mono (fun hbars => hbars) ?_
  rintro _ s' hvalid' hnarrows ⟨⟨hidle, hkeep⟩, hspares⟩
  refine ⟨hspares, fun hnone id => by rw [hidle hnone], fun hsome => ?_⟩
  obtain ⟨x, hx⟩ := List.exists_mem_of_ne_nil _ hsome
  refine undecided_lt hvalid hvalid' hnarrows (Or.inl fun heq => ?_)
  obtain ⟨elements, hmem, hin⟩ :=
    (hvalid'.set a).exists_mem_with (heq ▸ (mem_surplus.mp hx).1)
  exact hkeep x hx elements hmem hin

/-- A narrowing of one set that reports no change left all sets as they were. -/
theorem set_eq_of_unchanged {id : Nat} {change : Change}
    (hchange : change = .ofEvents ((s.set id).eventsTo (s'.set id)))
    (hframe : ∀ other, other ≠ id → s'.set other = s.set other) (hnone : change = .none)
    (other : Nat) : s'.set other = s.set other := by
  by_cases heq : other = id
  · rw [heq]
    exact set_eq_of_ofEvents (hchange ▸ hnone)
  · exact hframe other heq

/-- `b` passes its upper bound on the number of elements to `a`. -/
theorem capUpper_ends (hvalid : s.Valid) (ha : a < s.sets.size) (hb : b < s.sets.size) :
    Ends (narrow (Store.narrowSet a (SetDomain.setCardUpper (s.set b).cardUpper)))
      (Bars a b s)
      (fun change s' => StepPost a b s (change = .none) s' ∧
        ∀ x : Finset Int, x ∈ s'.set a → x.card ≤ (s.set b).cardUpper) s := by
  have hcapped := (narrow_ends (SetDomain.setCardUpper_restricts (s.set b).cardUpper) hvalid
    ha).spares (a := a) (b := b) fun K hlevel hK =>
      hlevel.most _ fun w hw => ((hK w hw).set b hb).2.2.2
  refine hcapped.mono (fun hbars => hbars) ?_
  rintro change s' hvalid' hnarrows ⟨⟨hchange, hframe, hmost⟩, hspares⟩
  refine ⟨⟨hspares, set_eq_of_unchanged hchange hframe, fun hsome => ?_⟩, hmost⟩
  exact undecided_lt hvalid hvalid' hnarrows (Or.inl (ne_of_ofEvents (hchange ▸ hsome)))

/-- `a` passes its lower bound on the number of elements to `b`. -/
theorem raiseLower_ends (hvalid : s.Valid) (ha : a < s.sets.size) (hb : b < s.sets.size) :
    Ends (narrow (Store.narrowSet b (SetDomain.setCardLower (s.set a).cardLower)))
      (Bars a b s)
      (fun change s' => StepPost a b s (change = .none) s' ∧
        ∀ x : Finset Int, x ∈ s'.set b → (s.set a).cardLower ≤ x.card) s := by
  have hraised := (narrow_ends (SetDomain.setCardLower_restricts (s.set a).cardLower) hvalid
    hb).spares (a := a) (b := b) fun K hlevel hK =>
      hlevel.least _ fun w hw => ((hK w hw).set a ha).2.2.1
  refine hraised.mono (fun hbars => hbars) ?_
  rintro change s' hvalid' hnarrows ⟨⟨hchange, hframe, hleast⟩, hspares⟩
  refine ⟨⟨hspares, set_eq_of_unchanged hchange hframe, fun hsome => ?_⟩, hleast⟩
  exact undecided_lt hvalid hvalid' hnarrows (Or.inr (ne_of_ofEvents (hchange ▸ hsome)))

/-- What a round leaves behind. -/
structure RoundPost (a b : Nat) (s : Store) (changed : Bool) (s' : Store) : Prop where
  spares : Spares a b s s'
  quiet : changed = false → Level a b s'.Admits
  busy : changed = true → undecided a b s' < undecided a b s

theorem round_ends (hvalid : s.Valid) (ha : a < s.sets.size) (hb : b < s.sets.size) :
    Ends (round a b) (Bars a b s) (RoundPost a b s) s := by
  unfold round
  refine Ends.get_bind fun _ => ?_
  refine (requireMissing_ends hvalid ha hb).bind fun _ s₁ hvalid₁ hnarrows₁ hpost₁ => ?_
  have ha₁ : a < s₁.sets.size := by rwa [hnarrows₁.sets_size]
  have hb₁ : b < s₁.sets.size := by rwa [hnarrows₁.sets_size]
  refine Ends.get_bind fun _ => ?_
  refine ((forbidSurplus_ends hvalid₁ ha₁ hb₁).mono hpost₁.spares.bars
    fun _ _ _ _ hpost => hpost).bind fun _ s₂ hvalid₂ hnarrows₂ hpost₂ => ?_
  have hsofar₂ := hpost₁.spares.trans hpost₂.spares
  have ha₂ : a < s₂.sets.size := by rwa [hnarrows₂.sets_size]
  have hb₂ : b < s₂.sets.size := by rwa [hnarrows₂.sets_size]
  refine Ends.get_bind fun _ => ?_
  refine ((capUpper_ends hvalid₂ ha₂ hb₂).mono hsofar₂.bars
    fun _ _ _ _ hpost => hpost).bind fun fewer s₃ hvalid₃ hnarrows₃ hcapped => ?_
  obtain ⟨hpost₃, hmost⟩ := hcapped
  have hsofar₃ := hsofar₂.trans hpost₃.spares
  have ha₃ : a < s₃.sets.size := by rwa [hnarrows₃.sets_size]
  have hb₃ : b < s₃.sets.size := by rwa [hnarrows₃.sets_size]
  refine Ends.get_bind fun _ => ?_
  refine ((raiseLower_ends hvalid₃ ha₃ hb₃).mono hsofar₃.bars
    fun _ _ _ _ hpost => hpost).bind fun more s₄ hvalid₄ hnarrows₄ hraised => ?_
  obtain ⟨hpost₄, hleast⟩ := hraised
  refine Ends.of_pure hvalid₄ _ ⟨hsofar₃.trans hpost₄.spares, fun hquiet => ?_, fun hbusy => ?_⟩
  · -- all steps were idle, so the condition of each holds of the sets at the end
    simp only [Bool.or_eq_false_iff, Bool.not_eq_false', List.isEmpty_iff,
      decide_eq_false_iff_not, not_not] at hquiet
    obtain ⟨⟨⟨hmissing, hsurplus⟩, hfewer⟩, hmore⟩ := hquiet
    have hsame₁ := hpost₁.same hmissing
    have hsame₂ := hpost₂.same hsurplus
    have hsame₃ := hpost₃.same hfewer
    have hsame₄ := hpost₄.same hmore
    refine level_of_bounds hvalid₄ (by rwa [hnarrows₄.sets_size])
      (by rwa [hnarrows₄.sets_size]) ?_ ?_ ?_ ?_
    · simp only [hsame₄, hsame₃, hsame₂, hsame₁]
      exact glb_subset_of_missing hmissing
    · simp only [hsame₄, hsame₃, hsame₂]
      exact lub_subset_of_surplus hsurplus
    · rw [hsame₄, hsame₄, hsame₃ b]
      exact hmost
    · rw [hsame₄ a]
      exact hleast
  · -- the step that was busy lowers the sum, and no other one raises it
    simp only [Bool.or_eq_true, Bool.not_eq_true', List.isEmpty_eq_false_iff,
      decide_eq_true_eq] at hbusy
    have hle₁ := hpost₁.undecided_le
    have hle₂ := hpost₂.undecided_le
    have hle₃ := hpost₃.undecided_le
    have hle₄ := hpost₄.undecided_le
    rcases hbusy with ((hmissing | hsurplus) | hfewer) | hmore
    · have hlt := hpost₁.busy hmissing
      omega
    · have hlt := hpost₂.busy hsurplus
      omega
    · have hlt := hpost₃.busy hfewer
      omega
    · have hlt := hpost₄.busy hmore
      omega

/-- With more fuel than there is left to decide, the rounds end quietly. -/
theorem rounds_ends {fuel : Nat} (hfuel : undecided a b s < fuel) (hvalid : s.Valid)
    (ha : a < s.sets.size) (hb : b < s.sets.size) :
    Ends (rounds a b fuel) (Bars a b s)
      (fun _ s' => Spares a b s s' ∧ Level a b s'.Admits) s := by
  induction fuel generalizing s with
  | zero => omega
  | succ fuel ih =>
      refine (round_ends hvalid ha hb).bind fun changed s₁ hvalid₁ hnarrows₁ hpost => ?_
      cases changed with
      | false => exact Ends.of_pure hvalid₁ () ⟨hpost.spares, hpost.quiet rfl⟩
      | true =>
          have hless := hpost.busy rfl
          exact (ih (by omega) hvalid₁ (by rwa [hnarrows₁.sets_size])
            (by rwa [hnarrows₁.sets_size])).mono hpost.spares.bars
            fun _ s₂ _ _ hquiet => ⟨hpost.spares.trans hquiet.1, hquiet.2⟩

/-- A run fails where no level family is admitted; otherwise it spares them all, and
what is left is level. -/
theorem propagate_ends (hvalid : s.Valid) (ha : a < s.sets.size)
    (hb : b < s.sets.size) :
    Ends (propagate a b) (Bars a b s)
      (fun status s' => Spares a b s s' ∧
        ((status = .subsumed ∧ ∀ v, s'.Admits v → v.set a ⊆ v.set b) ∨
          (status = .fix ∧ Level a b s'.Admits))) s := by
  refine Ends.get_bind fun _ => ?_
  refine (rounds_ends (Nat.lt_succ_self _) hvalid ha hb).bind
    fun _ s₁ hvalid₁ hnarrows₁ hpost => ?_
  obtain ⟨hspares, hquiet⟩ := hpost
  refine Ends.get_bind fun _ => ?_
  refine Ends.of_pure hvalid₁ _ ⟨hspares, ?_⟩
  by_cases hentailed : entailed s₁ a b = true
  · refine Or.inl ⟨by simp [hentailed], fun v hv x hx => ?_⟩
    have hlub := (hv.set a (by rwa [hnarrows₁.sets_size])).2.1 x hx
    have hglb : x ∈ (s₁.set b).glb := by
      simpa using List.all_eq_true.mp hentailed x hlub
    exact (hv.set b (by rwa [hnarrows₁.sets_size])).1 x hglb
  · exact Or.inr ⟨by simp [hentailed], hquiet⟩

end Subset

end ConstraintSpace
