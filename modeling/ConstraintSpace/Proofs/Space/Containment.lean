import ConstraintSpace.Proofs.Propagator.Inclusion
import ConstraintSpace.Proofs.Space.Raising

/-!
# One run of an inclusion reaches its fixpoint

The propagator for `a ⊆ b` goes round until a round changes nothing, however many rounds
that takes.  On whatever store it starts, over two different set variables the rounds come
to an end.  A run that succeeds leaves bounds of `a` that lie within those of `b` and finds
nothing more to do there.  It has kept every pair of values that satisfies the inclusion,
and it knows whether all pairs that are left satisfy it.  A run fails only where no pair
satisfies it.
-/

namespace ConstraintSpace

/-! ## Choosing the values of set variables -/

namespace Store

/-- Values of all set variables can be chosen together. -/
theorem Valid.exists_admits_sets {s : Store} (hvalid : s.Valid) {sets : Nat → Finset Int}
    (hsets : ∀ id < s.sets.size, sets id ∈ s.set id) :
    ∃ v, s.Admits v ∧ ∀ id < s.sets.size, v.set id = sets id := by
  obtain ⟨v, hv⟩ := hvalid.exists_admits
  let chosen : Assignment := { v with sets := (List.range s.sets.size).map sets }
  have hchosen : ∀ id < s.sets.size, chosen.set id = sets id := by
    intro id hid
    simp [chosen, Assignment.set, hid]
  refine ⟨chosen, ⟨hv.int, fun id hid => ?_⟩, hchosen⟩
  rw [hchosen id hid]
  exact hsets id hid

theorem Valid.exists_admits_pair {s : Store} (hvalid : s.Valid) {a b : Nat}
    (ha : a < s.sets.size) (hb : b < s.sets.size) (hne : a ≠ b) {A B : Finset Int}
    (hA : A ∈ s.set a) (hB : B ∈ s.set b) :
    ∃ v, s.Admits v ∧ v.set a = A ∧ v.set b = B := by
  choose sets hsets using fun id => (hvalid.set id).exists_mem
  have hmem : ∀ id < s.sets.size,
      Function.update (Function.update sets b B) a A id ∈ s.set id := fun id _ => by
    simp only [Function.update_apply]
    split
    next heq => exact heq ▸ hA
    next =>
      split
      next heq => exact heq ▸ hB
      next => exact hsets id
  obtain ⟨v, hv, hchosen⟩ := hvalid.exists_admits_sets hmem
  refine ⟨v, hv, ?_, ?_⟩
  · rw [hchosen a ha, Function.update_self]
  · rw [hchosen b hb, Function.update_of_ne hne.symm, Function.update_self]

/-- A narrowing that would leave the domain as it is leaves the store as it is. -/
theorem narrowSet_idle {s : Store} {id : Nat} (hid : id < s.sets.size)
    {op : SetDomain → Option (SetDomain × EventSet)}
    (hop : op (s.set id) = some (s.set id, .empty)) :
    narrowSet id op s = .ok .none s := by
  have hd : s.sets[id]? = some (s.set id) := by simp [set, hid]
  have hsame := changeSet_self s id
  rw [changeSet, SetDomain.eventsTo_self] at hsame
  simp only [narrowSet, hd, hop, hsame]
  rfl

end Store

namespace Subset

variable {a b : Nat} {s s' : Store} {counts : SubsetCounts}

/-! ## Bounds within bounds -/

/-- All bounds of the first domain lie within those of the second. -/
structure Aligned (d e : SetDomain) : Prop where
  glb : d.glb ⊆ e.glb
  lub : d.lub ⊆ e.lub
  most : d.cardUpper ≤ e.cardUpper
  least : d.cardLower ≤ e.cardLower

/-- The bounds of valid domains are those that all their members share. -/
theorem Level.aligned (hlevel : Level a b s.Admits) (hvalid : s.Valid)
    (ha : a < s.sets.size) (hb : b < s.sets.size) : Aligned (s.set a) (s.set b) where
  glb := hlevel.glb_subset hvalid ha hb
  lub x hx := by
    by_contra hout
    obtain ⟨A, hA, hin⟩ := (hvalid.set a).mem_lub_iff.mp hx
    obtain ⟨v, hv, rfl⟩ := hvalid.exists_admits_set ha hA
    exact hlevel.excluded x (fun w hw hmem => hout ((hw.set b hb).2.1 x hmem)) v hv hin
  most := by
    obtain ⟨A, hA, hcard⟩ :=
      (hvalid.set a).exists_mem_of_card (hvalid.set a).cardLower_le (le_refl _)
    obtain ⟨v, hv, rfl⟩ := hvalid.exists_admits_set ha hA
    rw [← hcard]
    exact hlevel.most _ (fun w hw => (hw.set b hb).2.2.2) v hv
  least := by
    obtain ⟨B, hB, hcard⟩ :=
      (hvalid.set b).exists_mem_of_card (le_refl _) (hvalid.set b).cardLower_le
    obtain ⟨v, hv, rfl⟩ := hvalid.exists_admits_set hb hB
    rw [← hcard]
    exact hlevel.least _ (fun w hw => (hw.set a ha).2.2.1) v hv

/-- A round over bounds that lie within each other changes nothing. -/
theorem Aligned.round_idle (haligned : Aligned (s.set a) (s.set b)) (ha : a < s.sets.size)
    (hb : b < s.sets.size) (counts : SubsetCounts) :
    round a b (s, counts) = .ok false (s, counts) := by
  have hmissing : missing s a b = [] := List.eq_nil_iff_forall_not_mem.mpr fun x hx =>
    (mem_missing.mp hx).2 (haligned.glb (mem_missing.mp hx).1)
  have hsurplus : surplus s a b = [] := List.eq_nil_iff_forall_not_mem.mpr fun x hx =>
    (mem_surplus.mp hx).2 (haligned.lub (mem_surplus.mp hx).1)
  have hfewer : Store.narrowSet a (SetDomain.setCardUpper (s.set b).cardUpper) s =
      .ok .none s := Store.narrowSet_idle ha (if_pos haligned.most)
  have hmore : Store.narrowSet b (SetDomain.setCardLower (s.set a).cardLower) s =
      .ok .none s := Store.narrowSet_idle hb (if_pos haligned.least)
  simp [round, narrow, requireAll, forbidAll, hmissing, hsurplus, hfewer, hmore, bind,
    EStateM.bind, get, getThe, MonadStateOf.get, EStateM.get, pure, EStateM.pure]

/-- All pairs of values satisfy the inclusion where every possible element of `a` is
required of `b`. -/
theorem entailed_iff (hvalid : s.Valid) :
    entailed s a b = true ↔ ∀ A B, A ∈ s.set a → B ∈ s.set b → A ⊆ B := by
  simp only [entailed, List.all_eq_true, List.contains_eq_mem, decide_eq_true_eq]
  constructor
  · intro hall A B hA hB x hx
    exact hB.1 x (hall x (hA.2.1 x hx))
  · intro hall x hx
    obtain ⟨A, hA, hin⟩ := (hvalid.set a).mem_lub_iff.mp hx
    exact (hvalid.set b).mem_glb_iff.mpr fun B hB => hall A B hA hB hin

/-! ## Rounds without a bound on their number -/

/-- Going round until a round changes nothing or is refused. -/
inductive Loops (a b : Nat) :
    Store × SubsetCounts → EStateM.Result Misstep (Store × SubsetCounts) Unit → Prop where
  | quiet {state state'} (hround : round a b state = .ok false state') :
      Loops a b state (.ok () state')
  | again {state state' result} (hround : round a b state = .ok true state')
      (hrest : Loops a b state' result) : Loops a b state result
  | refused {state state' misstep} (hround : round a b state = .error misstep state') :
      Loops a b state (.error misstep state')

/-- With more fuel than there is left to decide, the rounds are those without fuel. -/
theorem loops_rounds {fuel : Nat} (hfuel : undecided a b s < fuel) (hvalid : s.Valid)
    (ha : a < s.sets.size) (hb : b < s.sets.size) (counts : SubsetCounts) :
    Loops a b (s, counts) (rounds a b fuel (s, counts)) := by
  induction fuel generalizing s counts with
  | zero => omega
  | succ fuel ih =>
      rcases round_ends hvalid ha hb counts with ⟨s', counts', hround, -⟩ |
        ⟨changed, s', counts', hround, hvalid', hnarrows, hpost⟩
      · have hresult : rounds a b (fuel + 1) (s, counts) = .error .emptied (s', counts') := by
          simp only [rounds, bind, EStateM.bind, hround]
        rw [hresult]
        exact .refused hround
      · cases changed with
        | false =>
            have hresult : rounds a b (fuel + 1) (s, counts) = .ok () (s', counts') := by
              simp only [rounds, bind, EStateM.bind, hround]
              rfl
            rw [hresult]
            exact .quiet hround
        | true =>
            have hresult : rounds a b (fuel + 1) (s, counts) =
                rounds a b fuel (s', counts') := by
              simp only [rounds, bind, EStateM.bind, hround, if_true]
            have hless := hpost.busy rfl
            rw [hresult]
            exact .again hround (ih (by omega) hvalid' (by rwa [hnarrows.sets_size])
              (by rwa [hnarrows.sets_size]) counts')

/-! ## Runs -/

/-- What a run makes of the result of its rounds. -/
def finish (a b : Nat) : EStateM.Result Misstep (Store × SubsetCounts) Unit → Run
  | .ok () (s, counts) =>
    { verdict := .ended (if entailed s a b then .subsumed else .fix)
      propagator := .subset a b counts, store := s, notes := [] }
  | .error misstep (s, counts) =>
    { verdict := misstep.verdict, propagator := .subset a b counts, store := s, notes := [] }

theorem run_eq_finish (ha : a < s.sets.size) (hb : b < s.sets.size) :
    (Propagator.subset a b counts).run s =
      finish a b (rounds a b (enough s a b) (s, counts)) := by
  have hknown : (Propagator.subset a b counts).known s = true := by
    simp [Propagator.known, Propagator.watches, AnyView.known, Store.knows, ha, hb]
  simp only [Propagator.run, hknown, if_true, propagate, bind, EStateM.bind, get, getThe,
    MonadStateOf.get, EStateM.get]
  cases rounds a b (enough s a b) (s, counts) <;> rfl

/-- The run ended and reached its fixpoint: the bounds lie within each other, and running
again changes nothing.  No pair of values that satisfies the inclusion is lost, and the run
knows whether all that are left satisfy it. -/
structure Settled (a b : Nat) (s : Store) (run : Run) : Prop where
  ended : run.verdict = .ended .fix ∨ run.verdict = .ended .subsumed
  aligned : Aligned (run.store.set a) (run.store.set b)
  again : run.propagator.run run.store = run
  keeps : ∀ A B, A ∈ s.set a → B ∈ s.set b → A ⊆ B →
    A ∈ run.store.set a ∧ B ∈ run.store.set b
  subsumed_iff : run.verdict = .ended .subsumed ↔
    ∀ A B, A ∈ run.store.set a → B ∈ run.store.set b → A ⊆ B

theorem run_of_aligned (haligned : Aligned (s.set a) (s.set b)) (ha : a < s.sets.size)
    (hb : b < s.sets.size) :
    (Propagator.subset a b counts).run s = finish a b (.ok () (s, counts)) := by
  rw [run_eq_finish ha hb]
  simp only [enough, rounds, bind, EStateM.bind, haligned.round_idle ha hb]
  rfl

theorem settled_of_level (hvalid : s.Valid) (ha : a < s.sets.size) (hb : b < s.sets.size)
    (hne : a ≠ b) (hvalid' : s'.Valid) (hnarrows : s.Narrows s') (hspares : Spares a b s s')
    (hlevel : Level a b s'.Admits) : Settled a b s (finish a b (.ok () (s', counts))) := by
  have ha' : a < s'.sets.size := by rwa [hnarrows.sets_size]
  have hb' : b < s'.sets.size := by rwa [hnarrows.sets_size]
  have haligned := hlevel.aligned hvalid' ha' hb'
  refine ⟨?_, haligned, run_of_aligned haligned ha' hb', fun A B hA hB hsub => ?_, ?_⟩
  · cases hentailed : entailed s' a b <;> simp [finish, hentailed]
  · obtain ⟨v, hv, rfl, rfl⟩ := hvalid.exists_admits_pair ha hb hne hA hB
    have hkept := hspares.admits hv hsub
    exact ⟨hkept.set a ha', hkept.set b hb'⟩
  · refine Iff.trans ?_ (entailed_iff hvalid')
    cases hentailed : entailed s' a b <;> simp [finish, hentailed]

/-- Whatever store a run finds, over two different set variables its rounds come to an
end.  It fails only where no pair of values satisfies the inclusion, and otherwise reaches
its fixpoint. -/
theorem run_reaches_fixpoint (harises : Space.Arises s) (ha : a < s.sets.size)
    (hb : b < s.sets.size) (hne : a ≠ b) (counts : SubsetCounts) :
    ∃ result, Loops a b (s, counts) result ∧
      (Propagator.subset a b counts).run s = finish a b result ∧
      (Settled a b s (finish a b result) ∨
        (finish a b result).verdict = .failed .emptyDomain ∧
          ∀ A B, A ∈ s.set a → B ∈ s.set b → ¬A ⊆ B) := by
  have hvalid := harises.valid
  refine ⟨_, loops_rounds (Nat.lt_succ_self _) hvalid ha hb counts, run_eq_finish ha hb, ?_⟩
  rcases rounds_ends (Nat.lt_succ_self _) hvalid ha hb counts with
    ⟨s', counts', hresult, -, -, hbars⟩ |
      ⟨⟨⟩, s', counts', hresult, hvalid', hnarrows, hspares, hlevel⟩
  · refine .inr ⟨by rw [hresult]; rfl, fun A B hA hB => ?_⟩
    obtain ⟨v, hv, rfl, rfl⟩ := hvalid.exists_admits_pair ha hb hne hA hB
    exact hbars.not_subset hv
  · rw [hresult]
    exact .inl (settled_of_level hvalid ha hb hne hvalid' hnarrows hspares hlevel)

/-- Two elements out of 1, 2 and 3 within 1, 2 and 4 are followed through to the one set
that is left, which is required of the other variable then. -/
theorem exclusion_followed_through :
    let p : Propagator := .subset 0 1 ⟨0, 0⟩
    ∃ s, Space.performAll [.newSet [] [1, 2, 3] (2, 2), .newSet [] [1, 2, 4] (0, 3)]
        Space.new = some s ∧
      Settled 0 1 s.store (p.run s.store) ∧ (p.run s.store).verdict = .ended .subsumed ∧
      (p.run s.store).store.sets = #[⟨[1, 2], [1, 2], 2, 2⟩, ⟨[1, 2], [1, 2, 4], 2, 3⟩] := by
  intro p
  have hrun : (Space.performAll [.newSet [] [1, 2, 3] (2, 2), .newSet [] [1, 2, 4] (0, 3)]
      Space.new).map (fun s => (s.store.sets.size, (p.run s.store).verdict,
        (p.run s.store).store.sets)) =
      some (2, .ended .subsumed, #[⟨[1, 2], [1, 2], 2, 2⟩, ⟨[1, 2], [1, 2, 4], 2, 3⟩]) := by
    decide +kernel
  obtain ⟨s, hperform, hstore⟩ := Option.map_eq_some_iff.mp hrun
  simp only [Prod.mk.injEq] at hstore
  obtain ⟨hsize, hverdict, hsets⟩ := hstore
  have harises : Space.Arises s.store := .reached (Space.reaches_of_performAll hperform)
  obtain ⟨result, -, hfinish, hsettled | ⟨hfailed, -⟩⟩ :=
    run_reaches_fixpoint (a := 0) (b := 1) harises (by omega) (by omega) (by decide) ⟨0, 0⟩
  · exact ⟨s, hperform, hfinish ▸ hsettled, hverdict, hsets⟩
  · rw [← hfinish] at hfailed
    exact absurd (hverdict.symm.trans hfailed) (by decide)

end Subset

end ConstraintSpace
