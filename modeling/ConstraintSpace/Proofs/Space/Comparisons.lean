import ConstraintSpace.Proofs.Space.Status

/-!
# Comparisons are upheld

A comparison that was posted holds whenever the status of the space is an answer
other than failure and both views are fixed, in every run, whether the propagator
is still there or left earlier.  There are two exceptions, both of `a ≤ b`.  The
pass runs once, so a staircase in two views of one variable makes it miss its
fixpoint.  And a bound keeps lax values, so two views that are both lax where `a`
exceeds `b` are let through.  Each exception really happens in some run.
-/

namespace ConstraintSpace

/-! ## The relation -/

/-- The two comparisons of integer views. -/
inductive Comparison where
  | notEqual
  | lessOrEqual
deriving DecidableEq, Repr

namespace Comparison

def propagator : Comparison → IntView → IntView → Propagator
  | notEqual, a, b => .notEqual a b
  | lessOrEqual, a, b => .lessOrEqual a b

/-- The relation that the comparison stands for. -/
def Relates : Comparison → Int → Int → Prop
  | notEqual, x, y => x ≠ y
  | lessOrEqual, x, y => x ≤ y

end Comparison

namespace LessOrEqual

/-- Both views are lax at values where the first exceeds the second. -/
def Blind (a b : IntView) (s : Store) : Prop :=
  ∃ x ∈ a.domain s, ∃ y ∈ b.domain s, (a.base? = b.base? → x = y) ∧
    a.Lax .upper x ∧ b.Lax .lower y ∧ b.valueAt y < a.valueAt x

end LessOrEqual

namespace Comparison

variable {c : Comparison} {a b : IntView} {s s' : Store}

/-- Over these domains no run misses a violation of the comparison. -/
def Sure (c : Comparison) (a b : IntView) (s : Store) : Prop :=
  c = .lessOrEqual → ¬LessOrEqual.Staircase a b s ∧ ¬LessOrEqual.Blind a b s

/-- The views fit the store, where their variables have no other values than in
the first one. -/
structure Within (a b : IntView) (s s' : Store) : Prop where
  left_fit : a.Fit s'
  right_fit : b.Fit s'
  left : ∀ x ∈ a.domain s', x ∈ a.domain s
  right : ∀ x ∈ b.domain s', x ∈ b.domain s

theorem Sure.within (hsure : c.Sure a b s) (hwithin : Within a b s s') :
    c.Sure a b s' := by
  intro hc
  obtain ⟨hflat, hsees⟩ := hsure hc
  refine ⟨?_, ?_⟩
  · rintro ⟨hbase, x, hx, y, hy, z, hz, hsteps⟩
    exact hflat ⟨hbase, x, hwithin.left x hx, y, hwithin.left y hy, z,
      hwithin.left z hz, hsteps⟩
  · rintro ⟨x, hx, y, hy, hlax⟩
    exact hsees ⟨x, hwithin.left x hx, y, hwithin.right y hy, hlax⟩

theorem Sure.steady (hsure : c.Sure a b s) : (c.propagator a b).Steady s := by
  cases c with
  | notEqual => trivial
  | lessOrEqual => exact (hsure rfl).1

theorem fit_propagator (ha : a.Fit s) (hb : b.Fit s) : (c.propagator a b).Fit s := by
  cases c <;> exact ⟨ha, hb⟩

/-- Where the comparison is sure, what it accepts is the relation. -/
theorem Sure.relates (hsure : c.Sure a b s) (ha : a.Fit s) (hb : b.Fit s)
    {v : Assignment} (hv : s.Admits v) (haccepts : (c.propagator a b).Accepts v) :
    c.Relates (a.value v) (b.value v) := by
  cases c with
  | notEqual => exact haccepts
  | lessOrEqual =>
      rcases haccepts with hle | ⟨hlaxA, hlaxB⟩
      · exact hle
      · by_contra hgt
        refine (hsure rfl).2 ⟨a.point v, ha.point_mem hv, b.point v, hb.point_mem hv,
          IntView.point_eq_of_base?, hlaxA, hlaxB, not_le.mp hgt⟩

end Comparison

namespace Space

variable {s s' : Space} {p : Propagator} {q : Queue}

/-- A comparison that is sure over the domains it was posted to holds at every
status but failure, once its views are fixed. -/
theorem relates_of_sure {c : Comparison} {a b : IntView} {s₁ s₂ s₃ : Space}
    {id : Nat} {answer : SpaceStatus} (hsound : s.Sound) (ha : a.Fit s.store)
    (hb : b.Fit s.store) (hsure : c.Sure a b s.store)
    (hpost : addPropagator (c.propagator a b) none s = .ok id s₁)
    (hreaches : s₁.Reaches s₂) (hstatus : status s₂ = .ok answer s₃)
    (hanswer : answer ≠ .failed) (hfixedA : a.isFixed s₃.store = true)
    (hfixedB : b.isFixed s₃.store = true) :
    c.Relates (a.lower s₃.store) (b.lower s₃.store) := by
  have hfit := Comparison.fit_propagator (c := c) ha hb
  rw [addPropagator_eq hfit] at hpost
  split at hpost
  · simp at hpost
  simp only [EStateM.Result.ok.injEq] at hpost
  obtain ⟨rfl, rfl⟩ := hpost
  have hsound₁ := hsound.register (c.propagator a b)
  have hkeeps := hreaches.keeps hsound₁
  have hkeeps' := hkeeps.sound.status_keeps hstatus
  have hrefines : s.store.Refines s₃.store := hkeeps.refines.trans hkeeps'.refines
  have hupholds := hkeeps.upholds _ _ (upholds_register hsound hfit hsure.steady)
  have hallFixed : (c.propagator a b).AllFixed s₃.store := by
    cases c <;>
      simpa [Propagator.AllFixed, Comparison.propagator, Propagator.watches,
        AnyView.isFixed] using ⟨hfixedA, hfixedB⟩
  have hentailed := hupholds.entailed_of_status hkeeps.sound hstatus hanswer hallFixed
  obtain ⟨v, hv⟩ := hkeeps'.sound.store.exists_admits
  have hwithin : Comparison.Within a b s.store s₃.store :=
    ⟨ha.refines hrefines, hb.refines hrefines,
      fun x => IntView.domain_refines hrefines ha.known,
      fun x => IntView.domain_refines hrefines hb.known⟩
  have hrelates := (hsure.within hwithin).relates hwithin.left_fit hwithin.right_fit hv
    (hentailed v hv)
  rwa [hwithin.left_fit.value_of_isFixed hkeeps'.sound.store hfixedA hv,
    hwithin.right_fit.value_of_isFixed hkeeps'.sound.store hfixedB hv] at hrelates

/-! ## Spaces with one propagator -/

/-- A space that has nothing but variables. -/
def ofStore (store : Store) : Space := { new with store }

/-- Integer variables with any values within the limits can be created. -/
theorem exists_ofStore (values : Nat → List Int) (n : Nat)
    (hsome : ∀ id < n, values id ≠ [])
    (hlimits : ∀ id < n, ∀ x ∈ values id,
      Limits.integerMin ≤ x ∧ x ≤ Limits.integerMax) :
    ∃ store, new.Reaches (ofStore store) ∧ store.pending = #[] ∧
      store.ints.size = n ∧ ∀ id < n, ∀ x, x ∈ store.int id ↔ x ∈ values id := by
  induction n with
  | zero => exact ⟨.empty, .refl, rfl, rfl, fun id hid => absurd hid (Nat.not_lt_zero id)⟩
  | succ n ih =>
      obtain ⟨store, hreaches, hpending, hsize, hmem⟩ :=
        ih (fun id hid => hsome id (hid.trans (Nat.lt_succ_self n)))
          (fun id hid => hlimits id (hid.trans (Nat.lt_succ_self n)))
      obtain ⟨d, hd⟩ := IntDomain.exists_ofValues (hsome n (Nat.lt_succ_self n))
        (hlimits n (Nat.lt_succ_self n))
      refine ⟨(store.addInt d).2, hreaches.act (.newSparse (values n)) ?_, hpending,
        by simp [Store.addInt, hsize], fun id hid x => ?_⟩
      · simp only [Act.perform, newSparse, addInt, hd]
        rfl
      · rw [Store.int_addInt, hsize]
        split
        next heq => rw [(IntDomain.of_ofValues_eq_ok hd).2.2 x, heq]
        next hne => exact hmem id (by omega) x

theorem mem_enqueue_empty (id : Nat) (r : Priority) (x : Nat) :
    x ∈ (Queue.empty.enqueue id r).ids ↔ x = id := by
  simpa [Queue.ids, Queue.empty] using (Queue.valid_empty.enqueue id r).2 x

/-- Of a queue with one propagator nothing is left after a pop. -/
theorem pop?_enqueue_empty (id : Nat) (r : Priority) :
    ∃ q, (Queue.empty.enqueue id r).pop? = some (id, q) ∧ q.Valid ∧ q.ids = [] := by
  have hvalid := (Queue.valid_empty.enqueue id r).1
  cases hpop : (Queue.empty.enqueue id r).pop? with
  | none =>
      have hnil := Queue.ids_eq_nil_of_pop?_eq_none hvalid hpop
      have := (mem_enqueue_empty id r id).mpr rfl
      simp [hnil] at this
  | some result =>
      obtain ⟨x, q⟩ := result
      obtain ⟨hvalid', hperm, -⟩ := hvalid.pop? hpop
      have hall := fun y => (mem_enqueue_empty id r y).symm.trans hperm.mem_iff
      obtain rfl : x = id := (hall x).mpr List.mem_cons_self
      have hnodup := hperm.nodup_iff.mp hvalid.nodup
      refine ⟨q, rfl, hvalid', List.eq_nil_iff_forall_not_mem.mpr fun y hy => ?_⟩
      obtain rfl : y = x := (hall y).mpr (List.mem_cons_of_mem _ hy)
      exact (List.nodup_cons.mp hnodup).1 hy

/-- In a space with one propagator nobody else is to be notified. -/
theorem notifications_eq_nil_of_alone {store : Store}
    (hwatches : s.watches = ((ofStore store).register p).watches) :
    s.notifications (some 0) = [] := by
  rw [List.eq_nil_iff_forall_not_mem]
  intro n hn
  obtain ⟨v, -, hwatch, hskip⟩ := mem_notifications.mp hn
  rw [hwatches] at hwatch
  rcases WatchList.mem_watchers_foldl_subscribe.mp hwatch with hold | ⟨sub, hsub, -, -, heq⟩
  · cases v <;> cases hevent : n.1 <;>
      simp [ofStore, new, WatchList.empty, WatchList.watchers, WatchList.of,
        Watchers.of, Watchers.empty, hevent] at hold
  · rw [heq, WatchList.propagator_of_mem_subscriptions hsub] at hskip
    exact hskip rfl

/-- The status of a space with one propagator, which ends at its fixpoint. -/
theorem status_register_of_fix {store : Store} (hquiet : store.isQuiet = true)
    (hfix : (p.run store).verdict = .ended .fix) :
    ∃ s', status ((ofStore store).register p) = .ok .solved s' ∧
      s'.store = (p.run store).store.silence := by
  obtain ⟨q, hpop, hvalid, hnil⟩ := pop?_enqueue_empty 0 p.priority
  have hschedule : schedule none ((ofStore store).register p) =
      .ok () ((ofStore store).register p) := schedule_of_isQuiet hquiet
  have hp : propagator? { (ofStore store).register p with queue := q } 0 = some p := rfl
  let ran := afterRun { (ofStore store).register p with queue := q } 0 p
  have hone : runOne 0 { (ofStore store).register p with queue := q } =
      .ok () { ran with store := ran.store.silence } := by
    have hverdict : (p.run ({ (ofStore store).register p with queue := q } :
      Space).store).verdict = .ended .fix := hfix
    rw [runOne_eq hp]
    simp only [hverdict, schedule]
    rw [notifications_eq_nil_of_alone (s := ran) (p := p) rfl]
    rfl
  have hcount : ((ofStore store).register p).enoughRuns ≠ 0 := by
    have hwaits := (mem_enqueue_empty 0 p.priority 0).mpr rfl
    have hlength := List.length_pos_of_mem hwaits
    rw [← (Queue.valid_empty.enqueue 0 p.priority).1.count_eq] at hlength
    exact (Nat.add_pos_right _ hlength).ne'
  obtain ⟨fuel, hfuel⟩ := Nat.exists_eq_succ_of_ne_zero hcount
  have hpropagate : propagate ((ofStore store).register p) =
      .ok none { ran with store := ran.store.silence } := by
    have hnone : ((ofStore store).register p).failure = none := rfl
    have hpop' : ({ ran with store := ran.store.silence } : Space).queue.pop? = none :=
      Queue.pop?_eq_none hvalid hnil
    unfold propagate
    simp only [hnone, hschedule, hfuel]
    rw [Nat.succ_eq_add_one, @runQueue_succ _ 0 q hpop, hone]
    simp only [runQueue_of_pop?_eq_none hpop']
    rfl
  refine ⟨{ ran with store := ran.store.silence }, ?_, rfl⟩
  rw [status_eq, hpropagate]
  rfl

/-! ## Violations that are missed -/

/-- A run that posts the comparison and finds the space solved with both views
fixed, but not related. -/
def Misses (c : Comparison) (a b : IntView) (s : Space) : Prop :=
  ∃ id s₁ s₃, addPropagator (c.propagator a b) none s = .ok id s₁ ∧
    status s₁ = .ok .solved s₃ ∧ a.isFixed s₃.store = true ∧
      b.isFixed s₃.store = true ∧ ¬c.Relates (a.lower s₃.store) (b.lower s₃.store)

theorem misses_of_pass {a b : IntView} {store : Store} (hquiet : store.isQuiet = true)
    (ha : a.Fit store) (hb : b.Fit store) (hvalid : store.Valid) {v : Assignment}
    (hv : store.Admits v) (hgt : b.value v < a.value v)
    (htop : a.value v ≤ b.upper store ∨ a.Lax .upper (a.point v))
    (hbottom : (∃ w, store.Admits w ∧ a.value w ≤ b.upper store ∧
      a.value w ≤ b.value v) ∨ b.Lax .lower (b.point v))
    (honly : ∀ w, store.Admits w →
      (a.value w ≤ b.upper store ∨ a.Lax .upper (a.point w)) →
      (a.lower store ≤ b.value w ∨ b.Lax .lower (b.point w)) →
      a.value w = a.value v ∧ b.value w = b.value v) :
    Misses .lessOrEqual a b (ofStore store) := by
  obtain ⟨store', hpass, hvalid', hrefines, hleft⟩ :=
    LessOrEqual.propagate_misses ha hb hvalid hv hgt htop hbottom
  have hfit : (Propagator.lessOrEqual a b).Fit store := ⟨ha, hb⟩
  have hrun : (Propagator.lessOrEqual a b).run store =
      { verdict := .ended .fix, propagator := .lessOrEqual a b, store := store'
        notes := [] } := Propagator.stateless_eq_of_ok hfit.known hpass
  obtain ⟨s₃, hstatus, hstore⟩ :=
    status_register_of_fix (p := .lessOrEqual a b) hquiet (by rw [hrun])
  rw [hrun] at hstore
  have hrefines' : store.Refines s₃.store :=
    hrefines.trans (hstore ▸ store'.refines_silence)
  have hvalid₃ : s₃.store.Valid := hstore ▸ hvalid'.silence
  have hsame : ∀ w, s₃.store.Admits w → a.value w = a.value v ∧ b.value w = b.value v :=
    fun w hw => by
      rw [hstore] at hw
      obtain ⟨hw₀, htopw, hloww⟩ := hleft w (Store.admits_silence.mp hw)
      exact honly w hw₀ htopw hloww
  have hfixedA := (ha.refines hrefines').isFixed_of_value hvalid₃ fun w hw => (hsame w hw).1
  have hfixedB := (hb.refines hrefines').isFixed_of_value hvalid₃ fun w hw => (hsame w hw).2
  obtain ⟨w, hw⟩ := hvalid₃.exists_admits
  refine ⟨0, (ofStore store).register (.lessOrEqual a b), s₃, ?_, hstatus, hfixedA,
    hfixedB, ?_⟩
  · exact (addPropagator_eq (s := ofStore store) hfit).trans rfl
  · rw [← (ha.refines hrefines').value_of_isFixed hvalid₃ hfixedA hw,
      ← (hb.refines hrefines').value_of_isFixed hvalid₃ hfixedB hw,
      (hsame w hw).1, (hsame w hw).2]
    exact not_le.mpr hgt

/-- The values for the variables under two views; any other variable is zero. -/
def placed (a b : IntView) (xs ys : List Int) (id : Nat) : List Int :=
  if a.base? = some id then xs else if b.base? = some id then ys else [0]

section Placed

variable {a b : IntView} {store store' : Store} {xs ys : List Int}

theorem placed_ne_nil (hxs : xs ≠ []) (hys : ys ≠ []) (id : Nat) : placed a b xs ys id ≠ [] := by
  unfold placed
  split
  · exact hxs
  · split
    · exact hys
    · exact List.cons_ne_nil 0 []

/-- Values out of the domains are within the limits. -/
theorem limits_of_mem_placed (hvalid : store.Valid) (hleft : ∀ x ∈ xs, x ∈ a.domain store)
    (hright : ∀ y ∈ ys, y ∈ b.domain store) {id : Nat} {x : Int} (hx : x ∈ placed a b xs ys id) :
    Limits.integerMin ≤ x ∧ x ≤ Limits.integerMax := by
  have hdomain : ∀ v : IntView, v.base? = some id → x ∈ v.domain store →
      Limits.integerMin ≤ x ∧ x ≤ Limits.integerMax := fun v hbase hmem => by
    rw [IntView.domain_of_base? hbase] at hmem
    exact ⟨(hvalid.limits id).1.trans (IntDomain.lower_le_of_mem hmem),
      (IntDomain.le_upper_of_mem hmem).trans (hvalid.limits id).2⟩
  unfold placed at hx
  split at hx
  next hbase => exact hdomain a hbase (hleft x hx)
  next =>
    split at hx
    next hbase => exact hdomain b hbase (hright x hx)
    next =>
      obtain rfl := List.mem_singleton.mp hx
      decide

/-- Some values out of the domain of a constant are all that it has. -/
theorem mem_domain_iff_of_const {v : IntView} {zs : List Int} (hbase : v.base? = none)
    (hzs : zs ≠ []) (hsub : ∀ z ∈ zs, z ∈ v.domain store) (z : Int) :
    z ∈ v.domain store' ↔ z ∈ zs := by
  simp only [IntView.domain, hbase, IntDomain.mem_interval] at hsub ⊢
  constructor
  · intro hz
    obtain ⟨y, hy⟩ := List.exists_mem_of_ne_nil zs hzs
    have hpoint := hsub y hy
    obtain rfl : y = z := by omega
    exact hy
  · exact fun hz => hsub z hz

/-- A space whose variables under two views have chosen values. -/
theorem exists_within (hvalid : store.Valid) (ha : a.Fit store) (hb : b.Fit store)
    (hxs : xs ≠ []) (hys : ys ≠ []) (hleft : ∀ x ∈ xs, x ∈ a.domain store)
    (hright : ∀ y ∈ ys, y ∈ b.domain store) (hsame : a.base? = b.base? → xs = ys) :
    ∃ store', new.Reaches (ofStore store') ∧ store'.isQuiet = true ∧ store'.Valid ∧
      Comparison.Within a b store store' ∧ (∀ x, x ∈ a.domain store' ↔ x ∈ xs) ∧
        ∀ y, y ∈ b.domain store' ↔ y ∈ ys := by
  obtain ⟨store', hreaches, hpending, hsize, hmem⟩ :=
    exists_ofStore (placed a b xs ys) store.ints.size (fun id _ => placed_ne_nil hxs hys id)
      (fun _ _ _ hx => limits_of_mem_placed hvalid hleft hright hx)
  have hdomA : ∀ x, x ∈ a.domain store' ↔ x ∈ xs := by
    cases hbase : a.base? with
    | none => exact mem_domain_iff_of_const hbase hxs hleft
    | some id =>
        intro x
        rw [IntView.domain_of_base? hbase,
          hmem id (IntView.known_of_base? ha.known hbase) x]
        simp [placed, hbase]
  have hdomB : ∀ y, y ∈ b.domain store' ↔ y ∈ ys := by
    cases hbase : b.base? with
    | none => exact mem_domain_iff_of_const hbase hys hright
    | some id =>
        intro y
        rw [IntView.domain_of_base? hbase,
          hmem id (IntView.known_of_base? hb.known hbase) y]
        by_cases hshared : a.base? = some id
        · simp [placed, hshared, hsame (hshared.trans hbase.symm)]
        · simp [placed, hshared, hbase]
  have hknown : ∀ v : IntView, v.known store = true → v.known store' = true := by
    intro v hv
    simpa only [IntView.known, Store.knows, hsize] using hv
  refine ⟨store', hreaches, Store.isQuiet_iff.mpr hpending,
    (hreaches.keeps sound_new).sound.store, ⟨⟨hknown a ha.known, ?_⟩,
      ⟨hknown b hb.known, ?_⟩, ?_, ?_⟩, hdomA, hdomB⟩
  · exact ha.exact.of_domain_subset fun x hx => hleft x ((hdomA x).mp hx)
  · exact hb.exact.of_domain_subset fun y hy => hright y ((hdomB y).mp hy)
  · exact fun x hx => hleft x ((hdomA x).mp hx)
  · exact fun y hy => hright y ((hdomB y).mp hy)

end Placed

/-- On three values that step up through both views, the bounds that are passed on are those
of the outer two. -/
theorem bounds_of_steps {a b : IntView} {store : Store} {x y z : Int} (hvalid : store.Valid)
    (ha : a.Fit store) (hb : b.Fit store) (hbase : a.base? = b.base?)
    (hdomain : ∀ w, w ∈ a.domain store ↔ w ∈ [x, y, z]) (hxstep : b.valueAt x < a.valueAt x)
    (hxy : a.valueAt x ≤ b.valueAt y) (hystep : b.valueAt y < a.valueAt y)
    (hyz : a.valueAt y ≤ b.valueAt z) (hzstep : b.valueAt z < a.valueAt z) :
    b.upper store = b.valueAt z ∧ a.lower store = a.valueAt x := by
  have hpoint : ∀ u, store.Admits u →
      a.point u = x ∨ a.point u = y ∨ a.point u = z := fun u hu => by
    simpa using (hdomain _).mp (ha.point_mem hu)
  have hvalueB : ∀ u : Assignment, b.value u = b.valueAt (a.point u) := fun u => by
    rw [IntView.value, IntView.point_eq_of_base? hbase]
  obtain ⟨low, hlow, hlowpoint⟩ := IntView.exists_admits hvalid ((hdomain x).mpr (by simp))
  obtain ⟨top, htop, htoppoint⟩ := IntView.exists_admits hvalid ((hdomain z).mpr (by simp))
  have hhigh : b.valueAt z ≤ b.upper store := by
    rw [← htoppoint, ← hvalueB]
    exact hb.le_upper hvalid htop
  have hbottom : a.lower store ≤ a.valueAt x := by
    rw [← hlowpoint]
    exact ha.lower_le hvalid hlow
  obtain ⟨u, hu, hupper⟩ := hb.exists_upper hvalid
  obtain ⟨u', hu', hlower⟩ := ha.exists_lower hvalid
  rw [hvalueB] at hupper
  rw [IntView.value] at hlower
  rcases hpoint u hu with h | h | h <;> rcases hpoint u' hu' with h' | h' | h' <;>
  · rw [h] at hupper
    rw [h'] at hlower
    omega

/-- A pass over a staircase removes the lowest and the highest step. -/
theorem exists_misses_of_staircase {a b : IntView} {store : Store}
    (hvalid : store.Valid) (ha : a.Fit store) (hb : b.Fit store)
    (hstairs : LessOrEqual.Staircase a b store) :
    ∃ store', new.Reaches (ofStore store') ∧ Comparison.Within a b store store' ∧
      Misses .lessOrEqual a b (ofStore store') := by
  obtain ⟨hbase, x, hx, y, hy, z, hz, hxstep, hxy, hystep, hyz, hzstep⟩ := hstairs
  have hmem : ∀ w ∈ [x, y, z], w ∈ a.domain store := by
    simp only [List.mem_cons, List.not_mem_nil, or_false]
    rintro w (rfl | rfl | rfl) <;> assumption
  have hdomain : b.domain store = a.domain store := by
    simp only [IntView.domain, hbase]
  obtain ⟨store', hreaches, hquiet, hvalid', hwithin, hdomA, -⟩ :=
    exists_within hvalid ha hb (by simp : [x, y, z] ≠ []) (by simp : [x, y, z] ≠ [])
      hmem (hdomain ▸ hmem) fun _ => rfl
  refine ⟨store', hreaches, hwithin, ?_⟩
  have hfitA := hwithin.left_fit
  have hfitB := hwithin.right_fit
  have hvalueB : ∀ w : Assignment, b.value w = b.valueAt (a.point w) := fun w => by
    rw [IntView.value, IntView.point_eq_of_base? hbase]
  obtain ⟨low, hlow, hlowpoint⟩ := IntView.exists_admits hvalid' ((hdomA x).mpr (by simp))
  obtain ⟨mid, hmid, hmidpoint⟩ := IntView.exists_admits hvalid' ((hdomA y).mpr (by simp))
  obtain ⟨hupper, hlower⟩ :=
    bounds_of_steps hvalid' hfitA hfitB hbase hdomA hxstep hxy hystep hyz hzstep
  refine misses_of_pass hquiet hfitA hfitB hvalid' hmid ?_ (Or.inl ?_)
    (Or.inl ⟨low, hlow, ?_, ?_⟩) fun w hw habove hbelow => ?_
  · rwa [hvalueB, IntView.value, hmidpoint]
  · rw [IntView.value, hmidpoint, hupper]
    exact hyz
  · rw [IntView.value, hlowpoint, hupper]
    omega
  · rwa [hvalueB, IntView.value, hlowpoint, hmidpoint]
  · rw [hupper] at habove
    rw [hlower] at hbelow
    -- the two outer steps are removed: they are not lax, since lax values are extreme
    have hnotHigh : a.point w ≠ z := fun heq => by
      rcases habove with hle | hlax
      · rw [IntView.value, heq] at hle
        omega
      · have hleast := hfitA.value_le_of_lax hvalid' hlax hlow
        rw [IntView.value, IntView.value, heq, hlowpoint] at hleast
        omega
    have hnotLow : a.point w ≠ x := fun heq => by
      rcases hbelow with hle | hlax
      · rw [hvalueB, heq] at hle
        omega
      · have hgreatest := hfitB.le_value_of_lax hvalid' hlax hmid
        rw [hvalueB, hvalueB, heq, hmidpoint] at hgreatest
        omega
    have hplace : a.point w = x ∨ a.point w = y ∨ a.point w = z := by
      simpa using (hdomA _).mp (hfitA.point_mem hw)
    have hmiddle : a.point w = y :=
      (hplace.resolve_left hnotLow).resolve_right hnotHigh
    rw [hvalueB, hvalueB, IntView.value, IntView.value, hmiddle, hmidpoint]
    exact ⟨rfl, rfl⟩

/-- Both bounds let lax values through. -/
theorem exists_misses_of_blind {a b : IntView} {store : Store}
    (hvalid : store.Valid) (ha : a.Fit store) (hb : b.Fit store)
    (hblind : LessOrEqual.Blind a b store) :
    ∃ store', new.Reaches (ofStore store') ∧ Comparison.Within a b store store' ∧
      Misses .lessOrEqual a b (ofStore store') := by
  obtain ⟨x, hx, y, hy, hshared, hlaxA, hlaxB, hgt⟩ := hblind
  obtain ⟨store', hreaches, hquiet, hvalid', hwithin, hdomA, hdomB⟩ :=
    exists_within hvalid ha hb (by simp : [x] ≠ []) (by simp : [y] ≠ [])
      (by simpa using hx) (by simpa using hy) fun hbase => by rw [hshared hbase]
  have hpointA : ∀ w, store'.Admits w → a.point w = x := fun w hw => by
    simpa using (hdomA _).mp (hwithin.left_fit.point_mem hw)
  have hpointB : ∀ w, store'.Admits w → b.point w = y := fun w hw => by
    simpa using (hdomB _).mp (hwithin.right_fit.point_mem hw)
  obtain ⟨v, hv⟩ := hvalid'.exists_admits
  refine ⟨store', hreaches, hwithin, misses_of_pass hquiet hwithin.left_fit
    hwithin.right_fit hvalid' hv ?_ (Or.inr ?_) (Or.inr ?_) fun w hw _ _ => ?_⟩
  · rwa [IntView.value, IntView.value, hpointA v hv, hpointB v hv]
  · rwa [hpointA v hv]
  · rwa [hpointB v hv]
  · simp only [IntView.value, hpointA v hv, hpointB v hv, hpointA w hw, hpointB w hw,
      and_self]

/-- Wherever the comparison is posted over no other values of the two variables,
and whatever is done since, it relates the two views at every status other than
failure that finds both of them fixed. -/
def Upheld (c : Comparison) (a b : IntView) (store : Store) : Prop :=
  ∀ s, new.Reaches s → Comparison.Within a b store s.store →
    ∀ id s₁ s₂ s₃ answer,
      addPropagator (c.propagator a b) none s = .ok id s₁ → s₁.Reaches s₂ →
      status s₂ = .ok answer s₃ → answer ≠ .failed →
      a.isFixed s₃.store = true → b.isFixed s₃.store = true →
      c.Relates (a.lower s₃.store) (b.lower s₃.store)

/-- A comparison of fitting views is upheld exactly where it is sure: where it is
not, some run misses a violation. -/
theorem comparison_upheld_iff_sure {t : Space} (hreaches : new.Reaches t)
    (c : Comparison) {a b : IntView} (ha : a.Fit t.store) (hb : b.Fit t.store) :
    Upheld c a b t.store ↔ c.Sure a b t.store := by
  constructor
  · intro hupheld hc
    have hvalid := (hreaches.keeps sound_new).sound.store
    subst hc
    have hnone : ¬∃ store', new.Reaches (ofStore store') ∧
        Comparison.Within a b t.store store' ∧
          Misses .lessOrEqual a b (ofStore store') := by
      rintro ⟨store', hreaches', hwithin, id, s₁, s₃, hpost, hstatus, hfixedA, hfixedB,
        hnot⟩
      exact hnot (hupheld _ hreaches' hwithin id s₁ s₁ s₃ .solved hpost .refl hstatus
        (by decide) hfixedA hfixedB)
    exact ⟨fun hstairs => hnone (exists_misses_of_staircase hvalid ha hb hstairs),
      fun hblind => hnone (exists_misses_of_blind hvalid ha hb hblind)⟩
  · intro hsure s hs hwithin id s₁ s₂ s₃ answer hpost hreaches' hstatus hanswer
    exact relates_of_sure (hs.keeps sound_new).sound hwithin.left_fit hwithin.right_fit
      (hsure.within hwithin) hpost hreaches' hstatus hanswer

/-- Over the values 0, 1 and 2 the propagator for `x + 1 ≤ x` is not upheld, and
the one for `x ≤ x + 1` is. -/
theorem successor_upheld_one_way :
    ∃ t, new.Reaches t ∧ t.store.int 0 = .interval 0 2 ∧
      ¬Upheld .lessOrEqual (.affine (.var 0) 1 1) (.var 0) t.store ∧
      Upheld .lessOrEqual (.var 0) (.affine (.var 0) 1 1) t.store := by
  let t := ofStore { Store.empty with ints := #[.interval 0 2] }
  have hreaches : new.Reaches t := .act (.newInt 0 2) .refl rfl
  have hx : (IntView.var 0).Fit t.store := ⟨rfl, trivial⟩
  have hsucc : (IntView.affine (.var 0) 1 1).Fit t.store := by
    refine ⟨rfl, trivial, by decide, by decide, by decide, fun x hx => ?_⟩
    have hbounds : 0 ≤ x ∧ x ≤ 2 := IntDomain.mem_interval.mp hx
    simp only [IntView.valueAt, Fits32, lowest32, highest32]
    omega
  refine ⟨t, hreaches, rfl, fun hupheld => ?_, ?_⟩
  · refine ((comparison_upheld_iff_sure hreaches _ hsucc hx).mp hupheld rfl).1
      ⟨rfl, 0, ?_, 1, ?_, 2, ?_, by decide, by decide, by decide, by decide, by decide⟩ <;>
    exact IntDomain.mem_interval.mpr (by decide)
  · refine (comparison_upheld_iff_sure hreaches _ hx hsucc).mpr fun _ => ⟨?_, ?_⟩
    · rintro ⟨-, x, -, -, -, -, -, hdescends, -⟩
      simp only [IntView.valueAt] at hdescends
      omega
    · rintro ⟨x, -, y, -, hsame, -, -, hexceeds⟩
      obtain rfl := hsame rfl
      simp only [IntView.valueAt] at hexceeds
      omega

end Space

end ConstraintSpace
