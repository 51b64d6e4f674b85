import ConstraintSpace.Proofs.Space.Acts

/-!
# What runs keep

Every effect keeps a space in order, refines its store, and keeps every posted
propagator upheld, so acts and whole runs of acts do.
-/

namespace ConstraintSpace

theorem IntView.base?_of_watch {v : IntView} {events events' : EventSet} {id : Nat}
    (hwatch : v.watch events = some (id, events')) : v.base? = some id := by
  induction v generalizing events with
  | var _ =>
      simp only [watch, Option.some.injEq, Prod.mk.injEq] at hwatch
      simp [base?, hwatch.1]
  | const _ => simp [watch] at hwatch
  | affine inner scale offset ih =>
      simp only [watch] at hwatch
      exact ih hwatch
  | literal image ih => exact ih hwatch

namespace Propagator

variable {p : Propagator} {s s' : Store}

/-- A propagator that fits watches created variables only. -/
theorem Fit.knows_of_watch (hfit : p.Fit s) {w : Watch} (hw : w ∈ p.watches)
    {v : Variable} {events : EventSet}
    (hwatch : w.view.watch w.events = some (v, events)) : s.knows v = true := by
  have hknown : w.view.known s = true := List.all_eq_true.mp hfit.known w hw
  cases hview : w.view with
  | int view =>
      rw [hview] at hwatch hknown
      simp only [AnyView.watch, Option.map_eq_some_iff] at hwatch
      obtain ⟨⟨id, events'⟩, hwatch, heq⟩ := hwatch
      simp only [Prod.mk.injEq] at heq
      obtain ⟨rfl, -⟩ := heq
      simpa [Store.knows] using
        IntView.known_of_base? hknown (IntView.base?_of_watch hwatch)
  | float view =>
      cases p <;> simp only [watches, List.mem_cons, List.not_mem_nil, or_false] at hw
      all_goals first
        | exact hfit.elim
        | rcases hw with rfl | rfl <;> simp at hview
  | set id =>
      rw [hview] at hwatch hknown
      simp only [AnyView.watch, Option.some.injEq, Prod.mk.injEq] at hwatch
      rw [← hwatch.1]
      exact hknown

theorem Settled.grows (hsettled : p.Settled s) (hfit : p.Fit s) (hvalid : s.Valid)
    (hgrows : s.Grows s') : p.Settled s' :=
  hsettled.of_silent hfit hvalid (hgrows.valid hvalid) hgrows.refines
    fun w hw v events hwatch event _ => by
      rw [hgrows.eventsTo hvalid (hfit.knows_of_watch hw hwatch)]
      cases event <;> rfl

end Propagator

namespace Space

variable {s s' t : Space} {j : Nat} {p : Propagator}

/-- The space is in order, its store refines the one before, and whoever was
upheld still is. -/
structure Keeps (s s' : Space) : Prop where
  sound : s'.Sound
  refines : s.store.Refines s'.store
  upholds : ∀ j p, s.Upholds j p → s'.Upholds j p

theorem Keeps.trans (hfirst : s.Keeps s') (hsecond : s'.Keeps t) : s.Keeps t :=
  ⟨hsecond.sound, hfirst.refines.trans hsecond.refines,
    fun j p h => hsecond.upholds j p (hfirst.upholds j p h)⟩

theorem Upholds.kin (hupholds : s.Upholds j p) (hkin : s.Kin s') : s'.Upholds j p where
  fit := hkin.store ▸ hupholds.fit
  steady := hkin.store ▸ hupholds.steady
  registered := fun hok => by
    rw [hkin.size_slots]
    exact hupholds.registered (hkin.failure ▸ hok)
  slot := fun hok => by
    rcases hupholds.slot (hkin.failure ▸ hok) with
      ⟨hgone, hentailed⟩ | ⟨q, hq, hcore, hhears⟩
    · exact Or.inl ⟨hkin.eq_none_of_eq_none hgone, hkin.store ▸ hentailed⟩
    · have hfit : q.Fit s.store :=
        (q.fit_core _).mp (hcore ▸ (p.fit_core _).mpr hupholds.fit)
      obtain ⟨q', hq', hguise⟩ := hkin.exists_guise hq
      exact Or.inr ⟨q', hq', (hfit.core_eq_of_guise hguise).trans hcore,
        hkin.watches ▸ hhears⟩
  awake := fun hok => by
    rcases hupholds.awake (hkin.failure ▸ hok) with hgone | hawake
    · exact Or.inl (hkin.eq_none_of_eq_none hgone)
    · refine Or.inr ?_
      simpa only [Awake, hkin.queue, hkin.store] using hawake

theorem Kin.keeps (hkin : s.Kin s') (hsound : s.Sound) : s.Keeps s' :=
  ⟨hkin.sound hsound, hkin.store ▸ Store.Refines.refl _,
    fun _ _ hupholds => hupholds.kin hkin⟩

theorem Keeps.refl (hsound : s.Sound) : s.Keeps s := (Kin.refl s).keeps hsound

/-! ## Each effect -/

theorem keeps_grown {store : Store} (hsound : s.Sound)
    (hgrows : s.store.Grows store) : s.Keeps { s with store } := by
  refine ⟨⟨hgrows.valid hsound.store, hsound.queue, hsound.waiting⟩, hgrows.refines,
    fun j p hupholds => ⟨hupholds.toPosted.congr hgrows.refines (fun h => h)
      (le_refl _) rfl (fun h => h), fun hok => ?_⟩⟩
  rcases hupholds.awake hok with hgone | hwaits | hheard | hsettled
  · exact Or.inl hgone
  · exact Or.inr (Or.inl hwaits)
  · refine Or.inr (Or.inr (Or.inl ?_))
    simpa only [hgrows.pending] using hheard
  · exact Or.inr (Or.inr (Or.inr
      (hsettled.grows hupholds.fit hsound.store hgrows)))

/-- A narrowed store whose events are then passed on. -/
theorem keeps_narrowed {store : Store} (counts : SpaceCounts) (hsound : s.Sound)
    (hvalid : store.Valid) (hnarrows : s.store.Narrows store)
    (hrun : schedule none { s with store, counts } = .ok () s') : s.Keeps s' := by
  have hsound' : Sound { s with store, counts } :=
    ⟨hvalid, hsound.queue, hsound.waiting⟩
  have hframe := Frame.schedule hsound' hrun
  refine ⟨(hsound'.schedule hrun).1, hnarrows.refines.trans hframe.refines,
    fun j p hupholds => ?_⟩
  refine Upholds.schedule (s := { s with store, counts })
    (hupholds.toPosted.congr hnarrows.refines (fun h => h) (le_refl _) rfl
      fun h => h) (fun hok => ?_) hsound' hrun
  rcases hupholds.awake hok with hgone | hawake
  · exact Or.inl hgone
  · exact Or.inr (Or.inl ⟨by simp, hawake.narrow hupholds.fit hsound.store hvalid
      hnarrows rfl⟩)

theorem keeps_failed {store : Store} (counts : SpaceCounts) (hsound : s.Sound)
    (hvalid : store.Valid) (hnarrows : s.store.Narrows store) (reason : Inconsistency) :
    s.Keeps ({ s with store, counts }.failWith reason) := by
  have hsound' : Sound { s with store, counts } :=
    ⟨hvalid, hsound.queue, hsound.waiting⟩
  have hfailed := failure_failWith reason { s with store, counts }
  have hrefines := hnarrows.refines.trans
    (Frame.failWith reason { s with store, counts }).refines
  exact ⟨hsound'.failWith reason, hrefines, fun j p hupholds =>
    ⟨hupholds.toPosted.fail hrefines hfailed, fun h => absurd h hfailed⟩⟩

theorem keeps_register (hsound : s.Sound) (q : Propagator) : s.Keeps (s.register q) := by
  refine ⟨hsound.register q, .refl _, fun j p hupholds => ?_⟩
  by_cases hok : s.failure = none
  case neg =>
    exact ⟨hupholds.toPosted.fail (.refl _) hok, fun h => absurd h hok⟩
  have hsame : (s.register q).propagator? j = s.propagator? j := by
    rw [propagator?_register, if_neg (Nat.ne_of_lt (hupholds.registered hok))]
  refine ⟨hupholds.toPosted.congr (.refl _) (fun h => h)
    (by simp [Space.register]) hsame fun h => h.foldl_subscribe _, fun _ => ?_⟩
  rw [hsame]
  refine (hupholds.awake hok).imp_right fun hawake => hawake.imp_left fun hwaits => ?_
  exact ((hsound.queue.enqueue s.slots.size q.priority).2 j).mpr (Or.inr hwaits)

/-- A new propagator that fits is upheld from the start. -/
theorem upholds_register (hsound : s.Sound) (hfit : p.Fit s.store)
    (hsteady : p.Steady s.store) : (s.register p).Upholds s.slots.size p where
  fit := hfit
  steady := hsteady
  registered := fun _ => by simp [Space.register]
  slot := fun _ => Or.inr ⟨p, by rw [propagator?_register, if_pos rfl], rfl,
    WatchList.hears_foldl_subscribe⟩
  awake := fun _ => Or.inr (Or.inl
    (((hsound.queue.enqueue s.slots.size p.priority).2 _).mpr (Or.inl rfl)))

/-- A space that only keeps its variables and its failure. -/
theorem keeps_discarded (hsound : s.Sound) {reason : Inconsistency} :
    s.Keeps { new with store := s.store, failure := some reason } := by
  refine ⟨⟨hsound.store, Queue.valid_empty, ?_⟩, .refl _, fun j p hupholds =>
    ⟨hupholds.toPosted.fail (.refl _) (by simp), by simp⟩⟩
  simp [new, Queue.ids, Queue.empty]

/-- Every effect keeps what was. -/
theorem Effect.keeps {log : List Entry} (heffect : s.Effect log s') (hsound : s.Sound) :
    s.Keeps s' := by
  cases heffect with
  | touch hkin => exact hkin.keeps hsound
  | grow hgrows => exact keeps_grown hsound hgrows
  | drain _ hrun =>
      exact keeps_narrowed s.counts hsound hsound.store (.refl hsound.store) hrun
  | narrow counts _ hvalid hnarrows hrun =>
      exact keeps_narrowed counts hsound hvalid hnarrows hrun
  | fail counts _ reason hvalid hnarrows =>
      exact keeps_failed counts hsound hvalid hnarrows reason
  | turn hquiet hpop hrun =>
      have hran := (hsound.popped hpop).runOne hquiet hrun
      exact ⟨hran.sound, hran.refines, fun j p hupholds =>
        hupholds.turn hsound hquiet hpop hrun⟩
  | register _ p => exact keeps_register hsound p
  | discard _ => exact keeps_discarded hsound

theorem Unfolds.keeps {log : List Entry} (hunfolds : s.Unfolds log s') (hsound : s.Sound) :
    s.Keeps s' := by
  induction hunfolds with
  | refl => exact .refl hsound
  | tail _ heffect ih => exact ih.trans (heffect.keeps ih.sound)

/-! ## Acts and runs -/

theorem Sound.status_keeps (hsound : s.Sound) {answer : SpaceStatus}
    (hstatus : status s = .ok answer s') : s.Keeps s' :=
  (traces_status s hsound s' (by rw [hstatus, resume])).keeps hsound

/-- Every act keeps what was. -/
theorem Act.keeps {act : Act} (hsound : s.Sound) (hperform : act.perform s = some s') :
    s.Keeps s' :=
  (act.unfolds hsound hperform).keeps hsound

/-- So does every run. -/
theorem Reaches.keeps (hreaches : s.Reaches s') (hsound : s.Sound) : s.Keeps s' := by
  induction hreaches with
  | refl => exact .refl hsound
  | act act _ hperform ih => exact ih.trans (act.keeps ih.sound hperform)

end Space

end ConstraintSpace
