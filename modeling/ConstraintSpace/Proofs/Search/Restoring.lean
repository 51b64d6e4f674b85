import ConstraintSpace.Proofs.Search.Copies

/-!
# Searches that restore

A search without a space restores the one of the next alternative that is left on its
stack.  A turn goes on from the space that the search had or has restored: it ends there,
or it puts one frame more on the stack, with the choice that the space computes and, by its
depth, with a copy of it.  So all frames of a search are regular, each was made at the space
of a visited node, and a recomputation is counted exactly where a space is restored at a
depth that keeps no copy.
-/

namespace ConstraintSpace

/-- The choice of the frame is the one that the space computes once it has propagated, and
what the frame keeps is a copy from just before. -/
def Frame.MadeAt (frame : Frame) (space : Space) : Prop :=
  ∃ t u, Space.status space = .ok .branching t ∧ Space.choice t = .ok frame.choice u ∧
    ∀ copy, frame.copy = some copy → t.Alike copy

namespace Search

variable {s t moved : Search} {space : Space} {x : Turn} {distance : Nat}
  {P : Frame → List Frame → Prop} {visited : List Visit}

/-! ## Where a space is restored -/

/-- The search as it is when it restores the space of its next node, where it has none: the
deepest frame with an alternative left has come to it. -/
def restoring? (s : Search) : Option Search :=
  match s.current, s.open? with
  | none, frame :: above => some { s with stack := { frame with next := frame.next + 1 } :: above }
  | _, _ => none

/-- The search whenever it restores a space in its first turns. -/
def restores : Nat → Search → List Search
  | 0, _ => []
  | turns + 1, s => s.restoring?.toList ++ restores turns (turn s).2

theorem of_restoring (hrestoring : s.restoring? = some moved) :
    s.current = none ∧ ∃ frame above, s.open? = frame :: above ∧
      moved = { s with stack := { frame with next := frame.next + 1 } :: above } := by
  unfold restoring? at hrestoring
  split at hrestoring
  next frame above hcurrent hopen =>
    exact ⟨hcurrent, frame, above, hopen, (Option.some.inj hrestoring).symm⟩
  · cases hrestoring

theorem takeNode_of_restoring (hrestoring : s.restoring? = some moved) :
    takeNode s =
      match restore moved with
      | .ok space t => .ok (some space) t
      | .error fault t => .error fault t := by
  obtain ⟨hcurrent, frame, above, hopen, hmoved⟩ := of_restoring hrestoring
  unfold open? at hopen
  have htake : takeNode s = backtrack s := by simp only [takeNode, hcurrent]
  cases hrun : restore moved <;> simp only [htake, backtrack, hopen, ← hmoved, hrun]

theorem takeNode_of_not_restoring (hrestoring : s.restoring? = none) :
    (∃ space, s.current = some space ∧
        takeNode s = .ok (some space) { s with current := none }) ∨
      s.current = none ∧ takeNode s = .ok none { s with stack := [] } := by
  cases hcurrent : s.current with
  | some space => exact Or.inl ⟨space, rfl, by simp only [takeNode, hcurrent]⟩
  | none =>
      cases hopen : s.open? with
      | nil =>
          unfold open? at hopen
          exact Or.inr ⟨rfl, by simp only [takeNode, hcurrent, backtrack, hopen]⟩
      | cons frame above => simp [restoring?, hcurrent, hopen] at hrestoring

/-- To restore a space is to take the next alternative of a frame, whether it succeeds or
not. -/
theorem taken_of_restoring (hrestoring : s.restoring? = some moved)
    (hresembles : moved.Resembles t) : s.Taken t := by
  obtain ⟨hcurrent, frame, above, hopen, rfl⟩ := of_restoring hrestoring
  obtain ⟨clones, recomputations, journal, rfl⟩ := hresembles
  exact .moved hcurrent hopen ⟨rfl, hcurrent, rfl, rfl, rfl⟩

theorem taken_of_lost {fault : SearchFault} (hrestoring : s.restoring? = some moved)
    (hrun : restore moved = .error fault t) : s.Taken t := by
  have hresembles := resembles_restore moved
  rw [hrun] at hresembles
  exact taken_of_restoring hrestoring hresembles

theorem stack_ne_nil_of_restoring (hrestoring : s.restoring? = some moved) :
    moved.stack ≠ [] := by
  obtain ⟨-, frame, above, -, rfl⟩ := of_restoring hrestoring
  exact List.cons_ne_nil _ _

/-- The space that is restored is what the edges from the nearest copy lead to. -/
theorem of_restore {copy : Space} {edges : List (Choice × Nat)}
    (hlineage : lineage s.stack = some (copy, edges)) (hrun : restore s = .ok space t) :
    ∃ given, Path.recompute { edges } copy = .ok () given ∧ given.Alike space := by
  unfold restore at hrun
  simp only [hlineage] at hrun
  cases hrecompute : Path.recompute { edges } copy with
  | ok _ given =>
      simp only [hrecompute, settle, EStateM.Result.ok.injEq] at hrun
      obtain ⟨rfl, -⟩ := hrun
      exact ⟨given, rfl, given.counts, [], rfl⟩
  | error fault given => simp [hrecompute, settle] at hrun

/-! ## Whose faults they are -/

/-- What the computation is refused was refused to a space. -/
def Passes {α : Type} (m : Searching α) : Prop :=
  ∀ ⦃s t : Search⦄ ⦃fault : SearchFault⦄, m s = .error fault t →
    ∃ given : Fault, fault = given.inSearch

theorem passes_of_ok {α : Type} {m : Searching α} (hm : ∀ s, ∃ x t, m s = .ok x t) :
    Passes m := by
  intro s t fault hrun
  obtain ⟨x, u, hok⟩ := hm s
  cases hok.symm.trans hrun

theorem Passes.bind {α β : Type} {m : Searching α} {k : α → Searching β} (hm : Passes m)
    (hk : ∀ x, Passes (k x)) : Passes (m >>= k) := by
  intro s t fault hrun
  simp only [Bind.bind, EStateM.bind] at hrun
  split at hrun
  · exact hk _ hrun
  next hfault =>
    cases hrun
    exact hm hfault

theorem passes_settle {α : Type} (result : EStateM.Result Fault Space α) :
    Passes (settle result) := by
  intro s t fault hrun
  cases result with
  | ok x space => cases hrun
  | error given space =>
      cases hrun
      exact ⟨given, rfl⟩

theorem passes_visit (space : Space) : Passes (visit space) := by
  have hmodify : ∀ change : Search → Search, Passes (modify change) :=
    fun change => passes_of_ok fun s => ⟨(), change s, rfl⟩
  have hpure : ∀ found : Option Space, Passes (pure found : Searching (Option Space)) :=
    fun found => passes_of_ok fun s => ⟨found, s, rfl⟩
  have hdescend : ∀ settled : Space, Passes (descend settled) := fun settled =>
    .bind (passes_of_ok fun s => (resembles_keepCopy settled s).imp fun _ => .imp fun _ => And.left)
      fun _ => .bind (passes_settle _) fun _ => .bind (passes_settle _) fun _ => hmodify _
  refine .bind (hmodify _) fun _ => .bind (passes_settle _) fun answered => ?_
  obtain ⟨answer, settled⟩ := answered
  cases answer with
  | failed => exact .bind (hmodify _) fun _ => hpure _
  | solved => exact .bind (hmodify _) fun _ => hpure _
  | branching => exact .bind (hdescend settled) fun _ => hpure _

/-- A search that finds a copy restores the space, unless a space is refused something. -/
theorem fault_of_restore {copy : Space} {edges : List (Choice × Nat)} {fault : SearchFault}
    (hlineage : lineage s.stack = some (copy, edges)) (hrun : restore s = .error fault t) :
    ∃ given : Fault, fault = given.inSearch := by
  unfold restore at hrun
  simp only [hlineage] at hrun
  split at hrun
  · cases hrun
  next hsettle =>
    cases hrun
    exact passes_settle _ hsettle

/-! ## What is counted -/

/-- A recomputation is counted for more edges than one. -/
theorem recomputations_of_lineage {copy : Space} {edges : List (Choice × Nat)}
    (hlineage : lineage s.stack = some (copy, edges)) :
    (outcome (restore s)).2.counts.recomputations =
      s.counts.recomputations + if edges.length = 1 then 0 else 1 := by
  unfold restore
  simp only [hlineage]
  by_cases hone : edges.length = 1 <;> cases Path.recompute { edges } copy <;>
    simp only [hone, if_true, if_false] <;> rfl

theorem recomputations_restore (hspaced : Spaced distance s.stack) (hstack : s.stack ≠ []) :
    (outcome (restore s)).2.counts.recomputations =
      s.counts.recomputations + if distance ∣ s.depth - 1 then 0 else 1 := by
  obtain ⟨deeper, frame, above, copy, hnearest, hlength⟩ := hspaced.exists_nearest hstack
  have hedges : (trail (deeper ++ [frame])).edges.length = deeper.length + 1 := by simp
  have hdvd : deeper.length + 1 = 1 ↔ distance ∣ s.depth - 1 := by
    rw [Nat.dvd_iff_mod_eq_zero, depth, ← hlength]
    omega
  rw [recomputations_of_lineage hnearest.lineage_eq, hedges]
  simp only [hdvd]

/-! ## What a visit leaves -/

/-- What a visit of the space leaves of a search that has taken it: the stack as it was, or
one frame more with the space of its first alternative. -/
inductive Explored (s : Search) (space : Space) (t : Search) : Prop
  | ended (hcount : t.counts.recomputations = s.counts.recomputations)
      (hstack : t.stack = s.stack) (hcurrent : t.current = s.current)
  | deeper {frame : Frame} {rested offered given below : Space}
      (hcount : t.counts.recomputations = s.counts.recomputations)
      (hstack : t.stack = frame :: s.stack) (hcurrent : t.current = some below)
      (hstatus : Space.status space = .ok .branching rested)
      (hchoice : Space.choice rested = .ok frame.choice offered)
      (hcommit : Space.commit frame.choice 0 offered = .ok () given)
      (halike : given.Alike below)
      (hcopy : frame.copy.isSome = true ↔ s.options.copyDistance ∣ s.depth)
      (hkept : ∀ copy, frame.copy = some copy → rested.Alike copy)
      (hnext : frame.next = 1)

theorem settle_cases {α : Type} (result : EStateM.Result Fault Space α) (s : Search) :
    (∃ fault t journal, result = .error fault t ∧
        settle result s = .error fault.inSearch { s with journal }) ∨
      ∃ x given space journal, result = .ok x given ∧ given.Alike space ∧
        settle result s = .ok (x, space) { s with journal } := by
  cases result with
  | error fault t => exact Or.inl ⟨fault, t, _, rfl, rfl⟩
  | ok x given => exact Or.inr ⟨x, given, _, _, rfl, ⟨given.counts, [], rfl⟩, rfl⟩

theorem keepCopy_eq (space : Space) (s : Search) :
    ∃ copy clones journal,
      keepCopy space s = .ok copy { s with counts := { s.counts with clones }, journal } ∧
        (copy.isSome = true ↔ s.options.copyDistance ∣ s.depth) ∧
        ∀ kept, copy = some kept → space.failure = none → space.Alike kept := by
  unfold keepCopy
  split
  next hmultiple =>
    refine ⟨_, _, _, rfl, by simpa using Nat.dvd_of_mod_eq_zero hmultiple, ?_⟩
    rintro kept hkept hok
    obtain rfl := Option.some.inj hkept
    exact (Space.alike_clone hok).trans ⟨space.clone.counts, [], rfl⟩
  next hbetween =>
    exact ⟨none, _, _, rfl, by simpa [Nat.dvd_iff_mod_eq_zero] using hbetween, by simp⟩

theorem explored_descend {rested : Space} {s before : Search}
    (hstatus : Space.status space = .ok .branching rested) {settled : Space}
    (hsettled : rested.Alike settled) (hstack : s.stack = before.stack)
    (hcurrent : s.current = before.current) (hoptions : s.options = before.options)
    (hcount : s.counts.recomputations = before.counts.recomputations) :
    before.Explored space (outcome (descend settled s)).2 := by
  obtain ⟨copy, clones, journal, hkeep, hcopy, hkept⟩ := keepCopy_eq settled s
  rcases settle_cases (Space.choice settled) { s with
      counts := { s.counts with clones }, journal } with
    ⟨fault, v, journal', -, hchoice⟩ | ⟨chosen, offered, next, journal', hchosen, hnext, hchoice⟩
  · have hrun : descend settled s = .error fault.inSearch { s with
        counts := { s.counts with clones }, journal := journal' } := by
      simp only [descend, bind, EStateM.bind, hkeep, hchoice]
    rw [hrun]
    exact .ended hcount hstack hcurrent
  rcases settle_cases (Space.commit chosen 0 next) { s with
      counts := { s.counts with clones }, journal := journal' } with
    ⟨fault, v, journal'', -, hcommit⟩ | ⟨_, given, below, journal'', hgiven, hbelow, hcommit⟩
  · have hrun : descend settled s = .error fault.inSearch { s with
        counts := { s.counts with clones }, journal := journal'' } := by
      simp only [descend, bind, EStateM.bind, hkeep, hchoice, hcommit]
    rw [hrun]
    exact .ended hcount hstack hcurrent
  have hrun : descend settled s = .ok () (push ⟨chosen, 1, copy⟩ below { s with
      counts := { s.counts with clones }, journal := journal'' }) := by
    simp only [descend, bind, EStateM.bind, hkeep, hchoice, hcommit]
    rfl
  -- the choice and the commit of the space itself, before its journal was read
  obtain ⟨offered', hchosen', hoffered⟩ :=
    Space.oblivious_choice.of_ok hsettled.symm hchosen
  obtain ⟨given', hgiven', halike⟩ :=
    (Space.oblivious_commit chosen 0).of_ok (hnext.symm.trans hoffered) hgiven
  have hok : settled.failure = none := (Space.of_choice hchosen).1
  rw [hrun]
  have hfresh : copy.isSome = true ↔ before.options.copyDistance ∣ before.depth := by
    rw [hcopy, hoptions, depth, depth, hstack]
  have hcopied : ∀ kept, copy = some kept → rested.Alike kept :=
    fun kept hkeeps => hsettled.trans (hkept kept hkeeps hok)
  exact @Explored.deeper before space _ ⟨chosen, 1, copy⟩ rested offered' given' below hcount
    (hstack ▸ rfl) rfl hstatus hchosen' hgiven' (halike.symm.trans hbelow) hfresh hcopied rfl

theorem explored_visit (space : Space) (s : Search) :
    s.Explored space (outcome (visit space s)).2 := by
  let counted : Search := { s with counts := { s.counts with nodes := s.counts.nodes + 1 } }
  have hcount : (modify fun s : Search =>
      { s with counts := { s.counts with nodes := s.counts.nodes + 1 } } : Searching PUnit) s =
        .ok () counted := rfl
  rcases settle_cases (Space.status space) counted with
    ⟨fault, t, journal, -, hstatus⟩ | ⟨answer, rested, settled, journal, hrested, halike, hstatus⟩
  · have hrun : visit space s = .error fault.inSearch { counted with journal } := by
      simp only [visit, bind, EStateM.bind, hcount, hstatus]
    rw [hrun]
    exact .ended rfl rfl rfl
  cases answer with
  | failed =>
      have hrun : visit space s = .ok none { counted with
          counts := { counted.counts with failures := counted.counts.failures + 1 }, journal } := by
        simp only [visit, bind, EStateM.bind, hcount, hstatus]
        rfl
      rw [hrun]
      exact .ended rfl rfl rfl
  | solved =>
      have hrun : visit space s = .ok (some settled) { counted with
          counts := { counted.counts with solutions := counted.counts.solutions + 1 }
          journal } := by
        simp only [visit, bind, EStateM.bind, hcount, hstatus]
        rfl
      rw [hrun]
      exact .ended rfl rfl rfl
  | branching =>
      have hdescend : (outcome (visit space s)).2 =
          (outcome (descend settled { counted with journal })).2 := by
        simp only [visit, bind, EStateM.bind, hcount, hstatus]
        cases descend settled { counted with journal } <;> rfl
      rw [hdescend]
      exact explored_descend hrested halike rfl rfl rfl rfl

theorem Explored.recomputations (hexplored : s.Explored space t) :
    t.counts.recomputations = s.counts.recomputations := by
  cases hexplored with
  | ended hcount => exact hcount
  | deeper hcount => exact hcount

/-! ## What a turn does -/

/-- The search had the space of its next node, or it has restored it. -/
inductive Obtains (s : Search) (space : Space) : Search → Prop
  | had (hcurrent : s.current = some space) : Obtains s space { s with current := none }
  | restored {moved taken : Search} (hrestoring : s.restoring? = some moved)
      (hrun : restore moved = .ok space taken) : Obtains s space taken

/-- A turn, seen from the space that the search goes on with. -/
inductive Proceeds (s : Search) : Turn → Search → Prop
  | exhausted (hrestoring : s.restoring? = none) (hcurrent : s.current = none) :
      Proceeds s .exhausted { s with stack := [] }
  | lost {moved t : Search} {fault : SearchFault} (hrestoring : s.restoring? = some moved)
      (hrun : restore moved = .error fault t) : Proceeds s (.lost (route t.stack) fault) t
  | visited {taken t : Search} {visit : Visit} (hobtains : s.Obtains visit.space taken)
      (hpath : visit.path = route taken.stack) (hexplored : taken.Explored visit.space t) :
      Proceeds s (.visited visit) t

theorem proceeds_turn (s : Search) : s.Proceeds (turn s).1 (turn s).2 := by
  have hvisit : ∀ {space taken}, takeNode s = .ok (some space) taken → s.Obtains space taken →
      s.Proceeds (turn s).1 (turn s).2 := by
    intro space taken htake hobtains
    simp only [turn, htake]
    exact .visited hobtains rfl (explored_visit space taken)
  cases hrestoring : s.restoring? with
  | none =>
      rcases takeNode_of_not_restoring hrestoring with
        ⟨space, hcurrent, htake⟩ | ⟨hcurrent, htake⟩
      · exact hvisit htake (.had hcurrent)
      · simp only [turn, htake]
        exact .exhausted hrestoring hcurrent
  | some moved =>
      have htake := takeNode_of_restoring hrestoring
      cases hrun : restore moved with
      | ok space taken =>
          rw [hrun] at htake
          exact hvisit htake (.restored hrestoring hrun)
      | error fault t =>
          rw [hrun] at htake
          simp only [turn, htake]
          exact .lost hrestoring hrun

theorem Obtains.taken (hobtains : s.Obtains space t) : s.Taken t := by
  cases hobtains with
  | had hcurrent => exact .current hcurrent
  | @restored moved _ hrestoring hrun =>
      have hresembles := resembles_restore moved
      rw [hrun] at hresembles
      exact taken_of_restoring hrestoring hresembles

/-! ## What holds of all frames -/

theorem Each.taken (heach : Each P s.stack)
    (hnext : ∀ frame above, P frame above → frame.next < frame.choice.alternatives →
      P { frame with next := frame.next + 1 } above)
    (htaken : s.Taken t) : Each P t.stack := by
  cases htaken with
  | current _ => exact heach
  | @moved frame above _ _ hopen hmoved =>
      have hleft : Each P (frame :: above) := heach.of_suffix (hopen ▸ open?_suffix s)
      obtain ⟨hframe, habove⟩ := each_cons.mp hleft
      rw [hmoved.stack]
      exact each_cons.mpr ⟨hnext frame above hframe (lt_alternatives_of_open hopen), habove⟩

theorem Each.explored (heach : Each P s.stack) (hexplored : s.Explored space t)
    (hframe : ∀ frame : Frame, frame.Regular s.options.copyDistance s.depth →
      frame.MadeAt space → P frame s.stack) : Each P t.stack := by
  cases hexplored with
  | ended _ hstack _ => rwa [hstack]
  | @deeper frame rested offered given below _ hstack _ hstatus hchoice hcommit _ hcopy hkept
      hnext =>
      obtain ⟨-, -, -, hok, -⟩ := Space.of_choice hchoice
      have hsome : 0 < frame.choice.alternatives := Space.lt_alternatives_of_commit hok hcommit
      rw [hstack]
      exact each_cons.mpr ⟨hframe frame ⟨hcopy, hnext.ge, hnext.trans_le hsome⟩
        ⟨rested, offered, hstatus, hchoice, hkept⟩, heach⟩

/-- What holds of a frame when it is made, and still when it comes to the next alternative,
holds of all frames after a turn. -/
theorem Each.proceeds (heach : Each P s.stack)
    (hnext : ∀ frame above, P frame above → frame.next < frame.choice.alternatives →
      P { frame with next := frame.next + 1 } above)
    (hframe : ∀ visit taken (frame : Frame), x = .visited visit → s.Obtains visit.space taken →
      visit.path = route taken.stack → frame.Regular s.options.copyDistance taken.depth →
        frame.MadeAt visit.space → P frame taken.stack)
    (hproceeds : s.Proceeds x t) : Each P t.stack := by
  cases hproceeds with
  | exhausted => exact each_nil
  | lost hrestoring hrun => exact heach.taken hnext (taken_of_lost hrestoring hrun)
  | @visited taken _ visit hobtains hpath hexplored =>
      refine (heach.taken hnext hobtains.taken).explored hexplored fun frame hregular hmade => ?_
      rw [hobtains.taken.options] at hregular
      exact hframe visit taken frame rfl hobtains hpath hregular hmade

theorem Spaced.proceeds (hspaced : Spaced s.options.copyDistance s.stack)
    (hproceeds : s.Proceeds x t) : Spaced s.options.copyDistance t.stack :=
  Each.proceeds hspaced (fun _ _ hregular => hregular.next)
    (fun _ _ _ _ _ _ hregular _ => hregular) hproceeds

theorem Spaced.turn (hspaced : Spaced s.options.copyDistance s.stack) :
    Spaced (Search.turn s).2.options.copyDistance (Search.turn s).2.stack := by
  rw [(turns_turn s).options]
  exact hspaced.proceeds (proceeds_turn s)

theorem Spaced.restoring (hspaced : Spaced distance s.stack)
    (hrestoring : s.restoring? = some moved) : Spaced distance moved.stack :=
  Each.taken hspaced (fun _ _ hregular => hregular.next)
    (taken_of_restoring hrestoring (.refl moved))

/-- No turn fails for want of a copy. -/
theorem Spaced.fault_turn (hspaced : Spaced distance s.stack) {fault : SearchFault}
    (hfault : (Search.turn s).1.fault? = some fault) : ∃ given : Fault, fault = given.inSearch := by
  unfold Search.turn at hfault
  split at hfault
  next t htake =>
    cases hfault
    cases hrestoring : s.restoring? with
    | none =>
        rcases takeNode_of_not_restoring hrestoring with ⟨space, -, hok⟩ | ⟨-, hok⟩ <;>
          cases hok.symm.trans htake
    | some moved =>
        have hfound := (hspaced.restoring hrestoring).exists_nearest
          (stack_ne_nil_of_restoring hrestoring)
        obtain ⟨deeper, frame, above, copy, hnearest, -⟩ := hfound
        rw [takeNode_of_restoring hrestoring] at htake
        split at htake
        · cases htake
        next hrun =>
          cases htake
          exact fault_of_restore hnearest.lineage_eq hrun
  · cases hfault
  next space t htake =>
    cases hvisit : visit space t with
    | ok found u => simp [hvisit, outcome, Turn.fault?] at hfault
    | error given u =>
        simp only [hvisit, outcome, Turn.fault?, Option.some.injEq] at hfault
        exact hfault ▸ passes_visit space hvisit

/-- The frame was made at the space of a visited node, the one that the frames above it have
come to. -/
def Founded (visited : List Visit) (frame : Frame) (above : List Frame) : Prop :=
  ∃ visit ∈ visited, visit.path = route above ∧ frame.MadeAt visit.space

theorem Founded.proceeds (heach : Each (Founded visited) s.stack)
    (hproceeds : s.Proceeds x t) : Each (Founded (visited ++ x.visit?.toList)) t.stack := by
  refine (heach.mono fun frame above hfounded => ?_).proceeds (fun frame above hfounded _ => ?_)
    (fun visit taken frame hx _ hpath _ hmade => ?_) hproceeds
  · obtain ⟨visit, hvisit, hrest⟩ := hfounded
    exact ⟨visit, List.mem_append_left _ hvisit, hrest⟩
  · exact hfounded
  · subst hx
    exact ⟨visit, by simp [Turn.visit?], hpath, hmade⟩

/-! ## Counting recomputations -/

/-- A turn counts a recomputation where it restores a space at a depth that keeps no copy. -/
theorem Proceeds.recomputations (hproceeds : s.Proceeds x t) (hspaced : Spaced distance s.stack) :
    t.counts.recomputations = s.counts.recomputations +
      s.restoring?.toList.countP fun moved => ¬distance ∣ moved.depth - 1 := by
  have hrestored : ∀ {moved}, s.restoring? = some moved →
      (outcome (restore moved)).2.counts.recomputations = s.counts.recomputations +
        s.restoring?.toList.countP fun moved => ¬distance ∣ moved.depth - 1 := by
    intro moved hrestoring
    rw [recomputations_restore (hspaced.restoring hrestoring)
      (stack_ne_nil_of_restoring hrestoring), hrestoring]
    obtain ⟨-, frame, above, -, rfl⟩ := of_restoring hrestoring
    by_cases hdvd : distance ∣ above.length <;> simp [depth, hdvd]
  cases hproceeds with
  | exhausted hrestoring _ => simp [hrestoring]
  | lost hrestoring hrun =>
      have hcount := hrestored hrestoring
      rwa [hrun] at hcount
  | visited hobtains _ hexplored =>
      rw [hexplored.recomputations]
      cases hobtains with
      | had hcurrent => simp [restoring?, hcurrent]
      | restored hrestoring hrun =>
          have hcount := hrestored hrestoring
          rwa [hrun] at hcount

/-! ## Turn after turn -/

theorem Spaced.traverse (hspaced : Spaced s.options.copyDistance s.stack) (turns : Nat) :
    Spaced s.options.copyDistance (traverse turns s).2.stack := by
  induction turns generalizing s with
  | zero => exact hspaced
  | succ turns ih =>
      rw [← (turns_turn s).options]
      exact ih hspaced.turn

theorem Spaced.faults (hspaced : Spaced s.options.copyDistance s.stack) {turns : Nat}
    {fault : SearchFault} (hfault : fault ∈ (Search.traverse turns s).1.filterMap Turn.fault?) :
    ∃ given : Fault, fault = given.inSearch := by
  induction turns generalizing s with
  | zero => simp [Search.traverse] at hfault
  | succ turns ih =>
      obtain ⟨x, hx, hfound⟩ := List.mem_filterMap.mp hfault
      rcases List.mem_cons.mp hx with rfl | hlater
      · exact hspaced.fault_turn hfound
      · exact ih hspaced.turn (List.mem_filterMap.mpr ⟨x, hlater, hfound⟩)

theorem Founded.traverse (heach : Each (Founded visited) s.stack) (turns : Nat) :
    Each (Founded (visited ++ visits turns s)) (traverse turns s).2.stack := by
  induction turns generalizing s visited with
  | zero => simpa [Search.traverse, visits] using heach
  | succ turns ih =>
      have hrest := ih (Founded.proceeds heach (proceeds_turn s))
      rwa [List.append_assoc, ← visits_succ] at hrest

theorem Spaced.mem_restores (hspaced : Spaced s.options.copyDistance s.stack) {turns : Nat}
    (hmoved : moved ∈ restores turns s) :
    Spaced s.options.copyDistance moved.stack ∧ moved.stack ≠ [] := by
  induction turns generalizing s with
  | zero => simp [restores] at hmoved
  | succ turns ih =>
      rcases List.mem_append.mp hmoved with hfirst | hlater
      · have hrestoring := Option.mem_toList.mp hfirst
        exact ⟨hspaced.restoring hrestoring, stack_ne_nil_of_restoring hrestoring⟩
      · rw [← (turns_turn s).options]
        exact ih hspaced.turn hlater

/-- The recomputations are the restorings at depths that keep no copy. -/
theorem Spaced.recomputations (hspaced : Spaced s.options.copyDistance s.stack) (turns : Nat) :
    (Search.traverse turns s).2.counts.recomputations = s.counts.recomputations +
      (restores turns s).countP fun moved => ¬s.options.copyDistance ∣ moved.depth - 1 := by
  induction turns generalizing s with
  | zero => rfl
  | succ turns ih =>
      have hcount := (proceeds_turn s).recomputations hspaced
      have hrest := ih hspaced.turn
      rw [(turns_turn s).options] at hrest
      rw [traverse_succ, hrest, hcount, restores, List.countP_append, Nat.add_assoc]

end Search

end ConstraintSpace
