import ConstraintSpace.Proofs.Search.Limits
import ConstraintSpace.Proofs.Search.Restoring
import ConstraintSpace.Proofs.Space.Retracing

/-!
# The stack of a search

A root follows the choices along the stack, one after the other, to the space of each
frame.  A search never meets most of these spaces again: it recomputes them from copies.
What it restores is the space that the root comes to, but for counts and journals, so that
the next frame is made where the root would make it.
-/

namespace ConstraintSpace

theorem Frame.MadeAt.of_alike {frame : Frame} {space w : Space} (hmade : frame.MadeAt space)
    (halike : w.Alike space) : frame.MadeAt w := by
  obtain ⟨t, u, hstatus, hchoice, hcopy⟩ := hmade
  obtain ⟨t', hstatus', halike_t⟩ := Space.oblivious_status.of_ok halike.symm hstatus
  obtain ⟨u', hchoice', -⟩ := Space.oblivious_choice.of_ok halike_t hchoice
  exact ⟨t', u', hstatus', hchoice', fun copy hkept => halike_t.symm.trans (hcopy copy hkept)⟩

namespace Search

variable {root space : Space} {s t moved : Search} {x : Turn} {stack : List Frame}

/-- The frame is made at the space that the root comes to along the frames above it. -/
def Rooted (root : Space) (frame : Frame) (above : List Frame) : Prop :=
  ∃ w, root.Follows (trail above) w ∧ frame.MadeAt w

/-- Recomputing from the nearest copy leads where the root comes to along the stack. -/
theorem exists_follows_of_lineage (hreaches : Space.new.Reaches root)
    (heach : Each (Rooted root) stack) {copy given : Space} {edges : List (Choice × Nat)}
    (hlineage : lineage stack = some (copy, edges))
    (hrun : Path.recompute { edges } copy = .ok () given) :
    ∃ w, root.Follows (trail stack) w ∧ w.Alike given := by
  induction stack generalizing edges given with
  | nil => cases hlineage
  | cons frame above ih =>
      obtain ⟨⟨w, hfollows, t, u, hstatus, hchoice, hcopy⟩, habove⟩ := each_cons.mp heach
      rw [trail_cons]
      simp only [lineage] at hlineage
      split at hlineage
      next kept hkept =>
        cases hlineage
        have hsound : w.Sound := ((hfollows.reaches hreaches).tidy Space.tidy_new).sound
        have hok : copy.failure = none :=
          (hcopy copy hkept).failure.trans (Space.of_choice hchoice).1
        have hclone : t.Alike copy.clone := (hcopy copy hkept).trans (Space.alike_clone hok)
        obtain ⟨v, hcommit, halike⟩ := hsound.exists_commit_of_replay hstatus hchoice hclone hrun
        exact ⟨v, hfollows.edge hstatus hchoice hcommit, halike⟩
      next hbare =>
        obtain ⟨⟨ancestor, before⟩, hfound, heq⟩ := Option.map_eq_some_iff.mp hlineage
        cases heq
        simp only [Path.recompute, Space.replay_append, bind, EStateM.bind] at hrun
        split at hrun
        next met hmet =>
          obtain ⟨w', hfollows', halike⟩ := ih habove hfound hmet
          obtain rfl := hfollows.unique hfollows'
          obtain ⟨v, hcommit, halike'⟩ :=
            Space.exists_commit_of_replay hstatus hchoice halike hrun
          exact ⟨v, hfollows.edge hstatus hchoice hcommit, halike'⟩
        · cases hrun

/-! ## Turn after turn -/

/-- The root comes along the stack to every frame, and to the space of the next node. -/
structure Retraces (root : Space) (s : Search) : Prop where
  frames : Each (Rooted root) s.stack
  current : ∀ space, s.current = some space →
    ∃ w, root.Follows (trail s.stack) w ∧ w.Alike space

theorem retraces_start (root : Space) (options : SearchOptions) :
    Retraces root (start root options) where
  frames := each_nil
  current := by
    rintro space hcurrent
    obtain rfl := Option.some.inj hcurrent
    exact ⟨root, .start, .refl root⟩

/-- What the search goes on with is the space that the root comes to. -/
theorem Retraces.obtains (hretraces : Retraces root s) (hreaches : Space.new.Reaches root)
    (hobtains : s.Obtains space t) : ∃ w, root.Follows (trail t.stack) w ∧ w.Alike space := by
  cases hobtains with
  | had hcurrent => exact hretraces.current space hcurrent
  | @restored moved _ hrestoring hrun =>
      have hmoved : Each (Rooted root) moved.stack :=
        hretraces.frames.taken (fun _ _ hrooted _ => hrooted)
          (taken_of_restoring hrestoring (.refl moved))
      have hstack : t.stack = moved.stack := by
        have hresembles := resembles_restore moved
        rw [hrun] at hresembles
        obtain ⟨clones, recomputations, journal, rfl⟩ := hresembles
        rfl
      cases hlineage : lineage moved.stack with
      | none =>
          unfold restore at hrun
          simp [hlineage] at hrun
      | some nearest =>
          obtain ⟨given, hrecompute, halike⟩ := of_restore hlineage hrun
          obtain ⟨w, hfollows, halike'⟩ :=
            exists_follows_of_lineage hreaches hmoved hlineage hrecompute
          exact ⟨w, hstack ▸ hfollows, halike'.trans halike⟩

theorem Retraces.proceeds (hretraces : Retraces root s) (hreaches : Space.new.Reaches root)
    (hproceeds : s.Proceeds x t) : Retraces root t := by
  have hframes : Each (Rooted root) t.stack := by
    refine Each.proceeds hretraces.frames (fun _ _ hrooted _ => hrooted) ?_ hproceeds
    intro visit taken frame _ hobtains _ _ hmade
    obtain ⟨w, hfollows, halike⟩ := hretraces.obtains hreaches hobtains
    exact ⟨w, hfollows, hmade.of_alike halike⟩
  refine ⟨hframes, fun space hcurrent => ?_⟩
  cases hproceeds with
  | exhausted _ hnone => exact absurd (hnone.symm.trans hcurrent) (by simp)
  | lost hrestoring hrun =>
      have hnone : t.current = none := (taken_of_lost hrestoring hrun).current_eq
      exact absurd (hnone.symm.trans hcurrent) (by simp)
  | @visited taken _ visit hobtains _ hexplored =>
      have hnone : taken.current = none := hobtains.taken.current_eq
      cases hexplored with
      | ended _ _ hsame => exact absurd ((hsame.trans hnone).symm.trans hcurrent) (by simp)
      | @deeper frame rested offered given below _ hstack hbelow hstatus hchoice hcommit halike
          _ _ hnext =>
          obtain rfl := Option.some.inj (hbelow.symm.trans hcurrent)
          obtain ⟨w, hfollows, hsame⟩ := hretraces.obtains hreaches hobtains
          -- the root makes the same choice there, and the first alternative of it
          obtain ⟨t₁, hstatus₁, hsame₁⟩ := Space.oblivious_status.of_ok hsame.symm hstatus
          obtain ⟨t₂, hchoice₂, hsame₂⟩ := Space.oblivious_choice.of_ok hsame₁ hchoice
          obtain ⟨t₃, hcommit₃, hsame₃⟩ :=
            (Space.oblivious_commit frame.choice 0).of_ok hsame₂ hcommit
          refine ⟨t₃, ?_, hsame₃.symm.trans halike⟩
          rw [hstack, trail_cons, hnext]
          exact hfollows.edge hstatus₁ hchoice₂ hcommit₃

theorem Retraces.traverse (hretraces : Retraces root s) (hreaches : Space.new.Reaches root)
    (turns : Nat) : Retraces root (Search.traverse turns s).2 := by
  induction turns generalizing s with
  | zero => exact hretraces
  | succ turns ih => exact ih (hretraces.proceeds hreaches (proceeds_turn s))

/-! ## What the search keeps -/

/-- A search that restores has a copy in reach: all its frames have come to an alternative
of their choices, and from the deepest frame that keeps a copy, which is less than the
distance away, the space is recomputed over no more edges than the distance. -/
structure InReach (distance : Nat) (moved : Search) : Prop where
  come : ∀ frame ∈ moved.stack, 1 ≤ frame.next ∧ frame.next ≤ frame.choice.alternatives
  nearest : ∃ deeper frame above copy, Nearest moved.stack deeper frame above copy ∧
    deeper.length < distance ∧
    lineage moved.stack = some (copy, (trail (deeper ++ [frame])).edges) ∧
    (trail (deeper ++ [frame])).edges.length ≤ distance

theorem Spaced.inReach {distance : Nat} (hspaced : Spaced distance moved.stack)
    (hdistance : 1 ≤ distance) (hstack : moved.stack ≠ []) : InReach distance moved where
  come := by
    intro frame hframe
    obtain ⟨depth, hregular⟩ := hspaced.mem hframe
    exact ⟨hregular.one_le_next, hregular.next_le⟩
  nearest := by
    obtain ⟨deeper, frame, above, copy, hnearest, hlength⟩ := hspaced.exists_nearest hstack
    have hreach : deeper.length < distance := hlength ▸ Nat.mod_lt _ hdistance
    have hedges : (trail (deeper ++ [frame])).edges.length = deeper.length + 1 := by simp
    exact ⟨deeper, frame, above, copy, hnearest, hreach, hnearest.lineage_eq,
      hedges.trans_le hreach⟩

/-- The copies that a search keeps are in reach of all that it restores: over every root and
copy distance, a frame keeps a copy exactly where its depth is a multiple of the distance,
has come to an alternative, and has the choice of its node's space.  So no call fails for
want of a copy, the kept spaces are the rounded up quotient of the depth by the distance, and
recomputations are counted exactly where a space is restored at a depth that is no multiple
of it. -/
theorem copies_in_reach (root : Space) {options : SearchOptions}
    (hdistance : 1 ≤ options.copyDistance) :
    ∃ search, create root options = .ok search ∧
      (∀ fuel count, (∃ turns, (traverse turns search).2 = (calls fuel count search).2) ∧
        ∀ option reason,
          .error (.refused (.invalidOption option reason)) ∉ (calls fuel count search).1) ∧
      ∀ turns s, (traverse turns search).2 = s →
        (∀ frame above, frame :: above <:+ s.stack →
          frame.Regular options.copyDistance above.length ∧
          Founded (visits turns search) frame above ∧
          (Space.new.Reaches root → Rooted root frame above)) ∧
        (kept s.stack).length = (s.depth + options.copyDistance - 1) / options.copyDistance ∧
        (∀ moved ∈ restores turns search, InReach options.copyDistance moved) ∧
        s.counts.recomputations = (restores turns search).countP fun moved =>
          ¬options.copyDistance ∣ moved.depth - 1 := by
  have hspaced : Spaced (start root options).options.copyDistance (start root options).stack :=
    each_nil
  have hfounded : Each (Founded []) (start root options).stack := each_nil
  refine ⟨_, create_eq_start root hdistance, fun fuel count => ?_, ?_⟩
  · obtain ⟨turns, hadvances⟩ := calls_advances fuel count (start root options)
    refine ⟨⟨turns, hadvances.state⟩, fun option reason hanswer => ?_⟩
    have hfault : SearchFault.refused (.invalidOption option reason) ∈
        (calls fuel count (start root options)).1.filterMap Answer.fault? :=
      List.mem_filterMap.mpr ⟨_, hanswer, rfl⟩
    rw [hadvances.faults] at hfault
    obtain ⟨given, hgiven⟩ := hspaced.faults hfault
    cases given <;> cases hgiven
  rintro turns s rfl
  refine ⟨fun frame above hframe => ⟨?_, ?_, fun hreaches => ?_⟩, ?_, fun moved hmoved => ?_, ?_⟩
  · exact hspaced.traverse turns frame above hframe
  · simpa using Founded.traverse hfounded turns frame above hframe
  · exact ((retraces_start root options).traverse hreaches turns).frames frame above hframe
  · exact length_kept hdistance (hspaced.traverse turns)
  · obtain ⟨hspaced', hstack⟩ := hspaced.mem_restores hmoved
    exact hspaced'.inReach hdistance hstack
  · exact (hspaced.recomputations turns).trans (Nat.zero_add _)

/-- Over three variables between 0 and 1 a search that copies at every other depth has three
frames and two copies after it has recomputed the space of its sixth node. -/
theorem two_copies_for_three_frames :
    ∃ root search s frame above moved, Space.new.Reaches root ∧
      create root ⟨2, none, none, fun _ => false⟩ = .ok search ∧
      (traverse 6 search).2 = s ∧ s.stack = frame :: above ∧ above.length = 2 ∧
      frame.copy.isSome = true ∧ Rooted root frame above ∧ (kept s.stack).length = 2 ∧
      moved ∈ restores 6 search ∧ ¬2 ∣ moved.depth - 1 ∧ InReach 2 moved := by
  let brancher : ViewBrancher :=
    { start := 0, selector := .inputOrder
      branching := .int [.var 0, .var 1, .var 2] .min .assignOrExclude
      label := none, selectionNotices := false, commitNotices := false }
  let acts : List Space.Act :=
    [.newInt 0 1, .newInt 0 1, .newInt 0 1, .addBrancher (.viewValue brancher)]
  let options : SearchOptions := ⟨2, none, none, fun _ => false⟩
  have hrun : (Space.performAll acts Space.new).map (fun root =>
      let s := (traverse 6 (start root options)).2
      (s.depth, s.counts.recomputations)) = some (3, 1) := by
    decide +kernel
  obtain ⟨root, hperform, hcounts⟩ := Option.map_eq_some_iff.mp hrun
  obtain ⟨hdepth, hrecomputed⟩ := Prod.mk.inj hcounts
  have hreaches := Space.reaches_of_performAll hperform
  have hdistance : 1 ≤ options.copyDistance := by decide
  obtain ⟨search, hcreate, -, hturns⟩ := copies_in_reach root hdistance
  obtain rfl : start root options = search :=
    Except.ok.inj ((create_eq_start root hdistance).symm.trans hcreate)
  obtain ⟨hframes, hkept, hreach, hcount⟩ := hturns 6 _ rfl
  obtain ⟨frame, above, hstack⟩ := List.exists_cons_of_length_eq_add_one hdepth
  have habove : above.length = 2 := by simpa [depth, hstack] using hdepth
  obtain ⟨hregular, -, hrooted⟩ := hframes frame above (hstack ▸ List.suffix_refl _)
  have hpositive : 0 < (restores 6 (start root options)).countP
      fun moved => ¬2 ∣ moved.depth - 1 := by
    rw [← hcount, hrecomputed]
    exact Nat.one_pos
  obtain ⟨moved, hmoved, hbetween⟩ := List.countP_pos_iff.mp hpositive
  refine ⟨root, _, _, frame, above, moved, hreaches, hcreate, rfl, hstack, habove, ?_,
    hrooted hreaches, ?_, hmoved, of_decide_eq_true hbetween, hreach moved hmoved⟩
  · rw [hregular.isSome_copy_iff, habove]
  · rw [hkept, hdepth]
    change (3 + 2 - 1) / 2 = 2
    decide

end Search

end ConstraintSpace
