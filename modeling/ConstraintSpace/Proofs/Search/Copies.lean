import ConstraintSpace.Proofs.Search.Coverage

/-!
# Where copies are kept

A frame keeps a copy exactly where its depth is a multiple of the copy distance.  So the
copies on a stack are evenly spread: of any stack only the rounded up quotient of its depth
by the distance is kept, and the nearest copy is less than the distance away, so that a
space is recomputed over no more edges than that.
-/

namespace ConstraintSpace

/-- How a search makes frames and moves them: by its depth a frame keeps a copy or not, and
it has come to one of the alternatives of its choice. -/
structure Frame.Regular (distance depth : Nat) (frame : Frame) : Prop where
  isSome_copy_iff : frame.copy.isSome = true ↔ distance ∣ depth
  one_le_next : 1 ≤ frame.next
  next_le : frame.next ≤ frame.choice.alternatives

theorem Frame.Regular.next {frame : Frame} {distance depth : Nat}
    (hregular : frame.Regular distance depth) (hless : frame.next < frame.choice.alternatives) :
    { frame with next := frame.next + 1 }.Regular distance depth where
  isSome_copy_iff := hregular.isSome_copy_iff
  one_le_next := Nat.le_add_left 1 frame.next
  next_le := hless

namespace Search

variable {P Q : Frame → List Frame → Prop} {frame : Frame} {above deeper stack : List Frame}
  {distance : Nat} {copy : Space}

/-! ## All frames of a stack -/

/-- Every frame of the stack has the property, with the frames above it. -/
def Each (P : Frame → List Frame → Prop) (stack : List Frame) : Prop :=
  ∀ frame above, frame :: above <:+ stack → P frame above

theorem each_nil : Each P [] := fun _ _ hsuffix => by simp at hsuffix

theorem each_cons : Each P (frame :: above) ↔ P frame above ∧ Each P above := by
  constructor
  · intro heach
    exact ⟨heach frame above (List.suffix_refl _),
      fun other below hsuffix => heach other below (hsuffix.trans (List.suffix_cons _ _))⟩
  · rintro ⟨hframe, habove⟩ other below hsuffix
    rcases List.suffix_cons_iff.mp hsuffix with heq | hbelow
    · obtain ⟨rfl, rfl⟩ := List.cons.inj heq
      exact hframe
    · exact habove other below hbelow

theorem Each.of_suffix (heach : Each P stack) (hsuffix : above <:+ stack) : Each P above :=
  fun other below hbelow => heach other below (hbelow.trans hsuffix)

theorem Each.mono (heach : Each P stack) (himplies : ∀ frame above, P frame above → Q frame above) :
    Each Q stack :=
  fun frame above hsuffix => himplies frame above (heach frame above hsuffix)

/-- All frames of the stack are regular at their depths. -/
def Spaced (distance : Nat) : List Frame → Prop :=
  Each fun frame above => frame.Regular distance above.length

theorem Spaced.mem (hspaced : Spaced distance stack) (hframe : frame ∈ stack) :
    ∃ depth, frame.Regular distance depth := by
  obtain ⟨deeper, above, rfl⟩ := List.append_of_mem hframe
  exact ⟨above.length, hspaced frame above (List.suffix_append deeper _)⟩

/-! ## How many spaces are kept -/

/-- The spaces that a stack keeps. -/
def kept (stack : List Frame) : List Space := stack.filterMap Frame.copy

theorem length_kept (hdistance : 1 ≤ distance) (hspaced : Spaced distance stack) :
    (kept stack).length = (stack.length + distance - 1) / distance := by
  induction stack with
  | nil => exact (Nat.div_eq_of_lt (by simp; omega)).symm
  | cons frame above ih =>
      obtain ⟨hregular, habove⟩ := each_cons.mp hspaced
      have hquotient : (above.length + 1 + distance - 1) / distance =
          (above.length + distance - 1) / distance + if distance ∣ above.length then 1 else 0 := by
        have hbefore : above.length + 1 + distance - 1 = above.length + distance - 1 + 1 := by omega
        have hafter : above.length + distance - 1 + 1 = above.length + distance := by omega
        rw [hbefore, Nat.succ_div]
        simp only [hafter, Nat.dvd_add_self_right]
      have hcopy := hregular.isSome_copy_iff
      rw [List.length_cons, hquotient, ← ih habove]
      cases hkept : frame.copy with
      | none =>
          rw [kept, List.filterMap_cons_none hkept, if_neg (by simpa [hkept] using hcopy)]
          rfl
      | some copy =>
          rw [kept, List.filterMap_cons_some hkept, if_pos (by simpa [hkept] using hcopy)]
          rfl

/-! ## The way from the nearest copy -/

/-- The choices along the stack, each with the alternative that its frame has come to. -/
def trail (stack : List Frame) : Path :=
  { edges := (stack.map fun frame => (frame.choice, frame.next - 1)).reverse }

theorem trail_cons (frame : Frame) (above : List Frame) :
    trail (frame :: above) = (trail above).push frame.choice (frame.next - 1) := by
  simp [trail, Path.push]

@[simp] theorem length_edges_trail (stack : List Frame) :
    (trail stack).edges.length = stack.length := by
  simp [trail]

/-- The deepest frame that keeps a copy, between the frames that are deeper and those
above it. -/
structure Nearest (stack deeper : List Frame) (frame : Frame) (above : List Frame)
    (copy : Space) : Prop where
  split : stack = deeper ++ frame :: above
  keeps : frame.copy = some copy
  bare : ∀ other ∈ deeper, other.copy = none

theorem Nearest.lineage_eq (hnearest : Nearest stack deeper frame above copy) :
    lineage stack = some (copy, (trail (deeper ++ [frame])).edges) := by
  obtain ⟨rfl, hkeeps, hbare⟩ := hnearest
  induction deeper with
  | nil => simp [lineage, hkeeps, trail]
  | cons first rest ih =>
      have hfirst := hbare first List.mem_cons_self
      have hrest := ih fun other hother => hbare other (List.mem_cons_of_mem _ hother)
      rw [List.cons_append, lineage, hfirst, hrest, List.cons_append, trail_cons]
      rfl

/-- The remainder of the depth by the distance tells how far away the nearest copy is. -/
theorem Spaced.exists_nearest (hspaced : Spaced distance stack) (hstack : stack ≠ []) :
    ∃ deeper frame above copy, Nearest stack deeper frame above copy ∧
      deeper.length = (stack.length - 1) % distance := by
  induction stack with
  | nil => exact absurd rfl hstack
  | cons frame above ih =>
      obtain ⟨hregular, habove⟩ := each_cons.mp hspaced
      have hcopy := hregular.isSome_copy_iff
      rw [List.length_cons, Nat.add_sub_cancel]
      cases hkept : frame.copy with
      | some copy =>
          have hdvd : distance ∣ above.length := by simpa [hkept] using hcopy
          exact ⟨[], frame, above, copy, ⟨rfl, hkept, by simp⟩,
            (Nat.mod_eq_zero_of_dvd hdvd).symm⟩
      | none =>
          have hbetween : ¬distance ∣ above.length := by simpa [hkept] using hcopy
          have hsome : above ≠ [] := by
            rintro rfl
            exact hbetween (dvd_zero distance)
          obtain ⟨deeper, top, below, copy, ⟨rfl, hkeeps, hbare⟩, hlength⟩ := ih habove hsome
          refine ⟨frame :: deeper, top, below, copy, ⟨rfl, hkeeps, ?_⟩, ?_⟩
          · simpa [hkept] using hbare
          · rw [List.length_cons, hlength]
            obtain ⟨depth, hdepth⟩ := Nat.exists_eq_succ_of_ne_zero
              (List.length_pos_iff.mpr hsome).ne'
            rw [hdepth] at hbetween ⊢
            have hquotient := Nat.succ_div_of_not_dvd hbetween
            have hbefore := Nat.div_add_mod depth distance
            have hafter := Nat.div_add_mod (depth + 1) distance
            rw [hquotient] at hafter
            simp only [Nat.succ_eq_add_one, Nat.add_sub_cancel]
            omega

end Search

end ConstraintSpace
