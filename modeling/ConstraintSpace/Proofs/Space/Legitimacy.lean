import ConstraintSpace.Proofs.Space.Attention
import ConstraintSpace.Proofs.Space.Cursors

/-!
# Choices that a brancher could have produced

A caller may make up a choice and ask a space to commit to it.  The space checks the
alternative against the number that the choice states, the brancher checks the position and
the kind of the value.  Nobody checks the number of alternatives that the choice states
against the one that the commit of the brancher declares.  A choice that states too many is
committed to all the same, and an alternative beyond the second of two parts is taken for
the second.
-/

namespace ConstraintSpace

namespace Branching

variable {b : Branching} {c : Choice} {alternative : Nat}

/-- Whether a value is of the kind that is branched on. -/
def takes : Branching → BranchValue → Bool
  | int _ _ _, .int _ => true
  | float _ _, .float _ => true
  | set _ _ _, .int _ => true
  | _, _ => false

/-- The choice names a view and has a value of its kind. -/
def Shapes (b : Branching) (c : Choice) : Prop :=
  c.position < b.views.length ∧ b.takes c.value = true

theorem commit_of_length_le (hforeign : b.views.length ≤ c.position) :
    b.commit c alternative = .error (.illegalOperation .foreignPosition) := by
  cases b <;>
  · simp only [Branching.views, List.length_map] at hforeign
    simp only [Branching.commit, List.getElem?_eq_none hforeign]

/-- The error says which kind of value was found. -/
theorem commit_of_not_takes (hposition : c.position < b.views.length)
    (hkind : b.takes c.value = false) :
    b.commit c alternative = .error (.illegalOperation
      (if b.takes (.int 0) then .floatForDiscrete else .integerForFloat)) := by
  cases b <;>
  · simp only [Branching.views, List.length_map] at hposition
    cases hvalue : c.value <;>
      simp_all [Branching.commit, takes, BranchValue.int?, BranchValue.float?, Except.map]

theorem exists_commit (hshapes : b.Shapes c) :
    ∃ narrowing, b.commit c alternative = .ok narrowing := by
  obtain ⟨hposition, hkind⟩ := hshapes
  cases b <;>
  · simp only [Branching.views, List.length_map] at hposition
    cases hvalue : c.value <;>
      simp_all [Branching.commit, takes, BranchValue.int?, BranchValue.float?, Except.map]

/-- The commit is to one of two parts. -/
def halves : Branching → Bool
  | int _ _ (.multi _) => false
  | _ => true

theorem alternatives_of_halves (hhalves : b.halves = true) : b.alternatives = 2 := by
  cases b with
  | int views selection commit => cases commit <;> first | rfl | cases hhalves
  | _ => rfl

/-- Whatever is not the first of two parts is taken for the second. -/
theorem commit_eq_second (hhalves : b.halves = true) (hne : alternative ≠ 0) :
    b.commit c alternative = b.commit c 1 := by
  cases b with
  | int views selection commit =>
      have hsame : commit.commit alternative = commit.commit 1 := by
        funext view value
        cases commit with
        | multi n => cases hhalves
        | _ => simp only [IntCommit.commit, hne, if_false, one_ne_zero]
      simp only [Branching.commit, hsame]
  | float views commit =>
      have hsame : commit.commit alternative = commit.commit 1 := by
        funext view value
        cases commit <;> simp only [FloatCommit.commit, hne, if_false, one_ne_zero]
      simp only [Branching.commit, hsame]
  | set views selection commit =>
      have hsame : commit.commit alternative = commit.commit 1 := by
        funext id element
        cases commit <;> simp [SetCommit.commit, hne]
      simp only [Branching.commit, hsame]

end Branching

namespace Space

variable {s t : Space} {c : Choice} {alternative : Nat}

/-- What is wrong with a commit, in the order in which it is checked: the choice has no such
alternative, there is no such brancher, it has no such view, or the value is of another kind
than it branches on. -/
inductive Objects (s : Space) (c : Choice) (alternative : Nat) : SpaceError → Prop where
  | alternative (hillegal : c.alternatives ≤ alternative) :
      Objects s c alternative (.illegalAlternative alternative c.alternatives)
  | brancher (hlegal : alternative < c.alternatives)
      (hunknown : s.branchers[c.brancher]? = none) : Objects s c alternative .unknownBrancher
  | position {b : ViewBrancher} (hlegal : alternative < c.alternatives)
      (hb : s.branchers[c.brancher]? = some (.viewValue b))
      (hforeign : b.branching.views.length ≤ c.position) :
      Objects s c alternative (.illegalOperation .foreignPosition)
  | kind {b : ViewBrancher} (hlegal : alternative < c.alternatives)
      (hb : s.branchers[c.brancher]? = some (.viewValue b))
      (hposition : c.position < b.branching.views.length)
      (hkind : b.branching.takes c.value = false) :
      Objects s c alternative (.illegalOperation
        (if b.branching.takes (.int 0) then .floatForDiscrete else .integerForFloat))

/-- The choice names a brancher over views, one of its positions and a value of its kind, and
the alternative is one that the commit of this brancher declares. -/
def Legitimate (s : Space) (c : Choice) (alternative : Nat) : Prop :=
  ∃ b, s.branchers[c.brancher]? = some (.viewValue b) ∧ b.branching.Shapes c ∧
    alternative < b.branching.alternatives

/-- All is as it should be, but that only the choice states so many alternatives and not the
commit of the brancher. -/
def Overstated (s : Space) (c : Choice) (alternative : Nat) : Prop :=
  alternative < c.alternatives ∧
    ∃ b, s.branchers[c.brancher]? = some (.viewValue b) ∧ b.branching.Shapes c ∧
      b.branching.alternatives ≤ alternative

theorem isFailed_eq_false (hok : s.failure = none) : s.isFailed = false := by
  rw [isFailed, hok, Option.isSome_none]

theorem commit_of_refused {b : Brancher} {error : SpaceError} (hok : s.failure = none)
    (hlegal : alternative < c.alternatives) (hb : s.branchers[c.brancher]? = some b)
    (hcommit : b.commit c alternative = .error error) :
    commit c alternative s = .error (.refused error) s := by
  simp only [commit, isFailed_eq_false hok, Bool.false_eq_true, if_false, Nat.not_le.mpr hlegal,
    hb, hcommit]

theorem Objects.commit_eq {error : SpaceError} (hobjects : s.Objects c alternative error)
    (hok : s.failure = none) : commit c alternative s = .error (.refused error) s := by
  cases hobjects with
  | alternative hillegal =>
      simp only [commit, isFailed_eq_false hok, Bool.false_eq_true, if_false, hillegal, if_true]
  | brancher hlegal hunknown =>
      simp only [commit, isFailed_eq_false hok, Bool.false_eq_true, if_false,
        Nat.not_le.mpr hlegal, hunknown]
  | position hlegal hb hforeign =>
      exact commit_of_refused hok hlegal hb (Branching.commit_of_length_le hforeign)
  | kind hlegal hb hposition hkind =>
      exact commit_of_refused hok hlegal hb (Branching.commit_of_not_takes hposition hkind)

/-- A commit to which there is no objection names a brancher that accepts the choice. -/
theorem objects_or_accepts (s : Space) (c : Choice) (alternative : Nat) :
    (∃ error, s.Objects c alternative error) ∨ alternative < c.alternatives ∧
      ((∃ o, s.branchers[c.brancher]? = some (.observer o)) ∨
        ∃ b, s.branchers[c.brancher]? = some (.viewValue b) ∧ b.branching.Shapes c) := by
  by_cases hillegal : c.alternatives ≤ alternative
  · exact Or.inl ⟨_, .alternative hillegal⟩
  have hlegal := Nat.not_le.mp hillegal
  cases hb : s.branchers[c.brancher]? with
  | none => exact Or.inl ⟨_, .brancher hlegal hb⟩
  | some brancher =>
  cases brancher with
  | observer o => exact Or.inr ⟨hlegal, Or.inl ⟨o, rfl⟩⟩
  | viewValue b =>
      by_cases hforeign : b.branching.views.length ≤ c.position
      · exact Or.inl ⟨_, .position hlegal hb hforeign⟩
      have hposition := Nat.not_le.mp hforeign
      cases hkind : b.branching.takes c.value with
      | false => exact Or.inl ⟨_, .kind hlegal hb hposition hkind⟩
      | true => exact Or.inr ⟨hlegal, Or.inr ⟨b, rfl, hposition, hkind⟩⟩

/-- A commit that its brancher accepts is not refused any more. -/
theorem commit_of_accepts {b : Brancher} (hok : s.failure = none)
    (hlegal : alternative < c.alternatives) (hb : s.branchers[c.brancher]? = some b)
    (haccepts : ∃ narrowing, b.commit c alternative = .ok narrowing) (error : SpaceError)
    (t : Space) : commit c alternative s ≠ .error (.refused error) t := by
  obtain ⟨narrowing, hcommit⟩ := haccepts
  simp only [commit, isFailed_eq_false hok, Bool.false_eq_true, if_false, Nat.not_le.mpr hlegal,
    hb, hcommit]
  split
  · exact willing_schedule none _ error t
  · simp
  · simp

/-- The alternative matters to nobody but the brancher. -/
theorem commit_congr {b : Brancher} {other : Nat} (hok : s.failure = none)
    (hlegal : alternative < c.alternatives) (hlegal' : other < c.alternatives)
    (hb : s.branchers[c.brancher]? = some b)
    (hsame : b.commit c alternative = b.commit c other) :
    commit c alternative s = commit c other s := by
  simp only [commit, isFailed_eq_false hok, Bool.false_eq_true, if_false, Nat.not_le.mpr hlegal,
    Nat.not_le.mpr hlegal', hb, hsame]

/-- One who only looks narrows nothing, so only the commit is counted. -/
theorem Tidy.commit_observer {o : Observer} (htidy : s.Tidy) (hok : s.failure = none)
    (hlegal : alternative < c.alternatives) (hb : s.branchers[c.brancher]? = some (.observer o)) :
    commit c alternative s =
      .ok () { s with counts := { s.counts with commits := s.counts.commits + 1 } } := by
  simp only [commit, isFailed_eq_false hok, Bool.false_eq_true, if_false, Nat.not_le.mpr hlegal,
    hb]
  exact schedule_of_isQuiet htidy.quiet

/-- A commit is refused, and then changes nothing, exactly if there is an objection to it.  A
choice that is not legitimate meets one, unless it names a brancher that only looks, or states
more alternatives than the commit of its brancher declares.  Then nobody objects, and a
brancher that commits to one of two parts narrows to the second.  No choice overstates where
it states no more alternatives than its brancher declares. -/
theorem commit_refused_unless_legitimate (hreaches : new.Reaches s) (hok : s.failure = none)
    (c : Choice) (alternative : Nat) :
    (∀ error t, commit c alternative s = .error (.refused error) t ↔
        s.Objects c alternative error ∧ t = s) ∧
      (¬s.Legitimate c alternative →
        (∃ error, s.Objects c alternative error) ∨ s.Overstated c alternative ∨
          ∃ o, s.branchers[c.brancher]? = some (.observer o) ∧ commit c alternative s =
            .ok () { s with counts := { s.counts with commits := s.counts.commits + 1 } }) ∧
      (s.Overstated c alternative →
        (∀ error, ¬s.Objects c alternative error) ∧
          ∀ b, s.branchers[c.brancher]? = some (.viewValue b) → b.branching.halves = true →
            commit c alternative s = commit c 1 s) ∧
      ∀ b, s.branchers[c.brancher]? = some (.viewValue b) →
        c.alternatives ≤ b.branching.alternatives → ¬s.Overstated c alternative := by
  have hunobjected : ∀ error t, commit c alternative s = .error (.refused error) t →
      ∃ error, s.Objects c alternative error := by
    intro error t hrun
    refine (s.objects_or_accepts c alternative).resolve_right ?_
    rintro ⟨hlegal, ⟨o, hb⟩ | ⟨b, hb, hshapes⟩⟩
    · exact commit_of_accepts hok hlegal hb ⟨_, rfl⟩ error t hrun
    · exact commit_of_accepts hok hlegal hb (Branching.exists_commit hshapes) error t hrun
  have hrefused : ∀ error t, commit c alternative s = .error (.refused error) t ↔
      s.Objects c alternative error ∧ t = s := by
    intro error t
    constructor
    · intro hrun
      obtain ⟨error', hobjects⟩ := hunobjected error t hrun
      rw [hobjects.commit_eq hok, EStateM.Result.error.injEq, Fault.refused.injEq] at hrun
      exact ⟨hrun.1 ▸ hobjects, hrun.2.symm⟩
    · rintro ⟨hobjects, rfl⟩
      exact hobjects.commit_eq hok
  refine ⟨hrefused, fun hforeign => ?_, fun hoverstated => ⟨fun error hobjects => ?_, ?_⟩, ?_⟩
  · refine (s.objects_or_accepts c alternative).imp_right ?_
    rintro ⟨hlegal, ⟨o, hb⟩ | ⟨b, hb, hshapes⟩⟩
    · exact Or.inr ⟨o, hb, (hreaches.tidy tidy_new).commit_observer hok hlegal hb⟩
    · refine Or.inl ⟨hlegal, b, hb, hshapes, ?_⟩
      by_contra hdeclared
      exact hforeign ⟨b, hb, hshapes, Nat.not_le.mp hdeclared⟩
  · obtain ⟨hlegal, b, hb, hshapes, -⟩ := hoverstated
    exact commit_of_accepts hok hlegal hb (Branching.exists_commit hshapes) error s
      (hobjects.commit_eq hok)
  · intro b hb hhalves
    obtain ⟨hlegal, b', hb', -, hbeyond⟩ := hoverstated
    obtain rfl : b = b' := by simpa using hb.symm.trans hb'
    rw [Branching.alternatives_of_halves hhalves] at hbeyond
    exact commit_congr hok hlegal (by omega) hb (Branching.commit_eq_second hhalves (by omega))
  · rintro b hb hstated ⟨hlegal, b', hb', -, hbeyond⟩
    obtain rfl : b = b' := by simpa using hb.symm.trans hb'
    omega

/-- A made up choice states five alternatives, and the fifth is taken for the second of the two
that there are; a position that does not exist is objected to. -/
theorem fifth_of_two_alternatives :
    let b : ViewBrancher :=
      { start := 0, selector := .inputOrder, branching := .int [.var 0] .min .assignOrExclude,
        label := none, selectionNotices := false, commitNotices := false }
    let c : Choice := { brancher := 0, alternatives := 5, position := 0, value := .int 3 }
    ∃ s t, performAll [.newInt 0 5, .addBrancher (.viewValue b)] new = some s ∧
      ¬s.Legitimate c 4 ∧ (Act.commit c 4).perform s = some t ∧
      (t.store.int 0).contains 3 = false ∧
      commit c 4 s = commit c 1 s ∧
      commit { c with position := 1 } 0 s =
        .error (.refused (.illegalOperation .foreignPosition)) s := by
  intro b c
  have hrun : (performAll [.newInt 0 5, .addBrancher (.viewValue b)] new).bind (fun s =>
      ((Act.commit c 4).perform s).map fun t =>
        (s.failure.isNone, s.findBrancher? 0 b.kind, (t.store.int 0).contains 3)) =
      some (true, some b, false) := by
    decide +kernel
  obtain ⟨s, hperform, hrun⟩ := Option.bind_eq_some_iff.mp hrun
  obtain ⟨t, hcommit, hrun⟩ := Option.map_eq_some_iff.mp hrun
  simp only [Prod.mk.injEq, Option.isNone_iff_eq_none] at hrun
  obtain ⟨hok, hfound, hgone⟩ := hrun
  have hb := branchers_of_findBrancher? hfound
  have hreaches := reaches_of_performAll hperform
  have hforeign : ¬s.Legitimate c 4 := by
    rintro ⟨b', hb', -, hdeclared⟩
    obtain rfl : b = b' := by simpa using hb.symm.trans hb'
    exact absurd hdeclared (by decide)
  have hoverstated : s.Overstated c 4 := ⟨by decide, b, hb, ⟨by decide, rfl⟩, by decide⟩
  obtain ⟨-, -, hsecond, -⟩ := commit_refused_unless_legitimate hreaches hok c 4
  obtain ⟨hrefused, -⟩ :=
    commit_refused_unless_legitimate hreaches hok { c with position := 1 } 0
  exact ⟨s, t, hperform, hforeign, hcommit, hgone, (hsecond hoverstated).2 b hb rfl,
    (hrefused _ _).mpr ⟨.position (by decide) hb (by decide), rfl⟩⟩

end Space

end ConstraintSpace
