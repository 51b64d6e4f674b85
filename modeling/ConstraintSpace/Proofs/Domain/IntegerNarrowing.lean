import ConstraintSpace.Proofs.Domain.IntegerMembers

/-!
# Narrowing integer domains

Every narrowing of an integer domain keeps exactly the members that satisfy a
condition: a lower bound, an upper bound, being different from a value, or being
equal to it.  It gives no domain exactly when no member satisfies the condition,
and the events it raises say exactly what changed.
-/

namespace ConstraintSpace

/-! ## Removing holes and values -/

namespace Hole

theorem Spread.raise {below above bound : Int} {holes : List Hole}
    (hspread : Spread below above holes) (hbound : ¬Covered holes bound) :
    Spread bound above (holes.filter fun hole => bound ≤ hole.first) := by
  induction holes generalizing below with
  | nil => trivial
  | cons hole rest ih =>
      obtain ⟨hbelow, hle, habove, hrest⟩ := hspread
      rw [covered_cons, not_or] at hbound
      by_cases hkeep : bound ≤ hole.first
      · have hall : rest.filter (fun hole => bound ≤ hole.first) = rest := by
          refine List.filter_eq_self.mpr fun other hmem => ?_
          have := hrest.below_lt other hmem
          simp only [decide_eq_true_eq]
          omega
        simp only [List.filter_cons, hkeep, decide_true, if_true, hall]
        exact ⟨by omega, hle, habove, hrest⟩
      · simpa [List.filter_cons, hkeep] using ih hrest hbound.2

theorem Spread.cut {below above bound : Int} {holes : List Hole}
    (hspread : Spread below above holes) (hbound : ¬Covered holes bound) :
    Spread below bound (holes.filter fun hole => hole.first < bound) := by
  induction holes generalizing below with
  | nil => trivial
  | cons hole rest ih =>
      obtain ⟨hbelow, hle, habove, hrest⟩ := hspread
      rw [covered_cons, not_or] at hbound
      by_cases hkeep : hole.first < bound
      · simp only [List.filter_cons, hkeep, decide_true, if_true]
        exact ⟨hbelow, hle, by omega, ih hrest hbound.2⟩
      · simpa [List.filter_cons, hkeep] using
          (ih hrest hbound.2).mono_below (by omega)

/-- Two holes are the same, or there is a free value between them. -/
theorem Spread.apart {below above : Int} {holes : List Hole} {hole other : Hole}
    (hspread : Spread below above holes) (hhole : hole ∈ holes) (hother : other ∈ holes) :
    hole = other ∨ hole.last + 1 < other.first ∨ other.last + 1 < hole.first := by
  induction holes generalizing below with
  | nil => simp at hhole
  | cons head rest ih =>
      obtain ⟨-, -, -, hrest⟩ := hspread
      have hlater := hrest.below_lt
      rcases List.mem_cons.mp hhole with rfl | hbehind
      · rcases List.mem_cons.mp hother with rfl | hbehind
        · exact Or.inl rfl
        · exact Or.inr (Or.inl (hlater other hbehind).1)
      · rcases List.mem_cons.mp hother with rfl | hbehind'
        · exact Or.inr (Or.inr (hlater hole hbehind).1)
        · exact ih hrest hbehind hbehind'

theorem Spread.after_last_free {below above : Int} {holes : List Hole}
    {hole other : Hole} (hspread : Spread below above holes)
    (hhole : hole ∈ holes) (hother : other ∈ holes) :
    ¬(other.first ≤ hole.last + 1 ∧ hole.last + 1 ≤ other.last) := by
  have hle := (hspread.below_lt hole hhole).2.1
  rcases hspread.apart hhole hother with rfl | hbefore | hafter <;> omega

theorem Spread.before_first_free {below above : Int} {holes : List Hole}
    {hole other : Hole} (hspread : Spread below above holes)
    (hhole : hole ∈ holes) (hother : other ∈ holes) :
    ¬(other.first ≤ hole.first - 1 ∧ hole.first - 1 ≤ other.last) := by
  have hle := (hspread.below_lt hole hhole).2.1
  rcases hspread.apart hhole hother with rfl | hbefore | hafter <;> omega

theorem covered_filter_le_first {bound x : Int} {holes : List Hole}
    (hbound : ¬Covered holes bound) (hx : bound ≤ x) :
    Covered (holes.filter fun hole => bound ≤ hole.first) x ↔
      Covered holes x := by
  simp only [Covered, List.mem_filter, decide_eq_true_eq]
  constructor
  · rintro ⟨hole, ⟨hmem, _⟩, hcovers⟩
    exact ⟨hole, hmem, hcovers⟩
  · rintro ⟨hole, hmem, hcovers⟩
    refine ⟨hole, ⟨hmem, ?_⟩, hcovers⟩
    by_contra hlt
    exact hbound ⟨hole, hmem, by omega, by omega⟩

theorem covered_filter_first_lt {bound x : Int} {holes : List Hole}
    (hx : x ≤ bound) (hbound : ¬Covered holes bound) :
    Covered (holes.filter fun hole => hole.first < bound) x ↔
      Covered holes x := by
  simp only [Covered, List.mem_filter, decide_eq_true_eq]
  constructor
  · rintro ⟨hole, ⟨hmem, _⟩, hcovers⟩
    exact ⟨hole, hmem, hcovers⟩
  · rintro ⟨hole, hmem, hcovers⟩
    refine ⟨hole, ⟨hmem, ?_⟩, hcovers⟩
    by_contra hle
    exact hbound ⟨hole, hmem, by omega, by omega⟩

end Hole

namespace IntDomain

theorem spread_pierce {below above value : Int} {holes : List Hole}
    (hspread : Hole.Spread below above holes)
    (hvalue : ¬Hole.Covered holes value)
    (hbelow : below < value) (habove : value < above) :
    Hole.Spread below above (pierce value holes) := by
  induction holes generalizing below with
  | nil => exact ⟨hbelow, le_refl _, habove, trivial⟩
  | cons hole rest ih =>
      obtain ⟨hfirst, hle, hlast, hrest⟩ := hspread
      rw [Hole.covered_cons, not_or] at hvalue
      unfold pierce
      split
      next hlater =>
        exact ⟨hfirst, hle, hlast, ih hrest hvalue.2 hlater⟩
      next =>
        split
        next hjoin =>
          cases rest with
          | nil => exact ⟨hfirst, by simp only; omega, habove, trivial⟩
          | cons next later =>
              obtain ⟨hnext, hnextLe, hnextAbove, hlater⟩ := hrest
              simp only
              split
              next => exact ⟨hfirst, by simp only; omega, hnextAbove, hlater⟩
              next =>
                exact ⟨hfirst, by simp only; omega, habove,
                  by simp only; omega, hnextLe, hnextAbove, hlater⟩
        next =>
          split
          next => exact ⟨by simp only; omega, by simp only; omega, hlast, hrest⟩
          next =>
            exact ⟨hbelow, le_refl _, habove, by simp only; omega, hle, hlast,
              hrest⟩

theorem covered_pierce {below above value x : Int} {holes : List Hole}
    (hspread : Hole.Spread below above holes)
    (hvalue : ¬Hole.Covered holes value) :
    Hole.Covered (pierce value holes) x ↔
      x = value ∨ Hole.Covered holes x := by
  induction holes generalizing below with
  | nil =>
      simp only [pierce, Hole.covered_cons, Hole.not_covered_nil, or_false]
      omega
  | cons hole rest ih =>
      obtain ⟨hfirst, hle, hlast, hrest⟩ := hspread
      rw [Hole.covered_cons, not_or] at hvalue
      unfold pierce
      split
      next hlater =>
        simp only [Hole.covered_cons, ih hrest hvalue.2]
        grind
      next =>
        split
        next hjoin =>
          cases rest with
          | nil =>
              simp only [Hole.covered_cons, Hole.not_covered_nil, or_false]
              omega
          | cons next later =>
              obtain ⟨hnext, hnextLe, hnextAbove, hlater⟩ := hrest
              simp only
              split <;> simp only [Hole.covered_cons] <;> grind
        next => split <;> simp only [Hole.covered_cons] <;> grind

theorem total_pierce {below above value : Int} {holes : List Hole}
    (hspread : Hole.Spread below above holes)
    (hvalue : ¬Hole.Covered holes value) :
    Hole.total (pierce value holes) = Hole.total holes + 1 := by
  induction holes generalizing below with
  | nil => simp [pierce, Hole.total, Hole.size]
  | cons hole rest ih =>
      obtain ⟨hfirst, hle, hlast, hrest⟩ := hspread
      rw [Hole.covered_cons, not_or] at hvalue
      unfold pierce
      split
      next hlater =>
        simp only [Hole.total, ih hrest hvalue.2]
        omega
      next =>
        split
        next hjoin =>
          cases rest with
          | nil =>
              simp only [Hole.total, Hole.size]
              omega
          | cons next later =>
              obtain ⟨hnext, hnextLe, hnextAbove, hlater⟩ := hrest
              simp only
              split <;> simp only [Hole.total, Hole.size] <;> omega
        next => split <;> simp only [Hole.total, Hole.size] <;> omega

theorem removed_dropHoles {d : IntDomain} (hvalid : d.Valid)
    (keep : Hole → Bool) :
    (d.dropHoles keep).removed = Hole.total (d.holes.filter keep) := by
  have htotal := Hole.total_filter_add_total_filter_not keep d.holes
  simp only [dropHoles, hvalid.removed_eq]
  omega

/-! ## What a narrowing does -/

/-- The events of the change from one domain to another. -/
def eventsTo (d d' : IntDomain) : EventSet :=
  { assign := !d.isFixed && d'.isFixed
    lowerBound := d'.lower ≠ d.lower
    upperBound := d'.upper ≠ d.upper
    removal := d' ≠ d }

@[simp] theorem eventsTo_self (d : IntDomain) : d.eventsTo d = .empty := by
  simp [eventsTo, EventSet.empty]

theorem withAssign_eq_of_ne {d d' : IntDomain} {events : EventSet}
    (hchanged : d' ≠ d) (hopen : d.lower ≠ d.upper)
    (hlower : events.lowerBound = decide (d'.lower ≠ d.lower))
    (hupper : events.upperBound = decide (d'.upper ≠ d.upper))
    (hassign : events.assign = false) (hremoval : events.removal = true) :
    d'.withAssign events = (d', d.eventsTo d') := by
  obtain ⟨assign, lowerBound, upperBound, removal⟩ := events
  subst hlower hupper hassign hremoval
  unfold withAssign eventsTo
  by_cases hfixed : d'.lower = d'.upper <;>
    simp [hfixed, isFixed, hopen, hchanged, EventSet.insert]

/-- The narrowing keeps exactly the members that satisfy `keep`, says what
changed, and gives no domain exactly when no member is kept. -/
def Restricts (op : IntDomain → Option (IntDomain × EventSet))
    (keep : Int → Prop) : Prop :=
  ∀ d : IntDomain, d.Valid →
    (op d = none ∧ ∀ x ∈ d, ¬keep x) ∨
      ∃ d', op d = some (d', d.eventsTo d') ∧ d'.Valid ∧
        ∀ x, x ∈ d' ↔ x ∈ d ∧ keep x

/-- A narrowing that finds nothing to remove returns the domain as it is. -/
theorem restricts_of_kept {d : IntDomain} {keep : Int → Prop}
    (hvalid : d.Valid) (hkept : ∀ x ∈ d, keep x) :
    ∃ d', some (d, EventSet.empty) = some (d', d.eventsTo d') ∧ d'.Valid ∧
      ∀ x, x ∈ d' ↔ x ∈ d ∧ keep x :=
  ⟨d, by simp, hvalid, fun x => ⟨fun hx => ⟨hx, hkept x hx⟩, And.left⟩⟩

/-- The domain from a member on. -/
theorem Valid.from_member {d : IntDomain} (hvalid : d.Valid) {bound : Int}
    (hbound : bound ∈ d) :
    let d' : IntDomain :=
      { d.dropHoles (fun hole => bound ≤ hole.first) with lower := bound }
    d'.Valid ∧ ∀ x, x ∈ d' ↔ x ∈ d ∧ bound ≤ x := by
  obtain ⟨hlower, hupper, hcovered⟩ := mem_iff.mp hbound
  refine ⟨⟨hupper, hvalid.spread.raise hcovered, removed_dropHoles hvalid _⟩, ?_⟩
  intro x
  rw [mem_iff, mem_iff]
  by_cases hx : bound ≤ x
  · simp only [dropHoles, Hole.covered_filter_le_first hcovered hx]
    grind
  · simp only [dropHoles]
    grind

/-- The domain up to a member. -/
theorem Valid.to_member {d : IntDomain} (hvalid : d.Valid) {bound : Int}
    (hbound : bound ∈ d) :
    let d' : IntDomain :=
      { d.dropHoles (fun hole => hole.first < bound) with upper := bound }
    d'.Valid ∧ ∀ x, x ∈ d' ↔ x ∈ d ∧ x ≤ bound := by
  obtain ⟨hlower, hupper, hcovered⟩ := mem_iff.mp hbound
  refine ⟨⟨hlower, hvalid.spread.cut hcovered, removed_dropHoles hvalid _⟩, ?_⟩
  intro x
  rw [mem_iff, mem_iff]
  by_cases hx : x ≤ bound
  · simp only [dropHoles, Hole.covered_filter_first_lt hx hcovered]
    grind
  · simp only [dropHoles]
    grind

/-- Where a lower bound between the bounds of a domain ends up. -/
theorem Valid.next_member {d : IntDomain} (hvalid : d.Valid) {value : Int}
    (hlower : d.lower < value) (hupper : value ≤ d.upper) (bound : Int)
    (hbound : bound = match d.holeAt? value with
      | some hole => hole.last + 1
      | none => value) :
    bound ∈ d ∧ value ≤ bound ∧ ∀ x ∈ d, value ≤ x ↔ bound ≤ x := by
  cases hhole : d.holeAt? value with
  | none =>
      obtain rfl : value = bound := by rw [hbound, hhole]
      have hvalue : value ∈ d :=
        mem_iff.mpr ⟨by omega, hupper, holeAt?_eq_none_iff.mp hhole⟩
      exact ⟨hvalue, le_refl _, fun x _ => Iff.rfl⟩
  | some hole =>
      obtain rfl : hole.last + 1 = bound := by rw [hbound, hhole]
      obtain ⟨hmem, hfirst, hlast⟩ := of_holeAt?_eq_some hhole
      have hinside := hvalid.spread.below_lt hole hmem
      have hfree : ¬Hole.Covered d.holes (hole.last + 1) := by
        rintro ⟨other, hother, hcovers⟩
        exact hvalid.spread.after_last_free hmem hother hcovers
      refine ⟨mem_iff.mpr ⟨by omega, by omega, hfree⟩, by omega, ?_⟩
      intro x hx
      have hout : ¬(hole.first ≤ x ∧ x ≤ hole.last) := fun hcovers =>
        (mem_iff.mp hx).2.2 ⟨hole, hmem, hcovers⟩
      omega

/-- Where an upper bound between the bounds of a domain ends up. -/
theorem Valid.previous_member {d : IntDomain} (hvalid : d.Valid) {value : Int}
    (hlower : d.lower ≤ value) (hupper : value < d.upper) (bound : Int)
    (hbound : bound = match d.holeAt? value with
      | some hole => hole.first - 1
      | none => value) :
    bound ∈ d ∧ bound ≤ value ∧ ∀ x ∈ d, x ≤ value ↔ x ≤ bound := by
  cases hhole : d.holeAt? value with
  | none =>
      obtain rfl : value = bound := by rw [hbound, hhole]
      have hvalue : value ∈ d :=
        mem_iff.mpr ⟨hlower, by omega, holeAt?_eq_none_iff.mp hhole⟩
      exact ⟨hvalue, le_refl _, fun x _ => Iff.rfl⟩
  | some hole =>
      obtain rfl : hole.first - 1 = bound := by rw [hbound, hhole]
      obtain ⟨hmem, hfirst, hlast⟩ := of_holeAt?_eq_some hhole
      have hinside := hvalid.spread.below_lt hole hmem
      have hfree : ¬Hole.Covered d.holes (hole.first - 1) := by
        rintro ⟨other, hother, hcovers⟩
        exact hvalid.spread.before_first_free hmem hother hcovers
      refine ⟨mem_iff.mpr ⟨by omega, by omega, hfree⟩, by omega, ?_⟩
      intro x hx
      have hout : ¬(hole.first ≤ x ∧ x ≤ hole.last) := fun hcovers =>
        (mem_iff.mp hx).2.2 ⟨hole, hmem, hcovers⟩
      omega

/-! ## The four narrowings -/

theorem setLower_restricts (value : Int) :
    Restricts (setLower value) (value ≤ ·) := by
  intro d hvalid
  unfold setLower
  split
  next hle =>
    exact Or.inr (restricts_of_kept hvalid fun x hx =>
      le_trans hle (lower_le_of_mem hx))
  next hlower =>
    split
    next hlt =>
      refine Or.inl ⟨rfl, fun x hx hle => ?_⟩
      have := le_upper_of_mem hx
      omega
    next hupper =>
      extract_lets bound narrowed
      obtain ⟨hbound, hvalue, hkept⟩ :=
        hvalid.next_member (by omega) (by omega) bound rfl
      obtain ⟨hvalid', hmem⟩ := hvalid.from_member hbound
      refine Or.inr ⟨{ narrowed with lower := bound }, ?_, hvalid', ?_⟩
      · have hne : bound ≠ d.lower := by omega
        have hopen : d.lower ≠ d.upper := by omega
        have hchanged : ({ narrowed with lower := bound } : IntDomain) ≠ d :=
          fun heq => hne (congrArg lower heq)
        have hupper' : ¬narrowed.upper ≠ d.upper := fun hne => hne rfl
        exact congrArg some (withAssign_eq_of_ne hchanged hopen
          (decide_eq_true hne).symm (decide_eq_false hupper').symm rfl rfl)
      · intro x
        rw [hmem x]
        exact and_congr_right fun hx => (hkept x hx).symm

theorem setUpper_restricts (value : Int) :
    Restricts (setUpper value) (· ≤ value) := by
  intro d hvalid
  unfold setUpper
  split
  next hle =>
    exact Or.inr (restricts_of_kept hvalid fun x hx =>
      le_trans (le_upper_of_mem hx) hle)
  next hupper =>
    split
    next hlt =>
      refine Or.inl ⟨rfl, fun x hx hle => ?_⟩
      have := lower_le_of_mem hx
      omega
    next hlower =>
      extract_lets bound narrowed
      obtain ⟨hbound, hvalue, hkept⟩ :=
        hvalid.previous_member (by omega) (by omega) bound rfl
      obtain ⟨hvalid', hmem⟩ := hvalid.to_member hbound
      refine Or.inr ⟨{ narrowed with upper := bound }, ?_, hvalid', ?_⟩
      · have hne : bound ≠ d.upper := by omega
        have hopen : d.lower ≠ d.upper := by omega
        have hchanged : ({ narrowed with upper := bound } : IntDomain) ≠ d :=
          fun heq => hne (congrArg upper heq)
        have hlower' : ¬narrowed.lower ≠ d.lower := fun hne => hne rfl
        exact congrArg some (withAssign_eq_of_ne hchanged hopen
          (decide_eq_false hlower').symm (decide_eq_true hne).symm rfl rfl)
      · intro x
        rw [hmem x]
        exact and_congr_right fun hx => (hkept x hx).symm

/-- A value between the bounds becomes a hole. -/
theorem Valid.restricts_of_pierce {d : IntDomain} {value : Int} (hvalid : d.Valid)
    (hvalue : value ∈ d) (hlower : value ≠ d.lower) (hupper : value ≠ d.upper) :
    ∃ d', some ({ d with holes := pierce value d.holes, removed := d.removed + 1 },
        { EventSet.empty with removal := true }) = some (d', d.eventsTo d') ∧
      d'.Valid ∧ ∀ x, x ∈ d' ↔ x ∈ d ∧ x ≠ value := by
  obtain ⟨hle, hge, hfree⟩ := mem_iff.mp hvalue
  have habove : d.lower < value := by omega
  have hbelow : value < d.upper := by omega
  refine ⟨_, congrArg some (Prod.ext rfl ?_), ⟨hvalid.lower_le_upper, ?_, ?_⟩, ?_⟩
  · have hopen : d.lower ≠ d.upper := by omega
    have hchanged : ({ d with
        holes := pierce value d.holes
        removed := d.removed + 1 } : IntDomain) ≠ d := fun heq => by
      have := congrArg removed heq
      simp at this
    simp [eventsTo, isFixed, hopen, EventSet.empty, hchanged]
  · exact spread_pierce hvalid.spread hfree habove hbelow
  · simp only [hvalid.removed_eq, total_pierce hvalid.spread hfree]
  · intro x
    simp only [mem_iff, covered_pierce hvalid.spread hfree]
    grind

theorem remove_restricts (value : Int) :
    Restricts (remove value) (· ≠ value) := by
  intro d hvalid
  unfold remove
  split
  next hout =>
    refine Or.inr (restricts_of_kept hvalid fun x hx heq => ?_)
    subst x
    simp [mem_iff_contains.mp hx] at hout
  next hin =>
    have hvalue : value ∈ d := mem_iff_contains.mpr (by simpa using hin)
    split
    next hfixed =>
      refine Or.inl ⟨rfl, fun x hx hne => hne ?_⟩
      rw [eq_lower_of_isFixed hfixed hx, eq_lower_of_isFixed hfixed hvalue]
    next =>
      split
      next hlower =>
        refine (setLower_restricts (value + 1) d hvalid).imp
          (And.imp_right fun hnone x hx hne => ?_)
          (Exists.imp fun d' => And.imp_right <| And.imp_right
            fun hmem x => ?_)
        · have := lower_le_of_mem hx
          exact hnone x hx (by omega)
        · rw [hmem x]
          refine and_congr_right fun hx => ?_
          have := lower_le_of_mem hx
          omega
      next hlower =>
        split
        next hupper =>
          refine (setUpper_restricts (value - 1) d hvalid).imp
            (And.imp_right fun hnone x hx hne => ?_)
            (Exists.imp fun d' => And.imp_right <| And.imp_right
              fun hmem x => ?_)
          · have := le_upper_of_mem hx
            exact hnone x hx (by omega)
          · rw [hmem x]
            refine and_congr_right fun hx => ?_
            have := le_upper_of_mem hx
            omega
        next hupper => exact Or.inr (hvalid.restricts_of_pierce hvalue hlower hupper)

theorem fix_restricts (value : Int) :
    Restricts (fix value) (· = value) := by
  intro d hvalid
  unfold fix
  split
  next hout =>
    refine Or.inl ⟨rfl, fun x hx heq => ?_⟩
    subst x
    simp [mem_iff_contains.mp hx] at hout
  next hin =>
    have hvalue : value ∈ d := mem_iff_contains.mpr (by simpa using hin)
    split
    next hfixed =>
      refine Or.inr (restricts_of_kept hvalid fun x hx => ?_)
      rw [eq_lower_of_isFixed hfixed hx, eq_lower_of_isFixed hfixed hvalue]
    next hopen =>
      have hopen : d.lower ≠ d.upper := fun heq =>
        hopen (isFixed_iff.mpr heq)
      refine Or.inr ⟨interval value value, ?_, valid_interval (le_refl _), ?_⟩
      · have hchanged : interval value value ≠ d := fun heq =>
          hopen (by rw [← heq]; rfl)
        have hassign :
            (!d.isFixed && (interval value value).isFixed) = true := by
          simp [isFixed, interval, hopen]
        unfold eventsTo
        rw [hassign, decide_eq_true hchanged]
        rfl
      · intro x
        rw [mem_interval]
        grind

theorem setBound_restricts (side : Side) (value : Int) :
    Restricts (setBound side value) (match side with
      | .lower => fun x => value ≤ x
      | .upper => fun x => x ≤ value) := by
  cases side with
  | lower => exact setLower_restricts value
  | upper => exact setUpper_restricts value

end IntDomain

end ConstraintSpace
