import ConstraintSpace.CommandLine
import ConstraintSpace.Proofs.Queens.Modeling
import ConstraintSpace.Proofs.Search.Reports

/-!
# Lines of output

Every solution of the puzzle is written as the line of its placement.  The other lines that
the program prints on the way are comments, which start with a percent sign: messages about
what happened, and at the end the statistics.  So the lines that are no comments are those
of the solutions, and the last one, which says how the search ended.
-/

namespace ConstraintSpace

/-! ## The text of a placement -/

namespace Queens

variable {n : Nat}

/-- The line of a placement, with the rows in the order of the columns. -/
def line (rows : Fin n → Fin n) : String :=
  "queens = [" ++ ", ".intercalate (List.ofFn fun i => toString (rows i).val) ++ "];"

example : line (![1, 3, 0, 2] : Fin 4 → Fin 4) = "queens = [1, 3, 0, 2];" := rfl

theorem placement_of_fixed {q : Queens} {x : Space} {rows : Fin n → Fin n} (hsize : q.size = n)
    (hfixed : x.store.Fixed) (hrows : x.store.assignment = assignment rows) :
    q.placement x = List.ofFn fun i => some ((rows i : Nat) : Int) := by
  have hints : (List.range x.store.ints.size).map (fun id => (x.store.int id).lower) =
      List.ofFn fun i => ((rows i : Nat) : Int) := congrArg Assignment.ints hrows
  have hlength : x.store.ints.size = n := by simpa using congrArg List.length hints
  have hvalue : ∀ id < n, (IntView.var id).value? x.store = some (x.store.int id).lower := by
    intro id hid
    have hid' := hfixed.1 id (hlength ▸ hid)
    simp [IntView.value?, IntView.isFixed, IntView.base?, hid', IntView.lower, IntView.bounds]
  calc q.placement x
      = (List.range n).map fun id => some (x.store.int id).lower := by
        rw [placement, hsize]
        exact List.map_congr_left fun id hid => hvalue id (List.mem_range.mp hid)
    _ = ((List.range n).map fun id => (x.store.int id).lower).map some := by
        rw [List.map_map]
        rfl
    _ = List.ofFn fun i => some ((rows i : Nat) : Int) := by
        rw [hlength] at hints
        rw [hints, List.map_ofFn]
        rfl

/-- A solution is written as the line of its placement. -/
theorem format_of_fixed {q : Queens} {x : Space} {rows : Fin n → Fin n} (hsize : q.size = n)
    (hfixed : x.store.Fixed) (hrows : x.store.assignment = assignment rows) :
    q.format x = line rows := by
  rw [format, placement_of_fixed hsize hfixed hrows, List.map_ofFn]
  rfl

theorem format_of_alike (q : Queens) {x y : Space} (halike : x.Alike y) :
    q.format y = q.format x := by
  unfold format placement
  rw [halike.store]

/-- The solutions of the puzzle are the peaceful placements, each of them once. -/
theorem exists_placements {posted : List (Nat × Propagator)} {root : Space}
    {solutions : List Space} {q : Queens} (hsize : q.size = n)
    (hposted : posted.map Prod.snd = constraints n) (hstore : root.store = board n)
    (hlists : root.Lists posted solutions) :
    ∃ placements : List (Fin n → Fin n), placements.Nodup ∧
      (∀ rows, rows ∈ placements ↔ Peaceful rows) ∧
        solutions.map q.format = placements.map line := by
  have hallows := fun a => (hlists.mem a).trans (allows_iff_peaceful hposted hstore)
  have : Nonempty (Fin n → Fin n) := ⟨id⟩
  have hexists : ∀ x ∈ solutions, ∃ rows : Fin n → Fin n, x.store.assignment = assignment rows := by
    intro x hx
    obtain ⟨rows, -, hrows⟩ := (hallows _).mp (List.mem_map_of_mem hx)
    exact ⟨rows, hrows⟩
  choose! rows hrows using hexists
  have hplacements : (solutions.map fun x => x.store.assignment) =
      (solutions.map rows).map assignment := by
    rw [List.map_map]
    exact List.map_congr_left hrows
  have hnodup := hlists.nodup
  rw [hplacements] at hnodup hallows
  refine ⟨solutions.map rows, hnodup.of_map, fun placement => ?_, ?_⟩
  · rw [← List.mem_map_of_injective assignment_injective, hallows]
    constructor
    · rintro ⟨rows', hpeaceful, heq⟩
      exact assignment_injective heq ▸ hpeaceful
    · exact fun hpeaceful => ⟨placement, hpeaceful, rfl⟩
  · rw [List.map_map]
    exact List.map_congr_left fun x hx => format_of_fixed hsize (hlists.fixed x hx) (hrows x hx)

end Queens

/-! ## Comments -/

namespace CommandLine

/-- The line starts with a percent sign. -/
def isComment (line : String) : Bool := line.toList.head? = some '%'

/-- The lines that are no comments. -/
def Output.answers (output : Output) : List String :=
  output.lines.filter fun line => !isComment line

theorem isComment_message (text : String) : isComment (message text) = true := by
  simp [isComment, message]

theorem isComment_line {n : Nat} (rows : Fin n → Fin n) :
    isComment (Queens.line rows) = false := by
  simp [isComment, Queens.line]

theorem isComment_ending (found : Found) (solutions : Nat) :
    ∀ line ∈ ending found solutions, isComment line = false := by
  have hlast : isComment unsatisfiable = false ∧ isComment complete = false ∧
      isComment unknown = false := by decide +kernel
  obtain ⟨hunsatisfiable, hcomplete, hunknown⟩ := hlast
  intro line hline
  cases found with
  | solution x => simp [ending] at hline
  | unfinished => simp [ending] at hline
  | exhausted =>
      simp only [ending, List.mem_singleton] at hline
      split at hline <;> simp [hline, hunsatisfiable, hcomplete]
  | limitReached =>
      simp only [ending] at hline
      split at hline
      · simp [List.mem_singleton.mp hline, hunknown]
      · simp at hline

/-! ## Statistics are comments -/

/-- A text without a line break is one line. -/
theorem Lines.ofText_eq {text : String} (hplain : '\n' ∉ text.toList) :
    Lines.ofText text = [text] := by
  have hcut : ∀ chars line : List Char, '\n' ∉ chars →
      Lines.cut line chars = [line.reverse ++ chars] := by
    intro chars
    induction chars with
    | nil => simp [Lines.cut]
    | cons c rest ih =>
        intro line hplain
        obtain ⟨hc, hrest⟩ := not_or.mp fun h => hplain (List.mem_cons.mpr h)
        rw [Lines.cut, if_neg (Ne.symm hc), ih _ hrest]
        simp
  rw [Lines.ofText, hcut _ _ hplain]
  simp

theorem break_notMem_toString (n : Nat) : '\n' ∉ (toString n).toList := by
  intro hmem
  rw [Nat.toString_eq_repr, Nat.repr_eq_ofList_toDigits, String.toList_ofList] at hmem
  have hdigit := Nat.isDigit_of_mem_toDigits (by decide) (by decide) hmem
  exact absurd hdigit (by decide)

/-- How the statistics of a search are written. -/
def searchStatistics : StatisticOptions :=
  { lead := "%%%stat:", closing := some "%%%stat-end", casing := some .camel, scopes := [.search] }

/-- The casing of plain text has no line break where the words of its letters have none. -/
theorem break_notMem_apply (casing : Casing) {text : String}
    (hplain : text.toList.all (fun c => c.toNat < 0x300 ∧ c ≠ '\n') = true)
    (hwords : '\n' ∉ (casing.delimiter.intercalate ((casing.letters
      (((Casing.cut none [] (text.toList.map ([·]))).map List.flatten).filter
        fun word => !word.isEmpty)).map String.ofList)).toList) :
    '\n' ∉ (casing.apply text).toList := by
  have hchars : ∀ c ∈ text.toList, c.toNat < 0x300 ∧ c ≠ '\n' := by simpa using hplain
  rwa [Casing.apply, Casing.words, Cluster.ofChars_of_plain hchars]

theorem break_notMem_entry (counts : SearchCounts) :
    ∀ entry ∈ counts.entries, '\n' ∉ (searchStatistics.entry
      (((StatisticLogger.ofScope .search).attach entry.1).statistic (toString entry.2))).toList := by
  have hcased : ∀ name ∈ ["num_nodes", "num_failures", "num_solutions", "num_clones",
      "num_recomputations", "peak_depth"], '\n' ∉ (Casing.camel.apply
        ("search" ++ "_" ++ ((StatisticLogger.ofScope .search).attach name).name)).toList := by
    simp only [List.forall_mem_cons]
    refine ⟨?_, ?_, ?_, ?_, ?_, ?_, by simp⟩ <;>
    · apply break_notMem_apply
      · decide +kernel
      · decide +kernel
  rintro ⟨name, value⟩ hentry
  have hname : name ∈ counts.entries.map Prod.fst := List.mem_map_of_mem hentry
  simp only [StatisticOptions.entry, searchStatistics, StatisticLogger.statistic,
    String.toList_append, List.mem_append, not_or]
  exact ⟨⟨⟨⟨by decide, by decide⟩, hcased name hname⟩, by decide⟩, break_notMem_toString value⟩

theorem isComment_of_mem_statistics (a : Arguments) (s : Search) :
    ∀ line ∈ a.writer.lines s.statistics ++ a.writer.closing, isComment line = true := by
  cases hlog : a.logStatistics with
  | false =>
      simp [Arguments.writer, hlog, StatisticWriter.unconfigured, StatisticWriter.lines,
        StatisticWriter.entry?, StatisticWriter.closing]
  | true =>
      have hwriter : a.writer = ⟨some searchStatistics⟩ := by
        rw [Arguments.writer, hlog]
        rfl
      intro line hline
      rw [hwriter] at hline
      rcases List.mem_append.mp hline with hcounter | hclosing
      · simp only [StatisticWriter.lines, List.mem_flatMap, List.mem_filterMap] at hcounter
        obtain ⟨text, ⟨statistic, hstatistic, htext⟩, hline⟩ := hcounter
        obtain ⟨entry, hentry, rfl⟩ := List.mem_map.mp hstatistic
        obtain rfl := Option.some.inj htext
        rw [Lines.ofText_eq (break_notMem_entry s.counts entry hentry)] at hline
        obtain rfl := List.mem_singleton.mp hline
        simp [isComment, StatisticOptions.entry, searchStatistics]
      · have hclosing' : line ∈ Lines.ofText "%%%stat-end" := hclosing
        rw [Lines.ofText_eq (by decide)] at hclosing'
        obtain rfl := List.mem_singleton.mp hclosing'
        decide

/-! ## Reports -/

theorem solutionCount_eq (reports : List (Report String)) :
    solutionCount reports = (Report.solutions reports).length := by
  induction reports with
  | nil => rfl
  | cons report rest ih =>
      rw [solutionCount] at ih ⊢
      cases report with
      | solution text => simp [ih]
      | happening h => simp [ih]

/-- Of the lines of the reports those of the solutions are no comments. -/
theorem filter_reportLine {reports : List (Report String)}
    (hplain : ∀ text ∈ Report.solutions reports, isComment text = false) :
    (reports.map reportLine).filter (fun line => !isComment line) = Report.solutions reports := by
  induction reports with
  | nil => rfl
  | cons report rest ih =>
      cases report with
      | solution text =>
          rw [Report.solutions_cons, List.forall_mem_cons] at hplain
          rw [Report.solutions_cons, List.map_cons, reportLine, List.filter_cons_of_pos,
            ih hplain.2]
          rw [hplain.1]
          rfl
      | happening h =>
          rw [List.map_cons, reportLine, List.filter_cons_of_neg]
          · exact ih hplain
          · rw [isComment_message]
            simp

end CommandLine

end ConstraintSpace
