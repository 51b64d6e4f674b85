import ConstraintSpace.Proofs.Queens.Output
import ConstraintSpace.Proofs.Search.Calm

/-!
# What the program prints

The model of the puzzle allows the peaceful placements, and there are fewer nodes below it
than the enumeration may explore.  So the program prints the lines of all peaceful
placements, or of the first of them, and says whether there is any.  Where it was asked
neither for messages nor for statistics it prints nothing else.
-/

namespace ConstraintSpace.CommandLine

theorem two_mul_le_of_propagators {n : Nat} (hsmall : 3 * n * (n - 1) / 2 < 2 ^ 32) :
    2 * (n : Int) ≤ highest32 := by
  have hbound : n ≤ 1000000 := by
    by_contra hlarge
    have hfactor : 3000000 * 1000000 ≤ 3 * n * (n - 1) := Nat.mul_le_mul (by omega) (by omega)
    omega
  show 2 * (n : Int) ≤ 2147483647
  omega

/-- The lines of the placements, as many as were asked for, and how the program ends. -/
def expected {n : Nat} (all : Bool) (placements : List (Fin n → Fin n)) : List String :=
  if all then
    placements.map Queens.line ++ [if placements.isEmpty then unsatisfiable else complete]
  else
    match placements with
    | [] => [unsatisfiable]
    | rows :: _ => [Queens.line rows]

/-- What the limit lets through, and how the search ends with it. -/
theorem expected_eq {n : Nat} {a : Arguments} {search : Search}
    (hoptions : search.options = a.searchOptions) (hcounts : search.counts.solutions = 0)
    (hsolutions : a.solutionLimit = none) (placements : List (Fin n → Fin n)) :
    search.allowed (placements.map Queens.line) ++
        ending (search.verdict placements.length)
          (search.allowed (placements.map Queens.line)).length =
      expected a.allSolutions placements := by
  have hlimit : search.options.solutionLimit = if a.allSolutions then none else some 1 := by
    rw [hoptions, Arguments.searchOptions, hsolutions, Option.isSome_none, Bool.or_false]
  unfold Search.allowed Search.verdict
  rw [hlimit, hcounts]
  cases a.allSolutions with
  | true => cases placements <;> simp [expected, Search.reached, ending]
  | false => cases placements <;> simp [expected, Search.reached, ending]

/-- Where the enumeration ends in good order, so does the program. -/
theorem solve_of_enumerate {a : Arguments} {q : Queens} {search t : Search}
    {reports : List (Report String)} {found : Found}
    (hcreate : Queens.create a.size ⟨a.selector, a.value, a.seed⟩ = .ok q)
    (hsearch : Search.create q.space.clone a.searchOptions = .ok search)
    (henumerate : search.enumerate q.format q.enoughNodes q.enoughNodes = (reports, .ok found, t)) :
    solve a =
      { exit := 0
        lines :=
          reports.map reportLine ++ ending found (solutionCount reports) ++
            a.writer.lines t.statistics ++ a.writer.closing } := by
  simp only [solve, hcreate, hsearch, henumerate]

/-- The answers are the solutions that were reported, and how the search ended. -/
theorem answers_of_reports {reports : List (Report String)}
    (hplain : ∀ text ∈ Report.solutions reports, isComment text = false) (found : Found)
    (a : Arguments) (s : Search) (exit : Nat) :
    Output.answers ⟨exit, reports.map reportLine ++ ending found (solutionCount reports) ++
        a.writer.lines s.statistics ++ a.writer.closing⟩ =
      Report.solutions reports ++ ending found (Report.solutions reports).length := by
  have hending : (ending found (solutionCount reports)).filter (fun line => !isComment line) =
      ending found (solutionCount reports) := by
    rw [List.filter_eq_self]
    intro line hline
    rw [isComment_ending found _ line hline]
    rfl
  have hcomments : (a.writer.lines s.statistics ++ a.writer.closing).filter
      (fun line => !isComment line) = [] := by
    rw [List.filter_eq_nil_iff]
    intro line hline
    rw [isComment_of_mem_statistics a s line hline]
    simp
  rw [Output.answers, List.append_assoc, List.filter_append, List.filter_append, hending,
    hcomments, filter_reportLine hplain, List.append_nil, solutionCount_eq]

/-- Without messages and statistics the answers are all lines. -/
theorem lines_of_quiet {a : Arguments} (hstatistics : a.logStatistics = false)
    {reports : List (Report String)} (hreports : reports = (Report.solutions reports).map .solution)
    (found : Found) (s : Search) :
    reports.map reportLine ++ ending found (solutionCount reports) ++
        a.writer.lines s.statistics ++ a.writer.closing =
      Report.solutions reports ++ ending found (Report.solutions reports).length := by
  have hlines : reports.map reportLine = Report.solutions reports := by
    conv_lhs => rw [hreports, List.map_map]
    exact List.map_id _
  have hwriter : a.writer = .unconfigured := by
    rw [Arguments.writer, hstatistics]
    rfl
  have hnone : StatisticWriter.unconfigured.lines s.statistics = [] := by
    simp [StatisticWriter.lines, StatisticWriter.entry?, StatisticWriter.unconfigured]
  rw [hwriter, hnone, hlines, solutionCount_eq, List.append_nil]
  exact List.append_nil _

theorem keeps_of_quiet {a : Arguments} (hverbose : a.verbose = false) :
    ∀ h, a.searchOptions.keeps h = true → h.level? = some .warn := by
  intro h hkeeps
  simp only [Arguments.searchOptions, hverbose, hears] at hkeeps
  split at hkeeps
  next hlevel => exact hlevel
  next => simp at hkeeps
  next => simp at hkeeps

/-- The program solves the puzzle with what its search finds. -/
theorem exists_solve {a : Arguments} (hpos : 1 ≤ a.size)
    (hsmall : 3 * a.size * (a.size - 1) / 2 < 2 ^ 32) (hdistance : 1 ≤ a.copyDistance)
    (hsolutions : a.solutionLimit = none) (hnodes : a.nodeLimit = none) :
    ∃ placements : List (Fin a.size → Fin a.size), placements.Nodup ∧
      (∀ rows, rows ∈ placements ↔ Queens.Peaceful rows) ∧
        (solve a).exit = 0 ∧ (solve a).answers = expected a.allSolutions placements ∧
          (a.verbose = false → a.logStatistics = false →
            (solve a).lines = expected a.allSolutions placements) := by
  obtain ⟨posted, space, hcreate, hposed, hposted, hstore⟩ :=
    Queens.exists_create ⟨a.selector, a.value, a.seed⟩ hpos (two_mul_le_of_propagators hsmall)
  let q : Queens := ⟨space, a.size⟩
  have hposed' : space.clone.Posed posted := hposed.clone
  have hstore' : space.clone.store = Queens.board a.size :=
    (Space.alike_clone hposed.ok).store.trans hstore
  have henough : 2 ^ (space.clone.store.measure + 1) ≤ q.enoughNodes := by
    rw [hstore', Queens.measure_board, Queens.enoughNodes, Nat.one_shiftLeft]
  obtain ⟨hlists, hfinite⟩ := Node.survey_lists hposed' henough
  obtain ⟨placements, hnodup, hpeaceful, hlines⟩ :=
    Queens.exists_placements (q := q) rfl hposted hstore' hlists
  have hfewer := (List.length_filterMap_le Node.solution? _).trans_lt hfinite
  have hpending := Search.pending_start space.clone a.searchOptions
  obtain ⟨reports, t, henumerate, hreports⟩ := hpending.enumerate hposed'.built.kernel hnodes
    hfinite (le_refl _) hfewer fun _ _ => q.format_of_alike
  have hlength : ((Node.survey q.enoughNodes [⟨0, space.clone⟩]).filterMap
      Node.solution?).length = placements.length := by
    simpa using congrArg List.length hlines
  rw [hlines] at hreports
  rw [hlength] at henumerate
  have hplain : ∀ text ∈ Report.solutions reports, isComment text = false := by
    intro text htext
    rw [hreports] at htext
    obtain ⟨rows, -, rfl⟩ := List.mem_map.mp (Search.mem_of_mem_allowed htext)
    exact isComment_line rows
  have hsolve := solve_of_enumerate hcreate (Search.create_eq_start _ hdistance) henumerate
  have hexpected : Report.solutions reports ++
      ending ((Search.start space.clone a.searchOptions).verdict placements.length)
        (Report.solutions reports).length = expected a.allSolutions placements := by
    rw [hreports]
    exact expected_eq rfl rfl hsolutions placements
  refine ⟨placements, hnodup, hpeaceful, congrArg Output.exit hsolve, ?_, fun hverbose hlog => ?_⟩
  · rw [hsolve, answers_of_reports hplain, hexpected]
  · have hroot : space.clone.Calm :=
      Space.calm_clone fun j o hb => hposed.built.kernel.listed j _ hb
    have hcalm := Search.calm_start hroot (keeps_of_quiet hverbose)
    rw [hsolve, ← hexpected]
    exact lines_of_quiet hlog (hcalm.enumerate henumerate) _ t

/-- On words that ask for a board, and set no limits, the program prints the line of every
peaceful placement, or of one of them, and says where there is none.  All other lines are
comments, and there are none without messages and statistics. -/
theorem run_prints_placements {words : List String} {a : Arguments} (hread : read words = some a)
    (hpos : 1 ≤ a.size) (hsmall : 3 * a.size * (a.size - 1) / 2 < 2 ^ 32)
    (hdistance : 1 ≤ a.copyDistance) (hsolutions : a.solutionLimit = none)
    (hnodes : a.nodeLimit = none) :
    ∃ placements : List (Fin a.size → Fin a.size), placements.Nodup ∧
      (∀ rows, rows ∈ placements ↔ Queens.Peaceful rows) ∧
        (run words).exit = 0 ∧ (run words).answers = expected a.allSolutions placements ∧
          (a.verbose = false → a.logStatistics = false →
            (run words).lines = expected a.allSolutions placements) := by
  obtain ⟨placements, hnodup, hpeaceful, hexit, hanswers, hlines⟩ :=
    exists_solve hpos hsmall hdistance hsolutions hnodes
  refine ⟨placements, hnodup, hpeaceful, ?_, ?_, fun hverbose hlog => ?_⟩
  · simp only [run, hread]
    exact hexit
  · rw [← hanswers]
    simp only [run, hread, Output.answers, List.filter_append]
    split <;> simp [isComment_message]
  · rw [← hlines hverbose hlog]
    simp only [run, hread, hverbose, Bool.false_eq_true, if_false, List.nil_append]

/-- On four columns the queens find a place, on three they do not. -/
theorem lines_of_small_boards :
    "queens = [1, 3, 0, 2];" ∈ (run ["--size", "4", "-a", "-v"]).answers ∧
      (run ["--size", "3"]).lines = [unsatisfiable] := by
  constructor
  · have hread : read ["--size", "4", "-a", "-v"] =
        some { Arguments.standard with size := 4, allSolutions := true, verbose := true } := rfl
    obtain ⟨placements, -, hpeaceful, -, hanswers, -⟩ :=
      run_prints_placements hread (by decide) (by decide) (by decide) rfl rfl
    have hmem : (![1, 3, 0, 2] : Fin 4 → Fin 4) ∈ placements := (hpeaceful _).mpr (by decide)
    rw [hanswers]
    exact List.mem_append_left _ (List.mem_map_of_mem hmem)
  · have hread : read ["--size", "3"] = some { Arguments.standard with size := 3 } := rfl
    obtain ⟨placements, -, hpeaceful, -, -, hlines⟩ :=
      run_prints_placements hread (by decide) (by decide) (by decide) rfl rfl
    have hnone : ∀ rows : Fin 3 → Fin 3, ¬Queens.Peaceful rows := by decide
    obtain rfl : placements = [] :=
      List.eq_nil_iff_forall_not_mem.mpr fun rows hrows => hnone rows ((hpeaceful rows).mp hrows)
    rw [hlines rfl rfl]
    rfl

end ConstraintSpace.CommandLine
