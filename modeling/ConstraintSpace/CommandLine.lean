import ConstraintSpace.Queens
import ConstraintSpace.Statistics

/-!
# The command line

The program solves the queens puzzle.  Arguments that cannot be read end it with
exit code 2 and no output; an option that makes no sense ends it with exit code
1 and a message.  Messages start with a percent sign.
-/

namespace ConstraintSpace.CommandLine

structure Arguments where
  size : Nat
  copyDistance : Nat
  allSolutions : Bool
  solutionLimit : Option Nat
  nodeLimit : Option Nat
  selector : Selector
  value : ValueStrategy
  seed : Nat
  verbose : Bool
  logStatistics : Bool
  omitTimestamp : Bool
deriving DecidableEq, Repr

def Arguments.standard : Arguments :=
  { size := 8, copyDistance := 1, allSolutions := false, solutionLimit := none
    nodeLimit := none, selector := .firstFail, value := .standard, seed := 42
    verbose := false, logStatistics := false, omitTimestamp := false }

/-- A number of 64 bits, written in decimal digits after at most one plus sign. -/
def readNumber (text : String) : Option Nat :=
  let digits :=
    match text.toList with
    | '+' :: rest => rest
    | all => all
  if digits.isEmpty || !digits.all Char.isDigit then none
  else
    let n := digits.foldl (fun n c => 10 * n + (c.toNat - 48)) 0
    if n < Nat.pow 2 64 then some n else none

/-- Raises a flag; an unknown one is refused. -/
def setFlag (name : String) (a : Arguments) : Option Arguments :=
  match name with
  | "all-solutions" => some { a with allSolutions := true }
  | "verbose" => some { a with verbose := true }
  | "log-statistics" => some { a with logStatistics := true }
  | "omit-timestamp" => some { a with omitTimestamp := true }
  | _ => none

/-- The flag of a short name. -/
def shortFlag : Char → Option String
  | 'a' => some "all-solutions"
  | 'v' => some "verbose"
  | 's' => some "log-statistics"
  | _ => none

def valueOptions : List String :=
  ["size", "copy-distance", "solution-limit", "node-limit", "variable-selection",
    "value-selection", "random-seed"]

/-- Sets an option that takes a value; a value that cannot be read is refused. -/
def setValue (name value : String) (a : Arguments) : Option Arguments :=
  match name with
  | "size" => (readNumber value).map fun n => { a with size := n }
  | "copy-distance" => (readNumber value).map fun n => { a with copyDistance := n }
  | "solution-limit" => (readNumber value).map fun n => { a with solutionLimit := some n }
  | "node-limit" => (readNumber value).map fun n => { a with nodeLimit := some n }
  | "variable-selection" => (Selector.ofName? value).map fun s => { a with selector := s }
  | "value-selection" => (ValueStrategy.ofName? value).map fun v => { a with value := v }
  | "random-seed" => (readNumber value).map fun n => { a with seed := n }
  | _ => none

/-- A word of the command line, taken apart. -/
inductive Word where
  | long (name : String) (value : Option String)
  | short (flags : List Char)
  | stop
  | plain
deriving DecidableEq, Repr

/-- Splits at the first equals sign. -/
def splitValue (chars : List Char) : Word :=
  let name := String.ofList (chars.takeWhile (· ≠ '='))
  match chars.dropWhile (· ≠ '=') with
  | [] => .long name none
  | _ :: value => .long name (some (String.ofList value))

def Word.ofString (text : String) : Word :=
  match text.toList with
  | ['-', '-'] => .stop
  | '-' :: '-' :: rest => splitValue rest
  | '-' :: c :: rest => .short (c :: rest)
  | _ => .plain

/-- The arguments read so far, and the names that were given. -/
structure Reading where
  arguments : Arguments
  given : List String

namespace Reading

def start : Reading := { arguments := .standard, given := [] }

/-- An option is given at most once. -/
def accept (r : Reading) (name : String) (change : Arguments → Option Arguments) :
    Option Reading :=
  if r.given.contains name then none
  else (change r.arguments).map fun arguments => { arguments, given := name :: r.given }

def flags (r : Reading) : List Char → Option Reading
  | [] => some r
  | c :: rest => do
    let name ← shortFlag c
    let r ← r.accept name (setFlag name)
    flags r rest

def words (r : Reading) : List String → Option Reading
  | [] => some r
  | text :: rest =>
    match Word.ofString text with
    | .plain => none
    | .stop => if rest.isEmpty then some r else none
    | .short chars => do
      let r ← r.flags chars
      words r rest
    | .long name (some value) => do
      let r ← r.accept name (setValue name value)
      words r rest
    | .long name none =>
      if valueOptions.contains name then
        match rest with
        | [] => none
        | value :: rest => do
          let r ← r.accept name (setValue name value)
          words r rest
      else do
        let r ← r.accept name (setFlag name)
        words r rest

end Reading

def read (words : List String) : Option Arguments :=
  (Reading.start.words words).map Reading.arguments

/-! ### Running -/

/-- The exit code and the lines written. -/
structure Output where
  exit : Nat
  lines : List String
deriving DecidableEq, Repr

def message (text : String) : String := "% " ++ text

def unsatisfiable : String := "=====UNSATISFIABLE====="

def unknown : String := "=====UNKNOWN====="

def complete : String := "=========="

/-- Which happenings are worth a line. -/
def hears (verbose : Bool) (h : Happening) : Bool :=
  match h.level? with
  | some .warn => true
  | some .debug => verbose
  | _ => false

def Arguments.searchOptions (a : Arguments) : SearchOptions :=
  { copyDistance := a.copyDistance
    solutionLimit :=
      if a.allSolutions || a.solutionLimit.isSome then a.solutionLimit else some 1
    nodeLimit := a.nodeLimit
    keeps := hears a.verbose }

def Arguments.writer (a : Arguments) : StatisticWriter :=
  if a.logStatistics then
    StatisticWriter.unconfigured.configure
      { lead := "%%%stat:", closing := some "%%%stat-end", casing := some .camel
        scopes := [.search] }
  else .unconfigured

def failure (fault : SearchFault) : Output :=
  match fault with
  | .refused error =>
    { exit := 1, lines := [message ("Execution failed, error: " ++ error.message)] }
  | .breached _ => { exit := 101, lines := [] }

def reportLine : Report String → String
  | .happening h => message h.text
  | .solution text => text

def solutionCount (reports : List (Report String)) : Nat :=
  reports.countP fun
    | .solution _ => true
    | .happening _ => false

/-- The line that says how the search ended. -/
def ending (found : Found) (solutions : Nat) : List String :=
  match found with
  | .exhausted => [if solutions = 0 then unsatisfiable else complete]
  | .limitReached => if solutions = 0 then [unknown] else []
  | .solution _ => []
  | .unfinished => []

def solve (a : Arguments) : Output :=
  match Queens.create a.size { selector := a.selector, value := a.value, seed := a.seed } with
  | .error fault => failure fault
  | .ok queens =>
    match Search.create queens.space.clone a.searchOptions with
    | .error error => failure (.refused error)
    | .ok search =>
      let nodes := queens.enoughNodes
      match Search.enumerate queens.format nodes nodes search with
      | (reports, .error fault, _) =>
        let stop := failure fault
        { stop with lines := reports.map reportLine ++ stop.lines }
      | (reports, .ok found, search) =>
        { exit := 0
          lines :=
            reports.map reportLine ++ ending found (solutionCount reports) ++
              a.writer.lines search.statistics ++ a.writer.closing }

/-- The program, on the words after its name. -/
def run (words : List String) : Output :=
  match read words with
  | none => { exit := 2, lines := [] }
  | some a =>
    let greeting := if a.verbose then [message "Logging successfully configured"] else []
    let output := solve a
    { output with lines := greeting ++ output.lines }

end ConstraintSpace.CommandLine
