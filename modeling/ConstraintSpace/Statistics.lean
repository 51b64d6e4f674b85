import ConstraintSpace.Search
import ConstraintSpace.Text.Casing
import ConstraintSpace.Text.Lines
import ConstraintSpace.Text.Quoted

/-!
# Statistics

Counters are written as `name=value`, each on a line, where the name starts with
the scope it belongs to.  The options of the writer give the lead of each, the
casing of names, the scopes to write, and a closing text.  The first
configuration of a writer stays.
-/

namespace ConstraintSpace

inductive Scope where
  | space
  | propagator
  | search
deriving DecidableEq, Repr

namespace Scope

def all : List Scope := [space, propagator, search]

def name : Scope → String
  | space => "space"
  | propagator => "propagator"
  | search => "search"

def title : Scope → String
  | space => "Space"
  | propagator => "Propagator"
  | search => "Search"

def ofName? (text : String) : Option Scope := all.find? (·.name = text)

end Scope

structure Statistic where
  scope : Scope
  name : String
  value : String
deriving DecidableEq, Repr

/-- A scope and the parts of a name attached so far. -/
structure StatisticLogger where
  scope : Scope
  name : String
deriving DecidableEq, Repr

namespace StatisticLogger

def ofScope (scope : Scope) : StatisticLogger := { scope, name := "" }

def attach (logger : StatisticLogger) (part : String) : StatisticLogger :=
  { logger with
    name := if logger.name.isEmpty then part else logger.name ++ "_" ++ part }

def statistic (logger : StatisticLogger) (value : String) : Statistic :=
  { scope := logger.scope, name := logger.name, value }

/-- An integer is written in pieces: the sign of a negative one on its own. -/
def integer (logger : StatisticLogger) (n : Int) : List Statistic :=
  if n < 0 then [logger.statistic "-", logger.statistic (toString (-n))]
  else [logger.statistic (toString n)]

/-- One statistic for every counter. -/
def counters (logger : StatisticLogger) (entries : List (String × Nat)) : List Statistic :=
  entries.map fun (name, value) => (logger.attach name).statistic (toString value)

end StatisticLogger

structure StatisticOptions where
  lead : String
  closing : Option String
  casing : Option Casing
  scopes : List Scope
deriving DecidableEq, Repr

namespace StatisticOptions

def entry (options : StatisticOptions) (statistic : Statistic) : String :=
  let name := statistic.scope.name ++ "_" ++ statistic.name
  let name :=
    match options.casing with
    | some casing => casing.apply name
    | none => name
  options.lead ++ " " ++ name ++ "=" ++ statistic.value

def optionText : Option String → String
  | some text => "Some(" ++ text ++ ")"
  | none => "None"

/-- The scopes in the order of their declaration. -/
def scopesText (scopes : List Scope) : String :=
  "EnumSet(" ++ " | ".intercalate ((Scope.all.filter scopes.contains).map Scope.title) ++ ")"

def text (options : StatisticOptions) : String :=
  "StatisticOptions \x7b prefix: " ++ Quoted.encode options.lead ++
    ", postfix: " ++ optionText (options.closing.map Quoted.encode) ++
    ", casing: " ++ optionText (options.casing.map Casing.name) ++
    ", scopes: " ++ scopesText options.scopes ++
    ", writer: \"<Writer>\" \x7d"

end StatisticOptions

/-- The writer of statistics, which writes nothing until it is configured. -/
structure StatisticWriter where
  options : Option StatisticOptions
deriving DecidableEq, Repr

namespace StatisticWriter

def unconfigured : StatisticWriter := { options := none }

def configure (w : StatisticWriter) (options : StatisticOptions) : StatisticWriter :=
  match w.options with
  | some _ => w
  | none => { options := some options }

def writes (w : StatisticWriter) (scope : Scope) : Bool :=
  match w.options with
  | some options => options.scopes.contains scope
  | none => false

/-- What is written for a statistic, where its scope is written. -/
def entry? (w : StatisticWriter) (statistic : Statistic) : Option String :=
  match w.options with
  | some options =>
    if options.scopes.contains statistic.scope then some (options.entry statistic) else none
  | none => none

/-- The lines for statistics; a name or value with a line break takes several. -/
def lines (w : StatisticWriter) (statistics : List Statistic) : List String :=
  (statistics.filterMap w.entry?).flatMap Lines.ofText

def closing (w : StatisticWriter) : List String :=
  match w.options with
  | some options => (options.closing.map Lines.ofText).getD []
  | none => []

end StatisticWriter

/-! ### Counters of the library -/

def SpaceCounts.entries (c : SpaceCounts) : List (String × Nat) :=
  [("num_propagations", c.propagations), ("num_failures", c.failures),
    ("num_subsumptions", c.subsumptions), ("num_commits", c.commits)]

def Propagator.entries : Propagator → List (String × Nat)
  | subset _ _ counts => [("num_included", counts.included), ("num_excluded", counts.excluded)]
  | scripted p => [("runs", p.runs)]
  | _ => []

def SearchCounts.entries (c : SearchCounts) : List (String × Nat) :=
  [("num_nodes", c.nodes), ("num_failures", c.failures), ("num_solutions", c.solutions),
    ("num_clones", c.clones), ("num_recomputations", c.recomputations),
    ("peak_depth", c.peakDepth)]

/-- The statistics of a space and of its propagators that are still there. -/
def Space.statistics (s : Space) : List Statistic :=
  (StatisticLogger.ofScope .space).counters s.counts.entries ++
    (List.range s.slots.size).flatMap fun id =>
      match s.propagator? id with
      | some p =>
        (((StatisticLogger.ofScope .propagator).attach p.name).attach
          (propagatorText id)).counters p.entries
      | none => []

def Search.statistics (s : Search) : List Statistic :=
  (StatisticLogger.ofScope .search).counters s.counts.entries

end ConstraintSpace
