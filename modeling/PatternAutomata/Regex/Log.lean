import PatternAutomata.Pattern.Tree.Text
import PatternAutomata.Regex.Basic

/-!
# What a compilation reports

Model of what `build` (at the top level) and `build_dfa` with `subset` (in `dfa`) write to the log.
`subset` writes down each subset with its index when it creates it, which is what an `Exploration`
reports.

`Log.ofPattern` lists the records of a compilation in the order in which they arise: the tree, the
automaton, the sets of the subset construction and the intervals that it tells apart, a summary and
the deterministic automaton. A compilation that fails leaves the records made until then.

Out of scope: the log itself, apart from the choice of a level.
-/

namespace PatternAutomata

/-- How detailed a record is. -/
inductive LogLevel
  | debug
  | trace
deriving DecidableEq

/-- Which part of a compilation made a record. -/
inductive LogSource
  | compilation
  | subsetConstruction
deriving DecidableEq

/-- Which records are kept. -/
inductive Verbosity
  | off
  | debug
  | trace
deriving DecidableEq

/-- Whether records of the given level are kept. -/
def Verbosity.keeps : Verbosity → LogLevel → Bool
  | .off, _ => false
  | .debug, level => level = .debug
  | .trace, _ => true

structure LogRecord where
  level : LogLevel
  source : LogSource
  message : String
deriving DecidableEq

namespace LogRecord

/-- A list of numbers as a set of states. -/
def stateSet (s : StateSet) : String :=
  "\x7b" ++ ", ".intercalate (s.toList.map fun i => s!"StateId({i})") ++ "\x7d"

/-- An interval as the pair of its bounds. -/
def bounds (i : Interval) : String :=
  "(" ++ Text.quotedChar i.lo ++ ", " ++ Text.quotedChar i.hi ++ ")"

/-- The tree of a pattern. -/
def tree (pattern : String) (t : Tree) : LogRecord :=
  ⟨.trace, .compilation, "syntax tree of " ++ Text.quotedString pattern ++ ":\n" ++ t.dot⟩

/-- The automaton of a pattern, before it is made deterministic. -/
def nfa (pattern : String) (a : Automaton) : LogRecord :=
  ⟨.trace, .compilation, "NFA of " ++ Text.quotedString pattern ++ ":\n" ++ a.dot⟩

/-- The deterministic automaton of a pattern. -/
def dfa (pattern : String) (a : Automaton) : LogRecord :=
  ⟨.trace, .compilation, "DFA of " ++ Text.quotedString pattern ++ ":\n" ++ a.dot⟩

/-- A set that is created when there are `count` others. -/
def subset (a : Automaton) (count : Nat) (s : StateSet) : LogRecord :=
  ⟨.trace, .subsetConstruction,
    s!"subset {count} = {stateSet s} (accepting: {a.anyAccepting s})"⟩

/-- The intervals that the subset construction tells apart. -/
def symbols (is : List Interval) : LogRecord :=
  ⟨.trace, .subsetConstruction,
    s!"{is.length} symbols: [" ++ ", ".intercalate (is.map bounds) ++ "]"⟩

/-- The sizes of what was built. -/
def summary (pattern : String) (a d : Automaton) : LogRecord :=
  let labels := a.alphabet.filter fun l => !l.isEpsilon
  ⟨.debug, .compilation,
    "compiled " ++ Text.quotedString pattern ++
      s!": {a.size} NFA states, {labels.length} symbols, {d.size} DFA states"⟩

/-- The records of the sets that were reported, in the order in which they were created. The record
of the intervals comes after the first set, which is created before they are computed. -/
def subsets (a : Automaton) (reports : List (Nat × StateSet)) : List LogRecord :=
  match reports.map fun (count, s) => subset a count s with
  | [] => []
  | first :: rest => first :: symbols a.symbols :: rest

end LogRecord

namespace Log

/-- What is reported from the automaton on. -/
def ofAutomaton (limits : Limits) (pattern : String) (a : Automaton) : List LogRecord :=
  let found := a.subsets limits.states
  let d := a.ofSubsets found
  LogRecord.nfa pattern a :: LogRecord.subsets a found.reports.toList ++
    if found.refused then [] else [.summary pattern a d, .dfa pattern d]

/-- What is reported from the tree on. -/
def ofTree (limits : Limits) (pattern : String) (t : Tree) : List LogRecord :=
  LogRecord.tree pattern t ::
    match Automaton.ofTree? t with
    | .ok a => ofAutomaton limits pattern a
    | .error _ => []

/-- The records of compiling a pattern, as far as they are kept. -/
def ofPattern (v : Verbosity) (limits : Limits) (pattern : String) : List LogRecord :=
  let records :=
    match Tree.ofPattern limits pattern with
    | .ok t => ofTree limits pattern t
    | .error _ => []
  records.filter fun r => v.keeps r.level

end Log

end PatternAutomata
