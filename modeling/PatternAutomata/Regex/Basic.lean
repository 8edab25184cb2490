import PatternAutomata.Automaton.Dot
import PatternAutomata.Automaton.Fragment
import PatternAutomata.Automaton.Subset
import PatternAutomata.Expr.OfTree
import PatternAutomata.Pattern.Parsing

/-!
# Compiled patterns

Model of `compile`, `RegexBuilder`, `Regex` and `CompileError` (at the top level), and of the
default limits (in `parser` and `dfa`).
* `build` is `compile`, in stages: `Tree.ofPattern`, `Automaton.ofPattern` and
  `Automaton.deterministicOfPattern`.
* An error of the form `shape` is not one of the program, which stops where a tree has the wrong
  shape. No pattern has such a tree (`Proofs.ExactReading`).

`Regex.compile` goes from the text of a pattern to its tree, from there to an automaton that may
leave a choice, and from there to a deterministic one, which makes up the `Regex` together with the
pattern. `Limits` say how deep the groups of the pattern may be nested and how many states the
deterministic automaton may have.

Out of scope: the records of a compilation, which are in `Regex.Log`.
-/

namespace PatternAutomata

/-- Why a pattern is not compiled. -/
inductive CompileError
  /-- The pattern has no tree. -/
  | pattern (error : PatternError)
  /-- The tree is not that of a pattern. -/
  | shape (error : ShapeError)
  /-- The deterministic automaton would have more than `limit` states. -/
  | tooManyStates (limit : Nat)
deriving DecidableEq

namespace CompileError

/-- The place in the pattern, if the error has one. -/
def position? : CompileError → Option Nat
  | .pattern e => e.position?
  | .shape _ => none
  | .tooManyStates _ => none

/-- The error that this one reports, if there is one. -/
def cause? : CompileError → Option String
  | .pattern e => some e.detail
  | .shape e => some e.message
  | .tooManyStates _ => none

def message : CompileError → String
  | .pattern e => e.message
  | .shape e => "malformed tree: " ++ e.message
  | .tooManyStates limit => s!"pattern needs more than {limit} automaton states"

end CompileError

/-- How deep groups may be nested, and how many states a deterministic automaton may have. -/
structure Limits where
  nesting : Nat := 250
  states : Nat := 10000
deriving DecidableEq

/-- The limits if nothing else is asked for. -/
def Limits.default : Limits := {}

/-- The tree of a pattern. -/
def Tree.ofPattern (limits : Limits) (pattern : String) : Except CompileError Tree :=
  (Tree.parse limits.nesting pattern.toList).mapError .pattern

/-- The automaton of a tree, before it is made deterministic. -/
def Automaton.ofTree? (t : Tree) : Except ShapeError Automaton :=
  (Expr.ofTree? t).map Expr.toAutomaton

/-- The deterministic automaton for `a` within the limit. -/
def Automaton.determinize (a : Automaton) (limit : Nat) : Except CompileError Automaton :=
  match a.determinize? limit with
  | some d => .ok d
  | none => .error (.tooManyStates limit)

/-- The automaton of a pattern, before it is made deterministic. -/
def Automaton.ofPattern (limits : Limits) (pattern : String) : Except CompileError Automaton := do
  let t ← Tree.ofPattern limits pattern
  (Automaton.ofTree? t).mapError .shape

/-- The deterministic automaton of a pattern. -/
def Automaton.deterministicOfPattern (limits : Limits) (pattern : String) :
    Except CompileError Automaton := do
  let a ← Automaton.ofPattern limits pattern
  a.determinize limits.states

/-- A compiled pattern. -/
structure Regex where
  pattern : String
  automaton : Automaton
deriving DecidableEq

/-- The number of states of the automaton. -/
def Regex.stateCount (re : Regex) : Nat := re.automaton.size

/-- The automaton as a Graphviz graph. -/
def Regex.dot (re : Regex) : String := re.automaton.dot

/-- Compiles a pattern within limits. -/
def Regex.compile (pattern : String) (limits : Limits := .default) : Except CompileError Regex := do
  let d ← Automaton.deterministicOfPattern limits pattern
  return ⟨pattern, d⟩

end PatternAutomata
