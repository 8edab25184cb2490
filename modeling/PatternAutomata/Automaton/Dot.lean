import PatternAutomata.Automaton.Basic

/-!
# Drawings of automata

Model of `to_dot` for an automaton (in `dot`).

`Automaton.dot` draws an automaton as a directed Graphviz graph: a line for each state, which says
whether it is the initial one and whether it is accepting, followed by a line for each of its edges.

Out of scope: how the text is drawn.
-/

namespace PatternAutomata.Automaton

/-- What a drawing shows in state `i`. -/
def stateLabel (i : Nat) (s : State) : String :=
  toString i ++ (if s.initial then "-Start" else "") ++ if s.accepting then "-Accepted" else ""

/-- The line of an edge of state `i`. -/
def edgeLine (i : Nat) (e : Edge) : String := s!"  {i} -> {e.target} [label=\"{e.label.text}\"];\n"

/-- The lines of state `i`. -/
def stateLines (i : Nat) (s : State) : List String :=
  s!"  {i} [label=\"{stateLabel i s}\"];\n" :: s.edges.map (edgeLine i)

/-- The lines of the given states, the first of which has number `i`. -/
def linesFrom (i : Nat) : List State → List String
  | [] => []
  | s :: rest => stateLines i s ++ linesFrom (i + 1) rest

/-- The automaton as a Graphviz graph. -/
def dot (a : Automaton) : String :=
  String.join ("digraph fa \x7b\n" :: linesFrom 0 a.states.toList ++ ["\x7d\n"])

end PatternAutomata.Automaton
