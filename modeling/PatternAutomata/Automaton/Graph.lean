import PatternAutomata.Automaton.Basic

/-!
# Automata from graphs

Model of `Graph` and `from_graph` (in `automaton`). The queue, the order and the new ids of the
states are an `Exploration`, and `ofRows` writes the states and the alphabet.

A `Graph` is a list of states in any order, some of them possibly out of reach. `Automaton.ofGraph`
keeps what can be reached from a start state and numbers it in the order of a breadth-first search,
so that graphs that differ only in the numbers of their states give the same automaton.

Out of scope: `add_state` and `connect`, by which a graph grows, and an edge whose target is no
state, at which the program stops and which is dropped here.
-/

namespace PatternAutomata

/-- States named by their place, none of them distinguished. -/
abbrev Graph := Array State

namespace Graph

/-- The edges of the state with number `i` that lead to a state. -/
def successors (g : Graph) (i : Nat) : List (Label × Nat) :=
  match g[i]? with
  | some s => (s.edges.filter fun e => e.target < g.size).map fun e => (e.label, e.target)
  | none => []

/-- Whether the state with number `i` is accepting. -/
def accepting (g : Graph) (i : Nat) : Bool := (g[i]?.map State.accepting).getD false

end Graph

/-- The part of `g` that can be reached from `start`, numbered breadth first. -/
def Automaton.ofGraph (g : Graph) (start : Nat) : Automaton :=
  let found := Exploration.explore g.successors g.size [start]
  .ofRows (found.table.map fun (i, row) =>
    (row.map fun (label, target) => ⟨label, target⟩, g.accepting i))

end PatternAutomata
