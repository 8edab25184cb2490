import PatternAutomata.Automaton.Label
import PatternAutomata.Exploration

/-!
# Automata

Model of `Edge`, `State` and `Automaton` (in `automaton`).
* A `StateId` is a number. The mark of the initial state and the alphabet are stored, as they are
  there. `ofRows` is the end of `from_graph`, which sets the mark and collects the alphabet, and the
  two proofs in an `Automaton` say what was stored.
* `step` and `accepts` keep their names, `epsilon_closure` is `closure`, and `moves` is what a step
  of `accepts` and `move_on` (in `dfa`) collect.
* `closure` takes the states in the order of a queue and `epsilon_closure` in that of a stack; in
  the end it is the same set (`Proofs.Paths`). `accepts` stops early once no states are left, and
  `run` goes on with none.

An `Automaton` is a list of states, named by their place in it, of which the first is marked as the
initial one, together with the different labels of their edges. A state has its edges, in order, and
may be accepting. The same type serves automata whose edges leave a choice and those that are
deterministic.

A number that names no state is harmless: nothing leads on from there and it accepts nothing. Only
`closure` has to decide about it, and leaves it out.

Results:
* `Automaton.initial_iff`: the first state and no other is marked;
* `Automaton.ext_states`: automata with the same states are the same;
* `Automaton.run_append`: a text can be read in parts.

Out of scope: an index out of range, at which the program stops.
-/

namespace PatternAutomata

/-- A way from one state to another. -/
structure Edge where
  label : Label
  target : Nat
deriving DecidableEq

/-- The edges of a state, in order, whether it is the initial one, and whether a text may end
here. -/
structure State where
  edges : List Edge
  initial : Bool
  accepting : Bool
deriving DecidableEq

/-- The target of the first edge along which `c` can be read. -/
def State.step (s : State) (c : Char) : Option Nat :=
  (s.edges.find? fun e => e.label.accepts c).map Edge.target

/-- A set of states. -/
abbrev StateSet := Ascending Nat

/-- States of which the first and no other is marked as the initial one, and the different labels of
their edges, in the order in which they occur. -/
structure Automaton where
  states : Array State
  alphabet : List Label
  initial_eq : ∀ (i : Nat) (s : State), states[i]? = some s → s.initial = (i == 0)
  alphabet_eq : alphabet =
    Label.distinct (states.toList.flatMap fun s => s.edges.map Edge.label)
deriving DecidableEq

namespace Automaton

/-- The states with the given edges, the first of them the initial one. The other part of a row says
whether its state is accepting. -/
def statesOfRows (rows : List (List Edge × Bool)) : Array State :=
  rows.toArray.mapIdx fun i (edges, accepting) => ⟨edges, i == 0, accepting⟩

theorem getElem?_statesOfRows (rows : List (List Edge × Bool)) (i : Nat) :
    (statesOfRows rows)[i]? = rows[i]?.map fun r => ⟨r.1, i == 0, r.2⟩ := by
  rw [statesOfRows, Array.getElem?_mapIdx, List.getElem?_toArray]

theorem size_statesOfRows (rows : List (List Edge × Bool)) :
    (statesOfRows rows).size = rows.length := by
  rw [statesOfRows, Array.size_mapIdx, List.size_toArray]

/-- The edges are those of the rows. -/
theorem map_edges_statesOfRows (rows : List (List Edge × Bool)) :
    (statesOfRows rows).toList.map State.edges = rows.map Prod.fst := by
  refine List.ext_getElem? fun i => ?_
  rw [List.getElem?_map, Array.getElem?_toList, getElem?_statesOfRows, List.getElem?_map,
    Option.map_map]
  rfl

/-- Makes an automaton: marks the first state as the initial one and lists the labels. -/
def ofRows (rows : List (List Edge × Bool)) : Automaton where
  states := statesOfRows rows
  alphabet := Label.distinct (rows.flatMap fun r => r.1.map Edge.label)
  initial_eq i s hs := by
    rw [getElem?_statesOfRows] at hs
    obtain ⟨r, -, rfl⟩ := Option.map_eq_some_iff.mp hs
    rfl
  alphabet_eq := by
    have h := congrArg (List.flatMap (List.map Edge.label)) (map_edges_statesOfRows rows)
    rw [List.flatMap_map, List.flatMap_map] at h
    rw [h]

/-- The first state and no other is marked as the initial one. -/
theorem initial_iff (a : Automaton) {i : Nat} {s : State} (h : a.states[i]? = some s) :
    s.initial = true ↔ i = 0 := by
  rw [a.initial_eq i s h, beq_iff_eq]

/-- Automata with the same states are the same. -/
theorem ext_states {a b : Automaton} (h : a.states = b.states) : a = b := by
  obtain ⟨states, labels, hinitial, hlabels⟩ := a
  obtain ⟨states', labels', hinitial', hlabels'⟩ := b
  cases h
  cases hlabels
  cases hlabels'
  rfl

/-- The number of states. -/
def size (a : Automaton) : Nat := a.states.size

/-- The initial state. -/
def initial : Nat := 0

/-- The edges of the state with number `i`. -/
def edges (a : Automaton) (i : Nat) : List Edge := (a.states[i]?.map State.edges).getD []

/-- Whether the state with number `i` is accepting. -/
def accepting (a : Automaton) (i : Nat) : Bool := (a.states[i]?.map State.accepting).getD false

/-- The target of the first edge of state `i` along which `c` can be read. -/
def step (a : Automaton) (i : Nat) (c : Char) : Option Nat :=
  a.states[i]?.bind fun s => s.step c

/-- The targets of the edges of state `i` along which nothing is read. -/
def silentTargets (a : Automaton) (i : Nat) : List Nat :=
  ((a.edges i).filter fun e => e.label.isEpsilon && e.target < a.size).map Edge.target

/-- The states that can be reached from the given ones without reading anything, these included. -/
def closure (a : Automaton) (seeds : List Nat) : StateSet :=
  .ofList (Exploration.explore (fun i => (a.silentTargets i).map fun j => ((), j)) a.size
    (seeds.filter (· < a.size))).nodes.toList

/-- The targets of the edges of the given states along which `c` can be read. -/
def moves (a : Automaton) (s : StateSet) (c : Char) : List Nat :=
  s.toList.flatMap fun i => ((a.edges i).filter fun e => e.label.accepts c).map Edge.target

/-- The states in which a text that begins in one of `s` can end. -/
def run (a : Automaton) : StateSet → List Char → StateSet
  | s, [] => s
  | s, c :: text => a.run (a.closure (a.moves s c)) text

/-- Reading a text in two parts reads it. -/
theorem run_append (a : Automaton) (s : StateSet) (u v : List Char) :
    a.run s (u ++ v) = a.run (a.run s u) v := by
  induction u generalizing s with
  | nil => rfl
  | cons c u ih => exact ih _

/-- Whether one of the states is accepting. -/
def anyAccepting (a : Automaton) (s : StateSet) : Bool := s.toList.any a.accepting

/-- Whether some way from the initial state to an accepting one reads exactly `text`. -/
def accepts (a : Automaton) (text : List Char) : Bool :=
  a.anyAccepting (a.run (a.closure [initial]) text)

end Automaton

end PatternAutomata
