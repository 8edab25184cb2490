import PatternAutomata.Automaton.Basic
import PatternAutomata.Automaton.Partition

/-!
# The subset construction

Model of `build_dfa` with `subset` and `move_on` (in `dfa`).
* The list of subsets, their ids, the worklist and the limit are an `Exploration` with a cap.
* One turn of the loop over the symbols is `moveOn`. The loop holds an edge back until it knows that
  the next range leads elsewhere, which is `joinAdjacent`. It creates a subset for each symbol; here
  one is created for each joined interval, which gives the same subsets in the same order
  (`Proofs.SubsetOrder`).
* The states are numbered as they are created. `from_graph`, which comes last in `build_dfa`, is
  left out, as it changes nothing there (`Proofs.Renumbering`).

An automaton is made deterministic by taking sets of its states as states. The characters that its
labels accept are split into the intervals of `Label.partition`, a set of states has an edge for
each interval on which it can move, and edges that lead to the same set along adjacent intervals are
joined into one. The sets are found by an `Exploration` from the closure of the initial state, which
numbers them in the order in which they are met; it may number no more than a given limit.

Out of scope: the fields `merged`, which is the number of a subset, and `processed`, which is only
asserted.
-/

namespace PatternAutomata

/-- Joins a leading interval that leads to `x` with the adjacent ones that lead there as well, and
so on with the rest. -/
def joinFrom {σ : Type} [DecidableEq σ] (i : Interval) (x : σ) :
    List (Interval × σ) → List (Interval × σ)
  | [] => [(i, x)]
  | (j, y) :: rest =>
    if x = y ∧ i.adjoins j then joinFrom ⟨i.lo, j.hi⟩ x rest else (i, x) :: joinFrom j y rest

/-- Joins adjacent intervals that lead to the same place. -/
def joinAdjacent {σ : Type} [DecidableEq σ] : List (Interval × σ) → List (Interval × σ)
  | [] => []
  | (i, x) :: rest => joinFrom i x rest

namespace Automaton

/-- The intervals of characters that no edge tells apart. -/
def symbols (a : Automaton) : List Interval := Label.partition a.alphabet

/-- The set to which `s` moves when a character of `i` is read, if it moves at all. All characters
of `i` are alike, so the first is looked at. -/
def moveOn (a : Automaton) (s : StateSet) (i : Interval) : Option (Interval × StateSet) :=
  match a.moves s i.lo with
  | [] => none
  | targets => some (i, a.closure targets)

/-- The sets to which `s` moves, each with the characters that lead there. -/
def moveAll (a : Automaton) (symbols : List Interval) (s : StateSet) :
    List (Interval × StateSet) :=
  joinAdjacent (symbols.filterMap (a.moveOn s))

/-- The sets of states that are met from the initial state on, at most `limit` of them. -/
def subsets (a : Automaton) (limit : Nat) : Exploration Interval StateSet :=
  let symbols := a.symbols
  .explore (a.moveAll symbols) limit [a.closure [initial]]

/-- The automaton whose states are the numbered sets. -/
def ofSubsets (a : Automaton) (found : Exploration Interval StateSet) : Automaton :=
  .ofRows (found.table.map fun (s, row) =>
    (row.map fun (i, target) => ⟨.within i, target⟩, a.anyAccepting s))

/-- The deterministic automaton that accepts the same texts, or none if it would have more than
`limit` states. -/
def determinize? (a : Automaton) (limit : Nat) : Option Automaton :=
  let found := a.subsets limit
  if found.refused then none else some (a.ofSubsets found)

end Automaton

end PatternAutomata
