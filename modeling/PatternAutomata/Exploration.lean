import Std.Data.TreeMap

/-!
# Numbering what can be reached

Model of the worklists of `from_graph` and `epsilon_closure` (in `automaton`) and of `build_dfa`
with `subset` (in `dfa`).
* `nodes` is the list `order` in `from_graph`, the list `subsets` in `build_dfa` and the closure in
  `epsilon_closure`; `index` holds the ids; the nodes that have no row yet are the queue.
* `reports` is what `subset` writes to the log: the index that a subset gets, and the subset.
* `refused` stands for the error of `subset` when the limit is reached.

An `Exploration` numbers the nodes that can be reached from some roots along a successor function,
in the order of a breadth-first search: first the roots, then, node by node, the successors that
have no number yet. When a node gets a number, it is reported together with how many nodes had one
before. Each node that has been expanded has a row with the labels and the numbers of its
successors. At most `cap` nodes get a number; when one more is met, the exploration stops with
`refused` set, and keeps what it has numbered so far.

Closures of sets of states, the numbering of an automaton and the subset construction are all
explorations.

Out of scope: the order of a stack, which `epsilon_closure` follows (`Proofs.Paths`).
-/

namespace PatternAutomata

/-- The nodes numbered so far, in order; their numbers; what was reported of them; the rows of those
already expanded; and whether a node was refused a number. -/
structure Exploration (α σ : Type) [Ord σ] where
  nodes : Array σ
  index : Std.TreeMap σ Nat
  reports : Array (Nat × σ)
  rows : Array (List (α × Nat))
  refused : Bool

namespace Exploration

variable {α σ : Type} [Ord σ]

/-- Nothing is numbered. -/
def empty : Exploration α σ := ⟨#[], ∅, #[], #[], false⟩

/-- Gives the next free number to `x` and reports it. -/
def push (x : σ) : Exploration α σ → Exploration α σ
  | ⟨nodes, index, reports, rows, refused⟩ =>
    let i := nodes.size
    ⟨nodes.push x, index.insert x i, reports.push (i, x), rows, refused⟩

@[simp]
theorem nodes_push (e : Exploration α σ) (x : σ) : (e.push x).nodes = e.nodes.push x := rfl

/-- The number of `x`, which gets the next free one if it has none; no number if
`cap` nodes have one already. -/
def number (cap : Nat) (x : σ) : Exploration α σ → Exploration α σ × Option Nat
  | ⟨nodes, index, reports, rows, refused⟩ =>
    match index[x]? with
    | some i => (⟨nodes, index, reports, rows, refused⟩, some i)
    | none =>
      let i := nodes.size
      if i < cap then (push x ⟨nodes, index, reports, rows, refused⟩, some i)
      else (⟨nodes, index, reports, rows, true⟩, none)

/-- The numbers of the given successors, in order; none if one of them is refused. -/
def numberAll (cap : Nat) :
    List (α × σ) → Exploration α σ → Exploration α σ × Option (List (α × Nat))
  | [], e => (e, some [])
  | (a, x) :: rest, e =>
    match e.number cap x with
    | (e, none) => (e, none)
    | (e, some i) =>
      match numberAll cap rest e with
      | (e, none) => (e, none)
      | (e, some row) => (e, some ((a, i) :: row))

/-- Adds the row of the node that is expanded next. -/
def addRow (row : List (α × Nat)) : Exploration α σ → Exploration α σ
  | ⟨nodes, index, reports, rows, refused⟩ => ⟨nodes, index, reports, rows.push row, refused⟩

/-- Expands up to `fuel` numbered nodes. As `cap` nodes at most have a number, `cap` is fuel
enough. -/
def expand (successors : σ → List (α × σ)) (cap : Nat) :
    Nat → Exploration α σ → Exploration α σ
  | 0, e => e
  | fuel + 1, e =>
    match e.nodes[e.rows.size]? with
    | none => e
    | some x =>
      match numberAll cap (successors x) e with
      | (e, none) => e
      | (e, some row) => expand successors cap fuel (e.addRow row)

/-- Numbers what can be reached from `roots`, at most `cap` nodes. -/
def explore (successors : σ → List (α × σ)) (cap : Nat) (roots : List σ) : Exploration α σ :=
  go roots empty
where
  /-- Numbers the roots, then all the rest. -/
  go : List σ → Exploration α σ → Exploration α σ
    | [], e => expand successors cap cap e
    | x :: rest, e =>
      match e.number cap x with
      | (e, none) => e
      | (e, some _) => go rest e

/-- The nodes in the order of their numbers, each with its row. -/
def table (e : Exploration α σ) : List (σ × List (α × Nat)) := e.nodes.toList.zip e.rows.toList

end Exploration

end PatternAutomata
