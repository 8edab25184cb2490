import PatternAutomata.Automaton.Graph
import PatternAutomata.Expr

/-!
# Automata from expressions

Model of `NfaBuilder` (in `nfa`): its fragments, and the constructions in `regexp`, `quantified` and
`selector`.
* `selector` is `parallel`. The cases of `quantified` are `star`, `plus` and `optional`. In
  `regexp`, one more operand is `append`, and one more branch is `addBranch`.
* `build` is `toAutomaton`: it marks the two ends and calls `from_graph`.
* The builder adds states to one graph. Here every fragment counts its own, and the states of an
  operand that is added are moved behind those that there are. The numbers are therefore others than
  in the builder; the edges of each state and their order are the same, and `from_graph` gives new
  numbers anyway (`Proofs.BreadthFirst`).

A `Fragment` is a piece of an automaton with one way in and one way out. Each form of expression has
an operation on fragments: the states of the operands stay as they are, silent edges join them, and
only a choice and a star add states of their own. The edges of `plus` and `optional` therefore run
between the operand's own ends.

Out of scope: which fragment belongs to which node of a tree (`Expr.OfTree`).
-/

namespace PatternAutomata

/-- An edge with the state that it leaves. -/
structure Arc where
  source : Nat
  label : Label
  target : Nat
deriving DecidableEq

/-- States `0` to `size - 1`, the way in and the way out among them, and the edges between them. The
edges of one state are in the order in which they occur. -/
structure Fragment where
  size : Nat
  start : Nat
  stop : Nat
  arcs : Array Arc
deriving DecidableEq

namespace Fragment

/-- The edge from `i` to `j` along which nothing is read. -/
def silent (i j : Nat) : Arc := ⟨i, .epsilon, j⟩

/-- Two states with one edge for each label. -/
def parallel (labels : List Label) : Fragment :=
  ⟨2, 0, 1, (labels.map fun l => ⟨0, l, 1⟩).toArray⟩

/-- The arcs of a fragment whose states come after `k` others. -/
def shiftedArcs (k : Nat) (f : Fragment) : Array Arc :=
  f.arcs.map fun a => ⟨a.source + k, a.label, a.target + k⟩

/-- A fragment followed by another. -/
def append : Fragment → Fragment → Fragment
  | ⟨size, start, stop, arcs⟩, g =>
    ⟨size + g.size, start, g.stop + size,
      (arcs ++ g.shiftedArcs size).push (silent stop (g.start + size))⟩

/-- The ends of a choice without branches. -/
def hub : Fragment := ⟨2, 0, 1, #[]⟩

/-- A choice with one more branch. -/
def addBranch : Fragment → Fragment → Fragment
  | ⟨size, start, stop, arcs⟩, g =>
    ⟨size + g.size, start, stop,
      ((arcs ++ g.shiftedArcs size).push (silent start (g.start + size))).push
        (silent (g.stop + size) stop)⟩

/-- A fragment that can be passed again and again, or once, or not at all. -/
def star : Fragment → Fragment
  | ⟨size, start, stop, arcs⟩ =>
    ⟨size + 2, size, size + 1,
      (((arcs.push (silent stop start)).push (silent size start)).push
        (silent stop (size + 1))).push (silent size (size + 1))⟩

/-- A fragment that can be passed again and again. -/
def plus : Fragment → Fragment
  | ⟨size, start, stop, arcs⟩ => ⟨size, start, stop, arcs.push (silent stop start)⟩

/-- A fragment that can be bypassed. -/
def optional : Fragment → Fragment
  | ⟨size, start, stop, arcs⟩ => ⟨size, start, stop, arcs.push (silent start stop)⟩

/-- The edges of each state, in order. -/
def rows (f : Fragment) : Array (List Edge) :=
  f.arcs.foldr (fun a rows => rows.modify a.source (⟨a.label, a.target⟩ :: ·))
    (Array.replicate f.size [])

/-- The states of the fragment: the way in is the initial one, and the way out is accepting. -/
def toGraph (f : Fragment) : Graph :=
  f.rows.mapIdx fun i edges => ⟨edges, i == f.start, i == f.stop⟩

/-- The fragment as an automaton. -/
def toAutomaton (f : Fragment) : Automaton := .ofGraph f.toGraph f.start

end Fragment

namespace Expr

mutual

/-- The fragment of an expression. -/
def fragment : Expr → Fragment
  | .chars cls => .parallel cls.labels
  | .sequence first rest => appendAll (fragment first) rest
  | .choice branches => addBranches .hub branches
  | .star body => (fragment body).star
  | .plus body => (fragment body).plus
  | .optional body => (fragment body).optional

/-- A fragment followed by those of the given expressions. -/
def appendAll (f : Fragment) : List Expr → Fragment
  | [] => f
  | e :: rest => appendAll (f.append (fragment e)) rest

/-- A choice with the given expressions as further branches. -/
def addBranches (f : Fragment) : List Expr → Fragment
  | [] => f
  | e :: rest => addBranches (f.addBranch (fragment e)) rest

end

/-- The automaton of an expression. -/
def toAutomaton (e : Expr) : Automaton := e.fragment.toAutomaton

end Expr

end PatternAutomata
