import PatternAutomata.Automaton.Graph
import PatternAutomata.Proofs.Numbering

/-!
# Automata from graphs accept what the graphs read

About `from_graph` (in `automaton`): which texts its result accepts.

`Automaton.ofGraph` gives the states of a graph new numbers and drops those out of reach. Node by
node its arcs are those of the graph, so walks can be followed from one to the other.

Results:
* `Automaton.arc_ofGraph_iff`: the arcs of the automaton are the arcs between numbered states;
* **`Automaton.accepts_ofGraph_iff`**: a text is accepted iff some walk of the graph from the start
  state to an accepting one reads it.

Out of scope: which state gets which number (`Proofs.BreadthFirst`).
-/

namespace PatternAutomata

namespace Graph

variable {g : Graph} {i j : Nat} {l : Label}

/-- Some edge leads from the state `i` to the state `j`. -/
def arc (g : Graph) (i : Nat) (l : Label) (j : Nat) : Prop := (l, j) ∈ g.successors i

theorem arc_iff : g.arc i l j ↔ ∃ s, g[i]? = some s ∧ ⟨l, j⟩ ∈ s.edges ∧ j < g.size := by
  unfold arc successors
  cases h : g[i]? with
  | none => simp
  | some s =>
    simp only [List.mem_map, List.mem_filter, decide_eq_true_eq, Option.some.injEq,
      exists_eq_left', Prod.mk.injEq]
    constructor
    · rintro ⟨⟨l', t⟩, ⟨he, ht⟩, rfl, rfl⟩
      exact ⟨he, ht⟩
    · rintro ⟨he, hj⟩
      exact ⟨⟨l, j⟩, ⟨he, hj⟩, rfl, rfl⟩

theorem arc_lt (h : g.arc i l j) : j < g.size := by
  obtain ⟨-, -, -, hj⟩ := arc_iff.mp h
  exact hj

/-- The states in reach of a state are states. -/
theorem reachable_lt {start : Nat} (hs : start < g.size)
    (h : Exploration.Reachable g.successors [start] i) : i < g.size := by
  obtain ⟨r, hr, hri⟩ := h
  cases hri with
  | refl =>
    rw [List.mem_singleton.mp hr]
    exact hs
  | tail _ hstep =>
    obtain ⟨l, hl⟩ := hstep
    exact arc_lt hl

end Graph

namespace Automaton

variable {g : Graph} {start : Nat}

/-- The states of the graph in the order in which the automaton numbers them. -/
def numbering (g : Graph) (start : Nat) : Exploration Label Nat :=
  .explore g.successors g.size [start]

theorem numbering_not_refused (hs : start < g.size) : (numbering g start).refused = false :=
  Exploration.refused_explore_of_lt fun _ => Graph.reachable_lt hs

theorem numbering_zero (hs : start < g.size) : (numbering g start).nodes[0]? = some start :=
  Exploration.nodes_explore_zero g.successors (Nat.zero_lt_of_lt hs) start []

theorem ended_numbering (g : Graph) (start : Nat) :
    (numbering g start).Ended g.successors g.size [start] :=
  Exploration.ended_explore g.successors g.size [start]

theorem ofGraph_eq (g : Graph) (start : Nat) :
    ofGraph g start = ofTable id g.accepting (numbering g start) :=
  rfl

/-- The arcs of the automaton are the arcs between the numbered states. -/
theorem arc_ofGraph_iff (hs : start < g.size) {n i m : Nat} {l : Label}
    (hn : (numbering g start).nodes[n]? = some i) :
    (ofGraph g start).arc n l m ↔ ∃ j, g.arc i l j ∧ (numbering g start).nodes[m]? = some j := by
  rw [ofGraph_eq, arc_ofTable_iff (ended_numbering g start) (numbering_not_refused hs) hn]
  unfold Graph.arc
  simp

theorem accepting_ofGraph (hs : start < g.size) {n i : Nat}
    (hn : (numbering g start).nodes[n]? = some i) :
    (ofGraph g start).accepting n = g.accepting i := by
  rw [ofGraph_eq, accepting_ofTable (ended_numbering g start) (numbering_not_refused hs) hn]

/-- The states of the automaton are the numbered states. -/
theorem lt_size_ofGraph_iff (hs : start < g.size) {n : Nat} :
    n < (ofGraph g start).size ↔ ∃ i, (numbering g start).nodes[n]? = some i := by
  rw [ofGraph_eq, lt_size_ofTable_iff (ended_numbering g start) (numbering_not_refused hs)]

/-- Edges of the automaton lead to states. -/
theorem closed_ofGraph (hs : start < g.size) : (ofGraph g start).Closed := by
  rw [ofGraph_eq]
  exact closed_ofTable (ended_numbering g start) (numbering_not_refused hs)

/-- Walks of the graph from a numbered state can be followed in the automaton. -/
theorem exists_walk_ofGraph (hs : start < g.size) {n i j : Nat} {w : List Char}
    (hn : (numbering g start).nodes[n]? = some i) (hw : Walk g.arc i w j) :
    ∃ m, Walk (ofGraph g start).arc n w m ∧ (numbering g start).nodes[m]? = some j :=
  hw.transfer (ofGraph g start).arc (fun i n => (numbering g start).nodes[n]? = some i)
    (fun {i n l k} hn ha => by
      have hk : k ∈ (numbering g start).nodes := by
        have hi := (ended_numbering g start).reachable i (Array.mem_of_getElem? hn)
        exact ((ended_numbering g start).mem_iff (numbering_not_refused hs)).mpr (hi.step ha)
      obtain ⟨m, hm⟩ := Array.mem_iff_getElem?.mp hk
      exact ⟨m, (arc_ofGraph_iff hs hn).mpr ⟨k, ha, hm⟩, hm⟩) hn

/-- **An automaton from a graph** accepts what can be read from the start state of the graph to an
accepting one. -/
theorem accepts_ofGraph_iff (hs : start < g.size) (w : List Char) :
    (ofGraph g start).accepts w = true ↔
      ∃ j, Walk g.arc start w j ∧ g.accepting j = true := by
  rw [accepts_iff_walk]
  constructor
  · rintro ⟨m, hw, hacc⟩
    obtain ⟨j, hwj, hj⟩ := hw.transfer g.arc (fun n i => (numbering g start).nodes[n]? = some i)
      (fun hn ha => (arc_ofGraph_iff hs hn).mp ha) (numbering_zero hs)
    rw [accepting_ofGraph hs hj] at hacc
    exact ⟨j, hwj, hacc⟩
  · rintro ⟨j, hw, hacc⟩
    obtain ⟨m, hwm, hm⟩ := exists_walk_ofGraph hs (numbering_zero hs) hw
    rw [← accepting_ofGraph hs hm] at hacc
    exact ⟨m, hwm, hacc⟩

end Automaton

end PatternAutomata
