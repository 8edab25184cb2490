import PatternAutomata.Proofs.Runs

/-!
# Automata read off an exploration

About the states that `from_graph` (in `automaton`) and `build_dfa` (in `dfa`) write in the end.

The automaton of a graph and the automaton of the sets of states are both read off the table of an
exploration: a state for each numbered node, with an edge for each entry of its row. When no node
was refused, the edges of a state are those to the successors of its node.

Results:
* **`Automaton.arc_ofTable_iff`**: the edges of a numbered node lead to its successors;
* `Automaton.closed_ofTable`: all edges lead to states;
* `Automaton.accepting_ofTable`: a state is accepting iff its node is.
-/

namespace PatternAutomata.Automaton

variable {α σ : Type} [Ord σ]

/-- The automaton whose states are the numbered nodes. -/
def ofTable (label : α → Label) (accepting : σ → Bool) (e : Exploration α σ) : Automaton :=
  .ofRows (e.table.map fun p => (p.2.map fun q => ⟨label q.1, q.2⟩, accepting p.1))

variable {label : α → Label} {accept : σ → Bool} {e : Exploration α σ}
  {successors : σ → List (α × σ)} {cap n m : Nat} {roots : List σ} {x : σ}

theorem getElem?_states_ofTable (label : α → Label) (accept : σ → Bool) (e : Exploration α σ)
    (n : Nat) : (ofTable label accept e).states[n]? = e.table[n]?.map fun p =>
      ⟨p.2.map fun q => ⟨label q.1, q.2⟩, n == 0, accept p.1⟩ := by
  show (statesOfRows _)[n]? = _
  rw [getElem?_statesOfRows, List.getElem?_map, Option.map_map]
  rfl

/-- Each state is that of a node. -/
theorem exists_node_of_lt (h : n < (ofTable label accept e).size) : ∃ x, e.nodes[n]? = some x := by
  have hs := Array.getElem?_eq_getElem h
  rw [getElem?_states_ofTable] at hs
  obtain ⟨⟨x, row⟩, hp, -⟩ := Option.map_eq_some_iff.mp hs
  exact ⟨x, (Exploration.getElem?_table.mp hp).1⟩

/-- The state of a node. -/
theorem exists_state_ofTable (label : α → Label) (accept : σ → Bool)
    (h : e.Ended successors cap roots) (hf : e.refused = false) (hn : e.nodes[n]? = some x) :
    ∃ row, (ofTable label accept e).states[n]? =
        some ⟨row.map fun q => ⟨label q.1, q.2⟩, n == 0, accept x⟩ ∧
      List.Forall₂ e.Names row (successors x) := by
  obtain ⟨row, hrow, hnames⟩ := h.exists_row hf hn
  refine ⟨row, ?_, hnames⟩
  rw [getElem?_states_ofTable, Exploration.getElem?_table.mpr ⟨hn, hrow⟩]
  rfl

/-- **The edges of a node** lead to its successors. -/
theorem arc_ofTable_iff (h : e.Ended successors cap roots) (hf : e.refused = false)
    (hn : e.nodes[n]? = some x) {l : Label} :
    (ofTable label accept e).arc n l m ↔
      ∃ b y, l = label b ∧ (b, y) ∈ successors x ∧ e.nodes[m]? = some y := by
  obtain ⟨row, hstate, hnames⟩ := exists_state_ofTable label accept h hf hn
  have harc : (ofTable label accept e).arc n l m ↔ ∃ b, l = label b ∧ (b, m) ∈ row := by
    unfold arc
    rw [edges_of_getElem? hstate]
    simp only [List.mem_map, Edge.mk.injEq, Prod.exists]
    constructor
    · rintro ⟨b, m', hm, rfl, rfl⟩
      exact ⟨b, rfl, hm⟩
    · rintro ⟨b, rfl, hm⟩
      exact ⟨b, m, hm, rfl, rfl⟩
  rw [harc]
  constructor
  · rintro ⟨b, rfl, hb⟩
    obtain ⟨y, hy, hm⟩ := Exploration.exists_successor hnames hb
    exact ⟨b, y, rfl, hy, hm⟩
  · rintro ⟨b, y, rfl, hy, hm⟩
    obtain ⟨m', hm', hy'⟩ := Exploration.exists_number hnames hy
    rw [h.toNumbered.place_inj hm hy']
    exact ⟨b, rfl, hm'⟩

/-- The states are the numbered nodes. -/
theorem lt_size_ofTable_iff (h : e.Ended successors cap roots) (hf : e.refused = false) :
    n < (ofTable label accept e).size ↔ ∃ x, e.nodes[n]? = some x := by
  refine ⟨exists_node_of_lt, fun ⟨x, hx⟩ => ?_⟩
  obtain ⟨row, hstate, -⟩ := exists_state_ofTable label accept h hf hx
  exact (Array.getElem?_eq_some_iff.mp hstate).1

theorem closed_ofTable (h : e.Ended successors cap roots) (hf : e.refused = false) :
    (ofTable label accept e).Closed := by
  intro n l m ha
  obtain ⟨x, hx⟩ := exists_node_of_lt (arc_lt ha)
  obtain ⟨b, y, -, -, hy⟩ := (arc_ofTable_iff h hf hx).mp ha
  exact (lt_size_ofTable_iff h hf).mpr ⟨y, hy⟩

theorem accepting_ofTable (h : e.Ended successors cap roots) (hf : e.refused = false)
    (hn : e.nodes[n]? = some x) : (ofTable label accept e).accepting n = accept x := by
  obtain ⟨row, hstate, -⟩ := exists_state_ofTable label accept h hf hn
  unfold Automaton.accepting
  rw [hstate]
  rfl

end PatternAutomata.Automaton
