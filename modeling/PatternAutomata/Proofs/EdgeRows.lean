import PatternAutomata.Proofs.JoinedRows
import PatternAutomata.Proofs.Renumbering

/-!
# The edges of a deterministic automaton

About the edges that `build_dfa` (in `dfa`) gives to one state.

What the subset construction makes of a set is a state whose edges are a joined row: each reads an
interval of characters, each ends before the next one begins, and one that begins right after
another leads elsewhere. So no two of them compete for a character, and none can be joined with the
next.

Results:
* `Joined.filter_contains_length`: at most one entry of a joined row holds a character;
* `Automaton.exists_joined_edges`: the edges of a state are a joined row;
* **`Automaton.exists_row_of_determinize`**: what this says of the edges one by one.
-/

namespace PatternAutomata

/-! ## Joined rows -/

section

variable {σ : Type} {row : List (Interval × σ)} {c : Char}

/-- Only characters that lead somewhere are held by an entry. -/
theorem filter_contains_eq_nil (h : ∀ y, ¬ LeadsTo row c y) :
    row.filter (fun p => p.1.contains c) = [] := by
  refine List.filter_eq_nil_iff.mpr fun p hp hc => ?_
  exact h p.2 ⟨p.1, hp, hc⟩

/-- At most one entry of a joined row holds a character. -/
theorem Joined.filter_contains_length :
    ∀ {row : List (Interval × σ)}, Joined row →
      (row.filter fun p => p.1.contains c).length ≤ 1
  | [], _ => Nat.zero_le 1
  | (i, x) :: row, h => by
    by_cases hc : i.contains c = true
    · -- what the first entry holds does not come after it
      have hrow : row.filter (fun p => p.1.contains c) = [] :=
        filter_contains_eq_nil fun y hy =>
          absurd (Interval.mem_iff.mp hc).2 (not_le.mpr (h.lt_of_leadsTo hy))
      rw [List.filter_cons, if_pos hc, hrow]
      exact le_refl 1
    · rw [List.filter_cons, if_neg hc]
      exact h.tail.filter_contains_length

end

/-! ## Edges -/

/-- The edge that reads a character of the interval. -/
def Edge.ofEntry (p : Interval × Nat) : Edge := ⟨.within p.1, p.2⟩

/-- The edges of the state read the intervals of the row, in order. No interval is empty, each ends
before the next one begins, and at most one edge reads a character. An edge that begins with the
very next character after another one leads to another state. -/
structure State.InIntervals (s : State) (row : List (Interval × Nat)) : Prop where
  edges_eq : s.edges = row.map Edge.ofEntry
  nonempty : ∀ p ∈ row, p.1.lo ≤ p.1.hi
  ascending : row.Pairwise fun p q => p.1.hi < q.1.lo
  one_edge : ∀ c, (s.edges.filter fun e => e.label.accepts c).length ≤ 1
  not_epsilon : ∀ e ∈ s.edges, e.label ≠ .epsilon
  target_ne : ∀ (n : Nat) (p q : Interval × Nat), row[n]? = some p → row[n + 1]? = some q →
    p.1.hi.succ? = some q.1.lo → p.2 ≠ q.2

/-- The edges of a joined row. -/
theorem Joined.inIntervals {s : State} {row : List (Interval × Nat)} (h : Joined row)
    (hs : s.edges = row.map Edge.ofEntry) : s.InIntervals row where
  edges_eq := hs
  nonempty := h.nonempty
  ascending := h.apart.imp fun hpq => hpq.1
  one_edge c := by
    rw [hs, List.filter_map, List.length_map]
    exact h.filter_contains_length
  not_epsilon e he := by
    rw [hs] at he
    obtain ⟨p, -, rfl⟩ := List.mem_map.mp he
    exact Label.noConfusion
  target_ne n p q hp hq hadj := by
    obtain ⟨hn, rfl⟩ := List.getElem?_eq_some_iff.mp hp
    obtain ⟨hn', rfl⟩ := List.getElem?_eq_some_iff.mp hq
    have hpq := List.pairwise_iff_getElem.mp h.apart n (n + 1) hn hn' (Nat.lt_succ_self n)
    exact hpq.2 (beq_iff_eq.mpr hadj)

namespace Automaton

variable {a d : Automaton} {limit : Nat} {s : State}

/-- The edges of a state of the new automaton are a joined row: that of the moves of its set, with
the numbers of the sets. -/
theorem exists_joined_edges (h : a.determinize limit = .ok d) (hs : s ∈ d.states) :
    ∃ row : List (Interval × Nat), Joined row ∧ s.edges = row.map Edge.ofEntry := by
  obtain ⟨hf, rfl⟩ := determinize_eq_ok h
  have hend := a.ended_subsets limit
  obtain ⟨n, hn⟩ := Array.mem_iff_getElem?.mp hs
  obtain ⟨x, hx⟩ := exists_node_of_lt (Array.getElem?_eq_some_iff.mp hn).1
  have hstate := getElem?_states_of_node .within a.anyAccepting hend hf hx
  rw [← ofSubsets_eq, hn] at hstate
  cases hstate
  have hmem : ∀ p ∈ a.moveAll a.symbols x, p.2 ∈ (a.subsets limit).nodes := fun p =>
    mem_nodes_of_successor hend hf (Array.mem_of_getElem? hx)
  refine ⟨(a.moveAll a.symbols x).map fun p => (p.1, (a.subsets limit).place p.2), ?_, ?_⟩
  · -- different sets have different numbers, so entries that lead to different sets stay apart
    exact (joined_moveAll a x).map fun p hp q hq hpq =>
      hend.toNumbered.place_injOn (hmem p hp) (hmem q hq) hpq
  · rw [List.map_map]
    rfl

/-- **The edges of a deterministic automaton**: those of each state read ascending intervals, no
character is read by two of them, and intervals that could be joined lead to different states. -/
theorem exists_row_of_determinize (h : a.determinize limit = .ok d) (hs : s ∈ d.states) :
    ∃ row, s.InIntervals row := by
  obtain ⟨row, hrow, hedges⟩ := exists_joined_edges h hs
  exact ⟨row, hrow.inIntervals hedges⟩

/-- Overlapping edges become one up to U+D7FF. The next character is U+E000, so the edge that begins
there adjoins it, and it leads to another state. -/
theorem exists_row_of_determinize_surrogates :
    ∃ a d s, a = ofGraph #[⟨[⟨.within ⟨'a', 'k'⟩, 1⟩, ⟨.within ⟨'b', '\uD7FF'⟩, 1⟩,
        ⟨.within ⟨'\uE000', lastChar⟩, 2⟩], false, false⟩, ⟨[], false, true⟩, ⟨[], false, true⟩] 0 ∧
      a.determinize 3 = .ok d ∧ s ∈ d.states ∧
      s = ⟨[⟨.within ⟨'a', '\uD7FF'⟩, 1⟩, ⟨.within ⟨'\uE000', lastChar⟩, 2⟩], true, false⟩ ∧
      '\uD7FF'.succ? = some '\uE000' ∧ ∃ row, s.InIntervals row := by
  refine ⟨_, ofRows [⟨[⟨.within ⟨'a', '\uD7FF'⟩, 1⟩, ⟨.within ⟨'\uE000', lastChar⟩, 2⟩],
    false⟩, ⟨[], true⟩, ⟨[], true⟩], _, rfl, ?eval, ?mem, rfl, by decide,
    exists_row_of_determinize ?eval ?mem⟩
  · exact determinize_of_some (by decide +kernel)
  · exact Array.mem_of_getElem? (i := 0) rfl

end Automaton

end PatternAutomata
