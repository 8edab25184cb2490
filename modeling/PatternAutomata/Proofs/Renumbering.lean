import PatternAutomata.Proofs.Correspondence
import PatternAutomata.Proofs.Graphs

/-!
# Automata that are numbered breadth first

About `from_graph` (in `automaton`) where `build_dfa` (in `dfa`) calls it.

Explorations in step number their nodes in the same order, so the automata that are read off them
are equal when the edges of corresponding nodes have the same labels. In particular an automaton
read off an exploration is numbered breadth first already: to number its states once more leaves
them as they are.

Results:
* `Automaton.ofTable_eq_of_inStep`: automata read off explorations in step are equal;
* **`Automaton.ofGraph_ofTable`**: numbering the states of an automaton that was read off an
  exploration gives the same automaton.
-/

namespace PatternAutomata

namespace Exploration

variable {α σ : Type} [Ord σ] {e : Exploration α σ} {cap i : Nat} {x : σ}

/-- The number of a node; zero if it has none. -/
def place (e : Exploration α σ) (x : σ) : Nat := e.index[x]?.getD 0

theorem Numbered.place_eq (h : e.Numbered cap) (hx : e.nodes[i]? = some x) : e.place x = i := by
  rw [place, (h.index_iff x i).mpr hx, Option.getD_some]

theorem Numbered.getElem?_place (h : e.Numbered cap) (hx : x ∈ e.nodes) :
    e.nodes[e.place x]? = some x := by
  obtain ⟨i, hi⟩ := Array.mem_iff_getElem?.mp hx
  rw [h.place_eq hi, hi]

/-- Different nodes have different numbers. -/
theorem Numbered.place_injOn (h : e.Numbered cap) {y : σ} (hx : x ∈ e.nodes) (hy : y ∈ e.nodes)
    (hxy : e.place x = e.place y) : x = y := by
  have hxi := h.getElem?_place hx
  rw [hxy, h.getElem?_place hy] at hxi
  exact Option.some.inj hxi.symm

end Exploration

namespace Automaton

open Exploration (Follows InStep)

variable {α β σ τ : Type} [Ord σ] [Ord τ] {label : α → Label} {accept : σ → Bool}
  {label' : β → Label} {accept' : τ → Bool} {e : Exploration α σ} {f : Exploration β τ}
  {successors : σ → List (α × σ)} {successors' : τ → List (β × τ)} {cap cap' n : Nat}
  {roots : List σ} {roots' : List τ} {x : σ} {φ : σ → τ}

/-- A row is its node's successors with their numbers. -/
theorem row_eq (h : e.Numbered cap) {row : List (α × Nat)} {ps : List (α × σ)}
    (hrow : List.Forall₂ e.Names row ps) : row = ps.map fun p => (p.1, e.place p.2) := by
  induction hrow with
  | nil => rfl
  | cons hn _ ih =>
    rw [List.map_cons, ← ih, h.place_eq hn.2, ← hn.1]

/-- **The state of a node**: its edges lead, in order, to the numbers of its successors. -/
theorem getElem?_states_of_node (label : α → Label) (accept : σ → Bool)
    (h : e.Ended successors cap roots) (hf : e.refused = false) (hn : e.nodes[n]? = some x) :
    (ofTable label accept e).states[n]? =
      some ⟨(successors x).map fun p => ⟨label p.1, e.place p.2⟩, n == 0, accept x⟩ := by
  obtain ⟨row, hstate, hnames⟩ := exists_state_ofTable label accept h hf hn
  rw [hstate, row_eq h.toNumbered hnames, List.map_map]
  rfl

/-- There is a state for each node and no other. -/
theorem size_ofTable (h : e.Ended successors cap roots) (hf : e.refused = false) :
    (ofTable label accept e).size = e.nodes.size := by
  show (statesOfRows _).size = _
  rw [size_statesOfRows, List.length_map, Exploration.table, List.length_zip, Array.length_toList,
    Array.length_toList, (h.complete hf).1, Nat.min_self]

theorem size_ofGraph {g : Graph} {start : Nat} (hs : start < g.size) :
    (ofGraph g start).size = (numbering g start).nodes.size := by
  rw [ofGraph_eq, size_ofTable (ended_numbering g start) (numbering_not_refused hs)]

theorem getElem?_states_eq_none (h : e.Ended successors cap roots) (hf : e.refused = false)
    (hn : e.nodes[n]? = none) : (ofTable label accept e).states[n]? = none := by
  rw [Array.getElem?_eq_none_iff] at hn ⊢
  exact (size_ofTable h hf).trans_le hn

/-- A successor of a numbered node is numbered. -/
theorem mem_nodes_of_successor (h : e.Ended successors cap roots) (hf : e.refused = false)
    (hx : x ∈ e.nodes) {p : α × σ} (hp : p ∈ successors x) : p.2 ∈ e.nodes :=
  (h.mem_iff hf).mpr ((h.reachable x hx).step hp)

/-- **Automata read off explorations in step** are equal, when corresponding nodes are accepting
alike and have successors with the same labels. -/
theorem ofTable_eq_of_inStep (he : e.Ended successors cap roots)
    (hf : f.Ended successors' cap' roots') (href : e.refused = false) (h : InStep φ e f)
    (hsucc : ∀ x ∈ e.nodes, (successors' (φ x)).map (fun p => (label' p.1, p.2)) =
      (successors x).map fun p => (label p.1, φ p.2))
    (haccept : ∀ x ∈ e.nodes, accept' (φ x) = accept x) :
    ofTable label' accept' f = ofTable label accept e := by
  have href' : f.refused = false := h.refused.trans href
  have hplace : ∀ y ∈ e.nodes, f.place (φ y) = e.place y := fun y hy => by
    refine hf.toNumbered.place_eq ?_
    rw [h.getElem?, he.toNumbered.getElem?_place hy]
    rfl
  refine ext_states (Array.ext_getElem? fun n => ?_)
  cases hn : e.nodes[n]? with
  | none =>
    have hn' : f.nodes[n]? = none := by rw [h.getElem?, hn]; rfl
    rw [getElem?_states_eq_none he href hn, getElem?_states_eq_none hf href' hn']
  | some x =>
    have hx := Array.mem_of_getElem? hn
    have hn' : f.nodes[n]? = some (φ x) := by rw [h.getElem?, hn]; rfl
    have hedges : (successors' (φ x)).map (fun p => Edge.mk (label' p.1) (f.place p.2)) =
        (successors x).map fun p => Edge.mk (label p.1) (e.place p.2) := by
      calc (successors' (φ x)).map (fun p => Edge.mk (label' p.1) (f.place p.2))
          = ((successors' (φ x)).map fun p => (label' p.1, p.2)).map
              fun q => Edge.mk q.1 (f.place q.2) := by rw [List.map_map]; rfl
        _ = (successors x).map fun p => Edge.mk (label p.1) (f.place (φ p.2)) := by
            rw [hsucc x hx, List.map_map]
            rfl
        _ = (successors x).map fun p => Edge.mk (label p.1) (e.place p.2) :=
            List.map_congr_left fun p hp => by
              rw [hplace p.2 (mem_nodes_of_successor he href hx hp)]
    rw [getElem?_states_of_node _ _ he href hn, getElem?_states_of_node _ _ hf href' hn', hedges,
      haccept x hx]

/-! ## Numbering a second time -/

/-- The successors of a state are the numbers of the successors of its node. -/
theorem successors_ofTable (h : e.Ended successors cap roots) (hf : e.refused = false)
    (hn : e.nodes[n]? = some x) :
    Graph.successors (ofTable label accept e).states n =
      (successors x).map fun p => (label p.1, e.place p.2) := by
  have hlt : ∀ p ∈ successors x, e.place p.2 < (ofTable label accept e).states.size := by
    intro p hp
    have hmem := mem_nodes_of_successor h hf (Array.mem_of_getElem? hn) hp
    rw [← size, size_ofTable h hf]
    exact (Array.getElem?_eq_some_iff.mp (h.toNumbered.getElem?_place hmem)).1
  unfold Graph.successors
  rw [getElem?_states_of_node _ _ h hf hn]
  show (((successors x).map fun p => Edge.mk (label p.1) (e.place p.2)).filter _).map _ = _
  rw [List.filter_eq_self.mpr, List.map_map]
  · rfl
  · intro edge hedge
    obtain ⟨p, hp, rfl⟩ := List.mem_map.mp hedge
    exact decide_eq_true (hlt p hp)

variable [Std.TransOrd σ] [Std.LawfulEqOrd σ] {r : σ}

/-- The first number goes to the root, when it is not refused. -/
theorem place_root (he : e = .explore successors cap [r]) (hf : e.refused = false) :
    e.place r = initial := by
  have h : e.Ended successors cap [r] := he ▸ Exploration.ended_explore successors cap [r]
  have hlt := (Array.getElem?_eq_some_iff.mp
    (h.toNumbered.getElem?_place ((h.complete hf).2 r List.mem_cons_self))).1
  have hcap : 0 < cap := Nat.lt_of_le_of_lt (Nat.zero_le _) (Nat.lt_of_lt_of_le hlt h.size_le)
  exact h.toNumbered.place_eq (he ▸ Exploration.nodes_explore_zero successors hcap r [])

/-- The states of an automaton that was read off an exploration are numbered in step with its
nodes. -/
theorem inStep_numbering_ofTable (label : α → Label) (accept : σ → Bool)
    (he : e = .explore successors cap [r]) (hf : e.refused = false) :
    InStep e.place e (numbering (ofTable label accept e).states initial) := by
  have h : e.Ended successors cap [r] := he ▸ Exploration.ended_explore successors cap [r]
  have hmem : ∀ x, Exploration.Reachable successors [r] x → x ∈ e.nodes := fun x =>
    (h.mem_iff hf).mpr
  have hsucc : ∀ x, Exploration.Reachable successors [r] x →
      Follows e.place ((successors x).map Prod.snd)
        ((Graph.successors (ofTable label accept e).states (e.place x)).map Prod.snd) := by
    intro x hx
    rw [successors_ofTable h hf (h.toNumbered.getElem?_place (hmem x hx))]
    exact Exploration.follows_relabel e.place label (successors x)
  have hsize : e.nodes.size ≤ (ofTable label accept e).states.size := (size_ofTable h hf).symm.le
  subst he
  have hstep := Exploration.explore_inStep
    (fun x y hx hy => h.toNumbered.place_injOn (hmem x hx) (hmem y hy)) hsucc hf hsize
  rwa [List.map_cons, List.map_nil, place_root rfl hf] at hstep

/-- **Numbered breadth first**: to number the states of an automaton that was read off an
exploration once more changes nothing. -/
theorem ofGraph_ofTable (label : α → Label) (accept : σ → Bool)
    (he : e = .explore successors cap [r]) (hf : e.refused = false) :
    ofGraph (ofTable label accept e).states initial = ofTable label accept e := by
  have h : e.Ended successors cap [r] := he ▸ Exploration.ended_explore successors cap [r]
  have hn := fun {x} (hx : x ∈ e.nodes) => h.toNumbered.getElem?_place hx
  rw [ofGraph_eq]
  refine ofTable_eq_of_inStep h (ended_numbering _ _) hf (inStep_numbering_ofTable _ _ he hf)
    (fun x hx => ?_) fun x hx => ?_
  · rw [successors_ofTable h hf (hn hx), List.map_map]
    rfl
  · exact accepting_ofTable h hf (hn hx)

end Automaton

end PatternAutomata
