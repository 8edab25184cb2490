import PatternAutomata.Proofs.Renumbering

/-!
# The part of a graph that an automaton keeps

About `from_graph` (in `automaton`): its numbers, its edges, the mark of the initial state and the
alphabet.

`Automaton.ofGraph` keeps the states in reach of the start. Their order is that of a breadth-first
search: go through the kept states one after the other and through the targets of each, and the
states stand in the order in which they are first met, the start before all others. The order gives
the numbers, so it is the start that is the initial state, and apart from its number a state is left
as it is.

None of this looks at the numbers that the states have in the graph. So graphs that differ only in
these numbers and in states out of reach have the same automaton.

Results:
* `Exploration.firstOccurrences_explore`: an exploration numbers its nodes in the order in which
  they are first met;
* `Automaton.presents_ofGraph`: the automaton of a graph presents the part in reach of the start;
* `Automaton.ofGraph_eq_of_renumbers`: new numbers make no difference;
* **`Automaton.ofGraph_spec`**: both of these.

Out of scope: an edge whose target is no state, at which `from_graph` stops the program.
-/

namespace PatternAutomata

/-! ## First occurrences -/

/-- The list `ys` has the members of `xs`, each once and in the order in which they first occur. -/
structure FirstOccurrences {α : Type} [BEq α] (ys xs : List α) : Prop where
  mem_iff : ∀ x, x ∈ ys ↔ x ∈ xs
  ordered : ys.Pairwise fun x y => xs.idxOf x < xs.idxOf y

namespace FirstOccurrences

variable {α : Type} [BEq α] {xs ys : List α} {x : α}

theorem nil : FirstOccurrences ([] : List α) [] := ⟨fun _ => Iff.rfl, .nil⟩

variable [LawfulBEq α]

/-- The members keep their order when the list goes on. -/
theorem ordered_append (h : FirstOccurrences ys xs) (zs : List α) :
    ys.Pairwise fun x y => (xs ++ zs).idxOf x < (xs ++ zs).idxOf y := by
  refine List.Pairwise.imp_of_mem (fun {y z} hy hz hlt => ?_) h.ordered
  rwa [List.idxOf_append_of_mem ((h.mem_iff y).mp hy),
    List.idxOf_append_of_mem ((h.mem_iff z).mp hz)]

/-- A member that occurs again makes no difference. -/
theorem again (h : FirstOccurrences ys xs) (hx : x ∈ xs) : FirstOccurrences ys (xs ++ [x]) where
  mem_iff y := by
    rw [List.mem_append, List.mem_singleton, h.mem_iff y, or_iff_left_of_imp]
    rintro rfl
    exact hx
  ordered := h.ordered_append [x]

/-- What occurs for the first time comes last. -/
theorem concat (h : FirstOccurrences ys xs) (hx : x ∉ xs) :
    FirstOccurrences (ys ++ [x]) (xs ++ [x]) where
  mem_iff y := by rw [List.mem_append, List.mem_append, h.mem_iff y]
  ordered := by
    refine List.pairwise_append.mpr
      ⟨h.ordered_append [x], List.pairwise_singleton _ x, fun y hy z hz => ?_⟩
    have hy := (h.mem_iff y).mp hy
    rw [List.mem_singleton.mp hz, List.idxOf_append_of_mem hy, List.idxOf_append_of_notMem hx]
    exact Nat.lt_add_right _ (List.idxOf_lt_length_of_mem hy)

theorem eraseDups (xs : List α) : FirstOccurrences xs.eraseDups xs := by
  induction xs using List.reverseRec with
  | nil => exact .nil
  | append_singleton xs x ih =>
    rw [List.eraseDups_append]
    by_cases hx : x ∈ xs
    · have hnone : ([x].removeAll xs).eraseDups = [] := by simp [List.removeAll, hx]
      rw [hnone, List.append_nil]
      exact ih.again hx
    · have hone : ([x].removeAll xs).eraseDups = [x] := by
        simp [List.removeAll, hx, List.eraseDups_cons]
      rw [hone]
      exact ih.concat hx

end FirstOccurrences

/-! ## Explorations -/

namespace Exploration

variable {α σ : Type} [Ord σ] [BEq σ] [LawfulBEq σ] {successors : σ → List (α × σ)} {cap : Nat}
  {e e' : Exploration α σ} {x : σ} {xs roots : List σ}

omit [LawfulBEq σ] in
/-- What was met before the next node is expanded: the roots and the successors of the nodes that
have been expanded. -/
def listed (successors : σ → List (α × σ)) (roots : List σ) (e : Exploration α σ) : List σ :=
  roots ++ (e.nodes.toList.take e.rows.size).flatMap fun x => (successors x).map Prod.snd

theorem number_firstOccurrences (h : e.Numbered cap) (hxs : FirstOccurrences e.nodes.toList xs)
    {i : Nat} (hn : e.number cap x = (e', some i)) :
    FirstOccurrences e'.nodes.toList (xs ++ [x]) := by
  rcases number_some_cases h hn with ⟨hx, rfl⟩ | ⟨hx, -, rfl⟩
  · exact hxs.again ((hxs.mem_iff x).mp (Array.mem_toList_iff.mpr (Array.mem_of_getElem? hx)))
  · have hx : x ∉ xs := fun hm => hx (Array.mem_toList_iff.mp ((hxs.mem_iff x).mpr hm))
    show FirstOccurrences (e.nodes.push x).toList (xs ++ [x])
    rw [Array.toList_push]
    exact hxs.concat hx

variable [Std.TransOrd σ] [Std.LawfulEqOrd σ]

theorem numberAll_firstOccurrences : ∀ {ys : List (α × σ)} {e e' : Exploration α σ}
    {xs : List σ} {row : List (α × Nat)}, e.Numbered cap → FirstOccurrences e.nodes.toList xs →
      numberAll cap ys e = (e', some row) →
        FirstOccurrences e'.nodes.toList (xs ++ ys.map Prod.snd)
  | [], e, e', xs, row, _, hxs, hn => by
    cases hn
    rwa [List.map_nil, List.append_nil]
  | (a, x) :: ys, e, e', xs, row, h, hxs, hn => by
    simp only [numberAll] at hn
    split at hn
    · cases hn
    · rename_i e₁ i h₁
      obtain ⟨he₁, -⟩ := number_some h h₁
      split at hn
      · cases hn
      · rename_i e₂ row' h₂
        cases hn
        have := numberAll_firstOccurrences he₁ (number_firstOccurrences h hxs h₁) h₂
        rwa [List.append_assoc] at this

omit [BEq σ] [LawfulBEq σ] [Std.TransOrd σ] [Std.LawfulEqOrd σ] in
/-- The nodes that had been expanded, and one more. -/
theorem Grows.take_succ (hg : e.Grows e') (hle : e.rows.size ≤ e.nodes.size)
    (hx : e.nodes[e.rows.size]? = some x) :
    e'.nodes.toList.take (e.rows.size + 1) = e.nodes.toList.take e.rows.size ++ [x] := by
  have htake : e'.nodes.toList.take e.rows.size = e.nodes.toList.take e.rows.size := by
    refine List.ext_getElem? fun i => ?_
    rw [List.getElem?_take, List.getElem?_take]
    by_cases hi : i < e.rows.size
    · have hnode := Array.getElem?_eq_getElem (Nat.lt_of_lt_of_le hi hle)
      rw [if_pos hi, if_pos hi, Array.getElem?_toList, Array.getElem?_toList, hnode,
        hg.nodes i _ hnode]
    · rw [if_neg hi, if_neg hi]
  rw [List.take_add_one, htake, Array.getElem?_toList, hg.nodes _ x hx]
  rfl

/-- **Expansion**: the nodes stay in the order in which they are first met. -/
theorem expand_firstOccurrences : ∀ (fuel : Nat) {e : Exploration α σ},
    Explored successors cap roots e → FirstOccurrences e.nodes.toList (listed successors roots e) →
      (expand successors cap fuel e).refused = false →
        FirstOccurrences (expand successors cap fuel e).nodes.toList
          (listed successors roots (expand successors cap fuel e))
  | 0, _, _, hxs, _ => hxs
  | fuel + 1, e, h, hxs, href => by
    cases hx : e.nodes[e.rows.size]? with
    | none =>
      have hsize := Nat.le_antisymm h.rows_le (Array.getElem?_eq_none_iff.mp hx)
      rwa [expand_of_size_eq hsize]
    | some x =>
      simp only [expand, hx] at href ⊢
      cases hn : numberAll cap (successors x) e with
      | mk e₁ row =>
        simp only [hn] at href ⊢
        cases row with
        | none =>
          obtain ⟨-, -, href₁, -⟩ := numberAll_none h.toNumbered hn
          exact absurd (href.symm.trans href₁) Bool.noConfusion
        | some row =>
          obtain ⟨-, hg, -⟩ := numberAll_some h.toNumbered hn
          refine expand_firstOccurrences fuel (h.expanded hx hn) ?_ href
          have hlisted : listed successors roots (e₁.addRow row) =
              listed successors roots e ++ (successors x).map Prod.snd := by
            unfold listed
            rw [hg.size_rows_addRow, show (e₁.addRow row).nodes = e₁.nodes from rfl,
              hg.take_succ h.rows_le hx, List.flatMap_append, List.flatMap_singleton,
              List.append_assoc]
          rw [hlisted]
          show FirstOccurrences e₁.nodes.toList _
          exact numberAll_firstOccurrences h.toNumbered hxs hn

theorem go_firstOccurrences : ∀ (rs : List σ) {e : Exploration α σ} {xs : List σ},
    roots = xs ++ rs → Explored successors cap roots e → e.rows.size = 0 →
      FirstOccurrences e.nodes.toList xs → (explore.go successors cap rs e).refused = false →
        FirstOccurrences (explore.go successors cap rs e).nodes.toList
          (listed successors roots (explore.go successors cap rs e))
  | [], e, xs, hroots, h, hrows, hxs, href => by
    refine expand_firstOccurrences cap h ?_ href
    rw [List.append_nil] at hroots
    rwa [listed, hrows, List.take_zero, List.flatMap_nil, List.append_nil, hroots]
  | r :: rs, e, xs, hroots, h, hrows, hxs, href => by
    simp only [explore.go] at href ⊢
    cases hn : e.number cap r with
    | mk e₁ i =>
      simp only [hn] at href ⊢
      cases i with
      | none =>
        obtain ⟨-, -, -, href₁, -⟩ := number_none h.toNumbered hn
        exact absurd (href.symm.trans href₁) Bool.noConfusion
      | some i =>
        obtain ⟨he₁, hg, -, -, hm⟩ := number_some h.toNumbered hn
        have hr : r ∈ roots := by rw [hroots]; simp
        have h₁ := h.grow he₁ hg fun z hz => (hm z hz).imp_right fun hzr => by
          rw [hzr]
          exact .root hr
        have hroots₁ : roots = (xs ++ [r]) ++ rs := by
          rw [hroots, List.append_assoc, List.singleton_append]
        exact go_firstOccurrences rs hroots₁ h₁ (hg.rows ▸ hrows)
          (number_firstOccurrences h.toNumbered hxs hn) href

/-- **The order of an exploration**: its nodes stand in the order in which they are first met among
the roots and then the successors of one node after the other. -/
theorem firstOccurrences_explore (href : (explore successors cap roots).refused = false) :
    FirstOccurrences (explore successors cap roots).nodes.toList
      (roots ++ (explore successors cap roots).nodes.toList.flatMap
        fun x => (successors x).map Prod.snd) := by
  have h := go_firstOccurrences roots (List.nil_append roots).symm explored_empty rfl .nil href
  have hall : (explore successors cap roots).nodes.toList.take
      (explore successors cap roots).rows.size = (explore successors cap roots).nodes.toList := by
    rw [((ended_explore successors cap roots).complete href).1]
    exact List.take_length
  unfold listed at h
  rwa [show explore.go successors cap roots empty = explore successors cap roots from rfl,
    hall] at h

end Exploration

/-! ## Graphs -/

namespace Graph

variable {g g' : Graph} {start start' i j : Nat} {φ : Nat → Nat}

/-- The edges of the state with number `i`. -/
def edges (g : Graph) (i : Nat) : List Edge := (g[i]?.map State.edges).getD []

/-- Edges lead to states. -/
def Closed (g : Graph) : Prop := ∀ s ∈ g, ∀ e ∈ s.edges, e.target < g.size

instance : Decidable g.Closed :=
  inferInstanceAs (Decidable (∀ s ∈ g, ∀ e ∈ s.edges, e.target < g.size))

/-- Some path leads from `i` to `j`. -/
def Leads (g : Graph) : Nat → Nat → Prop :=
  Relation.ReflTransGen fun i j => ∃ e ∈ g.edges i, e.target = j

theorem edges_of_getElem? {s : State} (h : g[i]? = some s) : g.edges i = s.edges := by
  rw [edges, h]
  rfl

theorem Closed.successors_eq (h : g.Closed) (i : Nat) :
    g.successors i = (g.edges i).map fun e => (e.label, e.target) := by
  unfold successors
  cases hs : g[i]? with
  | none =>
    rw [edges, hs]
    rfl
  | some s =>
    have hall := h s (Array.mem_of_getElem? hs)
    rw [edges_of_getElem? hs]
    show (s.edges.filter _).map _ = s.edges.map _
    rw [List.filter_eq_self.mpr fun e he => decide_eq_true (hall e he)]

/-- The targets of a state, in order. -/
theorem Closed.map_snd_successors (h : g.Closed) (i : Nat) :
    (g.successors i).map Prod.snd = (g.edges i).map Edge.target := by
  rw [h.successors_eq, List.map_map]
  rfl

theorem Closed.reachable_iff (h : g.Closed) :
    Exploration.Reachable g.successors [start] i ↔ g.Leads start i := by
  have hstep : (fun i j => ∃ l, (l, j) ∈ g.successors i) =
      fun i j => ∃ e ∈ g.edges i, e.target = j := by
    funext i j
    simp [h.successors_eq]
  unfold Exploration.Reachable Leads
  rw [hstep]
  simp

/-- What can be reached from a state is one. -/
theorem Closed.exists_state (h : g.Closed) (hs : start < g.size) (hi : g.Leads start i) :
    ∃ s, g[i]? = some s :=
  ⟨_, Array.getElem?_eq_getElem (reachable_lt hs (h.reachable_iff.mpr hi))⟩

/-- In `g'` the states of `g` in reach of `start` have the numbers that `φ` gives them. What else
there is in `g` and in `g'` does not matter, nor which states are marked. -/
structure Renumbers (φ : Nat → Nat) (g : Graph) (start : Nat) (g' : Graph) (start' : Nat) :
    Prop where
  start_eq : φ start = start'
  injOn : ∀ i j, g.Leads start i → g.Leads start j → φ i = φ j → i = j
  state : ∀ (i : Nat) (s : State), g.Leads start i → g[i]? = some s → ∃ marked : Bool,
    g'[φ i]? = some ⟨s.edges.map fun e => ⟨e.label, φ e.target⟩, marked, s.accepting⟩

/-- The successors have the new numbers. -/
theorem Renumbers.successors_eq (h : g.Renumbers φ start g' start') (hg : g.Closed)
    (hs : start < g.size) (hi : g.Leads start i) :
    g'.successors (φ i) = (g.successors i).map fun p => (p.1, φ p.2) := by
  obtain ⟨s, hsi⟩ := hg.exists_state hs hi
  have htarget : ∀ e ∈ s.edges, φ e.target < g'.size := fun e he => by
    have hj : g.Leads start e.target := hi.tail ⟨e, by rwa [edges_of_getElem? hsi], rfl⟩
    obtain ⟨s', hs'⟩ := hg.exists_state hs hj
    obtain ⟨_, hstate⟩ := h.state _ s' hj hs'
    exact (Array.getElem?_eq_some_iff.mp hstate).1
  obtain ⟨_, hstate⟩ := h.state i s hi hsi
  rw [hg.successors_eq, edges_of_getElem? hsi, List.map_map]
  unfold successors
  rw [hstate]
  show ((s.edges.map _).filter _).map _ = _
  rw [List.filter_eq_self.mpr, List.map_map]
  · rfl
  · intro e' he'
    obtain ⟨e, he, rfl⟩ := List.mem_map.mp he'
    exact decide_eq_true (htarget e he)

theorem Renumbers.accepting_eq (h : g.Renumbers φ start g' start') (hg : g.Closed)
    (hs : start < g.size) (hi : g.Leads start i) : g'.accepting (φ i) = g.accepting i := by
  obtain ⟨s, hsi⟩ := hg.exists_state hs hi
  obtain ⟨_, hstate⟩ := h.state i s hi hsi
  rw [accepting, accepting, hstate, hsi]
  rfl

end Graph

/-! ## The automaton of a graph -/

namespace Automaton

variable {g g' : Graph} {start start' : Nat} {φ : Nat → Nat}

/-- The states of the automaton are those of the graph in reach of `start`, in the given order,
which is that of a breadth-first search. Each state has its edges, in order and with their labels,
to the new numbers of their targets, and it is accepting if it was. The initial state is `start`,
and no other state is marked as initial. The alphabet has the labels in the order in which the
search meets them. -/
structure Presents (a : Automaton) (g : Graph) (start : Nat) (order : List Nat) : Prop where
  size_eq : a.size = order.length
  mem_iff : ∀ i, i ∈ order ↔ g.Leads start i
  breadthFirst : FirstOccurrences order
    (start :: order.flatMap fun i => (g.edges i).map Edge.target)
  state : ∀ n i : Nat, order[n]? = some i → ∃ s : State, g[i]? = some s ∧
    a.states[n]? =
      some ⟨s.edges.map fun e => ⟨e.label, order.idxOf e.target⟩, n == 0, s.accepting⟩
  initial_iff : ∀ (n : Nat) (s : State), a.states[n]? = some s → (s.initial = true ↔ n = 0)
  initial_eq : order[initial]? = some start
  closed : a.Closed
  alphabet : FirstOccurrences a.alphabet (order.flatMap fun i => (g.edges i).map Edge.label)

/-- The number of a state is its place in the order. -/
theorem place_numbering {i : Nat} (hi : i ∈ (numbering g start).nodes) :
    (numbering g start).place i = (numbering g start).nodes.toList.idxOf i := by
  have hnumbered := (ended_numbering g start).toNumbered
  have hidx := List.getElem?_idxOf (Array.mem_toList_iff.mpr hi)
  rw [Array.getElem?_toList] at hidx
  exact hnumbered.place_eq hidx

theorem getElem?_states_ofGraph (hg : g.Closed) (hs : start < g.size) {n i : Nat} {s : State}
    (hn : (numbering g start).nodes[n]? = some i) (hi : g[i]? = some s) :
    (ofGraph g start).states[n]? = some ⟨s.edges.map fun e =>
      ⟨e.label, (numbering g start).nodes.toList.idxOf e.target⟩, n == 0, s.accepting⟩ := by
  have hend := ended_numbering g start
  have hnot := numbering_not_refused hs
  have hedges : ((g.successors i).map fun p => Edge.mk p.1 ((numbering g start).place p.2)) =
      s.edges.map fun e => ⟨e.label, (numbering g start).nodes.toList.idxOf e.target⟩ := by
    rw [hg.successors_eq, Graph.edges_of_getElem? hi, List.map_map]
    refine List.map_congr_left fun e he => congrArg (Edge.mk e.label) (place_numbering ?_)
    refine mem_nodes_of_successor hend hnot (Array.mem_of_getElem? hn) (p := (e.label, e.target)) ?_
    rw [hg.successors_eq, Graph.edges_of_getElem? hi]
    exact List.mem_map_of_mem he
  have haccept : g.accepting i = s.accepting := by
    rw [Graph.accepting, hi]
    rfl
  rw [ofGraph_eq, getElem?_states_of_node id g.accepting hend hnot hn, ← hedges, haccept]
  rfl

theorem labels_ofGraph (hg : g.Closed) (hs : start < g.size) :
    (ofGraph g start).states.toList.flatMap (fun s => s.edges.map Edge.label) =
      (numbering g start).nodes.toList.flatMap fun i => (g.edges i).map Edge.label := by
  have hend := ended_numbering g start
  have hnot := numbering_not_refused hs
  rw [List.flatMap_def, List.flatMap_def]
  refine congrArg List.flatten (List.ext_getElem? fun n => ?_)
  rw [List.getElem?_map, List.getElem?_map, Array.getElem?_toList, Array.getElem?_toList]
  cases hn : (numbering g start).nodes[n]? with
  | none =>
    rw [ofGraph_eq, getElem?_states_eq_none hend hnot hn]
    rfl
  | some i =>
    have hi := hg.reachable_iff.mp (hend.reachable i (Array.mem_of_getElem? hn))
    obtain ⟨s, hsi⟩ := hg.exists_state hs hi
    rw [getElem?_states_ofGraph hg hs hn hsi]
    simp [Graph.edges_of_getElem? hsi]

/-- **What an automaton keeps of a graph.** -/
theorem presents_ofGraph (hg : g.Closed) (hs : start < g.size) :
    (ofGraph g start).Presents g start (numbering g start).nodes.toList := by
  have hend := ended_numbering g start
  have hnot := numbering_not_refused hs
  have hmem : ∀ i, i ∈ (numbering g start).nodes.toList ↔ g.Leads start i := fun i => by
    rw [Array.mem_toList_iff, hend.mem_iff hnot, hg.reachable_iff]
  refine
    { size_eq := ?size, mem_iff := hmem, breadthFirst := ?first, state := ?state,
      initial_iff := fun n s hn => (ofGraph g start).initial_iff hn, initial_eq := ?initial,
      closed := closed_ofGraph hs, alphabet := ?alphabet }
  case size =>
    rw [size_ofGraph hs]
    exact Array.length_toList.symm
  case first =>
    have hfirst := Exploration.firstOccurrences_explore hnot
    simp only [hg.map_snd_successors] at hfirst
    exact hfirst
  case state =>
    intro n i hn
    obtain ⟨s, hi⟩ := hg.exists_state hs ((hmem i).mp (List.mem_of_getElem? hn))
    rw [Array.getElem?_toList] at hn
    exact ⟨s, hi, getElem?_states_ofGraph hg hs hn hi⟩
  case initial =>
    rw [Array.getElem?_toList]
    exact numbering_zero hs
  case alphabet =>
    rw [(ofGraph g start).alphabet_eq, Label.distinct, labels_ofGraph hg hs]
    exact .eraseDups _

/-- **New numbers make no difference.** -/
theorem ofGraph_eq_of_renumbers (hg : g.Closed) (hs : start < g.size)
    (h : g.Renumbers φ start g' start') : ofGraph g' start' = ofGraph g start := by
  have hend := ended_numbering g start
  have hnot := numbering_not_refused hs
  have hleads : ∀ i, Exploration.Reachable g.successors [start] i → g.Leads start i := fun _ =>
    hg.reachable_iff.mp
  have hmem : ∀ i ∈ (numbering g start).nodes, g.Leads start i := fun i hi =>
    hleads i (hend.reachable i hi)
  have hsucc : ∀ i, g.Leads start i → g'.successors (φ i) =
      (g.successors i).map fun p => (p.1, φ p.2) := fun i => h.successors_eq hg hs
  -- there is room for all states, since their new numbers are different numbers of states
  have hsize : (numbering g start).nodes.size ≤ g'.size := by
    have hnodup : ((numbering g start).nodes.toList.map φ).Nodup :=
      hend.nodup.map_on fun i hi j hj => h.injOn i j (hmem i (Array.mem_toList_iff.mp hi))
        (hmem j (Array.mem_toList_iff.mp hj))
    have hsub : (numbering g start).nodes.toList.map φ ⊆ List.range g'.size := by
      intro k hk
      obtain ⟨i, hi, rfl⟩ := List.mem_map.mp hk
      have hi := hmem i (Array.mem_toList_iff.mp hi)
      obtain ⟨s, hsi⟩ := hg.exists_state hs hi
      obtain ⟨_, hstate⟩ := h.state i s hi hsi
      exact List.mem_range.mpr (Array.getElem?_eq_some_iff.mp hstate).1
    have := hnodup.length_le_of_subset hsub
    rwa [List.length_map, List.length_range, Array.length_toList] at this
  have hstep : Exploration.InStep φ (numbering g start) (numbering g' start') := by
    rw [← h.start_eq]
    show Exploration.InStep φ (.explore g.successors g.size [start])
      (.explore g'.successors g'.size ([start].map φ))
    refine Exploration.explore_inStep
      (fun i j hi hj => h.injOn i j (hleads i hi) (hleads j hj)) (fun i hi => ?_) hnot hsize
    rw [hsucc i (hleads i hi)]
    exact Exploration.follows_relabel φ id _
  rw [ofGraph_eq, ofGraph_eq]
  refine ofTable_eq_of_inStep hend (ended_numbering g' start') hnot hstep (fun i hi => ?_)
    fun i hi => h.accepting_eq hg hs (hmem i hi)
  rw [hsucc i (hmem i hi), List.map_map]
  rfl

/-- **The automaton of a graph** presents the part of the graph in reach of the start, and graphs
that differ in the numbers of these states, or in others, have the same automaton. -/
theorem ofGraph_spec (hg : g.Closed) (hs : start < g.size) :
    (∃ order, (ofGraph g start).Presents g start order) ∧
      ∀ φ g' start', g.Renumbers φ start g' start' → ofGraph g' start' = ofGraph g start :=
  ⟨⟨_, presents_ofGraph hg hs⟩, fun _ _ _ => ofGraph_eq_of_renumbers hg hs⟩

/-- A state out of reach is left out, and the others are numbered from `3` on. -/
theorem ofGraph_spec_backwards :
    ∃ g : Graph, g = #[⟨[⟨.single 'z', 3⟩], false, false⟩, ⟨[⟨.single 'y', 3⟩], false, true⟩,
        ⟨[⟨.single 'x', 1⟩], false, false⟩, ⟨[⟨.single 'x', 2⟩, ⟨.epsilon, 1⟩], false, false⟩] ∧
      g.Closed ∧ 3 < g.size ∧ (∃ order, (ofGraph g 3).Presents g 3 order) ∧
      ∃ g' : Graph, g' = #[⟨[⟨.single 'x', 1⟩, ⟨.epsilon, 2⟩], false, false⟩,
          ⟨[⟨.single 'x', 2⟩], false, false⟩, ⟨[⟨.single 'y', 0⟩], false, true⟩] ∧
        g.Renumbers (3 - ·) 3 g' 0 ∧ ofGraph g' 0 = ofGraph g 3 := by
  obtain ⟨g, hg⟩ : ∃ g : Graph, g = #[⟨[⟨.single 'z', 3⟩], false, false⟩,
    ⟨[⟨.single 'y', 3⟩], false, true⟩, ⟨[⟨.single 'x', 1⟩], false, false⟩,
    ⟨[⟨.single 'x', 2⟩, ⟨.epsilon, 1⟩], false, false⟩] := ⟨_, rfl⟩
  obtain ⟨g', hg'⟩ : ∃ g' : Graph, g' = #[⟨[⟨.single 'x', 1⟩, ⟨.epsilon, 2⟩], false, false⟩,
    ⟨[⟨.single 'x', 2⟩], false, false⟩, ⟨[⟨.single 'y', 0⟩], false, true⟩] := ⟨_, rfl⟩
  have hclosed : g.Closed := by subst hg; decide
  have hsize : 3 < g.size := by subst hg; decide
  have hleads : ∀ i, g.Leads 3 i → i = 1 ∨ i = 2 ∨ i = 3 := by
    intro i hi
    have hstep : ∀ i, (i = 1 ∨ i = 2 ∨ i = 3) → ∀ e ∈ g.edges i,
        e.target = 1 ∨ e.target = 2 ∨ e.target = 3 := by
      subst hg
      rintro i (rfl | rfl | rfl) <;> decide
    induction hi with
    | refl => exact Or.inr (Or.inr rfl)
    | tail _ he ih =>
      obtain ⟨e, he, rfl⟩ := he
      exact hstep _ ih e he
  have hnew : g.Renumbers (3 - ·) 3 g' 0 := by
    refine ⟨rfl, fun i j hi hj hij => ?_, fun i s hi hs => ⟨false, ?_⟩⟩
    · have := hleads i hi
      have := hleads j hj
      have hij : 3 - i = 3 - j := hij
      omega
    · subst hg hg'
      obtain rfl | rfl | rfl := hleads i hi <;> cases hs <;> rfl
  obtain ⟨hpart, hsame⟩ := ofGraph_spec hclosed hsize
  exact ⟨g, hg, hclosed, hsize, hpart, g', hg', hnew, hsame _ g' 0 hnew⟩

end Automaton

end PatternAutomata
