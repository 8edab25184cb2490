import PatternAutomata.Proofs.JoinedRows
import PatternAutomata.Proofs.Renumbering
import PatternAutomata.Proofs.SubsetOrder

/-!
# A deterministic automaton determinizes to itself

About `build_dfa` (in `dfa`) on an automaton that it has made.

The subset construction meets the states of a deterministic automaton one by one, each alone in its
set. It cuts the edges at all places where some edge of the automaton begins or ends; what it joins
again are the edges there were, because a row of joined edges is the only one of its kind. So a
second construction goes in step with the first one and ends with the same automaton.

Results:
* `Automaton.moveAll_ofSubsets`: the state of a set, alone, moves to the states of the sets to which
  the set moves, on the same intervals;
* **`Automaton.determinize_determinize`**: determinizing once more changes nothing.

Out of scope: that its result is minimal, which it need not be.
-/

namespace PatternAutomata.Automaton

open Exploration (Follows InStep)

variable {a d : Automaton} {s t : StateSet} {n m : Nat} {c : Char} {limit limit' : Nat}
  {seeds : List Nat}

/-! ## Sets of one state -/

/-- The set of one state. -/
def only (n : Nat) : StateSet := .ofList [n]

theorem mem_only : m ∈ only n ↔ m = n := by
  unfold only
  rw [Ascending.mem_ofList, List.mem_singleton]

theorem only_inj (h : only n = only m) : n = m :=
  mem_only.mp (h ▸ mem_only.mpr rfl)

/-- No edge is silent, so a closure adds nothing. -/
theorem Deterministic.closure_eq_only (h : d.Deterministic) (hm : m < d.size)
    (hseeds : ∀ j, j ∈ seeds ↔ j = m) : d.closure seeds = only m := by
  refine Ascending.ext_mem fun j => ?_
  rw [mem_closure, mem_only]
  constructor
  · rintro ⟨-, i, hi, hw⟩
    cases hw with
    | nil => exact (hseeds _).mp hi
    | silent ha _ => exact absurd rfl (h.reads _ _ _ ha)
  · rintro rfl
    exact ⟨hm, j, (hseeds j).mpr rfl, .nil j⟩

/-- A state alone moves to where its step leads. -/
theorem Deterministic.mem_moves_only (h : d.Deterministic) :
    m ∈ d.moves (only n) c ↔ d.step n c = some m := by
  rw [mem_moves]
  constructor
  · rintro ⟨i, hi, l, ha, hc⟩
    rw [mem_only.mp hi] at ha
    exact h.step _ _ _ _ ha hc
  · intro hstep
    obtain ⟨l, ha, hc⟩ := arc_of_step hstep
    exact ⟨n, mem_only.mpr rfl, l, ha, hc⟩

theorem Deterministic.moves_only_eq_nil (h : d.Deterministic) (hstep : d.step n c = none) :
    d.moves (only n) c = [] := by
  rw [List.eq_nil_iff_forall_not_mem]
  intro j hj
  rw [h.mem_moves_only, hstep] at hj
  cases hj

theorem Deterministic.closure_moves_only (h : d.Deterministic) (hclosed : d.Closed)
    (hstep : d.step n c = some m) :
    d.moves (only n) c ≠ [] ∧ d.closure (d.moves (only n) c) = only m := by
  obtain ⟨l, ha, -⟩ := arc_of_step hstep
  refine ⟨List.ne_nil_of_mem (h.mem_moves_only.mpr hstep),
    h.closure_eq_only (hclosed _ _ _ ha) fun j => ?_⟩
  rw [h.mem_moves_only, hstep, Option.some_inj, eq_comm]

theorem anyAccepting_only (d : Automaton) (n : Nat) : d.anyAccepting (only n) = d.accepting n := by
  rw [Bool.eq_iff_iff, anyAccepting_iff]
  constructor
  · rintro ⟨j, hj, hacc⟩
    rwa [mem_only.mp hj] at hacc
  · exact fun hacc => ⟨n, mem_only.mpr rfl, hacc⟩

/-! ## The second construction -/

/-- The state of a set, alone, leads to the states of the sets to which the set leads. -/
theorem leadsTo_moveAll_ofSubsets (hf : (a.subsets limit).refused = false)
    (hd : d = a.ofSubsets (a.subsets limit)) (hs : s ∈ (a.subsets limit).nodes) :
    LeadsTo (d.moveAll d.symbols (only ((a.subsets limit).place s))) c t ↔
      ∃ y, t = only ((a.subsets limit).place y) ∧ LeadsTo (a.moveAll a.symbols s) c y := by
  have hend := a.ended_subsets limit
  have hdet : d.Deterministic := hd ▸ deterministic_ofSubsets hf
  have hclosed : d.Closed := hd ▸ closed_ofTable hend hf
  have hn := hend.getElem?_place hs
  simp only [mem_moveAll]
  -- where the set does not move there is no step, otherwise the step leads to where it moves
  by_cases hc : a.moves s c = []
  · have hstep : d.step ((a.subsets limit).place s) c = none := hd ▸ step_ofSubsets_none hf hn hc
    rw [hdet.moves_only_eq_nil hstep]
    exact iff_of_false (fun h => h.1 rfl) fun ⟨_, _, h, _⟩ => h hc
  · obtain ⟨m, hstep, hm⟩ := step_ofSubsets_some hf hn hc
    rw [← hd] at hstep
    obtain ⟨hne, hclosure⟩ := hdet.closure_moves_only hclosed hstep
    rw [hclosure, ← hend.place_eq hm]
    constructor
    · rintro ⟨-, rfl⟩
      exact ⟨_, rfl, hc, rfl⟩
    · rintro ⟨_, rfl, -, rfl⟩
      exact ⟨hne, rfl⟩

/-- Different sets have different states. -/
theorem only_place_inj {x y : StateSet} (hx : x ∈ (a.subsets limit).nodes)
    (hy : y ∈ (a.subsets limit).nodes)
    (h : only ((a.subsets limit).place x) = only ((a.subsets limit).place y)) : x = y :=
  (a.ended_subsets limit).place_injOn hx hy (only_inj h)

/-- **The moves of the state of a set**, alone, are the moves of the set: the same intervals lead to
the states of the sets. -/
theorem moveAll_ofSubsets (hf : (a.subsets limit).refused = false)
    (hd : d = a.ofSubsets (a.subsets limit)) (hs : s ∈ (a.subsets limit).nodes) :
    d.moveAll d.symbols (only ((a.subsets limit).place s)) =
      (a.moveAll a.symbols s).map fun p => (p.1, only ((a.subsets limit).place p.2)) := by
  have hmem : ∀ p ∈ a.moveAll a.symbols s, p.2 ∈ (a.subsets limit).nodes := fun p =>
    mem_nodes_of_successor (a.ended_subsets limit) hf hs
  have hmap : Joined ((a.moveAll a.symbols s).map fun p =>
      (p.1, only ((a.subsets limit).place p.2))) :=
    (joined_moveAll a s).map (φ := fun y => only ((a.subsets limit).place y))
      fun p hp q hq => only_place_inj (hmem p hp) (hmem q hq)
  exact (joined_moveAll d _).ext hmap fun c t =>
    (leadsTo_moveAll_ofSubsets hf hd hs).trans leadsTo_map.symm

/-- The closure of the initial state is the initial state. -/
theorem closure_initial_ofSubsets (hf : (a.subsets limit).refused = false)
    (hd : d = a.ofSubsets (a.subsets limit)) :
    d.closure [initial] = only ((a.subsets limit).place (a.closure [initial])) := by
  have hend := a.ended_subsets limit
  have hdet : d.Deterministic := hd ▸ deterministic_ofSubsets hf
  have hplace : (a.subsets limit).place (a.closure [initial]) = initial := place_root rfl hf
  rw [hplace]
  refine hdet.closure_eq_only ?_ fun j => List.mem_singleton
  rw [hd, ofSubsets_eq]
  exact (lt_size_ofTable_iff hend hf).mpr ⟨_, nodes_subsets_initial hf⟩

/-- The second construction goes in step with the first. -/
theorem inStep_subsets_ofSubsets (hf : (a.subsets limit).refused = false)
    (hd : d = a.ofSubsets (a.subsets limit)) (hle : d.size ≤ limit') :
    InStep (fun s => only ((a.subsets limit).place s)) (a.subsets limit) (d.subsets limit') := by
  have hend := a.ended_subsets limit
  have hmem : ∀ x, Exploration.Reachable (a.moveAll a.symbols) [a.closure [initial]] x →
      x ∈ (a.subsets limit).nodes := fun x => (hend.mem_iff hf).mpr
  have hsucc : ∀ x, Exploration.Reachable (a.moveAll a.symbols) [a.closure [initial]] x →
      Follows (fun s => only ((a.subsets limit).place s))
        ((a.moveAll a.symbols x).map Prod.snd)
        ((d.moveAll d.symbols (only ((a.subsets limit).place x))).map Prod.snd) := by
    intro x hx
    rw [moveAll_ofSubsets hf hd (hmem x hx)]
    exact Exploration.follows_relabel _ id (a.moveAll a.symbols x)
  have hsize : (a.subsets limit).nodes.size ≤ limit' := by
    rw [hd, ofSubsets_eq, size_ofTable hend hf] at hle
    exact hle
  have hstep := Exploration.explore_inStep
    (fun x y hx hy => only_place_inj (hmem x hx) (hmem y hy)) hsucc hf hsize
  rwa [List.map_cons, List.map_nil, ← closure_initial_ofSubsets hf hd] at hstep

/-- **Determinizing once more** changes nothing: with any limit that the states of a deterministic
automaton meet, the construction gives this automaton again, with the same states in the same order,
the same edges in the same order and hence the same alphabet. -/
theorem determinize_determinize (h : a.determinize limit = .ok d) (hle : d.size ≤ limit') :
    d.determinize limit' = .ok d := by
  obtain ⟨hf, hd⟩ := determinize_eq_ok h
  have hstep := inStep_subsets_ofSubsets hf hd hle
  have hend := a.ended_subsets limit
  have hsame : d.ofSubsets (d.subsets limit') = a.ofSubsets (a.subsets limit) := by
    rw [ofSubsets_eq, ofSubsets_eq]
    refine ofTable_eq_of_inStep hend (d.ended_subsets limit') hf hstep (fun s hs => ?_)
      fun s hs => ?_
    · rw [moveAll_ofSubsets hf hd hs, List.map_map]
      rfl
    · rw [anyAccepting_only, hd, ofSubsets_eq]
      exact accepting_ofTable hend hf (hend.getElem?_place hs)
  rw [determinize_of_not_refused (hstep.refused.trans hf), hsame, ← hd]

/-- The second construction cuts the edge for `a` to `z` at `f` and after `h`, where an edge of the
other state begins and ends, and joins the three parts again. -/
theorem determinize_determinize_cut :
    ∃ a d, a = ofGraph #[⟨[⟨.within ⟨'a', 'p'⟩, 1⟩, ⟨.within ⟨'m', 'z'⟩, 1⟩], false, false⟩,
        ⟨[⟨.within ⟨'f', 'h'⟩, 1⟩], false, true⟩] 0 ∧
      d = ofRows [⟨[⟨.within ⟨'a', 'z'⟩, 1⟩], false⟩, ⟨[⟨.within ⟨'f', 'h'⟩, 1⟩], true⟩] ∧
      d.symbols = [⟨'a', 'e'⟩, ⟨'f', 'h'⟩, ⟨'i', 'z'⟩] ∧
      a.determinize 9 = .ok d ∧ d.size ≤ 2 ∧ d.determinize 2 = .ok d := by
  refine ⟨_, _, rfl, rfl, by decide +kernel, ?eval, by decide, determinize_determinize ?eval ?_⟩
  · exact determinize_of_some (by decide +kernel)
  · decide

end PatternAutomata.Automaton
