import PatternAutomata.Automaton.Basic
import PatternAutomata.Proofs.Exploration
import PatternAutomata.Proofs.Walk

/-!
# Runs as walks

About `accepts` and `epsilon_closure` (in `automaton`).

`Automaton.accepts` follows a text with a set of states, one character at a time. This is the same
as to ask for one walk from the initial state: `closure` finds what the silent walks lead to, so
after a text the set holds the states to which walks lead that read the text. A target that names no
state has no edges and accepts nothing, so nothing is assumed of the automaton.

Results:
* `Automaton.mem_closure`: the closure of some states is what can be reached by silent walks;
* `Automaton.mem_run_closure`: a run ends in the states to which walks lead that read the text;
* **`Automaton.accepts_iff_walk`**: a text is accepted iff some walk from the initial state to an
  accepting one reads it.

Out of scope: how `epsilon_closure` finds the states (`Proofs.Paths`).
-/

namespace PatternAutomata.Automaton

variable {a : Automaton} {i j k : Nat} {w : List Char}

/-- Some edge leads from `i` to `j`. -/
def arc (a : Automaton) (i : Nat) (l : Label) (j : Nat) : Prop := ⟨l, j⟩ ∈ a.edges i

theorem edges_of_getElem? {s : State} (h : a.states[i]? = some s) : a.edges i = s.edges := by
  unfold edges
  rw [h]
  rfl

/-- Only states have edges. -/
theorem arc_lt {l : Label} (h : a.arc i l j) : i < a.size := by
  unfold arc edges at h
  by_contra hi
  rw [Array.getElem?_eq_none (Nat.not_lt.mp hi)] at h
  exact List.not_mem_nil h

/-- Only states are accepting. -/
theorem accepting_lt (h : a.accepting i = true) : i < a.size := by
  unfold accepting at h
  by_contra hi
  rw [Array.getElem?_eq_none (Nat.not_lt.mp hi)] at h
  cases h

/-- Edges lead to states. -/
def Closed (a : Automaton) : Prop := ∀ i l j, a.arc i l j → j < a.size

/-- A walk that ends in a state begins in one. -/
theorem walk_lt (h : Walk a.arc i w j) (hj : j < a.size) : i < a.size := by
  cases h with
  | nil => exact hj
  | silent ha _ => exact arc_lt ha
  | read ha _ _ => exact arc_lt ha

/-! ## Closures -/

theorem mem_silentTargets : j ∈ a.silentTargets i ↔ a.arc i .epsilon j ∧ j < a.size := by
  unfold silentTargets arc
  simp only [List.mem_map, List.mem_filter, Bool.and_eq_true, decide_eq_true_eq]
  constructor
  · rintro ⟨⟨l, t⟩, ⟨he, hl, ht⟩, rfl⟩
    cases l with
    | epsilon => exact ⟨he, ht⟩
    | within => cases hl
    | noneOf => cases hl
    | outside => cases hl
  · rintro ⟨he, hj⟩
    exact ⟨⟨.epsilon, j⟩, ⟨he, rfl, hj⟩, rfl⟩

theorem mem_silent_successors {u : Unit} :
    (u, j) ∈ (a.silentTargets i).map (fun t => ((), t)) ↔ a.arc i .epsilon j ∧ j < a.size := by
  rw [← mem_silentTargets]
  simp

variable {seeds : List Nat}

theorem reachable_iff_walk :
    Exploration.Reachable (fun i => (a.silentTargets i).map fun t => ((), t))
        (seeds.filter (· < a.size)) j ↔
      j < a.size ∧ ∃ i ∈ seeds, Walk a.arc i [] j := by
  constructor
  · rintro ⟨r, hr, hrj⟩
    obtain ⟨hr, hlt⟩ := List.mem_filter.mp hr
    induction hrj with
    | refl => exact ⟨of_decide_eq_true hlt, r, hr, .nil r⟩
    | tail _ hs ih =>
      obtain ⟨u, hu⟩ := hs
      obtain ⟨ha, hk⟩ := mem_silent_successors.mp hu
      obtain ⟨-, i, hi, hw⟩ := ih
      exact ⟨hk, i, hi, hw.append (.silent_arc ha)⟩
  · rintro ⟨hj, i, hi, hw⟩
    refine ⟨i, List.mem_filter.mpr ⟨hi, decide_eq_true (walk_lt hw hj)⟩, ?_⟩
    clear hi
    generalize hv : [] = v at hw
    induction hw with
    | nil => exact .refl
    | silent ha hw ih =>
      subst hv
      exact .head ⟨(), mem_silent_successors.mpr ⟨ha, walk_lt hw hj⟩⟩ (ih hj rfl)
    | read => cases hv

/-- **The closure** of some states is what silent walks from them lead to. -/
theorem mem_closure :
    j ∈ a.closure seeds ↔ j < a.size ∧ ∃ i ∈ seeds, Walk a.arc i [] j := by
  unfold closure
  rw [Ascending.mem_ofList, Array.mem_toList_iff, Exploration.mem_explore_iff, reachable_iff_walk]
  exact Exploration.refused_explore_of_lt fun i hi => (reachable_iff_walk.mp hi).1

/-! ## Runs -/

theorem mem_moves {s : StateSet} {c : Char} :
    j ∈ a.moves s c ↔ ∃ i ∈ s, ∃ l, a.arc i l j ∧ l.accepts c = true := by
  unfold moves arc
  simp only [List.mem_flatMap, List.mem_map, List.mem_filter, Ascending.mem_iff]
  constructor
  · rintro ⟨i, hi, ⟨l, t⟩, ⟨he, hc⟩, rfl⟩
    exact ⟨i, hi, l, he, hc⟩
  · rintro ⟨i, hi, l, he, hc⟩
    exact ⟨i, hi, ⟨l, j⟩, ⟨he, hc⟩, rfl⟩

/-- A run from the closure of some states ends in the states to which walks lead that read the
text. -/
theorem mem_run_closure :
    j ∈ a.run (a.closure seeds) w ↔ j < a.size ∧ ∃ i ∈ seeds, Walk a.arc i w j := by
  induction w generalizing seeds with
  | nil => exact mem_closure
  | cons c w ih =>
    unfold run
    rw [ih]
    refine and_congr_right fun hj => ⟨?_, ?_⟩
    · rintro ⟨k, hk, hw⟩
      obtain ⟨m, hm, l, ha, hc⟩ := mem_moves.mp hk
      obtain ⟨-, i, hi, h0⟩ := mem_closure.mp hm
      exact ⟨i, hi, h0.append (.read ha hc hw)⟩
    · rintro ⟨i, hi, hw⟩
      obtain ⟨m, l, k, h0, ha, hc, hw⟩ := hw.cons_inv
      exact ⟨k, mem_moves.mpr ⟨m, mem_closure.mpr ⟨arc_lt ha, i, hi, h0⟩, l, ha, hc⟩, hw⟩

theorem anyAccepting_iff {s : StateSet} :
    a.anyAccepting s = true ↔ ∃ j ∈ s, a.accepting j = true := by
  unfold anyAccepting
  exact List.any_eq_true

/-- **Acceptance**: a text is accepted iff some walk from the initial state to an accepting one
reads it. -/
theorem accepts_iff_walk (a : Automaton) (w : List Char) :
    a.accepts w = true ↔ ∃ j, Walk a.arc initial w j ∧ a.accepting j = true := by
  unfold accepts
  rw [anyAccepting_iff]
  constructor
  · rintro ⟨j, hj, hacc⟩
    obtain ⟨-, i, hi, hw⟩ := mem_run_closure.mp hj
    rw [List.mem_singleton.mp hi] at hw
    exact ⟨j, hw, hacc⟩
  · rintro ⟨j, hw, hacc⟩
    exact ⟨j, mem_run_closure.mpr ⟨accepting_lt hacc, initial, List.mem_singleton_self _, hw⟩, hacc⟩

end PatternAutomata.Automaton
