import Mathlib.Data.Set.Finite.Powerset
import PatternAutomata.Proofs.Determinization
import PatternAutomata.Proofs.Renumbering
import PatternAutomata.Regex.Log

/-!
# The sets of the subset construction, in order

About `build_dfa` and `subset` (in `dfa`): in which order the subsets are created, which index is
logged for each of them, and when the limit is reached.

The states of a deterministic automaton are the sets that are met from the closure of the initial
state on, each of them once, in the order in which they are created. There are finitely many, and
their number is what is compared with the limit: the limit has no other influence. To join adjacent
intervals does not change the order, because only a set that was just met is dropped from a row, and
neither does the breadth-first numbering of the automaton, which finds the same order again.

Results:
* `Automaton.refused_subsets_iff`: a set is refused iff more sets are met than the limit allows;
* `Automaton.inStep_subsetsBySymbol`: the order is that of creating the sets interval by interval;
* `Automaton.isSubsetAutomaton_ofSubsets`: the state with the number of a set moves as the set does;
* `Automaton.reports_subsets`: each set is reported with the number of its state;
* **`Automaton.determinize_spec`**: which limits suffice, and what the one automaton is that is then
  the result.

Out of scope: how the edges of a state are joined (`Proofs.EdgeRows`).
-/

namespace PatternAutomata

open Exploration (Follows InStep)

section

variable {σ : Type} [DecidableEq σ]

theorem follows_joinFrom (rest : List (Interval × σ)) : ∀ (i : Interval) (x : σ),
    Follows id (x :: rest.map Prod.snd) ((joinFrom i x rest).map Prod.snd) := by
  induction rest with
  | nil => exact fun i x => .cons .nil
  | cons p rest ih =>
    obtain ⟨j, y⟩ := p
    intro i x
    unfold joinFrom
    by_cases hjoin : x = y ∧ i.adjoins j = true
    · rw [if_pos hjoin]
      obtain ⟨rfl, -⟩ := hjoin
      exact .again (ih _ x)
    · rw [if_neg hjoin]
      exact .cons (ih j y)

/-- Joining drops a target only where it repeats the one before. -/
theorem follows_joinAdjacent (row : List (Interval × σ)) :
    Follows id (row.map Prod.snd) ((joinAdjacent row).map Prod.snd) := by
  cases row with
  | nil => exact .nil
  | cons p row => exact follows_joinFrom row p.1 p.2

end

namespace Automaton

variable {a d : Automaton} {s t : StateSet} {limit : Nat}

/-! ## The sets that are met -/

/-- The set holds the states to which silent walks lead from the numbers of which `p` holds. -/
def IsClosure (a : Automaton) (p : Nat → Prop) (s : StateSet) : Prop :=
  ∀ j, j ∈ s ↔ j < a.size ∧ ∃ i, p i ∧ Walk a.arc i [] j

/-- Some edge along which `c` can be read leads from a state of the set to `j`. -/
def Enters (a : Automaton) (s : StateSet) (c : Char) (j : Nat) : Prop :=
  ∃ i ∈ s, ∃ l, a.arc i l j ∧ l.accepts c = true

/-- The sets of states in which a text can end: what silent walks lead to from the initial state,
and then, as far as a set has edges along which a character can be read, what silent walks lead to
from where these edges lead. -/
inductive Met (a : Automaton) : StateSet → Prop
  | initial {s : StateSet} : a.IsClosure (· = initial) s → Met a s
  | move {s t : StateSet} {c : Char} : Met a s → (∃ j, a.Enters s c j) →
    a.IsClosure (a.Enters s c) t → Met a t

theorem isClosure_iff {p : Nat → Prop} {seeds : List Nat} (h : ∀ i, p i ↔ i ∈ seeds) :
    a.IsClosure p s ↔ s = a.closure seeds := by
  have hmem : ∀ j, (j < a.size ∧ ∃ i, p i ∧ Walk a.arc i [] j) ↔ j ∈ a.closure seeds := fun j => by
    rw [mem_closure]
    simp only [h]
  constructor
  · exact fun hs => Ascending.ext_mem fun j => (hs j).trans (hmem j)
  · rintro rfl j
    exact (hmem j).symm

theorem isClosure_initial_iff : a.IsClosure (· = initial) s ↔ s = a.closure [initial] :=
  isClosure_iff fun _ => List.mem_singleton.symm

theorem isClosure_enters_iff {c : Char} :
    a.IsClosure (a.Enters s c) t ↔ t = a.closure (a.moves s c) :=
  isClosure_iff fun _ => mem_moves.symm

theorem exists_enters_iff {c : Char} : (∃ j, a.Enters s c j) ↔ a.moves s c ≠ [] := by
  constructor
  · rintro ⟨j, hj⟩
    exact List.ne_nil_of_mem (mem_moves.mpr hj)
  · intro hne
    obtain ⟨j, hj⟩ := List.exists_mem_of_ne_nil _ hne
    exact ⟨j, mem_moves.mp hj⟩

/-- The sets that are met are those that the construction can reach. -/
theorem reachable_iff_met :
    Exploration.Reachable (a.moveAll a.symbols) [a.closure [initial]] s ↔ a.Met s := by
  constructor
  · rintro ⟨r, hr, hrs⟩
    induction hrs with
    | refl => exact .initial (isClosure_initial_iff.mpr (List.mem_singleton.mp hr))
    | tail _ hstep ih =>
      obtain ⟨i, hi⟩ := hstep
      obtain ⟨c, hne, ht⟩ := exists_moves_of_mem_moveAll hi
      exact ih.move (exists_enters_iff.mpr hne) (isClosure_enters_iff.mpr ht)
  · intro h
    induction h with
    | initial hs =>
      rw [isClosure_initial_iff.mp hs]
      exact .root List.mem_cons_self
    | move _ hne ht ih =>
      obtain ⟨i, hi, -⟩ :=
        mem_moveAll.mpr ⟨exists_enters_iff.mp hne, isClosure_enters_iff.mp ht⟩
      exact ih.step hi

theorem setOf_reachable_eq (a : Automaton) :
    {s | Exploration.Reachable (a.moveAll a.symbols) [a.closure [initial]] s} = {s | a.Met s} :=
  Set.ext fun _ => reachable_iff_met

/-- A set that is met holds states only. -/
theorem Met.lt (h : a.Met s) {i : Nat} (hi : i ∈ s) : i < a.size := by
  cases h with
  | initial hs => exact ((hs i).mp hi).1
  | move _ _ ht => exact ((ht i).mp hi).1

/-- There are only so many sets of states. -/
theorem finite_met (a : Automaton) : {s | a.Met s}.Finite := by
  have hfin : {t : Set Nat | t ⊆ Set.Iio a.size}.Finite := (Set.finite_Iio a.size).finite_subsets
  refine Set.Finite.of_finite_image (f := fun s : StateSet => {i | i ∈ s}) (hfin.subset ?_) ?_
  · rintro _ ⟨s, hs, rfl⟩ i hi
    exact hs.lt hi
  · intro s _ t _ hst
    exact Ascending.ext_mem fun i => Set.ext_iff.mp hst i

/-! ## The limit -/

/-- A set is refused iff more sets are met than the limit allows. -/
theorem refused_subsets_iff (a : Automaton) (limit : Nat) :
    (a.subsets limit).refused = true ↔ limit < {s | a.Met s}.ncard := by
  have hfin := finite_met a
  rw [← setOf_reachable_eq] at hfin ⊢
  exact Exploration.refused_explore_iff hfin

theorem refused_subsets_of_le (h : {s | a.Met s}.ncard ≤ limit) :
    (a.subsets limit).refused = false := by
  rw [← Bool.not_eq_true, refused_subsets_iff]
  exact Nat.not_lt.mpr h

/-- Without a refusal the construction numbers the sets that are met. -/
theorem mem_subsets_iff (hf : (a.subsets limit).refused = false) :
    s ∈ (a.subsets limit).nodes ↔ a.Met s :=
  ((a.ended_subsets limit).mem_iff hf).trans reachable_iff_met

theorem size_subsets (hf : (a.subsets limit).refused = false) :
    (a.subsets limit).nodes.size = {s | a.Met s}.ncard := by
  rw [← setOf_reachable_eq]
  exact Exploration.size_explore hf

theorem determinize_of_refused (h : (a.subsets limit).refused = true) :
    a.determinize limit = .error (.tooManyStates limit) := by
  unfold determinize determinize?
  simp only [h, if_true]

theorem determinize_of_not_refused (h : (a.subsets limit).refused = false) :
    a.determinize limit = .ok (a.ofSubsets (a.subsets limit)) := by
  refine determinize_of_some ?_
  unfold determinize?
  simp only [h, Bool.false_eq_true, if_false]

/-! ## The order -/

/-- The order does not depend on the limit. -/
theorem inStep_subsets {limit' : Nat} (hf : (a.subsets limit).refused = false)
    (h : {s | a.Met s}.ncard ≤ limit') : InStep id (a.subsets limit) (a.subsets limit') :=
  Exploration.explore_inStep_cap hf ((size_subsets hf).trans_le h)

/-- Neither does the automaton. -/
theorem ofSubsets_subsets_eq {limit' : Nat} (hf : (a.subsets limit).refused = false)
    (h : {s | a.Met s}.ncard ≤ limit') :
    a.ofSubsets (a.subsets limit') = a.ofSubsets (a.subsets limit) :=
  ofTable_eq_of_inStep (a.ended_subsets limit) (a.ended_subsets limit') hf (inStep_subsets hf h)
    (fun _ _ => List.map_congr_left fun _ _ => rfl) fun _ _ => rfl

/-- The sets as they are created interval by interval, before any edges are joined. -/
def subsetsBySymbol (a : Automaton) (limit : Nat) : Exploration Interval StateSet :=
  .explore (fun s => a.symbols.filterMap (a.moveOn s)) limit [a.closure [initial]]

/-- Joining edges changes neither the order in which sets are created nor the limits that
suffice. -/
theorem inStep_subsetsBySymbol (h : {s | a.Met s}.ncard ≤ limit) :
    InStep id (a.subsetsBySymbol limit) (a.subsets limit) := by
  have hsucc := fun s => follows_joinAdjacent (a.symbols.filterMap (a.moveOn s))
  have hset : {s | Exploration.Reachable (fun s => a.symbols.filterMap (a.moveOn s))
      [a.closure [initial]] s} = {s | a.Met s} :=
    Set.ext fun _ => (Exploration.reachable_iff_of_follows hsucc).trans reachable_iff_met
  have hf : (a.subsetsBySymbol limit).refused = false := by
    rw [← Bool.not_eq_true, subsetsBySymbol,
      Exploration.refused_explore_iff (hset ▸ finite_met a), hset]
    exact Nat.not_lt.mpr h
  have hstep : InStep id (a.subsetsBySymbol limit)
      (.explore (a.moveAll a.symbols) limit ([a.closure [initial]].map id)) :=
    Exploration.explore_inStep (fun _ _ _ _ h => h) (fun s _ => hsucc s) hf
      (Exploration.ended_explore _ _ _).size_le
  rwa [List.map_id] at hstep

/-! ## The automaton -/

/-- The states of `d` are the sets that are met in `a`, in the order in which they are listed: each
is accepting iff it holds an accepting state, and on each character it leads to the set of what the
edges of its states lead to, if there are any. -/
structure IsSubsetAutomaton (d a : Automaton) (sets : List StateSet) : Prop where
  size_eq : d.size = sets.length
  nodup : sets.Nodup
  mem_iff : ∀ s, s ∈ sets ↔ a.Met s
  initial : ∃ s, sets[initial]? = some s ∧ a.IsClosure (· = initial) s
  accepting : ∀ (i : Nat) (s : StateSet), sets[i]? = some s →
    (d.accepting i = true ↔ ∃ k ∈ s, a.accepting k = true)
  step_none : ∀ (i : Nat) (s : StateSet) (c : Char), sets[i]? = some s →
    (¬ ∃ j, a.Enters s c j) → d.step i c = none
  step_some : ∀ (i : Nat) (s : StateSet) (c : Char), sets[i]? = some s → (∃ j, a.Enters s c j) →
    ∃ j t, d.step i c = some j ∧ sets[j]? = some t ∧ a.IsClosure (a.Enters s c) t

theorem nodes_subsets_initial (hf : (a.subsets limit).refused = false) :
    (a.subsets limit).nodes[initial]? = some (a.closure [initial]) := by
  have hplace : (a.subsets limit).place (a.closure [initial]) = initial := place_root rfl hf
  have h := (a.ended_subsets limit).getElem?_place
    ((mem_subsets_iff hf).mpr (.initial (isClosure_initial_iff.mpr rfl)))
  rwa [hplace] at h

theorem isSubsetAutomaton_ofSubsets (hf : (a.subsets limit).refused = false) :
    (a.ofSubsets (a.subsets limit)).IsSubsetAutomaton a (a.subsets limit).nodes.toList where
  size_eq := size_ofTable (a.ended_subsets limit) hf
  nodup := (a.ended_subsets limit).nodup
  mem_iff s := Array.mem_toList_iff.trans (mem_subsets_iff hf)
  initial := by
    rw [Array.getElem?_toList]
    exact ⟨_, nodes_subsets_initial hf, isClosure_initial_iff.mpr rfl⟩
  accepting i s hi := by
    rw [Array.getElem?_toList] at hi
    rw [ofSubsets_eq, accepting_ofTable (a.ended_subsets limit) hf hi, anyAccepting_iff]
  step_none i s c hi hc := by
    rw [Array.getElem?_toList] at hi
    rw [exists_enters_iff, not_not] at hc
    exact step_ofSubsets_none hf hi hc
  step_some i s c hi hc := by
    rw [Array.getElem?_toList] at hi
    obtain ⟨j, hstep, hj⟩ := step_ofSubsets_some hf hi (exists_enters_iff.mp hc)
    exact ⟨j, _, hstep, Array.getElem?_toList.trans hj, isClosure_enters_iff.mpr rfl⟩

/-! ## The report -/

/-- What is reported of the sets are their numbers, although each is reported before it is known
which other sets there are. -/
theorem reports_subsets (a : Automaton) (limit : Nat) : (a.subsets limit).reports.toList =
    (a.subsets limit).nodes.toList.mapIdx fun i s => (i, s) := by
  rw [(a.ended_subsets limit).reports_eq, Array.toList_mapIdx]

/-- Apart from the record of the intervals, which comes second, there is a record of each report. -/
theorem eraseIdx_log_subsets (a : Automaton) (reports : List (Nat × StateSet)) :
    (LogRecord.subsets a reports).eraseIdx 1 =
      reports.map fun (count, s) => LogRecord.subset a count s := by
  unfold LogRecord.subsets
  cases reports.map fun (count, s) => LogRecord.subset a count s <;> rfl

/-- The records of the sets have their numbers. -/
theorem eraseIdx_log_reports_subsets (a : Automaton) (limit : Nat) :
    (LogRecord.subsets a (a.subsets limit).reports.toList).eraseIdx 1 =
      (a.subsets limit).nodes.toList.mapIdx fun i s => LogRecord.subset a i s := by
  rw [eraseIdx_log_subsets, reports_subsets]
  refine List.ext_getElem? fun i => ?_
  rw [List.getElem?_map, List.getElem?_mapIdx, List.getElem?_mapIdx, Option.map_map]
  rfl

/-- **The subset construction**: only finitely many sets of states are met, and they are listed, in
the order in which they are created, whatever the limit is and whether or not edges are joined.
Where the limit is less than their number, the construction fails and says so; otherwise it ends
with all of them expanded, and its result is the one automaton of these sets, numbered breadth first
as it is. Each set is reported, when it is created, with the number that its state has in the
end. -/
theorem determinize_spec (a : Automaton) : {s | a.Met s}.Finite ∧
    ∃ (d : Automaton) (sets : List StateSet), d.IsSubsetAutomaton a sets ∧
      d.size = {s | a.Met s}.ncard ∧ ofGraph d.states initial = d ∧
      ∀ limit : Nat,
        (limit < {s | a.Met s}.ncard → a.determinize limit = .error (.tooManyStates limit)) ∧
        ({s | a.Met s}.ncard ≤ limit → a.determinize limit = .ok d ∧
          (a.subsetsBySymbol limit).nodes.toList = sets ∧ (a.subsets limit).nodes.toList = sets ∧
          (a.subsets limit).rows.size = sets.length ∧
          (a.subsets limit).reports.toList = sets.mapIdx (fun i s => (i, s)) ∧
          (LogRecord.subsets a (a.subsets limit).reports.toList).eraseIdx 1 =
            sets.mapIdx fun i s => LogRecord.subset a i s) := by
  -- the least limit that suffices stands for all of them
  have hf : (a.subsets {s | a.Met s}.ncard).refused = false := refused_subsets_of_le (le_refl _)
  have hd := isSubsetAutomaton_ofSubsets hf
  refine ⟨finite_met a, _, _, hd, hd.size_eq.trans (size_subsets hf), ?_, fun limit => ⟨?_, ?_⟩⟩
  · exact ofGraph_ofTable .within a.anyAccepting rfl hf
  · intro h
    exact determinize_of_refused ((refused_subsets_iff a limit).mpr h)
  · intro h
    have hnodes := (inStep_subsets hf h).nodes
    have hrows := (inStep_subsets hf h).rows
    have hnodes' := (inStep_subsetsBySymbol h).nodes
    rw [Array.map_id] at hnodes hnodes'
    refine ⟨?_, by rw [← hnodes', hnodes], by rw [hnodes], ?_, ?_, ?_⟩
    · rw [determinize_of_not_refused (refused_subsets_of_le h), ofSubsets_subsets_eq hf h]
    · rw [hrows, ((a.ended_subsets _).complete hf).1, Array.length_toList]
    · rw [reports_subsets, hnodes]
    · rw [eraseIdx_log_reports_subsets, hnodes]

end Automaton

end PatternAutomata
