import PatternAutomata.Proofs.Determinism
import PatternAutomata.Proofs.Numbering
import PatternAutomata.Proofs.Partition
import PatternAutomata.Regex.Basic

/-!
# The subset construction keeps the language

About `build_dfa` with `move_on` (in `dfa`): which texts its result accepts.

The state that the subset construction makes of a set moves, on each character, to the set of what
can be reached from the first one by that character. One character of each interval is tried, and
adjacent intervals are joined, neither of which matters: no label tells the characters of an
interval apart. So the automaton is in the state of a set exactly when a run would be in that set.

Results:
* `Automaton.mem_moveAll`: the set that a set moves to on a character;
* `Automaton.deterministic_ofSubsets`: the new automaton is deterministic;
* **`Automaton.determinize_accepts`**: it accepts what the old one accepts.

Out of scope: the order of the states and the limit (`Proofs.SubsetOrder`).
-/

namespace PatternAutomata

/-! ## Joining adjacent intervals -/

section

variable {σ : Type} {c : Char} {y : σ}

/-- The characters that lead to `y`. -/
def LeadsTo (row : List (Interval × σ)) (c : Char) (y : σ) : Prop := ∃ i, (i, y) ∈ row ∧ c ∈ i

theorem leadsTo_cons {i : Interval} {x : σ} {row : List (Interval × σ)} :
    LeadsTo ((i, x) :: row) c y ↔ y = x ∧ c ∈ i ∨ LeadsTo row c y := by
  unfold LeadsTo
  constructor
  · rintro ⟨k, hk, hc⟩
    rcases List.mem_cons.mp hk with hk | hk
    · cases hk
      exact Or.inl ⟨rfl, hc⟩
    · exact Or.inr ⟨k, hk, hc⟩
  · rintro (⟨rfl, hc⟩ | ⟨k, hk, hc⟩)
    · exact ⟨i, List.mem_cons_self, hc⟩
    · exact ⟨k, List.mem_cons_of_mem _ hk, hc⟩

/-- Two adjacent intervals that are not empty make up the interval around both. -/
theorem mem_join {i j : Interval} (hi : i.lo ≤ i.hi) (hj : j.lo ≤ j.hi) (h : i.adjoins j = true) :
    c ∈ Interval.mk i.lo j.hi ↔ c ∈ i ∨ c ∈ j := by
  have hs : i.hi.succ? = some j.lo := beq_iff_eq.mp h
  rw [succ?_eq_some] at hs
  rw [char_le_iff] at hi hj
  simp only [Interval.mem_iff, char_le_iff]
  omega

variable [DecidableEq σ]

theorem leadsTo_joinFrom {rest : List (Interval × σ)} : ∀ {i : Interval} {x : σ}, i.lo ≤ i.hi →
    (∀ p ∈ rest, p.1.lo ≤ p.1.hi) →
    (LeadsTo (joinFrom i x rest) c y ↔ LeadsTo ((i, x) :: rest) c y) := by
  induction rest with
  | nil => exact fun _ _ => Iff.rfl
  | cons p rest ih =>
    obtain ⟨j, z⟩ := p
    intro i x hi h
    obtain ⟨hj, hrest⟩ := List.forall_mem_cons.mp h
    unfold joinFrom
    by_cases hjoin : x = z ∧ i.adjoins j = true
    · rw [if_pos hjoin]
      obtain ⟨rfl, hadj⟩ := hjoin
      have hij : i.lo ≤ j.hi := by
        have hlo : i.lo ∈ i := Interval.mem_iff.mpr ⟨le_refl _, hi⟩
        exact (Interval.mem_iff.mp ((mem_join hi hj hadj).mpr (Or.inl hlo))).2
      rw [ih hij hrest, leadsTo_cons, leadsTo_cons, leadsTo_cons, mem_join hi hj hadj]
      tauto
    · rw [if_neg hjoin, leadsTo_cons, leadsTo_cons, ih hj hrest]

/-- Joining leads nowhere else. -/
theorem eq_or_mem_of_mem_joinFrom {k : Interval} {rest : List (Interval × σ)} :
    ∀ {i : Interval} {x : σ}, (k, y) ∈ joinFrom i x rest → y = x ∨ ∃ j, (j, y) ∈ rest := by
  induction rest with
  | nil =>
    intro i x h
    exact Or.inl (Prod.mk.inj (List.mem_singleton.mp h)).2
  | cons p rest ih =>
    obtain ⟨j, z⟩ := p
    intro i x h
    unfold joinFrom at h
    split at h
    · exact (ih h).imp_right fun ⟨j', hj'⟩ => ⟨j', List.mem_cons_of_mem _ hj'⟩
    · rcases List.mem_cons.mp h with h | h
      · exact Or.inl (Prod.mk.inj h).2
      · rcases ih h with rfl | ⟨j', hj'⟩
        · exact Or.inr ⟨j, List.mem_cons_self⟩
        · exact Or.inr ⟨j', List.mem_cons_of_mem _ hj'⟩

theorem exists_mem_of_mem_joinAdjacent {k : Interval} {row : List (Interval × σ)}
    (h : (k, y) ∈ joinAdjacent row) : ∃ j, (j, y) ∈ row := by
  cases row with
  | nil => exact absurd h List.not_mem_nil
  | cons p row =>
    rcases eq_or_mem_of_mem_joinFrom h with rfl | ⟨j, hj⟩
    · exact ⟨p.1, List.mem_cons_self⟩
    · exact ⟨j, List.mem_cons_of_mem p hj⟩

/-- Joining changes no character's way. -/
theorem leadsTo_joinAdjacent {row : List (Interval × σ)} (h : ∀ p ∈ row, p.1.lo ≤ p.1.hi) :
    LeadsTo (joinAdjacent row) c y ↔ LeadsTo row c y := by
  cases row with
  | nil => exact Iff.rfl
  | cons p row =>
    obtain ⟨hp, hrow⟩ := List.forall_mem_cons.mp h
    exact leadsTo_joinFrom hp hrow

end

namespace Automaton

variable {a : Automaton} {s t : StateSet} {c : Char} {i : Interval}

/-! ## Moves on whole intervals -/

theorem mem_alphabet {k j : Nat} {l : Label} (h : a.arc k l j) : l ∈ a.alphabet := by
  rw [a.alphabet_eq, Label.distinct, List.mem_eraseDups, List.mem_flatMap]
  have hk := arc_lt h
  unfold arc at h
  rw [edges_of_getElem? (Array.getElem?_eq_getElem hk)] at h
  exact ⟨_, Array.mem_toList_iff.mpr (Array.getElem_mem hk), List.mem_map.mpr ⟨_, h, rfl⟩⟩

/-- All characters of an interval of the alphabet are alike. -/
theorem moves_eq (hi : i ∈ a.symbols) (hc : c ∈ i) : a.moves s c = a.moves s i.lo := by
  unfold moves
  refine List.flatMap_congr fun k _ => ?_
  congr 1
  refine List.filter_congr fun e he => ?_
  exact Label.partition_alike hi hc (mem_alphabet he)

/-- A character on which some state moves is in an interval of the alphabet. -/
theorem exists_symbol (h : a.moves s c ≠ []) : ∃ i ∈ a.symbols, c ∈ i := by
  obtain ⟨j, hj⟩ := List.exists_mem_of_ne_nil _ h
  obtain ⟨k, -, l, ha, hc⟩ := mem_moves.mp hj
  exact Label.exists_mem_partition (mem_alphabet ha) hc

theorem moveOn_eq_some {p : Interval × StateSet} : a.moveOn s i = some p ↔
    a.moves s i.lo ≠ [] ∧ p = (i, a.closure (a.moves s i.lo)) := by
  unfold moveOn
  split
  · rename_i h
    simp [h]
  · rename_i h
    rw [Option.some_inj, eq_comm]
    exact ⟨fun hp => ⟨h, hp⟩, fun hp => hp.2⟩

/-- **The moves of a set**: on a character it moves to the closure of what its states move to, if
any of them moves. -/
theorem mem_moveAll : LeadsTo (a.moveAll a.symbols s) c t ↔
    a.moves s c ≠ [] ∧ t = a.closure (a.moves s c) := by
  unfold moveAll
  rw [leadsTo_joinAdjacent]
  · unfold LeadsTo
    simp only [List.mem_filterMap, moveOn_eq_some, Prod.mk.injEq]
    constructor
    · rintro ⟨i, ⟨j, hj, hne, rfl, rfl⟩, hc⟩
      rw [moves_eq hj hc]
      exact ⟨hne, rfl⟩
    · rintro ⟨hne, rfl⟩
      obtain ⟨i, hi, hc⟩ := exists_symbol hne
      rw [moves_eq hi hc] at hne ⊢
      exact ⟨i, ⟨i, hi, hne, rfl, rfl⟩, hc⟩
  · intro p hp
    obtain ⟨i, hi, hp⟩ := List.mem_filterMap.mp hp
    rw [(moveOn_eq_some.mp hp).2]
    exact Label.partition_nonempty hi

/-- A set moves only to closures of what some of its states move to. -/
theorem exists_moves_of_mem_moveAll (h : (i, t) ∈ a.moveAll a.symbols s) :
    ∃ c, a.moves s c ≠ [] ∧ t = a.closure (a.moves s c) := by
  obtain ⟨j, hj⟩ := exists_mem_of_mem_joinAdjacent h
  obtain ⟨k, -, hk⟩ := List.mem_filterMap.mp hj
  obtain ⟨hne, hp⟩ := moveOn_eq_some.mp hk
  exact ⟨k.lo, hne, (Prod.mk.inj hp).2⟩

/-! ## The automaton of the sets -/

variable {limit n m : Nat}

theorem ended_subsets (a : Automaton) (limit : Nat) :
    (a.subsets limit).Ended (a.moveAll a.symbols) limit [a.closure [initial]] :=
  Exploration.ended_explore (a.moveAll a.symbols) limit [a.closure [initial]]

theorem ofSubsets_eq (a : Automaton) (found : Exploration Interval StateSet) :
    a.ofSubsets found = ofTable .within a.anyAccepting found :=
  rfl

/-- The edges of a numbered set lead to the sets to which it moves. -/
theorem arc_ofSubsets_iff (hf : (a.subsets limit).refused = false)
    (hn : (a.subsets limit).nodes[n]? = some s) {l : Label} :
    (a.ofSubsets (a.subsets limit)).arc n l m ↔ ∃ i t, l = .within i ∧
      (i, t) ∈ a.moveAll a.symbols s ∧ (a.subsets limit).nodes[m]? = some t := by
  rw [ofSubsets_eq, arc_ofTable_iff (a.ended_subsets limit) hf hn]

/-- An edge that reads a character leads to the set to which the set moves on it. -/
theorem nodes_of_arc_ofSubsets (hf : (a.subsets limit).refused = false)
    (hn : (a.subsets limit).nodes[n]? = some s) {l : Label}
    (ha : (a.ofSubsets (a.subsets limit)).arc n l m) (hc : l.accepts c = true) :
    a.moves s c ≠ [] ∧ (a.subsets limit).nodes[m]? = some (a.closure (a.moves s c)) := by
  obtain ⟨i, t, rfl, ht, hm⟩ := (arc_ofSubsets_iff hf hn).mp ha
  obtain ⟨hne, rfl⟩ := mem_moveAll.mp ⟨i, ht, hc⟩
  exact ⟨hne, hm⟩

theorem step_ofSubsets_none (hf : (a.subsets limit).refused = false)
    (hn : (a.subsets limit).nodes[n]? = some s) (hc : a.moves s c = []) :
    (a.ofSubsets (a.subsets limit)).step n c = none := by
  rw [Option.eq_none_iff_forall_ne_some]
  intro m hstep
  obtain ⟨l, ha, hlc⟩ := arc_of_step hstep
  exact (nodes_of_arc_ofSubsets hf hn ha hlc).1 hc

/-- **One step** leads from the state of a set to the state of the set to which it moves. -/
theorem step_ofSubsets_some (hf : (a.subsets limit).refused = false)
    (hn : (a.subsets limit).nodes[n]? = some s) (hc : a.moves s c ≠ []) :
    ∃ m, (a.ofSubsets (a.subsets limit)).step n c = some m ∧
      (a.subsets limit).nodes[m]? = some (a.closure (a.moves s c)) := by
  obtain ⟨i, ht, hci⟩ := mem_moveAll.mpr ⟨hc, rfl⟩
  obtain ⟨row, -, hnames⟩ := (a.ended_subsets limit).exists_row hf hn
  obtain ⟨m, -, hm⟩ := Exploration.exists_number hnames ht
  obtain ⟨k, hk⟩ := exists_step ((arc_ofSubsets_iff hf hn).mpr ⟨i, _, rfl, ht, hm⟩) hci
  obtain ⟨l, ha, hlc⟩ := arc_of_step hk
  exact ⟨k, hk, (nodes_of_arc_ofSubsets hf hn ha hlc).2⟩

/-- **The automaton of the sets is deterministic.** -/
theorem deterministic_ofSubsets (hf : (a.subsets limit).refused = false) :
    (a.ofSubsets (a.subsets limit)).Deterministic where
  reads n l m ha := by
    obtain ⟨s, hn⟩ := exists_node_of_lt (arc_lt ha)
    obtain ⟨i, -, rfl, -⟩ := (arc_ofSubsets_iff hf hn).mp ha
    exact Label.noConfusion
  step n l m c ha hc := by
    obtain ⟨s, hn⟩ := exists_node_of_lt (arc_lt ha)
    obtain ⟨hne, hm⟩ := nodes_of_arc_ofSubsets hf hn ha hc
    obtain ⟨k, hk, hk'⟩ := step_ofSubsets_some hf hn hne
    rw [(a.ended_subsets limit).place_inj hm hk']
    exact hk

/-! ## Acceptance -/

/-- Nothing is accepted where no state is left. -/
theorem anyAccepting_run_nil (w : List Char) : a.anyAccepting (a.run (a.closure []) w) = false := by
  rw [← Bool.not_eq_true, anyAccepting_iff]
  rintro ⟨j, hj, -⟩
  obtain ⟨-, i, hi, -⟩ := mem_run_closure.mp hj
  exact List.not_mem_nil hi

/-- From the state of a set the new automaton accepts what the set accepts. -/
theorem acceptsFrom_ofSubsets (hf : (a.subsets limit).refused = false) {w : List Char} :
    ∀ {n : Nat} {s : StateSet}, (a.subsets limit).nodes[n]? = some s →
      (a.ofSubsets (a.subsets limit)).acceptsFrom n w = a.anyAccepting (a.run s w) := by
  induction w with
  | nil =>
    intro n s hn
    rw [acceptsFrom, ofSubsets_eq, accepting_ofTable (a.ended_subsets limit) hf hn, run]
  | cons c w ih =>
    intro n s hn
    by_cases hc : a.moves s c = []
    · rw [acceptsFrom_none (step_ofSubsets_none hf hn hc), run, hc, anyAccepting_run_nil]
    · obtain ⟨m, hstep, hm⟩ := step_ofSubsets_some hf hn hc
      rw [acceptsFrom_some hstep, ih hm, run]

/-- With a limit of no states the closure of the initial state is refused. -/
theorem subsets_zero (a : Automaton) : (a.subsets 0).refused = true := by
  rw [← Bool.not_eq_false]
  intro hf
  have hend := a.ended_subsets 0
  have hmem := (hend.complete hf).2 _ (List.mem_singleton_self _)
  obtain ⟨i, hi⟩ := Array.mem_iff_getElem?.mp hmem
  have := (Array.getElem?_eq_some_iff.mp hi).1
  have := hend.size_le
  omega

theorem determinize?_eq_some {d : Automaton} (h : a.determinize? limit = some d) :
    (a.subsets limit).refused = false ∧ d = a.ofSubsets (a.subsets limit) := by
  by_cases hf : (a.subsets limit).refused = true
  · simp [determinize?, hf] at h
  · simp only [determinize?, hf, Bool.false_eq_true, if_false, Option.some.injEq] at h
    exact ⟨Bool.eq_false_iff.mpr hf, h.symm⟩

theorem determinize_of_some {d : Automaton} (h : a.determinize? limit = some d) :
    a.determinize limit = .ok d := by
  unfold determinize
  rw [h]

theorem determinize_eq_ok {d : Automaton} (h : a.determinize limit = .ok d) :
    (a.subsets limit).refused = false ∧ d = a.ofSubsets (a.subsets limit) := by
  unfold determinize at h
  split at h
  · rename_i d' hd
    cases h
    exact determinize?_eq_some hd
  · cases h

theorem deterministic_determinize {d : Automaton} (h : a.determinize limit = .ok d) :
    d.Deterministic := by
  obtain ⟨hf, rfl⟩ := determinize_eq_ok h
  exact deterministic_ofSubsets hf

theorem acceptsFrom_determinize {d : Automaton} (h : a.determinize limit = .ok d)
    (w : List Char) : d.acceptsFrom initial w = a.accepts w := by
  obtain ⟨hf, rfl⟩ := determinize_eq_ok h
  have hlimit : 0 < limit := by
    rw [Nat.pos_iff_ne_zero]
    rintro rfl
    rw [subsets_zero] at hf
    cases hf
  have hzero : (a.subsets limit).nodes[initial]? = some (a.closure [initial]) :=
    Exploration.nodes_explore_zero (a.moveAll a.symbols) hlimit (a.closure [initial]) []
  rw [acceptsFrom_ofSubsets hf hzero, accepts]

/-- **The subset construction keeps the language**: whatever its edges read and wherever they lead,
an automaton and the deterministic one made of it accept the same texts. -/
theorem determinize_accepts {d : Automaton} (h : a.determinize limit = .ok d) (w : List Char) :
    d.accepts w = a.accepts w := by
  rw [(deterministic_determinize h).accepts_eq, acceptsFrom_determinize h]

/-- Overlapping labels, and a cycle on which nothing is read: both states are in every set, and the
three intervals of the alphabet are joined into one. -/
theorem determinize_accepts_overlapping :
    ∃ a d, a = ofGraph #[⟨[⟨.excluding ['b'], 0⟩, ⟨.epsilon, 1⟩], false, false⟩,
        ⟨[⟨.within ⟨'a', 'c'⟩, 1⟩, ⟨.epsilon, 0⟩], false, true⟩] 0 ∧
      d = ofRows [⟨[⟨.within ⟨'\x00', lastChar⟩, 0⟩], true⟩] ∧
      a.determinize 1 = .ok d ∧ ∀ w, d.accepts w = a.accepts w := by
  refine ⟨_, _, rfl, rfl, ?eval, fun w => determinize_accepts ?eval w⟩
  exact determinize_of_some (by decide +kernel)

end Automaton

end PatternAutomata
