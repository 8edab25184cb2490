import PatternAutomata.Proofs.Determinization
import PatternAutomata.Proofs.Meaning
import PatternAutomata.Proofs.PatternSearch

/-!
# Compiled patterns have no dead ends

About the states that `build_nfa` (in `nfa`) and `build_dfa` (in `dfa`) make, and among them those
without edges, at which `longest_at` (in `machine`) ends a candidate.

From every state of a compiled pattern some text leads to an accepting state. This is so because it
holds of the fragment of every live expression and is kept from there on: each operation on
fragments keeps a way from every state to the way out, the states of an automaton that are in reach
keep their ways, and a set of states that is numbered is never empty.

Where a choice is begun, its way in leads nowhere until there is a branch. That is why a branch is
added to a fragment whose way in may be a dead end.

Results:
* `Expr.noDeadEnd_fragment`: the fragment of a live expression has no dead ends;
* `Automaton.exists_acceptsFrom_of_determinize`: the subset construction makes none;
* **`Regex.exists_acceptsFrom_of_compile`**: a compiled pattern has none, its states without edges
  are accepting, and it accepts some text.
-/

namespace PatternAutomata

/-! ## Ways -/

section

variable {σ : Type} {arc : σ → Label → σ → Prop} {i j k x y : σ}

/-- Some walk leads from `i` to `j`. -/
def Reaches (arc : σ → Label → σ → Prop) (i j : σ) : Prop := ∃ w, Walk arc i w j

theorem Reaches.refl (i : σ) : Reaches arc i i := ⟨[], .nil i⟩

theorem Reaches.trans (h : Reaches arc i j) (h' : Reaches arc j k) : Reaches arc i k := by
  obtain ⟨u, hu⟩ := h
  obtain ⟨v, hv⟩ := h'
  exact ⟨u ++ v, hu.append hv⟩

theorem Reaches.mono {arc' : σ → Label → σ → Prop} (hle : ∀ {i l j}, arc i l j → arc' i l j)
    (h : Reaches arc i j) : Reaches arc' i j := by
  obtain ⟨w, hw⟩ := h
  exact ⟨w, hw.mono hle⟩

/-- What could be reached can be reached when a silent arc is added. -/
theorem Reaches.old (h : Reaches arc i j) : Reaches (addSilent arc x y) i j := h.mono addSilent_old

/-- A silent arc that is added leads from its beginning to its end. -/
theorem Reaches.new : Reaches (addSilent arc x y) x y := ⟨[], .silent_arc addSilent_new⟩

end

/-! ## Fragments -/

namespace Fragment

variable {f g : Fragment} {i : Nat}

/-- From every state some walk leads to the way out. -/
def NoDeadEnd (f : Fragment) : Prop := ∀ i < f.size, Reaches f.arc i f.stop

theorem noDeadEnd_parallel {labels : List Label} {c : Char}
    (h : ∃ l ∈ labels, l.accepts c = true) : (parallel labels).NoDeadEnd := by
  obtain ⟨l, hl, hc⟩ := h
  intro i hi
  have hi : i < 2 := hi
  obtain rfl | rfl : i = 0 ∨ i = 1 := by omega
  · exact ⟨[c], .read_arc (arc_parallel.mpr ⟨rfl, hl, rfl⟩) hc⟩
  · exact .refl 1

theorem reaches_beside_left {j : Nat} (h : Reaches f.arc i j) : Reaches (beside f g) i j :=
  h.mono Or.inl

theorem reaches_beside_right {j : Nat} (h : Reaches g.arc i j) :
    Reaches (beside f g) (i + f.size) (j + f.size) := by
  obtain ⟨w, hw⟩ := h
  exact ⟨w, walk_beside_right hw⟩

/-- A state of two fragments side by side is one of the first or one of the second. -/
theorem lt_or_exists_add (h : i < f.size + g.size) :
    i < f.size ∨ ∃ i' < g.size, i = i' + f.size := by
  by_cases hi : i < f.size
  · exact Or.inl hi
  · exact Or.inr ⟨i - f.size, by omega, by omega⟩

theorem noDeadEnd_append (hg : g.Valid) (h : f.NoDeadEnd) (h' : g.NoDeadEnd) :
    (f.append g).NoDeadEnd := by
  intro i hi
  show Reaches (f.append g).arc i (g.stop + f.size)
  rw [arc_append]
  rcases lt_or_exists_add hi with hi | ⟨i, hi', rfl⟩
  · have hright := reaches_beside_right (f := f) (h' g.start hg.start_lt)
    exact (reaches_beside_left (h i hi)).old.trans (Reaches.new.trans hright.old)
  · exact (reaches_beside_right (h' i hi')).old

/-- With a branch the way in is no dead end, even if it was one. -/
theorem noDeadEnd_addBranch (hg : g.Valid)
    (h : ∀ i < f.size, i ≠ f.start → Reaches f.arc i f.stop) (h' : g.NoDeadEnd) :
    (f.addBranch g).NoDeadEnd := by
  intro i hi
  show Reaches (f.addBranch g).arc i f.stop
  rw [arc_addBranch]
  have right : ∀ i < g.size, Reaches (addSilent (addSilent (beside f g) f.start (g.start + f.size))
      (g.stop + f.size) f.stop) (i + f.size) f.stop := fun i hi =>
    (reaches_beside_right (h' i hi)).old.old.trans Reaches.new
  rcases lt_or_exists_add hi with hi | ⟨i, hi', rfl⟩
  · by_cases hs : i = f.start
    · rw [hs]
      exact Reaches.new.old.trans (right g.start hg.start_lt)
    · exact (reaches_beside_left (h i hi hs)).old.old
  · exact right i hi'

theorem noDeadEnd_plus (h : f.NoDeadEnd) : f.plus.NoDeadEnd := by
  intro i hi
  rw [arc_plus]
  exact (h i hi).old

theorem noDeadEnd_optional (h : f.NoDeadEnd) : f.optional.NoDeadEnd := by
  intro i hi
  rw [arc_optional]
  exact (h i hi).old

theorem noDeadEnd_star (h : f.NoDeadEnd) : f.star.NoDeadEnd := by
  intro i hi
  have hi : i < f.size + 2 := hi
  show Reaches f.star.arc i (f.size + 1)
  rw [arc_star]
  obtain hi | rfl | rfl : i < f.size ∨ i = f.size ∨ i = f.size + 1 := by omega
  · have hout : Reaches f.plus.arc i f.stop := noDeadEnd_plus h i hi
    exact hout.old.old.old.trans Reaches.new.old
  · exact .new
  · exact .refl _

end Fragment

/-! ## Expressions -/

namespace Expr

open Fragment

mutual

/-- **The fragment of a live expression** has no dead ends. -/
theorem noDeadEnd_fragment : ∀ {e : Expr}, e.Live → e.fragment.NoDeadEnd
  | .chars cls, ⟨c, hc⟩ => noDeadEnd_parallel ((cls.labels_accept c).mpr hc)
  | .sequence _ rest, h => noDeadEnd_appendAll (noDeadEnd_fragment h.1) h.2
  | .choice [], h => absurd rfl h.1
  | .choice (e :: rest), h => by
    have hhub : ∀ i < hub.size, i ≠ hub.start → Reaches hub.arc i hub.stop := by
      intro i hi hs
      obtain rfl : i = 1 := by
        have hi : i < 2 := hi
        have hs : i ≠ 0 := hs
        omega
      exact .refl 1
    rw [fragment, addBranches]
    exact noDeadEnd_addBranches
      (noDeadEnd_addBranch e.fragment_spec.1 hhub (noDeadEnd_fragment h.2.1)) h.2.2
  | .star _, h => noDeadEnd_star (noDeadEnd_fragment h)
  | .plus _, h => noDeadEnd_plus (noDeadEnd_fragment h)
  | .optional _, h => noDeadEnd_optional (noDeadEnd_fragment h)

theorem noDeadEnd_appendAll : ∀ {f : Fragment} {rest : List Expr}, f.NoDeadEnd → LiveAll rest →
    (appendAll f rest).NoDeadEnd
  | _, [], hf, _ => hf
  | _, e :: _, hf, h => by
    rw [appendAll]
    exact noDeadEnd_appendAll
      (noDeadEnd_append e.fragment_spec.1 hf (noDeadEnd_fragment h.1)) h.2

theorem noDeadEnd_addBranches : ∀ {f : Fragment} {branches : List Expr}, f.NoDeadEnd →
    LiveAll branches → (addBranches f branches).NoDeadEnd
  | _, [], hf, _ => hf
  | _, e :: _, hf, h => by
    rw [addBranches]
    exact noDeadEnd_addBranches (noDeadEnd_addBranch e.fragment_spec.1 (fun i hi _ => hf i hi)
      (noDeadEnd_fragment h.1)) h.2

end

end Expr

/-! ## Automata -/

namespace Automaton

variable {a d : Automaton} {i j : Nat}

/-- From every state some walk leads to an accepting one. -/
def NoDeadEnd (a : Automaton) : Prop := ∀ i < a.size, ∃ j, Reaches a.arc i j ∧ a.accepting j = true

/-- The automaton of a fragment has a state, its edges lead to states, and it has no dead ends if
the fragment has none. -/
theorem noDeadEnd_toAutomaton {f : Fragment} (hf : f.Valid) (h : f.NoDeadEnd) :
    0 < f.toAutomaton.size ∧ f.toAutomaton.Closed ∧ f.toAutomaton.NoDeadEnd := by
  have hs : f.start < f.toGraph.size := by
    rw [Fragment.size_toGraph]
    exact hf.start_lt
  have hend := ended_numbering f.toGraph f.start
  have hnot := numbering_not_refused hs
  unfold Fragment.toAutomaton
  refine ⟨?_, ?_, fun n hn => ?_⟩
  · rw [ofGraph_eq, lt_size_ofTable_iff hend hnot]
    exact ⟨_, numbering_zero hs⟩
  · rw [ofGraph_eq]
    exact closed_ofTable hend hnot
  · rw [ofGraph_eq, lt_size_ofTable_iff hend hnot] at hn
    obtain ⟨i, hi⟩ := hn
    have hlt := Graph.reachable_lt hs (hend.reachable i (Array.mem_of_getElem? hi))
    rw [Fragment.size_toGraph] at hlt
    obtain ⟨w, hw⟩ := h i hlt
    obtain ⟨m, hwm, hm⟩ := exists_walk_ofGraph hs hi (hw.mono hf.arc_toGraph_iff.mpr)
    refine ⟨m, ⟨w, hwm⟩, ?_⟩
    rw [accepting_ofGraph hs hm]
    exact (Fragment.accepting_toGraph_iff hf).mpr rfl

/-! ### Sets of states -/

/-- A numbered set of states is what can be reached from some state without reading. -/
theorem exists_seed_of_subset (hsize : 0 < a.size) (hclosed : a.Closed) {limit n : Nat}
    {s : StateSet} (hn : (a.subsets limit).nodes[n]? = some s) :
    ∃ seeds, s = a.closure seeds ∧ ∃ i ∈ seeds, i < a.size := by
  obtain ⟨r, hr, hrs⟩ := (a.ended_subsets limit).reachable s (Array.mem_of_getElem? hn)
  cases hrs with
  | refl => exact ⟨[initial], List.mem_singleton.mp hr, initial, List.mem_singleton_self _, hsize⟩
  | tail _ hstep =>
    obtain ⟨i, hi⟩ := hstep
    obtain ⟨c, hne, rfl⟩ := exists_moves_of_mem_moveAll hi
    obtain ⟨j, hj⟩ := List.exists_mem_of_ne_nil _ hne
    obtain ⟨k, -, l, ha, -⟩ := mem_moves.mp hj
    exact ⟨_, rfl, j, hj, hclosed k l j ha⟩

/-- **The subset construction makes no dead ends**: the text that leads from some state of a set to
an accepting one is accepted from the set. -/
theorem exists_acceptsFrom_of_determinize (hsize : 0 < a.size) (hclosed : a.Closed)
    (h : a.NoDeadEnd) {limit : Nat} (hd : a.determinize limit = .ok d) :
    d.Closed ∧ ∀ n < d.size, ∃ w, d.acceptsFrom n w = true := by
  obtain ⟨hf, rfl⟩ := determinize_eq_ok hd
  refine ⟨closed_ofTable (a.ended_subsets limit) hf, fun n hn => ?_⟩
  rw [ofSubsets_eq] at hn
  obtain ⟨s, hs⟩ := exists_node_of_lt hn
  obtain ⟨seeds, rfl, i, hi, hlt⟩ := exists_seed_of_subset hsize hclosed hs
  obtain ⟨j, ⟨w, hw⟩, hacc⟩ := h i hlt
  refine ⟨w, ?_⟩
  rw [acceptsFrom_ofSubsets hf hs, anyAccepting_iff]
  exact ⟨j, mem_run_closure.mpr ⟨accepting_lt hacc, i, hi, hw⟩, hacc⟩

/-- Where no edge leaves a state, only the empty text can be accepted. -/
theorem accepting_of_edges_eq_nil {n : Nat} {w : List Char} (he : d.edges n = [])
    (h : d.acceptsFrom n w = true) : d.accepting n = true := by
  cases w with
  | nil => exact h
  | cons c w =>
    cases hstep : d.step n c with
    | none =>
      rw [acceptsFrom_none hstep] at h
      cases h
    | some m =>
      obtain ⟨l, ha, -⟩ := arc_of_step hstep
      unfold arc at ha
      rw [he] at ha
      exact absurd ha List.not_mem_nil

/-- The automaton of a pattern is that of a live expression, so its edges lead to states and it has
no dead ends. -/
theorem noDeadEnd_ofPattern {limits : Limits} {pattern : String}
    (h : ofPattern limits pattern = .ok a) : 0 < a.size ∧ a.Closed ∧ a.NoDeadEnd := by
  obtain ⟨t, e, ht, he, -, rfl⟩ := ofPattern_eq_ok h
  exact noDeadEnd_toAutomaton e.fragment_spec.1
    (Expr.noDeadEnd_fragment (Expr.live_of_parse ht he))

end Automaton

/-! ## Compiled patterns -/

namespace Regex

variable {pattern : String} {limits : Limits} {re : Regex}

/-- **A compiled pattern has no dead ends**: from every state some text leads to an accepting one,
and every step leads to a state. So a state without edges is accepting, and some text is accepted.
-/
theorem exists_acceptsFrom_of_compile (h : compile pattern limits = .ok re) :
    (∀ n < re.automaton.size, ∃ w, re.automaton.acceptsFrom n w = true) ∧
      (∀ n c m, re.automaton.step n c = some m → m < re.automaton.size) ∧
      (∀ n < re.automaton.size, re.automaton.edges n = [] → re.automaton.accepting n = true) ∧
      ∃ w, re.automaton.accepts w = true := by
  obtain ⟨a, ha, hd⟩ := compile_eq_ok h
  obtain ⟨hsize, hclosed, hno⟩ := Automaton.noDeadEnd_ofPattern ha
  obtain ⟨hclosed', hall⟩ := Automaton.exists_acceptsFrom_of_determinize hsize hclosed hno hd
  refine ⟨hall, fun n c m hstep => ?_, fun n hn he => ?_, ?_⟩
  · obtain ⟨l, harc, -⟩ := Automaton.arc_of_step hstep
    exact hclosed' n l m harc
  · obtain ⟨w, hw⟩ := hall n hn
    exact Automaton.accepting_of_edges_eq_nil he hw
  · obtain ⟨j, ⟨w, hw⟩, hacc⟩ := hno Automaton.initial hsize
    refine ⟨w, ?_⟩
    rw [(Automaton.deterministic_determinize hd).accepts_eq,
      Automaton.acceptsFrom_determinize hd, Automaton.accepts_iff_walk]
    exact ⟨j, hw, hacc⟩

/-- A negated class reads all that is left, and the last state of `[^b]c?` has no edges. -/
theorem exists_acceptsFrom_of_compile_negated :
    ∃ re, compile "[^b]c?" = .ok re ∧ re.automaton.size = 3 ∧
      (∀ n < re.automaton.size, ∃ w, re.automaton.acceptsFrom n w = true) ∧
      re.automaton.edges 2 = [] ∧ re.automaton.accepting 2 = true := by
  have h : compile "[^b]c?" = .ok ⟨"[^b]c?", .ofRows [
      ⟨[⟨.within ⟨'\x00', 'a'⟩, 1⟩, ⟨.within ⟨'c', lastChar⟩, 1⟩], false⟩,
      ⟨[⟨.single 'c', 2⟩], true⟩, ⟨[], true⟩]⟩ :=
    compile_of_toOption (by decide +kernel)
  obtain ⟨hall, -, hend, -⟩ := exists_acceptsFrom_of_compile h
  exact ⟨_, h, rfl, hall, rfl, hend 2 (by decide) rfl⟩

end Regex

end PatternAutomata
