import PatternAutomata.Proofs.Runs

/-!
# Deterministic automata

About `step` and `accepts` (in `automaton`), where no two edges compete for a character.
`longest_at` (in `machine`) relies on it.

In a deterministic automaton every edge reads a character, and the edges of a state that read the
same character lead to one state. `Automaton.step` then follows the only way there is, although it
looks at the first edge alone.

Results:
* `Automaton.Deterministic.acceptsFrom_iff_walk`: following a text is the same as looking for a walk
  that reads it;
* **`Automaton.Deterministic.accepts_eq`**: a deterministic automaton accepts what it accepts step
  by step from its initial state.
-/

namespace PatternAutomata.Automaton

/-- Whether the text leads, step by step, from state `i` to an accepting one. -/
def acceptsFrom (d : Automaton) : Nat → List Char → Bool
  | i, [] => d.accepting i
  | i, c :: text =>
    match d.step i c with
    | none => false
    | some j => d.acceptsFrom j text

/-- Every edge reads a character, and no other edge of its state reads this character and leads
elsewhere. -/
structure Deterministic (d : Automaton) : Prop where
  reads : ∀ i l j, d.arc i l j → l ≠ .epsilon
  step : ∀ i l j c, d.arc i l j → l.accepts c = true → d.step i c = some j

variable {d : Automaton} {i j : Nat} {c : Char} {w : List Char}

theorem acceptsFrom_none (h : d.step i c = none) : d.acceptsFrom i (c :: w) = false := by
  rw [acceptsFrom, h]

theorem acceptsFrom_some (h : d.step i c = some j) :
    d.acceptsFrom i (c :: w) = d.acceptsFrom j w := by
  rw [acceptsFrom, h]

/-- The state that a step leads to is the target of an edge that reads the character. -/
theorem arc_of_step (h : d.step i c = some j) : ∃ l, d.arc i l j ∧ l.accepts c = true := by
  unfold Automaton.step at h
  obtain ⟨s, hs, h⟩ := Option.bind_eq_some_iff.mp h
  unfold State.step at h
  obtain ⟨e, he, rfl⟩ := Option.map_eq_some_iff.mp h
  have hc := List.find?_some he
  refine ⟨e.label, ?_, hc⟩
  unfold arc
  rw [edges_of_getElem? hs]
  exact List.mem_of_find?_eq_some he

/-- There is a step where an edge reads the character. -/
theorem exists_step {l : Label} (ha : d.arc i l j) (hc : l.accepts c = true) :
    ∃ k, d.step i c = some k := by
  have hs := Array.getElem?_eq_getElem (arc_lt ha)
  unfold arc at ha
  rw [edges_of_getElem? hs] at ha
  unfold Automaton.step State.step
  rw [hs, Option.bind_some, ← Option.isSome_iff_exists, Option.isSome_map, List.find?_isSome]
  exact ⟨⟨l, j⟩, ha, hc⟩

/-- Following a text is looking for a walk that reads it. -/
theorem Deterministic.acceptsFrom_iff_walk (h : d.Deterministic) :
    d.acceptsFrom i w = true ↔ ∃ j, Walk d.arc i w j ∧ d.accepting j = true := by
  induction w generalizing i with
  | nil =>
    constructor
    · intro hacc
      exact ⟨i, .nil i, hacc⟩
    · rintro ⟨j, hw, hacc⟩
      cases hw with
      | nil => exact hacc
      | silent ha _ => exact absurd rfl (h.reads _ _ _ ha)
  | cons c w ih =>
    constructor
    · intro hacc
      cases hstep : d.step i c with
      | none =>
        rw [acceptsFrom_none hstep] at hacc
        cases hacc
      | some k =>
        rw [acceptsFrom_some hstep] at hacc
        obtain ⟨j, hw, hj⟩ := ih.mp hacc
        obtain ⟨l, ha, hc⟩ := arc_of_step hstep
        exact ⟨j, .read ha hc hw, hj⟩
    · rintro ⟨j, hw, hacc⟩
      cases hw with
      | silent ha _ => exact absurd rfl (h.reads _ _ _ ha)
      | read ha hc hw =>
        rw [acceptsFrom_some (h.step _ _ _ _ ha hc)]
        exact ih.mpr ⟨j, hw, hacc⟩

/-- **A deterministic automaton** accepts what it accepts step by step. -/
theorem Deterministic.accepts_eq (h : d.Deterministic) (w : List Char) :
    d.accepts w = d.acceptsFrom initial w := by
  rw [Bool.eq_iff_iff, accepts_iff_walk, h.acceptsFrom_iff_walk]

end PatternAutomata.Automaton
