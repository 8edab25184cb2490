import Mathlib
import PatternAutomata.Automaton.Label

/-!
# Walks and what they read

The notion behind the theorems about `accepts` and `from_graph` (in `automaton`) and about the
fragments of `NfaBuilder` (in `nfa`).

A `Walk` goes from node to node along labelled arcs. An arc with the silent label reads nothing, any
other reads one character that its label accepts. Graphs, fragments and automata all have walks;
what differs is where their arcs come from, so an arc relation is all that is assumed here.

`walks arc i j` is the language of the walks from `i` to `j`. One silent arc more changes these
languages by Kleene's formula: a walk passes the new arc not at all, or comes to it, passes it, goes
back to its beginning any number of times, and goes on from its end.

Results:
* `Walk.transfer`: walks can be followed in another graph, node by node;
* **`walks_addSilent`**: the languages after one silent arc is added.
-/

namespace PatternAutomata

open Computability

variable {σ τ : Type} {arc : σ → Label → σ → Prop} {i j k : σ} {u v w : List Char}

/-- Some way from a node to a node that reads a text. -/
inductive Walk (arc : σ → Label → σ → Prop) : σ → List Char → σ → Prop
  | nil (i : σ) : Walk arc i [] i
  | silent {i j k : σ} {w : List Char} : arc i .epsilon j → Walk arc j w k → Walk arc i w k
  | read {i j k : σ} {l : Label} {c : Char} {w : List Char} :
    arc i l j → l.accepts c = true → Walk arc j w k → Walk arc i (c :: w) k

namespace Walk

theorem append (hu : Walk arc i u j) (hv : Walk arc j v k) : Walk arc i (u ++ v) k := by
  induction hu with
  | nil => exact hv
  | silent ha _ ih => exact .silent ha (ih hv)
  | read ha hc _ ih => exact .read ha hc (ih hv)

theorem silent_arc (ha : arc i .epsilon j) : Walk arc i [] j := .silent ha (.nil j)

theorem read_arc {l : Label} {c : Char} (ha : arc i l j) (hc : l.accepts c = true) :
    Walk arc i [c] j :=
  .read ha hc (.nil j)

/-- A walk that reads something: nothing up to an arc that reads the first character, then the
rest. -/
theorem cons_inv {c : Char} (h : Walk arc i (c :: w) k) :
    ∃ j l j', Walk arc i [] j ∧ arc j l j' ∧ l.accepts c = true ∧ Walk arc j' w k := by
  generalize hcw : c :: w = x at h
  induction h with
  | nil => cases hcw
  | silent ha _ ih =>
    obtain ⟨j, l, j', h0, ha', hc, hw⟩ := ih hcw
    exact ⟨j, l, j', .silent ha h0, ha', hc, hw⟩
  | read ha hc hw =>
    cases hcw
    exact ⟨_, _, _, .nil _, ha, hc, hw⟩

/-- **Transfer**: when nodes correspond so that each arc from a node has its like from the
corresponding one, so has each walk. -/
theorem transfer (arc' : τ → Label → τ → Prop) (φ : σ → τ → Prop)
    (step : ∀ {i i' l j}, φ i i' → arc i l j → ∃ j', arc' i' l j' ∧ φ j j')
    (h : Walk arc i w j) : ∀ {i' : τ}, φ i i' → ∃ j', Walk arc' i' w j' ∧ φ j j' := by
  induction h with
  | nil i => exact fun hi => ⟨_, .nil _, hi⟩
  | silent ha _ ih =>
    intro i' hi
    obtain ⟨k, ha', hk⟩ := step hi ha
    obtain ⟨j', hw, hj⟩ := ih hk
    exact ⟨j', .silent ha' hw, hj⟩
  | read ha hc _ ih =>
    intro i' hi
    obtain ⟨k, ha', hk⟩ := step hi ha
    obtain ⟨j', hw, hj⟩ := ih hk
    exact ⟨j', .read ha' hc hw, hj⟩

theorem mono {arc' : σ → Label → σ → Prop} (hle : ∀ {i l j}, arc i l j → arc' i l j)
    (h : Walk arc i w j) : Walk arc' i w j := by
  obtain ⟨_, hw, rfl⟩ := h.transfer arc' Eq (fun hi ha => ⟨_, hi ▸ hle ha, rfl⟩) rfl
  exact hw

end Walk

/-! ## Languages of walks -/

/-- What the walks from `i` to `j` read. -/
def walks (arc : σ → Label → σ → Prop) (i j : σ) : Language Char := {w | Walk arc i w j}

theorem one_le_walks (arc : σ → Label → σ → Prop) (i : σ) : 1 ≤ walks arc i i := by
  rintro w rfl
  exact Walk.nil i

theorem walks_mono {arc' : σ → Label → σ → Prop} (hle : ∀ {i l j}, arc i l j → arc' i l j)
    (i j : σ) : walks arc i j ≤ walks arc' i j :=
  fun _ h => h.mono hle

/-- From a node that no arc leaves, a walk only stays. -/
theorem walks_of_no_exit (h : ∀ l k, ¬ arc i l k) (hij : i ≠ j) : walks arc i j = 0 := by
  ext w
  refine ⟨fun hw => ?_, fun hw => absurd hw (Language.notMem_zero w)⟩
  cases hw with
  | nil => exact absurd rfl hij
  | silent ha _ => exact absurd ha (h _ _)
  | read ha _ _ => exact absurd ha (h _ _)

theorem walks_self_of_no_exit (h : ∀ l k, ¬ arc i l k) : walks arc i i = 1 := by
  refine le_antisymm (fun w hw => ?_) (one_le_walks arc i)
  cases hw with
  | nil => rfl
  | silent ha _ => exact absurd ha (h _ _)
  | read ha _ _ => exact absurd ha (h _ _)

/-- A walk to a node that no arc enters starts there and reads nothing. -/
theorem Walk.eq_of_no_entry (h : ∀ k l, ¬ arc k l j) (hw : Walk arc i w j) : i = j ∧ w = [] := by
  induction hw with
  | nil => exact ⟨rfl, rfl⟩
  | silent ha _ ih =>
    obtain ⟨rfl, -⟩ := ih h
    exact absurd ha (h _ _)
  | read ha _ _ ih =>
    obtain ⟨rfl, -⟩ := ih h
    exact absurd ha (h _ _)

theorem walks_of_no_entry (h : ∀ k l, ¬ arc k l j) (hij : i ≠ j) : walks arc i j = 0 := by
  ext w
  exact ⟨fun hw => absurd (hw.eq_of_no_entry h).1 hij, fun hw => absurd hw (Language.notMem_zero w)⟩

theorem walks_self_of_no_entry (h : ∀ k l, ¬ arc k l i) : walks arc i i = 1 :=
  le_antisymm (fun _ hw => (hw.eq_of_no_entry h).2) (one_le_walks arc i)

/-! ## One silent arc more -/

/-- The given arcs and a silent one from `x` to `y`. -/
def addSilent (arc : σ → Label → σ → Prop) (x y : σ) : σ → Label → σ → Prop :=
  fun i l j => arc i l j ∨ i = x ∧ l = .epsilon ∧ j = y

variable {x y : σ}

theorem addSilent_old {l : Label} (h : arc i l j) : addSilent arc x y i l j := Or.inl h

theorem addSilent_new : addSilent arc x y x .epsilon y := Or.inr ⟨rfl, rfl, rfl⟩

/-- The right-hand side of `walks_addSilent`. -/
def detour (arc : σ → Label → σ → Prop) (x y i j : σ) : Language Char :=
  walks arc i j + walks arc i x * (walks arc y x)∗ * walks arc y j

/-- What is read before a detour is part of it. -/
theorem append_mem_detour (hu : Walk arc i u j) (hv : v ∈ detour arc x y j k) :
    u ++ v ∈ detour arc x y i k := by
  rcases hv with hv | hv
  · exact Or.inl (hu.append hv)
  · obtain ⟨p, hp, q, hq, rfl⟩ := Language.mem_mul.mp hv
    obtain ⟨a, ha, s, hs, rfl⟩ := Language.mem_mul.mp hp
    refine Or.inr ?_
    rw [← List.append_assoc, ← List.append_assoc]
    exact Language.append_mem_mul (Language.append_mem_mul (hu.append ha) hs) hq

/-- A detour from the end of the new arc is one from its beginning. -/
theorem detour_new_le (arc : σ → Label → σ → Prop) (x y j : σ) :
    detour arc x y y j ≤ detour arc x y x j := by
  unfold detour
  calc walks arc y j + walks arc y x * (walks arc y x)∗ * walks arc y j
      = (walks arc y x)∗ * walks arc y j := by
        rw [← one_add_mul_kstar, add_mul, one_mul, one_add_mul_kstar]
    _ ≤ walks arc x x * (walks arc y x)∗ * walks arc y j := by
        rw [mul_assoc]
        exact le_mul_of_one_le_left' (one_le_walks arc x)
    _ ≤ walks arc x j + walks arc x x * (walks arc y x)∗ * walks arc y j := le_sup_right

/-- **Kleene's formula** for the walks after a silent arc from `x` to `y` is added. -/
theorem walks_addSilent (arc : σ → Label → σ → Prop) (x y i j : σ) :
    walks (addSilent arc x y) i j =
      walks arc i j + walks arc i x * (walks arc y x)∗ * walks arc y j := by
  refine le_antisymm (fun w hw => ?_) ?_
  · show w ∈ detour arc x y i j
    induction hw with
    | nil i => exact Or.inl (Walk.nil i)
    | silent ha _ ih =>
      rcases ha with ha | ⟨rfl, -, rfl⟩
      · exact append_mem_detour (Walk.silent_arc ha) ih
      · exact detour_new_le arc _ _ _ ih
    | read ha hc _ ih =>
      rcases ha with ha | ⟨-, rfl, -⟩
      · exact append_mem_detour (Walk.read_arc ha hc) ih
      · exact absurd hc Bool.false_ne_true
  · -- The new graph has the old walks, and a pass of the new arc as one more of its own.
    have old : ∀ a b, walks arc a b ≤ walks (addSilent arc x y) a b := walks_mono addSilent_old
    have pass : ∀ a b, walks (addSilent arc x y) a x * walks (addSilent arc x y) y b ≤
        walks (addSilent arc x y) a b := by
      rintro a b w hw
      obtain ⟨u, hu, v, hv, rfl⟩ := Language.mem_mul.mp hw
      exact Walk.append hu (Walk.silent addSilent_new hv)
    refine sup_le (old i j) ?_
    calc walks arc i x * (walks arc y x)∗ * walks arc y j
        ≤ walks (addSilent arc x y) i x * (walks (addSilent arc x y) y x)∗ *
            walks (addSilent arc x y) y j := by
          gcongr <;> exact old _ _
      _ ≤ walks (addSilent arc x y) i x * walks (addSilent arc x y) y j := by
          gcongr
          exact mul_kstar_le_self (pass i x)
      _ ≤ walks (addSilent arc x y) i j := pass i j

/-! ### Arcs at a node without entry or exit -/

variable {z : σ}

theorem addSilent_no_entry (h : ∀ k l, ¬ arc k l z) (hz : z ≠ y) :
    ∀ k l, ¬ addSilent arc x y k l z := by
  rintro k l (ha | ⟨-, -, rfl⟩)
  · exact h k l ha
  · exact hz rfl

theorem addSilent_no_exit (h : ∀ l k, ¬ arc z l k) (hz : z ≠ x) :
    ∀ l k, ¬ addSilent arc x y z l k := by
  rintro l k (ha | ⟨rfl, -, -⟩)
  · exact h l k ha
  · exact hz rfl

/-- A silent arc to a node that no arc leaves is passed last and once. -/
theorem walks_addSilent_of_no_exit (h : ∀ l k, ¬ arc y l k) (hyx : y ≠ x) (i : σ) :
    walks (addSilent arc x y) i y = walks arc i y + walks arc i x := by
  rw [walks_addSilent, walks_of_no_exit h hyx, walks_self_of_no_exit h, kstar_zero, mul_one,
    mul_one]

/-- A silent arc from a node that no arc enters is passed first and once. -/
theorem walks_addSilent_of_no_entry (h : ∀ k l, ¬ arc k l x) (hyx : y ≠ x) (j : σ) :
    walks (addSilent arc x y) x j = walks arc x j + walks arc y j := by
  rw [walks_addSilent, walks_of_no_entry h hyx, walks_self_of_no_entry h, kstar_zero, mul_one,
    one_mul]

end PatternAutomata
