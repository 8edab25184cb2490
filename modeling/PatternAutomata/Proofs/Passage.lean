import PatternAutomata.Automaton.Fragment
import PatternAutomata.Proofs.Language
import PatternAutomata.Proofs.Walk

/-!
# What can be read between the ends of a fragment

About the constructions in `regexp` and `quantified` (in `nfa`).

A fragment has two ends, its `Port`s. Its `Passage` says what can be read from each of them to each:
across, from the way in to the way out, but also from an end back to itself and from the way out
back to the way in. The last three are what a silent edge between the ends lets into the words read
across, so the passage of a fragment, and not only the language across it, determines the passages
of what is built from it.

Results:
* `Fragment.passage_append`, `passage_plus`, `passage_optional`, `across_star`, `across_addBranch`:
  what each construction makes of the passages of its parts;
* **`Expr.fragment_spec`**: the passage of an expression's fragment, by recursion on the expression.

Out of scope: how many states there are (`Proofs.Size`).
-/

namespace PatternAutomata

open Computability

/-- The ends of a fragment: its way in and its way out. -/
inductive Port
  | entry
  | exit

/-- What can be read from one end to another. -/
abbrev Passage := Port → Port → Language Char

namespace Passage

/-- What can be read from the way in to the way out. -/
def across (m : Passage) : Language Char := m .entry .exit

/-- `l` can be read across, and no end can be reached again once it is left. -/
def oneWay (l : Language Char) : Passage
  | .entry, .entry => 1
  | .entry, .exit => l
  | .exit, .entry => 0
  | .exit, .exit => 1

/-- The passage after a silent edge from the end `x` to the end `y` is added: to and from that edge,
and any number of times back from its end to its beginning. -/
def connect (m : Passage) (x y : Port) : Passage :=
  fun p q => m p q + m p x * (m y x)∗ * m y q

/-- With a way back the passage can be crossed again and again. -/
theorem across_connect_back (m : Passage) :
    (m.connect .exit .entry).across = m.across * m.across∗ := by
  calc (m.connect .exit .entry).across
      = m.across + m.across * m.across∗ * m.across := rfl
    _ = m.across * (1 + m.across∗ * m.across) := by rw [mul_add, mul_one, mul_assoc]
    _ = m.across * m.across∗ := by rw [one_add_kstar_mul]

/-- One passage after another. -/
def append (m n : Passage) : Passage
  | .entry, .entry => m .entry .entry
  | .entry, .exit => m.across * n.across
  | .exit, .entry => 0
  | .exit, .exit => n .exit .exit

/-- A passage is given by its four languages. -/
theorem ext_ports {m n : Passage} (hss : m .entry .entry = n .entry .entry)
    (hsf : m .entry .exit = n .entry .exit) (hfs : m .exit .entry = n .exit .entry)
    (hff : m .exit .exit = n .exit .exit) : m = n := by
  funext p q
  cases p <;> cases q <;> assumption

end Passage

/-! ## The arcs of a fragment -/

namespace Fragment

/-- The arcs of a fragment as a relation. -/
def arc (f : Fragment) (i : Nat) (l : Label) (j : Nat) : Prop := ⟨i, l, j⟩ ∈ f.arcs

/-- The state at an end. -/
def port (f : Fragment) : Port → Nat
  | .entry => f.start
  | .exit => f.stop

/-- What can be read between the ends. -/
def passage (f : Fragment) : Passage := fun p q => walks f.arc (f.port p) (f.port q)

/-- The ends are states, and arcs run between states. -/
structure Valid (f : Fragment) : Prop where
  port_lt : ∀ p, f.port p < f.size
  arc_lt : ∀ i l j, f.arc i l j → i < f.size ∧ j < f.size

/-- No arc enters the way in, none leaves the way out, and the two are different. -/
structure Sealed (f : Fragment) : Prop where
  no_entry : ∀ i l, ¬ f.arc i l f.start
  no_exit : ∀ l j, ¬ f.arc f.stop l j
  start_ne_stop : f.start ≠ f.stop

variable {f g : Fragment}

/-- The passage of a sealed fragment is one way. -/
theorem Sealed.passage_eq (h : f.Sealed) : f.passage = .oneWay f.passage.across :=
  Passage.ext_ports (walks_self_of_no_entry h.no_entry) rfl
    (walks_of_no_exit h.no_exit h.start_ne_stop.symm) (walks_self_of_no_exit h.no_exit)

/-- The arcs of two fragments, the states of the second after those of the first. -/
def beside (f g : Fragment) (i : Nat) (l : Label) (j : Nat) : Prop :=
  f.arc i l j ∨ ∃ i' j', i = i' + f.size ∧ j = j' + f.size ∧ g.arc i' l j'

theorem mem_shiftedArcs {n i j : Nat} {l : Label} :
    ⟨i, l, j⟩ ∈ g.shiftedArcs n ↔ ∃ i' j', i = i' + n ∧ j = j' + n ∧ g.arc i' l j' := by
  simp only [shiftedArcs, Array.mem_map, Arc.mk.injEq, arc]
  constructor
  · rintro ⟨⟨i', l', j'⟩, h, rfl, rfl, rfl⟩
    exact ⟨i', j', rfl, rfl, h⟩
  · rintro ⟨i', j', rfl, rfl, h⟩
    exact ⟨⟨i', l, j'⟩, h, rfl, rfl, rfl⟩

theorem mem_push_silent {arcs : Array Arc} {i j x y : Nat} {l : Label} :
    ⟨i, l, j⟩ ∈ arcs.push (silent x y) ↔ ⟨i, l, j⟩ ∈ arcs ∨ i = x ∧ l = .epsilon ∧ j = y := by
  rw [Array.mem_push, silent, Arc.mk.injEq]

theorem mem_append_shiftedArcs {i j : Nat} {l : Label} :
    ⟨i, l, j⟩ ∈ f.arcs ++ g.shiftedArcs f.size ↔ beside f g i l j := by
  rw [Array.mem_append, mem_shiftedArcs]
  rfl

theorem arc_append : (f.append g).arc = addSilent (beside f g) f.stop (g.start + f.size) := by
  funext i l j
  simp only [arc, append, mem_push_silent, mem_append_shiftedArcs, addSilent]

theorem arc_addBranch : (f.addBranch g).arc =
    addSilent (addSilent (beside f g) f.start (g.start + f.size)) (g.stop + f.size) f.stop := by
  funext i l j
  simp only [arc, addBranch, mem_push_silent, mem_append_shiftedArcs, addSilent]

theorem arc_plus : f.plus.arc = addSilent f.arc f.stop f.start := by
  funext i l j
  simp only [arc, plus, mem_push_silent, addSilent]

theorem arc_optional : f.optional.arc = addSilent f.arc f.start f.stop := by
  funext i l j
  simp only [arc, optional, mem_push_silent, addSilent]

theorem arc_star : f.star.arc =
    addSilent (addSilent (addSilent f.plus.arc f.size f.start) f.stop (f.size + 1))
      f.size (f.size + 1) := by
  rw [arc_plus]
  funext i l j
  simp only [arc, star, mem_push_silent, addSilent]

/-! ## Two fragments side by side -/

theorem beside_left {i j : Nat} {l : Label} (hi : i < f.size) :
    beside f g i l j ↔ f.arc i l j := by
  refine ⟨?_, Or.inl⟩
  rintro (h | ⟨i', j', rfl, -, -⟩)
  · exact h
  · omega

theorem Valid.beside_right (hf : f.Valid) {i j : Nat} {l : Label} :
    beside f g (i + f.size) l j ↔ ∃ j', j = j' + f.size ∧ g.arc i l j' := by
  constructor
  · rintro (h | ⟨i', j', hi, rfl, h⟩)
    · have := (hf.arc_lt _ _ _ h).1
      omega
    · obtain rfl : i = i' := by omega
      exact ⟨j', rfl, h⟩
  · rintro ⟨j', rfl, h⟩
    exact Or.inr ⟨i, j', rfl, rfl, h⟩

/-- Walks of the second fragment can be followed when the first one stands beside it. -/
theorem walk_beside_right {i j : Nat} {w : List Char} (h : Walk g.arc i w j) :
    Walk (beside f g) (i + f.size) w (j + f.size) := by
  obtain ⟨j', hw, rfl⟩ := h.transfer (beside f g) (fun a b => b = a + f.size)
    (fun {a b l c} hab ha => ⟨c + f.size, Or.inr ⟨a, c, hab, rfl, ha⟩, rfl⟩) rfl
  exact hw

/-- A walk that starts in the first fragment stays in it. -/
theorem Valid.walk_left (hf : f.Valid) {i j : Nat} {w : List Char} (hi : i < f.size)
    (h : Walk (beside f g) i w j) : Walk f.arc i w j ∧ j < f.size := by
  obtain ⟨j', hw, rfl, hj⟩ := h.transfer f.arc (fun i i' => i = i' ∧ i < f.size)
    (fun {i i' l j} hi ha => by
      obtain ⟨rfl, hi⟩ := hi
      have ha := (beside_left hi).mp ha
      exact ⟨j, ha, rfl, (hf.arc_lt _ _ _ ha).2⟩) ⟨rfl, hi⟩
  exact ⟨hw, hj⟩

/-- A walk that starts in the second fragment stays in it. -/
theorem Valid.walk_right (hf : f.Valid) {i j : Nat} {w : List Char}
    (h : Walk (beside f g) (i + f.size) w j) : ∃ j', j = j' + f.size ∧ Walk g.arc i w j' := by
  obtain ⟨j', hw, hj⟩ := h.transfer g.arc (fun a b => a = b + f.size)
    (fun {a b l j} hab ha => by
      subst hab
      obtain ⟨j', hj, hg⟩ := hf.beside_right.mp ha
      exact ⟨j', hg, hj⟩) rfl
  exact ⟨j', hj, hw⟩

theorem Valid.walks_left (hf : f.Valid) {i : Nat} (hi : i < f.size) (j : Nat) :
    walks (beside f g) i j = walks f.arc i j :=
  le_antisymm (fun _ h => (hf.walk_left hi h).1) (walks_mono Or.inl i j)

theorem Valid.walks_right (hf : f.Valid) (i j : Nat) :
    walks (beside f g) (i + f.size) (j + f.size) = walks g.arc i j := by
  ext w
  constructor
  · intro h
    obtain ⟨j', hj, hw⟩ := hf.walk_right h
    obtain rfl : j = j' := by omega
    exact hw
  · exact walk_beside_right

theorem Valid.walks_left_right (hf : f.Valid) {i : Nat} (hi : i < f.size) (j : Nat) :
    walks (beside f g) i (j + f.size) = 0 := by
  ext w
  refine ⟨fun h => ?_, fun h => absurd h (Language.notMem_zero w)⟩
  have := (hf.walk_left hi h).2
  omega

theorem Valid.walks_right_left (hf : f.Valid) (i : Nat) {j : Nat} (hj : j < f.size) :
    walks (beside f g) (i + f.size) j = 0 := by
  ext w
  refine ⟨fun h => ?_, fun h => absurd h (Language.notMem_zero w)⟩
  obtain ⟨j', rfl, -⟩ := hf.walk_right h
  omega

/-! ## The constructions -/

theorem addSilent_lt {arc : Nat → Label → Nat → Prop} {n x y : Nat}
    (h : ∀ i l j, arc i l j → i < n ∧ j < n) (hx : x < n) (hy : y < n) :
    ∀ i l j, addSilent arc x y i l j → i < n ∧ j < n := by
  rintro i l j (ha | ⟨rfl, -, rfl⟩)
  · exact h i l j ha
  · exact ⟨hx, hy⟩

theorem beside_lt (hf : f.Valid) (hg : g.Valid) :
    ∀ i l j, beside f g i l j → i < f.size + g.size ∧ j < f.size + g.size := by
  rintro i l j (h | ⟨i', j', rfl, rfl, h⟩)
  · have := hf.arc_lt _ _ _ h
    omega
  · have := hg.arc_lt _ _ _ h
    omega

theorem Valid.start_lt (hf : f.Valid) : f.start < f.size := hf.port_lt .entry

theorem Valid.stop_lt (hf : f.Valid) : f.stop < f.size := hf.port_lt .exit

theorem valid_append (hf : f.Valid) (hg : g.Valid) : (f.append g).Valid := by
  have hs := hf.start_lt
  have ht := hf.stop_lt
  have hs' := hg.start_lt
  have ht' := hg.stop_lt
  refine ⟨fun p => ?_, ?_⟩
  · cases p
    · show f.start < f.size + g.size
      omega
    · show g.stop + f.size < f.size + g.size
      omega
  · rw [arc_append]
    show ∀ i l j, _ → i < f.size + g.size ∧ j < f.size + g.size
    exact addSilent_lt (beside_lt hf hg) (by omega) (by omega)

/-- The second fragment is never left for the first, so the bridge is passed at most once. -/
theorem passage_append (hf : f.Valid) :
    (f.append g).passage = f.passage.append g.passage := by
  have hs := hf.start_lt
  have ht := hf.stop_lt
  refine Passage.ext_ports ?_ ?_ ?_ ?_
  · show walks (f.append g).arc f.start f.start = walks f.arc f.start f.start
    rw [arc_append, walks_addSilent, hf.walks_left hs, hf.walks_right_left _ hs, mul_zero, add_zero]
  · show walks (f.append g).arc f.start (g.stop + f.size) =
      walks f.arc f.start f.stop * walks g.arc g.start g.stop
    rw [arc_append, walks_addSilent, hf.walks_left_right hs, hf.walks_left hs,
      hf.walks_right_left _ ht, hf.walks_right, kstar_zero, mul_one, zero_add]
  · show walks (f.append g).arc (g.stop + f.size) f.start = 0
    rw [arc_append, walks_addSilent, hf.walks_right_left _ hs, hf.walks_right_left _ ht,
      zero_mul, zero_mul, zero_add]
  · show walks (f.append g).arc (g.stop + f.size) (g.stop + f.size) = walks g.arc g.stop g.stop
    rw [arc_append, walks_addSilent, hf.walks_right, hf.walks_right_left _ ht, zero_mul, zero_mul,
      add_zero]

theorem valid_plus (hf : f.Valid) : f.plus.Valid := by
  refine ⟨fun p => ?_, ?_⟩
  · cases p
    · exact hf.start_lt
    · exact hf.stop_lt
  · rw [arc_plus]
    exact addSilent_lt hf.arc_lt hf.stop_lt hf.start_lt

theorem passage_plus : f.plus.passage = f.passage.connect .exit .entry := by
  funext p q
  have hp : f.plus.port p = f.port p := by cases p <;> rfl
  have hq : f.plus.port q = f.port q := by cases q <;> rfl
  rw [passage, hp, hq, arc_plus, walks_addSilent]
  rfl

theorem valid_optional (hf : f.Valid) : f.optional.Valid := by
  refine ⟨fun p => ?_, ?_⟩
  · cases p
    · exact hf.start_lt
    · exact hf.stop_lt
  · rw [arc_optional]
    exact addSilent_lt hf.arc_lt hf.start_lt hf.stop_lt

theorem passage_optional : f.optional.passage = f.passage.connect .entry .exit := by
  funext p q
  have hp : f.optional.port p = f.port p := by cases p <;> rfl
  have hq : f.optional.port q = f.port q := by cases q <;> rfl
  rw [passage, hp, hq, arc_optional, walks_addSilent]
  rfl

/-! ### The star -/

theorem valid_star (hf : f.Valid) : f.star.Valid := by
  have hs := hf.start_lt
  have ht := hf.stop_lt
  refine ⟨fun p => ?_, ?_⟩
  · cases p
    · show f.size < f.size + 2
      omega
    · show f.size + 1 < f.size + 2
      omega
  · have h : ∀ i l j, f.plus.arc i l j → i < f.size + 2 ∧ j < f.size + 2 := fun i l j ha => by
      have : i < f.size ∧ j < f.size := (valid_plus hf).arc_lt i l j ha
      omega
    rw [arc_star]
    show ∀ i l j, _ → i < f.size + 2 ∧ j < f.size + 2
    exact addSilent_lt (addSilent_lt (addSilent_lt h (by omega) (by omega)) (by omega) (by omega))
      (by omega) (by omega)

theorem Valid.no_entry (hf : f.Valid) {n : Nat} (hn : f.size ≤ n) : ∀ k l, ¬ f.arc k l n :=
  fun k l h => by have := hf.arc_lt k l n h; omega

theorem Valid.no_exit (hf : f.Valid) {n : Nat} (hn : f.size ≤ n) : ∀ l k, ¬ f.arc n l k :=
  fun l k h => by have := hf.arc_lt n l k h; omega

theorem sealed_star (hf : f.Valid) : f.star.Sealed := by
  have hs := hf.start_lt
  have ht := hf.stop_lt
  refine ⟨?_, ?_, ?_⟩
  · show ∀ i l, ¬ f.star.arc i l f.size
    rw [arc_star]
    exact addSilent_no_entry (addSilent_no_entry (addSilent_no_entry
      ((valid_plus hf).no_entry (le_refl f.size)) (by omega)) (by omega)) (by omega)
  · show ∀ l j, ¬ f.star.arc (f.size + 1) l j
    rw [arc_star]
    exact addSilent_no_exit (addSilent_no_exit (addSilent_no_exit
      ((valid_plus hf).no_exit (Nat.le_succ f.size)) (by omega)) (by omega)) (by omega)
  · show f.size ≠ f.size + 1
    omega

/-- The new ends are passed once each, so between them lies the repetition of the old fragment, or
nothing. -/
theorem across_star (hf : f.Valid) : f.star.passage.across = f.passage.across∗ := by
  have hs := hf.start_lt
  have ht := hf.stop_lt
  have hp := valid_plus hf
  have he := hp.no_entry (le_refl f.size)
  have he' : ∀ k l, ¬ f.plus.arc k l (f.size + 1) := hp.no_entry (Nat.le_succ f.size)
  have hx : ∀ l k, ¬ f.plus.arc f.size l k := hp.no_exit (le_refl f.size)
  have hx' : ∀ l k, ¬ f.plus.arc (f.size + 1) l k := hp.no_exit (Nat.le_succ f.size)
  have hin := addSilent_no_entry (x := f.size) (y := f.start) he' (by omega)
  have hout := addSilent_no_exit (x := f.size) (y := f.start) hx' (by omega)
  have hout' := addSilent_no_exit (x := f.stop) (y := f.size + 1) hout (by omega)
  have hself := walks_self_of_no_entry (addSilent_no_entry (x := f.stop) (y := f.size + 1)
    (addSilent_no_entry (x := f.size) (y := f.start) he (by omega)) (by omega))
  calc f.star.passage.across
      = walks f.star.arc f.size (f.size + 1) := rfl
    _ = walks f.plus.arc f.start f.stop + 1 := by
        rw [arc_star, walks_addSilent_of_no_exit hout' (by omega), hself,
          walks_addSilent_of_no_exit hout (by omega), walks_of_no_entry hin (by omega), zero_add,
          walks_addSilent_of_no_entry he (by omega), walks_of_no_exit hx (by omega), zero_add]
    _ = f.plus.passage.across + 1 := rfl
    _ = f.passage.across∗ := by
        rw [passage_plus, Passage.across_connect_back, add_comm, one_add_mul_kstar]

/-! ### Choices -/

theorem arc_parallel {labels : List Label} {i j : Nat} {l : Label} :
    (parallel labels).arc i l j ↔ i = 0 ∧ l ∈ labels ∧ j = 1 := by
  simp only [arc, parallel, List.mem_toArray, List.mem_map, Arc.mk.injEq]
  constructor
  · rintro ⟨l', hl, rfl, rfl, rfl⟩
    exact ⟨rfl, hl, rfl⟩
  · rintro ⟨rfl, hl, rfl⟩
    exact ⟨l, hl, rfl, rfl, rfl⟩

theorem valid_parallel (labels : List Label) : (parallel labels).Valid := by
  refine ⟨fun p => ?_, fun i l j h => ?_⟩
  · cases p
    · exact Nat.zero_lt_two
    · exact Nat.one_lt_two
  · obtain ⟨rfl, -, rfl⟩ := arc_parallel.mp h
    exact ⟨Nat.zero_lt_two, Nat.one_lt_two⟩

theorem sealed_parallel (labels : List Label) : (parallel labels).Sealed :=
  ⟨fun _ _ h => zero_ne_one (arc_parallel.mp h).2.2,
    fun _ _ h => one_ne_zero (arc_parallel.mp h).1, zero_ne_one⟩

theorem across_parallel {labels : List Label} (h : ∀ l ∈ labels, l ≠ .epsilon) :
    (parallel labels).passage.across = oneChar fun c => ∃ l ∈ labels, l.accepts c = true := by
  have done : ∀ {w : List Char} {j : Nat}, Walk (parallel labels).arc 1 w j → w = [] := by
    intro w j hw
    cases hw with
    | nil => rfl
    | silent ha _ => exact absurd (arc_parallel.mp ha).1 (by decide)
    | read ha _ _ => exact absurd (arc_parallel.mp ha).1 (by decide)
  ext w
  show Walk (parallel labels).arc 0 w 1 ↔ _
  constructor
  · intro hw
    cases hw with
    | silent ha _ => exact absurd rfl (h _ (arc_parallel.mp ha).2.1)
    | read ha hc hw =>
      obtain ⟨-, hl, rfl⟩ := arc_parallel.mp ha
      rw [done hw]
      exact ⟨_, ⟨_, hl, hc⟩, rfl⟩
  · rintro ⟨c, ⟨l, hl, hc⟩, rfl⟩
    exact Walk.read_arc (arc_parallel.mpr ⟨rfl, hl, rfl⟩) hc

theorem no_arc_hub (i : Nat) (l : Label) (j : Nat) : ¬ hub.arc i l j :=
  Array.not_mem_empty _

theorem valid_hub : hub.Valid :=
  ⟨fun p => by cases p <;> decide, fun i l j h => absurd h (no_arc_hub i l j)⟩

theorem sealed_hub : hub.Sealed :=
  ⟨fun i l => no_arc_hub i l _, fun l j => no_arc_hub _ l j, by decide⟩

theorem across_hub : hub.passage.across = 0 :=
  walks_of_no_exit (no_arc_hub 0) (by decide)

theorem valid_addBranch (hf : f.Valid) (hg : g.Valid) : (f.addBranch g).Valid := by
  have hs := hf.start_lt
  have ht := hf.stop_lt
  have hs' := hg.start_lt
  have ht' := hg.stop_lt
  refine ⟨fun p => ?_, ?_⟩
  · cases p
    · show f.start < f.size + g.size
      omega
    · show f.stop < f.size + g.size
      omega
  · rw [arc_addBranch]
    show ∀ i l j, _ → i < f.size + g.size ∧ j < f.size + g.size
    exact addSilent_lt (addSilent_lt (beside_lt hf hg) (by omega) (by omega)) (by omega) (by omega)

theorem Sealed.beside_no_entry (hf : f.Valid) (h : f.Sealed) :
    ∀ k l, ¬ beside f g k l f.start := by
  rintro k l (ha | ⟨i, j, -, hj, -⟩)
  · exact h.no_entry k l ha
  · have := hf.start_lt
    omega

theorem Sealed.beside_no_exit (hf : f.Valid) (h : f.Sealed) :
    ∀ l k, ¬ beside f g f.stop l k := by
  rintro l k (ha | ⟨i, j, hi, -, -⟩)
  · exact h.no_exit l k ha
  · have := hf.stop_lt
    omega

theorem sealed_addBranch (hf : f.Valid) (h : f.Sealed) : (f.addBranch g).Sealed := by
  have hs := hf.start_lt
  have ht := hf.stop_lt
  have hne := h.start_ne_stop
  refine ⟨?_, ?_, h.start_ne_stop⟩
  · show ∀ i l, ¬ (f.addBranch g).arc i l f.start
    rw [arc_addBranch]
    exact addSilent_no_entry (addSilent_no_entry (h.beside_no_entry hf) (by omega)) hne
  · show ∀ l j, ¬ (f.addBranch g).arc f.stop l j
    rw [arc_addBranch]
    exact addSilent_no_exit (addSilent_no_exit (h.beside_no_exit hf) hne.symm) (by omega)

/-- The ends of a choice are passed once each, so the branches are alternatives. -/
theorem across_addBranch (hf : f.Valid) (h : f.Sealed) :
    (f.addBranch g).passage.across = f.passage.across + g.passage.across := by
  have hs := hf.start_lt
  have ht := hf.stop_lt
  have hne := h.start_ne_stop
  have hin := h.beside_no_entry (g := g) hf
  have hout := addSilent_no_exit (x := f.start) (y := g.start + f.size)
    (h.beside_no_exit (g := g) hf) hne.symm
  calc (f.addBranch g).passage.across
      = walks (f.addBranch g).arc f.start f.stop := rfl
    _ = walks f.arc f.start f.stop + walks g.arc g.start g.stop := by
        rw [arc_addBranch, walks_addSilent_of_no_exit hout (by omega),
          walks_addSilent_of_no_entry hin (by omega), walks_addSilent_of_no_entry hin (by omega),
          hf.walks_left hs, hf.walks_right_left _ ht, hf.walks_left_right hs, hf.walks_right,
          add_zero, zero_add]
    _ = f.passage.across + g.passage.across := rfl

end Fragment

/-! ## Expressions -/

namespace Expr

open Fragment

mutual

/-- What can be read between the ends of an expression's fragment. -/
def passage : Expr → Passage
  | .chars cls => .oneWay cls.language
  | .sequence first rest => passageThen first.passage rest
  | .choice branches => .oneWay (acrossAny branches)
  | .star body => .oneWay body.passage.across∗
  | .plus body => body.passage.connect .exit .entry
  | .optional body => body.passage.connect .entry .exit

/-- A passage followed by those of the given expressions. -/
def passageThen (m : Passage) : List Expr → Passage
  | [] => m
  | e :: rest => passageThen (m.append e.passage) rest

/-- What can be read across one of the given expressions. -/
def acrossAny : List Expr → Language Char
  | [] => 0
  | e :: rest => e.passage.across + acrossAny rest

end

mutual

/-- **The fragment of an expression** has the passage of the expression. -/
theorem fragment_spec : ∀ e : Expr, e.fragment.Valid ∧ e.fragment.passage = e.passage
  | .chars cls => by
    have hl : oneChar (fun c => ∃ l ∈ cls.labels, l.accepts c = true) = cls.language :=
      oneChar_congr cls.labels_accept
    rw [fragment, passage, (sealed_parallel cls.labels).passage_eq,
      across_parallel cls.labels_ne_epsilon, hl]
    exact ⟨valid_parallel cls.labels, rfl⟩
  | .sequence first rest => by
    obtain ⟨hv, hp⟩ := fragment_spec first
    rw [fragment, passage, ← hp]
    exact appendAll_spec hv rest
  | .choice branches => by
    obtain ⟨hv, hs, ha⟩ := addBranches_spec valid_hub sealed_hub branches
    rw [fragment, passage, hs.passage_eq, ha, across_hub, zero_add]
    exact ⟨hv, rfl⟩
  | .star body => by
    obtain ⟨hv, hp⟩ := fragment_spec body
    rw [fragment, passage, (sealed_star hv).passage_eq, across_star hv, hp]
    exact ⟨valid_star hv, rfl⟩
  | .plus body => by
    obtain ⟨hv, hp⟩ := fragment_spec body
    rw [fragment, passage, passage_plus, hp]
    exact ⟨valid_plus hv, rfl⟩
  | .optional body => by
    obtain ⟨hv, hp⟩ := fragment_spec body
    rw [fragment, passage, passage_optional, hp]
    exact ⟨valid_optional hv, rfl⟩

theorem appendAll_spec {f : Fragment} (hf : f.Valid) : ∀ rest : List Expr,
    (appendAll f rest).Valid ∧ (appendAll f rest).passage = passageThen f.passage rest
  | [] => by
    rw [appendAll, passageThen]
    exact ⟨hf, rfl⟩
  | e :: rest => by
    obtain ⟨hv, hp⟩ := fragment_spec e
    rw [appendAll, passageThen, ← hp, ← passage_append hf]
    exact appendAll_spec (valid_append hf hv) rest

theorem addBranches_spec {f : Fragment} (hf : f.Valid) (hs : f.Sealed) : ∀ branches : List Expr,
    (addBranches f branches).Valid ∧ (addBranches f branches).Sealed ∧
      (addBranches f branches).passage.across = f.passage.across + acrossAny branches
  | [] => by
    rw [addBranches, acrossAny, add_zero]
    exact ⟨hf, hs, rfl⟩
  | e :: rest => by
    obtain ⟨hv, hp⟩ := fragment_spec e
    rw [addBranches, acrossAny, ← hp, ← add_assoc, ← across_addBranch hf hs]
    exact addBranches_spec (valid_addBranch hf hv) (sealed_addBranch hf hs) rest

end

end Expr

end PatternAutomata
