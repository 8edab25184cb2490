import Mathlib.Algebra.BigOperators.Group.Finset.Basic
import PatternAutomata.Proofs.Graphs

/-!
# Paths and closures

About `epsilon_closure`, with the stack that it uses, and `accepts` (in `automaton`). A `Search` is
the state of its loop.

A path is a list of edges each of which leaves the state to which the one before leads. What it
spells is found by going through its edges and leaving out the silent ones. An automaton accepts the
texts that are spelled on the way from the initial state to an accepting one, and the closure of
some states is where their silent paths end.

A closure can also be found with a stack, which holds the states that are still to be looked at. On
a silent cycle a state comes back to the stack, so the stack is no measure of what is left to do:
that is the stack together with the silent edges of the states not met yet.

Results:
* `Automaton.walk_iff_path`: walks are paths with what they spell;
* `Search.work_step_lt`: each step of a search leaves less to do;
* `Search.sound_step`, `Search.exists_iterate_step`: a search ends with the closure of its seeds;
* **`Automaton.accepts_and_closure_spec`**: acceptance and closures in terms of paths.

Out of scope: seeds that are no states, at which `epsilon_closure` stops the program.
-/

namespace PatternAutomata

/-! ## Paths -/

/-- The edges, the silent ones left out, read `text`, one character after the other. -/
def Spells (p : List Edge) (text : List Char) : Prop :=
  List.Forall₂ (fun (e : Edge) c => e.label.accepts c = true)
    (p.filter fun e => !e.label.isEpsilon) text

namespace Automaton

variable {a : Automaton} {i j : Nat} {w : List Char} {seeds : List Nat}

/-- Each edge leaves the state to which the one before leads, the first one `i`; the last one leads
to `j`. -/
def IsPath (a : Automaton) : Nat → List Edge → Nat → Prop
  | i, [], j => i = j
  | i, e :: p, j => e ∈ a.edges i ∧ a.IsPath e.target p j

theorem isEpsilon_iff {l : Label} : l.isEpsilon = true ↔ l = .epsilon := by
  cases l <;> simp [Label.isEpsilon]

theorem spells_cons_silent {p : List Edge} : Spells (⟨.epsilon, j⟩ :: p) w ↔ Spells p w :=
  Iff.rfl

theorem spells_cons_read {l : Label} {p : List Edge} (hl : l ≠ .epsilon) :
    Spells (⟨l, j⟩ :: p) w ↔ ∃ c v, w = c :: v ∧ l.accepts c = true ∧ Spells p v := by
  have hread : (!l.isEpsilon) = true := by
    rw [Bool.not_eq_true', ← Bool.not_eq_true, isEpsilon_iff]
    exact hl
  have hkeep : ((⟨l, j⟩ : Edge) :: p).filter (fun e => !e.label.isEpsilon) =
      ⟨l, j⟩ :: p.filter fun e => !e.label.isEpsilon :=
    List.filter_cons_of_pos hread
  unfold Spells
  rw [hkeep]
  constructor
  · intro h
    cases h with
    | cons hc hp => exact ⟨_, _, rfl, hc, hp⟩
  · rintro ⟨c, v, rfl, hc, hp⟩
    exact .cons hc hp

theorem spells_nil {p : List Edge} : Spells p [] ↔ ∀ e ∈ p, e.label = .epsilon := by
  unfold Spells
  rw [List.forall₂_nil_right_iff, List.filter_eq_nil_iff]
  simp only [Bool.not_eq_true', Bool.not_eq_false, isEpsilon_iff]

/-- An edge that reads a character is not silent. -/
theorem ne_epsilon_of_accepts {l : Label} {c : Char} (h : l.accepts c = true) : l ≠ .epsilon := by
  rintro rfl
  exact Bool.false_ne_true h

theorem exists_path_of_walk (h : Walk a.arc i w j) : ∃ p, a.IsPath i p j ∧ Spells p w := by
  induction h with
  | nil i => exact ⟨[], rfl, .nil⟩
  | @silent i k j w ha _ ih =>
    obtain ⟨p, hp, hw⟩ := ih
    exact ⟨⟨.epsilon, k⟩ :: p, ⟨ha, hp⟩, spells_cons_silent.mpr hw⟩
  | @read i k j l c w ha hc _ ih =>
    obtain ⟨p, hp, hw⟩ := ih
    exact ⟨⟨l, k⟩ :: p, ⟨ha, hp⟩,
      (spells_cons_read (ne_epsilon_of_accepts hc)).mpr ⟨c, w, rfl, hc, hw⟩⟩

theorem walk_of_path : ∀ {p : List Edge} {i : Nat} {w : List Char}, a.IsPath i p j → Spells p w →
    Walk a.arc i w j
  | [], i, w, hp, hw => by
    cases hw
    cases hp
    exact .nil _
  | ⟨l, k⟩ :: p, i, w, ⟨he, hp⟩, hw => by
    by_cases hl : l = .epsilon
    · subst hl
      exact .silent he (walk_of_path hp (spells_cons_silent.mp hw))
    · obtain ⟨c, v, rfl, hc, hv⟩ := (spells_cons_read hl).mp hw
      exact .read he hc (walk_of_path hp hv)

/-- **Walks are paths** with what they spell. -/
theorem walk_iff_path : Walk a.arc i w j ↔ ∃ p, a.IsPath i p j ∧ Spells p w :=
  ⟨exists_path_of_walk, fun ⟨_, hp, hw⟩ => walk_of_path hp hw⟩

/-- Where edges lead to states, so do the walks from a state. -/
theorem Closed.walk_lt (ha : a.Closed) (h : Walk a.arc i w j) (hi : i < a.size) : j < a.size := by
  induction h with
  | nil => exact hi
  | silent he _ ih => exact ih (ha _ _ _ he)
  | read he _ _ ih => exact ih (ha _ _ _ he)

/-- The closure of some states is where their silent paths end. -/
theorem mem_closure_iff_path (ha : a.Closed) (hseeds : ∀ i ∈ seeds, i < a.size) :
    j ∈ a.closure seeds ↔
      ∃ i ∈ seeds, ∃ p, a.IsPath i p j ∧ ∀ e ∈ p, e.label = .epsilon := by
  rw [mem_closure]
  simp only [walk_iff_path, spells_nil]
  refine and_iff_right_of_imp ?_
  rintro ⟨i, hi, p, hp, hsilent⟩
  exact ha.walk_lt (walk_of_path hp (spells_nil.mpr hsilent)) (hseeds i hi)

theorem accepts_iff_path (a : Automaton) (w : List Char) : a.accepts w = true ↔
    ∃ p j, a.IsPath initial p j ∧ Spells p w ∧ a.accepting j = true := by
  rw [accepts_iff_walk]
  simp only [walk_iff_path]
  constructor
  · rintro ⟨j, ⟨p, hp, hw⟩, hacc⟩
    exact ⟨p, j, hp, hw, hacc⟩
  · rintro ⟨p, j, hp, hw, hacc⟩
    exact ⟨j, ⟨p, hp, hw⟩, hacc⟩

/-- Once no state is left, none is found again. -/
theorem run_eq_nil {s : StateSet} (h : s.toList = []) :
    ∀ w : List Char, (a.run s w).toList = []
  | [] => h
  | c :: w => by
    have hmoves : a.moves s c = [] := by
      unfold moves
      rw [h, List.flatMap_nil]
    have hclosure : (a.closure []).toList = [] := by
      rw [List.eq_nil_iff_forall_not_mem]
      intro j hj
      obtain ⟨-, i, hi, -⟩ := mem_closure.mp hj
      exact List.not_mem_nil hi
    rw [run, hmoves]
    exact run_eq_nil hclosure w

/-- Reading can stop where no state is left. -/
theorem accepts_append_eq_false {u : List Char} (v : List Char)
    (h : (a.run (a.closure [initial]) u).toList = []) : a.accepts (u ++ v) = false := by
  unfold accepts anyAccepting
  rw [run_append, run_eq_nil h, List.any_nil]

end Automaton

/-! ## Searching with a stack -/

/-- A search for what can be reached without reading: the states that are met, and those that are
still to be looked at, the next one first. -/
structure Search where
  met : StateSet
  stack : List Nat

namespace Search

variable {a : Automaton} {s : Search} {seeds stack : List Nat} {met : StateSet} {i j : Nat}

/-- Nothing is met, and the seeds are on the stack, the last one on top. -/
def start (seeds : List Nat) : Search := ⟨.ofList [], seeds.reverse⟩

/-- The silent targets of `i` that are not met, the last one first. -/
def fresh (a : Automaton) (met : StateSet) (i : Nat) : List Nat :=
  ((a.silentTargets i).filter fun j => !met.toList.contains j).reverse

/-- Takes the state on top of the stack. If it is not met yet, it is now, and those of its silent
targets that are not come on the stack. -/
def step (a : Automaton) : Search → Search
  | ⟨met, []⟩ => ⟨met, []⟩
  | ⟨met, i :: stack⟩ =>
    if met.toList.contains i then ⟨met, stack⟩
    else
      let met' : StateSet := .ofList (i :: met.toList)
      ⟨met', fresh a met' i ++ stack⟩

theorem step_met (h : i ∈ met) : step a ⟨met, i :: stack⟩ = ⟨met, stack⟩ :=
  if_pos (List.contains_iff_mem.mpr h)

theorem step_new (h : i ∉ met) : step a ⟨met, i :: stack⟩ =
    ⟨.ofList (i :: met.toList), fresh a (.ofList (i :: met.toList)) i ++ stack⟩ :=
  if_neg (mt List.contains_iff_mem.mp h)

theorem mem_add : j ∈ Ascending.ofList (i :: met.toList) ↔ j = i ∨ j ∈ met := by
  rw [Ascending.mem_ofList, List.mem_cons]
  rfl

theorem mem_fresh : j ∈ fresh a met i ↔ j ∈ a.silentTargets i ∧ j ∉ met := by
  unfold fresh
  rw [List.mem_reverse, List.mem_filter, Bool.not_eq_true', ← Bool.not_eq_true,
    List.contains_iff_mem]
  rfl

theorem length_fresh_le (a : Automaton) (met : StateSet) (i : Nat) :
    (fresh a met i).length ≤ (a.silentTargets i).length := by
  unfold fresh
  rw [List.length_reverse]
  exact List.length_filter_le _ _

/-! ### Termination -/

/-- The states that are not met. -/
def unmet (a : Automaton) (met : StateSet) : Finset Nat :=
  (Finset.range a.size).filter fun i => i ∉ met.toList

/-- What is left to do: to take what is on the stack, and to follow the silent edges of the states
that are not met. -/
def work (a : Automaton) (s : Search) : Nat :=
  s.stack.length + ∑ i ∈ unmet a s.met, (a.silentTargets i).length

theorem unmet_add : unmet a (.ofList (i :: met.toList)) = (unmet a met).erase i := by
  ext j
  have hmem : j ∈ (Ascending.ofList (i :: met.toList)).toList ↔ j = i ∨ j ∈ met.toList := mem_add
  simp only [unmet, Finset.mem_filter, Finset.mem_erase, hmem, not_or]
  exact and_left_comm

/-- **Less is left to do** after each step, as long as there is something on the stack. -/
theorem work_step_lt (hi : i < a.size) :
    work a (step a ⟨met, i :: stack⟩) < work a ⟨met, i :: stack⟩ := by
  by_cases h : i ∈ met
  · rw [step_met h]
    exact Nat.add_lt_add_right (Nat.lt_succ_self stack.length) _
  · have hmem : i ∈ unmet a met := Finset.mem_filter.mpr ⟨Finset.mem_range.mpr hi, h⟩
    have hsum := Finset.add_sum_erase (unmet a met) (fun j => (a.silentTargets j).length) hmem
    have hle := length_fresh_le a (.ofList (i :: met.toList)) i
    rw [step_new h]
    simp only [work, List.length_append, List.length_cons, unmet_add]
    omega

/-! ### What a search finds -/

/-- What is met or on the stack can be reached from the seeds; the seeds are among it, and so is
what the silent edges of the states lead to that are met. -/
structure Sound (a : Automaton) (seeds : List Nat) (s : Search) : Prop where
  mem_closure : ∀ i, i ∈ s.met ∨ i ∈ s.stack → i ∈ a.closure seeds
  seed : ∀ i ∈ seeds, i ∈ s.met ∨ i ∈ s.stack
  silent : ∀ i ∈ s.met, ∀ j ∈ a.silentTargets i, j ∈ s.met ∨ j ∈ s.stack

theorem mem_closure_of_silent (hi : i ∈ a.closure seeds) (hj : j ∈ a.silentTargets i) :
    j ∈ a.closure seeds := by
  obtain ⟨-, r, hr, hw⟩ := Automaton.mem_closure.mp hi
  obtain ⟨ha, hlt⟩ := Automaton.mem_silentTargets.mp hj
  exact Automaton.mem_closure.mpr ⟨hlt, r, hr, hw.append (.silent_arc ha)⟩

theorem sound_start (hseeds : ∀ i ∈ seeds, i < a.size) : Sound a seeds (start seeds) where
  mem_closure i hi := by
    have hnil : i ∉ (start seeds).met := fun h => List.not_mem_nil (Ascending.mem_ofList.mp h)
    have hi : i ∈ seeds := List.mem_reverse.mp (hi.resolve_left hnil)
    exact Automaton.mem_closure.mpr ⟨hseeds i hi, i, hi, .nil i⟩
  seed i hi := Or.inr (List.mem_reverse.mpr hi)
  silent i hi := absurd (Ascending.mem_ofList.mp hi) List.not_mem_nil

/-- **Step**: a search stays sound. -/
theorem sound_step (h : Sound a seeds s) : Sound a seeds (step a s) := by
  obtain ⟨met, stack⟩ := s
  cases stack with
  | nil => exact h
  | cons i stack =>
    by_cases hi : i ∈ met
    · -- a state that comes up again is only taken off the stack
      have hdrop : ∀ j, j ∈ met ∨ j ∈ i :: stack → j ∈ met ∨ j ∈ stack := by
        rintro j (hj | hj)
        · exact Or.inl hj
        · rcases List.mem_cons.mp hj with rfl | hj
          · exact Or.inl hi
          · exact Or.inr hj
      rw [step_met hi]
      exact ⟨fun j hj => h.mem_closure j (hj.imp_right (List.mem_cons_of_mem i)),
        fun j hj => hdrop j (h.seed j hj), fun k hk j hj => hdrop j (h.silent k hk j hj)⟩
    · have hiclosure := h.mem_closure i (Or.inr List.mem_cons_self)
      have hkeep : ∀ j, j ∈ met ∨ j ∈ i :: stack →
          j ∈ (Ascending.ofList (i :: met.toList) : StateSet) ∨
            j ∈ fresh a (.ofList (i :: met.toList)) i ++ stack := by
        rintro j (hj | hj)
        · exact Or.inl (mem_add.mpr (Or.inr hj))
        · rcases List.mem_cons.mp hj with rfl | hj
          · exact Or.inl (mem_add.mpr (Or.inl rfl))
          · exact Or.inr (List.mem_append_right _ hj)
      rw [step_new hi]
      refine ⟨?mem, fun j hj => hkeep j (h.seed j hj), ?silent⟩
      case mem =>
        rintro j (hj | hj)
        · rcases mem_add.mp hj with rfl | hj
          · exact hiclosure
          · exact h.mem_closure j (Or.inl hj)
        · rcases List.mem_append.mp hj with hj | hj
          · exact mem_closure_of_silent hiclosure (mem_fresh.mp hj).1
          · exact h.mem_closure j (Or.inr (List.mem_cons_of_mem i hj))
      case silent =>
        intro k hk j hj
        rcases mem_add.mp hk with rfl | hk
        · by_cases hm : j ∈ (Ascending.ofList (k :: met.toList) : StateSet)
          · exact Or.inl hm
          · exact Or.inr (List.mem_append_left _ (mem_fresh.mpr ⟨hj, hm⟩))
        · exact hkeep j (h.silent k hk j hj)

/-- A search that is over has met the closure of the seeds. -/
theorem Sound.met_eq (h : Sound a seeds ⟨met, []⟩) : met = a.closure seeds := by
  refine Ascending.ext_mem fun j => ⟨fun hj => h.mem_closure j (Or.inl hj), fun hj => ?_⟩
  have hmet : ∀ i, i ∈ met ∨ i ∈ ([] : List Nat) → i ∈ met := fun i hi =>
    hi.resolve_right List.not_mem_nil
  obtain ⟨hlt, r, hr, hw⟩ := Automaton.mem_closure.mp hj
  have hrmet := hmet r (h.seed r hr)
  clear hr hj
  generalize hv : [] = v at hw
  induction hw with
  | nil => exact hrmet
  | @silent i k j v ha hw ih =>
    subst hv
    have hk := Automaton.mem_silentTargets.mpr ⟨ha, Automaton.walk_lt hw hlt⟩
    exact ih hlt (hmet k (h.silent i hrmet k hk)) rfl
  | read => cases hv

/-- **A search ends** after at most `work` steps. -/
theorem exists_iterate_step : ∀ (n : Nat) {s : Search}, Sound a seeds s → work a s ≤ n →
    ∃ k ≤ n, (step a)^[k] s = ⟨a.closure seeds, []⟩
  | n, ⟨met, []⟩, h, _ => ⟨0, Nat.zero_le n, by rw [h.met_eq]; rfl⟩
  | n, ⟨met, i :: stack⟩, h, hn => by
    have hi := (Automaton.mem_closure.mp (h.mem_closure i (Or.inr List.mem_cons_self))).1
    have hlt : work a (step a ⟨met, i :: stack⟩) < work a ⟨met, i :: stack⟩ := work_step_lt hi
    obtain ⟨n, rfl⟩ : ∃ m, n = m + 1 := Nat.exists_eq_succ_of_ne_zero (by omega)
    obtain ⟨k, hk, hend⟩ := exists_iterate_step n (sound_step h) (by omega)
    exact ⟨k + 1, Nat.succ_le_succ hk, hend⟩

theorem work_start (a : Automaton) (seeds : List Nat) : work a (start seeds) =
    seeds.length + ∑ i ∈ Finset.range a.size, (a.silentTargets i).length := by
  have hall : unmet a (start seeds).met = Finset.range a.size :=
    Finset.filter_true_of_mem fun i _ hi => List.not_mem_nil (Ascending.mem_ofList.mp hi)
  rw [work, hall, start, List.length_reverse]

end Search

/-! ## Automata from graphs -/

namespace Automaton

/-- **Acceptance and closures**: an automaton from a graph accepts the texts that some path from the
initial state to an accepting one spells, whatever silent edges it takes. Reading can stop where no
state is left. The closure of some states, listed in any order and however often, is where their
silent paths end, and a search with a stack ends with it after at most as many steps as there are
seeds and silent edges. -/
theorem accepts_and_closure_spec {g : Graph} {start : Nat} {a : Automaton} (hs : start < g.size)
    (ha : a = ofGraph g start) :
    (∀ text, a.accepts text = true ↔
        ∃ p j, a.IsPath initial p j ∧ Spells p text ∧ a.accepting j = true) ∧
      (∀ u v, (a.run (a.closure [initial]) u).toList = [] → a.accepts (u ++ v) = false) ∧
      ∀ seeds, (∀ i ∈ seeds, i < a.size) →
        (∀ j, j ∈ a.closure seeds ↔
          ∃ i ∈ seeds, ∃ p, a.IsPath i p j ∧ ∀ e ∈ p, e.label = .epsilon) ∧
        ∃ n ≤ seeds.length + ∑ i ∈ Finset.range a.size, (a.silentTargets i).length,
          (Search.step a)^[n] (.start seeds) = ⟨a.closure seeds, []⟩ := by
  have hclosed : a.Closed := ha ▸ closed_ofGraph hs
  refine ⟨a.accepts_iff_path, fun u v => accepts_append_eq_false v, fun seeds hseeds => ⟨?_, ?_⟩⟩
  · exact fun j => mem_closure_iff_path hclosed hseeds
  · rw [← Search.work_start]
    exact Search.exists_iterate_step _ (Search.sound_start hseeds) (Nat.le_refl _)

/-- Two silent cycles, and seeds that are repeated. -/
theorem accepts_and_closure_spec_cycles :
    ∃ a, a = ofGraph #[⟨[⟨.epsilon, 1⟩], false, false⟩,
        ⟨[⟨.epsilon, 0⟩, ⟨.single 'x', 2⟩], false, false⟩, ⟨[⟨.epsilon, 2⟩], false, true⟩] 0 ∧
      a.accepts ['x'] = true ∧
      (∃ p j, a.IsPath initial p j ∧ Spells p ['x'] ∧ a.accepting j = true) ∧
      (∀ v, a.accepts ('y' :: v) = false) ∧ (a.closure [1, 0, 1]).toList = [0, 1] ∧
      ∃ n ≤ 6, (Search.step a)^[n] (.start [1, 0, 1]) = ⟨a.closure [1, 0, 1], []⟩ := by
  have hs : 0 < (#[⟨[⟨.epsilon, 1⟩], false, false⟩,
      ⟨[⟨.epsilon, 0⟩, ⟨.single 'x', 2⟩], false, false⟩,
      ⟨[⟨.epsilon, 2⟩], false, true⟩] : Graph).size := by
    decide
  obtain ⟨haccepts, hstop, hclosure⟩ := accepts_and_closure_spec hs rfl
  have hx := (haccepts ['x']).mp (by decide +kernel)
  exact ⟨_, rfl, by decide +kernel, hx, fun v => hstop ['y'] v (by decide +kernel),
    by decide +kernel, (hclosure [1, 0, 1] (by decide +kernel)).2⟩

end Automaton

end PatternAutomata
