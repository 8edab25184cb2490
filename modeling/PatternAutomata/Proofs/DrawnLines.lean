import Mathlib.Data.List.Forall2
import PatternAutomata.Automaton.Dot
import PatternAutomata.Proofs.LabelText

/-!
# What a drawing says of an automaton

About `to_dot` for an automaton (in `dot`), line by line.

A drawing is read line by line: no line ends within an escape, so the text is cut into its lines in
one way. A line begins with the number of a state, and the character after the number says whether
it is the line of the state itself or that of an edge. So the drawing tells where the edges of a
state end, and of each edge its target and the text of its label.

Results:
* `join_inj`: a text is cut into lines in one way only;
* `Automaton.edgeLine_eq_iff`, `Automaton.stateLines_append_eq_iff`: what the lines of an edge and
  of a state say;
* **`Automaton.dot_eq_iff`**: two automata have the same drawing iff they have the same accepting
  states and the same edges, up to labels that are written alike.
-/

namespace PatternAutomata

/-! ## Cutting texts -/

/-- Lists that go on in the same way up to the first element without some property are the same up
to there and from there on. -/
theorem append_inj_of_stop {α : Type} {p : α → Prop} : ∀ {u u' v v' : List α}, (∀ x ∈ u, p x) →
    (∀ x ∈ u', p x) → (∀ x ∈ v.head?, ¬ p x) → (∀ x ∈ v'.head?, ¬ p x) → u ++ v = u' ++ v' →
    u = u' ∧ v = v'
  | [], [], _, _, _, _, _, _, h => ⟨rfl, h⟩
  | [], x :: u', v, v', _, hu', hv, _, h => by
    have hx : x ∈ v.head? := by
      rw [show v = x :: (u' ++ v') from h]
      rfl
    exact absurd (hu' x List.mem_cons_self) (hv x hx)
  | x :: u, [], v, v', hu, _, _, hv', h => by
    have hx : x ∈ v'.head? := by
      rw [show v' = x :: (u ++ v) from h.symm]
      rfl
    exact absurd (hu x List.mem_cons_self) (hv' x hx)
  | x :: u, x' :: u', v, v', hu, hu', hv, hv', h => by
    obtain ⟨rfl, hrest⟩ := List.cons.inj h
    obtain ⟨rfl, rfl⟩ := append_inj_of_stop (List.forall_mem_cons.mp hu).2
      (List.forall_mem_cons.mp hu').2 hv hv' hrest
    exact ⟨rfl, rfl⟩

/-- The text ends with a line feed and has no other one. -/
def IsLine (s : String) : Prop := ∃ u, '\n' ∉ u ∧ s.toList = u ++ ['\n']

theorem IsLine.append_inj {s t : String} {u v : List Char} (hs : IsLine s) (ht : IsLine t)
    (h : s.toList ++ u = t.toList ++ v) : s = t ∧ u = v := by
  obtain ⟨x, hx, hs⟩ := hs
  obtain ⟨y, hy, ht⟩ := ht
  rw [hs, ht, List.append_assoc, List.append_assoc] at h
  obtain ⟨rfl, hrest⟩ := append_inj_of_stop (p := (· ≠ '\n')) (fun c hc e => hx (e ▸ hc))
    (fun c hc e => hy (e ▸ hc)) (by simp) (by simp) h
  exact ⟨String.toList_inj.mp (hs.trans ht.symm), (List.cons.inj hrest).2⟩

theorem IsLine.toList_ne_nil {s : String} (hs : IsLine s) : s.toList ≠ [] := by
  obtain ⟨u, -, hs⟩ := hs
  simp [hs]

/-- A text is cut into lines in one way only. -/
theorem join_inj {ls ms : List String} (hl : ∀ l ∈ ls, IsLine l) (hm : ∀ m ∈ ms, IsLine m)
    (h : String.join ls = String.join ms) : ls = ms := by
  rw [← String.toList_inj, String.toList_join, String.toList_join] at h
  exact Text.flatMap_inj (fun _ => IsLine.toList_ne_nil)
    (fun _ _ _ _ hs ht => hs.append_inj ht) hl hm h

/-- A number ends where something follows that is no digit. -/
theorem toDigits_append_inj {n m : Nat} {c d : Char} {u v : List Char} (hc : c.isDigit = false)
    (hd : d.isDigit = false) (h : Nat.toDigits 10 n ++ c :: u = Nat.toDigits 10 m ++ d :: v) :
    n = m ∧ c = d ∧ u = v := by
  have digits : ∀ k, ∀ x ∈ Nat.toDigits 10 k, x.isDigit = true := fun k x hx =>
    Nat.isDigit_of_mem_toDigits (by decide) (by decide) hx
  obtain ⟨hnm, hrest⟩ := append_inj_of_stop (p := fun x => x.isDigit = true) (digits n) (digits m)
    (by simp [hc]) (by simp [hd]) h
  obtain ⟨rfl, rfl⟩ := List.cons.inj hrest
  have hvalue := congrArg (Nat.ofDigitChars 10 · 0) hnm
  simp only [Nat.ofDigitChars_ten_toDigits] at hvalue
  exact ⟨hvalue, rfl, rfl⟩

/-! ## Alike states -/

/-- The edges lead to the same state, and their labels are written alike. -/
structure Edge.WrittenAlike (e f : Edge) : Prop where
  target_eq : e.target = f.target
  text_eq : e.label.text = f.label.text

/-- Both states are initial or neither is, likewise for accepting, and their edges are written
alike. -/
structure State.WrittenAlike (s t : State) : Prop where
  initial_eq : s.initial = t.initial
  accepting_eq : s.accepting = t.accepting
  edges : List.Forall₂ Edge.WrittenAlike s.edges t.edges

namespace Automaton

variable {a b : Automaton} {i j : Nat} {e f : Edge} {s t : State} {l m : String} {c d : Char}

/-! ## Lines -/

/-- The line of the state with number `i`. -/
def nodeLine (i : Nat) (s : State) : String := s!"  {i} [label=\"{stateLabel i s}\"];\n"

theorem toList_edgeLine (i : Nat) (e : Edge) :
    (edgeLine i e).toList = "  ".toList ++ Nat.toDigits 10 i ++ " -> ".toList ++
      Nat.toDigits 10 e.target ++ " [label=\"".toList ++ e.label.text.toList ++
      "\"];\n".toList := by
  simp [edgeLine, ToString.toString, String.toList_append]

theorem toList_nodeLine (i : Nat) (s : State) :
    (nodeLine i s).toList = "  ".toList ++ Nat.toDigits 10 i ++ " [label=\"".toList ++
      (stateLabel i s).toList ++ "\"];\n".toList := by
  simp [nodeLine, ToString.toString, String.toList_append]

theorem toList_stateLabel (i : Nat) (s : State) :
    (stateLabel i s).toList = Nat.toDigits 10 i ++ (if s.initial then "-Start" else "").toList ++
      (if s.accepting then "-Accepted" else "").toList := by
  simp [stateLabel, ToString.toString, String.toList_append]

theorem newline_notMem_toDigits (n : Nat) : '\n' ∉ Nat.toDigits 10 n := fun h =>
  absurd (Nat.isDigit_of_mem_toDigits (by decide) (by decide) h) (by decide)

theorem newline_notMem_stateLabel (i : Nat) (s : State) : '\n' ∉ (stateLabel i s).toList := by
  rw [toList_stateLabel]
  simp only [List.mem_append, not_or]
  refine ⟨⟨newline_notMem_toDigits i, ?_⟩, ?_⟩ <;> split <;> decide

/-- Every line of a drawing but the first and the last ends with the same sign. -/
theorem isLine_of_toList {u : List Char} (h : l.toList = u ++ "\"];\n".toList) (hu : '\n' ∉ u) :
    IsLine l := by
  refine ⟨u ++ "\"];".toList, ?_, ?_⟩
  · simp [hu]
  · rw [h, List.append_assoc]
    rfl

theorem isLine_edgeLine (i : Nat) (e : Edge) : IsLine (edgeLine i e) :=
  isLine_of_toList (toList_edgeLine i e)
    (by simp [newline_notMem_toDigits, Label.newline_notMem_text])

theorem isLine_nodeLine (i : Nat) (s : State) : IsLine (nodeLine i s) :=
  isLine_of_toList (toList_nodeLine i s)
    (by simp [newline_notMem_toDigits, newline_notMem_stateLabel])

/-- The line is about state `i`, and `c` is what follows the number. -/
def Begins (i : Nat) (c : Char) (l : String) : Prop :=
  ∃ u, l.toList = ' ' :: ' ' :: (Nat.toDigits 10 i ++ ' ' :: c :: u)

theorem begins_edgeLine (i : Nat) (e : Edge) : Begins i '-' (edgeLine i e) := by
  unfold Begins
  rw [toList_edgeLine]
  simp only [List.append_assoc]
  exact ⟨_, rfl⟩

theorem begins_nodeLine (i : Nat) (s : State) : Begins i '[' (nodeLine i s) := by
  unfold Begins
  rw [toList_nodeLine]
  simp only [List.append_assoc]
  exact ⟨_, rfl⟩

theorem Begins.eq (h : Begins i c l) (h' : Begins j d l) : c = d := by
  obtain ⟨u, hu⟩ := h
  obtain ⟨v, hv⟩ := h'
  have hline := (List.cons.inj (List.cons.inj (hu.symm.trans hv)).2).2
  obtain ⟨-, -, hrest⟩ := toDigits_append_inj (by decide) (by decide) hline
  exact (List.cons.inj hrest).1

/-- The line of an edge says where it leads and how its label is written. -/
theorem edgeLine_eq_iff : edgeLine i e = edgeLine i f ↔ e.WrittenAlike f := by
  rw [← String.toList_inj, toList_edgeLine, toList_edgeLine]
  constructor
  · intro h
    have label : " [label=\"".toList = ' ' :: "[label=\"".toList := rfl
    simp only [List.append_assoc, List.append_cancel_left_eq, label, List.cons_append] at h
    obtain ⟨htarget, -, hrest⟩ := toDigits_append_inj (by decide) (by decide) h
    rw [List.append_cancel_left_eq, List.append_cancel_right_eq, String.toList_inj] at hrest
    exact ⟨htarget, hrest⟩
  · rintro ⟨htarget, htext⟩
    rw [htarget, htext]

/-- The line of a state says whether it is the initial one and whether it is accepting. -/
theorem nodeLine_eq_iff :
    nodeLine i s = nodeLine i t ↔ s.initial = t.initial ∧ s.accepting = t.accepting := by
  rw [← String.toList_inj, toList_nodeLine, toList_nodeLine, List.append_cancel_right_eq,
    List.append_cancel_left_eq, toList_stateLabel, toList_stateLabel, List.append_assoc,
    List.append_assoc, List.append_cancel_left_eq]
  cases s.initial <;> cases t.initial <;> cases s.accepting <;> cases t.accepting <;> decide

/-- The lines of a state say what kind of state it is, and what its edges are. -/
theorem stateLines_append_eq_iff {ls ms : List String} (hl : ∀ l ∈ ls.head?, ∃ k, Begins k '[' l)
    (hm : ∀ m ∈ ms.head?, ∃ k, Begins k '[' m) :
    stateLines i s ++ ls = stateLines i t ++ ms ↔ s.WrittenAlike t ∧ ls = ms := by
  have edges_eq_iff : s.edges.map (edgeLine i) = t.edges.map (edgeLine i) ↔
      List.Forall₂ Edge.WrittenAlike s.edges t.edges := by
    rw [← List.forall₂_eq_eq_eq, List.forall₂_map_left_iff, List.forall₂_map_right_iff]
    simp only [edgeLine_eq_iff]
  show nodeLine i s :: (s.edges.map (edgeLine i) ++ ls) =
    nodeLine i t :: (t.edges.map (edgeLine i) ++ ms) ↔ _
  rw [List.cons_eq_cons, nodeLine_eq_iff]
  constructor
  · rintro ⟨⟨hinitial, hacc⟩, h⟩
    -- the edges end where the line of a state begins
    have isEdge : ∀ es : List Edge, ∀ l ∈ es.map (edgeLine i), ∃ k, Begins k '-' l := by
      intro es l hl
      obtain ⟨e, -, rfl⟩ := List.mem_map.mp hl
      exact ⟨i, begins_edgeLine i e⟩
    have stop : ∀ l, (∃ k, Begins k '[' l) → ¬ ∃ k, Begins k '-' l := by
      rintro l ⟨k, hk⟩ ⟨k', hk'⟩
      exact absurd (hk.eq hk') (by decide)
    obtain ⟨hedges, hrest⟩ := append_inj_of_stop (p := fun l => ∃ k, Begins k '-' l)
      (isEdge s.edges) (isEdge t.edges) (fun l h => stop l (hl l h)) (fun m h => stop m (hm m h)) h
    exact ⟨⟨hinitial, hacc, edges_eq_iff.mp hedges⟩, hrest⟩
  · rintro ⟨⟨hinitial, hacc, hedges⟩, rfl⟩
    rw [edges_eq_iff.mpr hedges]
    exact ⟨⟨hinitial, hacc⟩, rfl⟩

/-! ## Drawings -/

theorem begins_head_linesFrom (i : Nat) (ss : List State) :
    ∀ l ∈ (linesFrom i ss).head?, ∃ k, Begins k '[' l := by
  cases ss with
  | nil => exact fun l hl => absurd hl (by simp [linesFrom])
  | cons s ss =>
    rintro l ⟨⟩
    exact ⟨i, begins_nodeLine i s⟩

theorem isLine_of_mem_linesFrom : ∀ {i : Nat} {ss : List State}, ∀ l ∈ linesFrom i ss, IsLine l
  | _, [], l, hl => absurd hl List.not_mem_nil
  | i, s :: ss, l, hl => by
    rcases List.mem_append.mp hl with hl | hl
    · rcases List.mem_cons.mp hl with rfl | hl
      · exact isLine_nodeLine i s
      · obtain ⟨e, -, rfl⟩ := List.mem_map.mp hl
        exact isLine_edgeLine i e
    · exact isLine_of_mem_linesFrom l hl

theorem linesFrom_eq_iff : ∀ {i : Nat} {ss ts : List State},
    linesFrom i ss = linesFrom i ts ↔ List.Forall₂ State.WrittenAlike ss ts
  | _, [], [] => iff_of_true rfl .nil
  | _, [], t :: ts => iff_of_false (List.cons_ne_nil _ _).symm fun h => nomatch h
  | _, s :: ss, [] => iff_of_false (List.cons_ne_nil _ _) fun h => nomatch h
  | i, s :: ss, t :: ts => by
    rw [linesFrom, linesFrom, stateLines_append_eq_iff (begins_head_linesFrom (i + 1) ss)
      (begins_head_linesFrom (i + 1) ts), linesFrom_eq_iff, List.forall₂_cons]

/-- **The drawing of an automaton** says how many states there are, which of them is the initial one
and which are accepting, and which edges they have in which order, up to labels that are written
alike. -/
theorem dot_eq_iff :
    a.dot = b.dot ↔ List.Forall₂ State.WrittenAlike a.states.toList b.states.toList := by
  rw [← linesFrom_eq_iff (i := 0)]
  constructor
  · intro h
    have isLine : ∀ ss : List State, ∀ l ∈ "digraph fa \x7b\n" :: linesFrom 0 ss ++ ["\x7d\n"],
        IsLine l := by
      intro ss l hl
      rcases List.mem_cons.mp hl with rfl | hl
      · exact ⟨"digraph fa \x7b".toList, by decide, rfl⟩
      · rcases List.mem_append.mp hl with hl | hl
        · exact isLine_of_mem_linesFrom l hl
        · rw [List.mem_singleton.mp hl]
          exact ⟨"\x7d".toList, by decide, rfl⟩
    have hlines := join_inj (isLine _) (isLine _) h
    exact List.append_cancel_right (List.cons.inj hlines).2
  · intro h
    rw [dot, h, dot]

end Automaton

end PatternAutomata
