import PatternAutomata.Proofs.Complement
import PatternAutomata.Proofs.DrawnLines
import PatternAutomata.Proofs.EdgeRows
import PatternAutomata.Proofs.SpacedIntervals

/-!
# What can be told from a drawing

About `to_dot` (in `dot`), whose labels are the canonical texts of transitions (in `automaton`).

A drawing shows everything of an automaton but which of the labels that are written alike an edge
has. Where these accept the same characters nothing about the language is lost, and the edges of a
deterministic automaton read intervals, which are told apart by their texts.

Results:
* `Automaton.ReadAlike.accepts_eq`: edges that lead to the same states and read the same characters
  accept the same texts;
* **`Automaton.accepts_eq_of_dot_eq`**: which labels are written alike and accept different
  characters, and that drawings without them tell which texts are accepted;
* **`Automaton.eq_of_dot_eq`**: a deterministic automaton can be told from its drawing.

Out of scope: the drawings of trees.
-/

namespace PatternAutomata

variable {a b : Automaton} {e f : Edge} {s t : State} {l m : Label}

/-! ## Edges that read the same characters -/

/-- The edges lead to the same state, and the same can be read along them. -/
structure Edge.ReadAlike (e f : Edge) : Prop where
  target_eq : e.target = f.target
  isEpsilon_eq : e.label.isEpsilon = f.label.isEpsilon
  accepts_eq : ∀ c, e.label.accepts c = f.label.accepts c

theorem Edge.WrittenAlike.readAlike (h : e.WrittenAlike f)
    (hne : ¬ e.label.Confusable f.label) : e.ReadAlike f where
  target_eq := h.target_eq
  isEpsilon_eq := Label.isEpsilon_eq_of_text_eq h.text_eq
  accepts_eq := (Label.accepts_iff_of_text_eq h.text_eq).mpr hne

/-- The targets of the edges with some property, if alike edges have it both or neither. -/
theorem targets_filter_eq {p q : Edge → Bool} (hpq : ∀ e f : Edge, e.ReadAlike f → p e = q f)
    {es fs : List Edge} (h : List.Forall₂ Edge.ReadAlike es fs) :
    (es.filter p).map Edge.target = (fs.filter q).map Edge.target := by
  induction h with
  | nil => rfl
  | @cons e f es fs hef _ ih =>
    rw [List.filter_cons, List.filter_cons, hpq e f hef]
    split
    · rw [List.map_cons, List.map_cons, ih, hef.target_eq]
    · exact ih

namespace Automaton

/-- The automata have the same states, and the edges of each state read the same characters in the
same order. -/
structure ReadAlike (a b : Automaton) : Prop where
  size_eq : a.size = b.size
  accepting_eq : ∀ i, a.accepting i = b.accepting i
  edges : ∀ i, List.Forall₂ Edge.ReadAlike (a.edges i) (b.edges i)

namespace ReadAlike

theorem closure_eq (h : a.ReadAlike b) (seeds : List Nat) : a.closure seeds = b.closure seeds := by
  have hsilent : a.silentTargets = b.silentTargets := by
    funext i
    refine targets_filter_eq (fun e f hef => ?_) (h.edges i)
    rw [hef.isEpsilon_eq, hef.target_eq, h.size_eq]
  rw [closure, closure, hsilent, h.size_eq]

theorem moves_eq (h : a.ReadAlike b) (x : StateSet) (c : Char) : a.moves x c = b.moves x c := by
  refine congrArg (List.flatMap · x.toList) (funext fun i => ?_)
  exact targets_filter_eq (fun e f hef => hef.accepts_eq c) (h.edges i)

theorem run_eq (h : a.ReadAlike b) (x : StateSet) (text : List Char) :
    a.run x text = b.run x text := by
  induction text generalizing x with
  | nil => rfl
  | cons c text ih =>
    rw [run, run, h.moves_eq, h.closure_eq]
    exact ih _

/-- **Automata that read the same characters** from state to state accept the same texts. -/
theorem accepts_eq (h : a.ReadAlike b) (text : List Char) : a.accepts text = b.accepts text := by
  rw [accepts, accepts, h.closure_eq, h.run_eq, anyAccepting, anyAccepting,
    funext h.accepting_eq]

end ReadAlike

/-! ## Classes with one label -/

/-- The automaton of a class with one label. -/
def ofLabel (l : Label) : Automaton := .ofRows [⟨[⟨l, 1⟩], false⟩, ⟨[], true⟩]

theorem toAutomaton_chars {cls : CharClass} (h : cls.labels = [l]) :
    (Expr.chars cls).toAutomaton = ofLabel l := by
  show (Fragment.parallel cls.labels).toAutomaton = ofLabel l
  rw [h]
  cbv

theorem ofPattern_of_label {pattern : String} (cls : CharClass) (hl : cls.labels = [l])
    (hp : (Tree.parse 250 pattern.toList).toOption.map Expr.ofTree? = some (.ok (.chars cls))) :
    ofPattern .default pattern = .ok (ofLabel l) := by
  obtain ⟨t, ht, he⟩ := exists_tree hp
  have htree : Tree.ofPattern .default pattern = .ok t := congrArg (Except.mapError _) ht
  rw [ofPattern, htree, ← toAutomaton_chars hl]
  exact congrArg (fun r => (Except.map Expr.toAutomaton r).mapError CompileError.shape) he

theorem dot_ofLabel_eq (h : l.text = m.text) : (ofLabel l).dot = (ofLabel m).dot :=
  dot_eq_iff.mpr (.cons ⟨rfl, rfl, .cons ⟨rfl, h⟩ .nil⟩ (.cons ⟨rfl, rfl, .nil⟩ .nil))

theorem edges_ofLabel (l : Label) : ∀ i, (ofLabel l).edges i = if i = 0 then [⟨l, 1⟩] else []
  | 0 => rfl
  | 1 => rfl
  | _ + 2 => rfl

theorem ofLabel_inj (h : ofLabel l = ofLabel m) : l = m := by
  have hedges : [Edge.mk l 1] = [⟨m, 1⟩] := congrArg (fun a => a.edges 0) h
  exact (Edge.mk.inj (List.cons.inj hedges).1).1

/-! ## The language of a drawing -/

theorem size_eq_of_dot_eq (h : a.dot = b.dot) : a.size = b.size :=
  (dot_eq_iff.mp h).length_eq

/-- What the drawing says of the state with some number. -/
theorem states_of_dot_eq (h : a.dot = b.dot) (i : Nat) :
    a.states[i]? = none ∧ b.states[i]? = none ∨
      ∃ s t, a.states[i]? = some s ∧ b.states[i]? = some t ∧ s.WrittenAlike t := by
  have hsize := size_eq_of_dot_eq h
  by_cases hi : i < a.size
  · have hi' : i < b.size := hsize ▸ hi
    exact Or.inr ⟨_, _, Array.getElem?_eq_getElem hi, Array.getElem?_eq_getElem hi',
      (dot_eq_iff.mp h).get hi hi'⟩
  · have hi' : ¬ i < b.size := hsize ▸ hi
    exact Or.inl ⟨Array.getElem?_eq_none (Nat.not_lt.mp hi),
      Array.getElem?_eq_none (Nat.not_lt.mp hi')⟩

theorem accepting_eq_of_dot_eq (h : a.dot = b.dot) (i : Nat) : a.accepting i = b.accepting i := by
  unfold accepting
  rcases states_of_dot_eq h i with ⟨ha, hb⟩ | ⟨s, t, ha, hb, hst⟩
  · rw [ha, hb]
  · rw [ha, hb]
    exact hst.accepting_eq

theorem edges_of_dot_eq (h : a.dot = b.dot) (i : Nat) :
    List.Forall₂ Edge.WrittenAlike (a.edges i) (b.edges i) := by
  unfold edges
  rcases states_of_dot_eq h i with ⟨ha, hb⟩ | ⟨s, t, ha, hb, hst⟩
  · rw [ha, hb]
    exact .nil
  · rw [ha, hb]
    exact hst.edges

theorem readAlike_of_dot_eq (h : a.dot = b.dot)
    (hne : ∀ i, ∀ p ∈ (a.edges i).zip (b.edges i), ¬ p.1.label.Confusable p.2.label) :
    a.ReadAlike b where
  size_eq := size_eq_of_dot_eq h
  accepting_eq := accepting_eq_of_dot_eq h
  edges i := by
    obtain ⟨hlength, hedges⟩ := List.forall₂_iff_zip.mp (edges_of_dot_eq h i)
    exact List.forall₂_iff_zip.mpr
      ⟨hlength, fun hp => (hedges hp).readAlike (hne i _ hp)⟩

/-- **What a drawing says of the language.** The labels that are written alike and do not accept the
same characters are the confusable ones. Where no two edges at the same place have such labels,
automata with the same drawing accept the same texts. -/
theorem accepts_eq_of_dot_eq (l m : Label) (a b : Automaton) :
    (l.Confusable m ↔ l.text = m.text ∧ ∃ c, l.accepts c ≠ m.accepts c) ∧
    (a.dot = b.dot →
      (∀ i, ∀ p ∈ (a.edges i).zip (b.edges i), ¬ p.1.label.Confusable p.2.label) →
      ∀ text, a.accepts text = b.accepts text) :=
  ⟨Label.confusable_iff, fun h hne text => (readAlike_of_dot_eq h hne).accepts_eq text⟩

/-- Two ways to write a class without the hyphen and its neighbours. -/
theorem accepts_eq_of_dot_eq_around_hyphen :
    ∃ a b, ofPattern .default "[^,\\-.]" = .ok a ∧ ofPattern .default "[^,-.]" = .ok b ∧ a ≠ b ∧
      a.dot = b.dot ∧ (∀ i, ∀ p ∈ (a.edges i).zip (b.edges i), ¬ p.1.label.Confusable p.2.label) ∧
      ∀ text, a.accepts text = b.accepts text := by
  have ha : ofPattern .default "[^,\\-.]" = .ok (ofLabel (.excluding [',', '-', '.'])) :=
    ofPattern_of_label ⟨true, [.char ',', .char '-', .char '.']⟩ (by cbv) (by cbv)
  have hb : ofPattern .default "[^,-.]" = .ok (ofLabel .aroundHyphen) :=
    ofPattern_of_label ⟨true, [.range ⟨',', '.'⟩]⟩ (by cbv) (by cbv)
  have hspelled : (Label.excluding [',', '-', '.']).SpelledAs .aroundHyphen := .gap (by cbv)
  have hdot := dot_ofLabel_eq hspelled.text_eq
  have hne : ∀ i, ∀ p ∈ ((ofLabel (.excluding [',', '-', '.'])).edges i).zip
      ((ofLabel .aroundHyphen).edges i), ¬ p.1.label.Confusable p.2.label := by
    intro i p hp
    rw [edges_ofLabel, edges_ofLabel] at hp
    split at hp
    · cases List.mem_singleton.mp hp
      rw [hspelled.confusable_iff]
      exact not_not_intro rfl
    · cases hp
  exact ⟨_, _, ha, hb, fun h => Label.noConfusion (ofLabel_inj h), hdot, hne,
    (accepts_eq_of_dot_eq (.excluding [',', '-', '.']) .aroundHyphen _ _).2 hdot hne⟩

/-- A class without three characters of which the hyphen is the middle one, and one without all
from the first to the last, are drawn alike, but only the first accepts what lies between. -/
theorem dot_eq_of_excluded_hyphen :
    (∃ l m : Label, l = .excluding ['!', '-', 'a'] ∧ m = .outside ⟨'!', 'a'⟩ ∧ l.WellFormed ∧
      m.WellFormed ∧ l.text = m.text ∧ l.accepts '"' = true ∧ m.accepts '"' = false) ∧
    ∃ a b, ofPattern .default "[^!\\-a]" = .ok a ∧ ofPattern .default "[^!-a]" = .ok b ∧
      a.dot = b.dot ∧ a.accepts ['"'] = true ∧ b.accepts ['"'] = false := by
  have hlabels : CharClass.labels ⟨true, [.char '!', .char '-', .char 'a']⟩ =
      [.excluding ['!', '-', 'a']] := by cbv
  have hlabels' : CharClass.labels ⟨true, [.range ⟨'!', 'a'⟩]⟩ = [.outside ⟨'!', 'a'⟩] := by cbv
  have htext : (Label.excluding ['!', '-', 'a']).text = (Label.outside ⟨'!', 'a'⟩).text :=
    Label.SpelledAs.text_eq (.gap (by cbv))
  refine ⟨⟨_, _, rfl, rfl, trivial, by decide, htext, by cbv, by decide⟩, _, _,
    ofPattern_of_label _ hlabels (by cbv), ofPattern_of_label _ hlabels' (by cbv),
    dot_ofLabel_eq htext, ?_, ?_⟩
  · rw [← toAutomaton_chars hlabels, Expr.accepts_chars]
    decide
  · rw [← toAutomaton_chars hlabels', Expr.accepts_chars]
    decide

end Automaton

/-! ## Deterministic automata -/

/-- Lists that are related element by element are the same if related elements of the lists are. -/
theorem eq_of_forall₂ {α : Type} {R : α → α → Prop} {p : α → Prop}
    (heq : ∀ x y, p x → p y → R x y → x = y) {xs ys : List α} (h : List.Forall₂ R xs ys)
    (hx : ∀ x ∈ xs, p x) (hy : ∀ y ∈ ys, p y) : xs = ys := by
  induction h with
  | nil => rfl
  | cons hR _ ih =>
    obtain ⟨hx, hxs⟩ := List.forall_mem_cons.mp hx
    obtain ⟨hy, hys⟩ := List.forall_mem_cons.mp hy
    rw [heq _ _ hx hy hR, ih hxs hys]

/-- The edge reads an interval. -/
def Edge.ReadsInterval (e : Edge) : Prop := ∃ i, e.label = .within i

theorem Edge.WrittenAlike.eq (he : e.ReadsInterval) (hf : f.ReadsInterval)
    (h : e.WrittenAlike f) : e = f := by
  obtain ⟨i, hi⟩ := he
  obtain ⟨j, hj⟩ := hf
  obtain ⟨label, target⟩ := e
  obtain ⟨label', target'⟩ := f
  cases hi
  cases hj
  cases h.target_eq
  rw [Label.within_text_inj h.text_eq]

theorem State.WrittenAlike.eq (hs : ∀ e ∈ s.edges, e.ReadsInterval)
    (ht : ∀ e ∈ t.edges, e.ReadsInterval) (h : s.WrittenAlike t) : s = t := by
  have hedges := eq_of_forall₂ (fun e f he hf => Edge.WrittenAlike.eq he hf) h.edges hs ht
  obtain ⟨edges, initial, accepting⟩ := s
  cases hedges
  cases h.initial_eq
  cases h.accepting_eq
  rfl

namespace Automaton

variable {a₁ a₂ d d₁ d₂ : Automaton} {limit limit₁ limit₂ : Nat}

theorem readsInterval_of_determinize (h : a.determinize limit = .ok d) (hs : s ∈ d.states) :
    ∀ e ∈ s.edges, e.ReadsInterval := by
  obtain ⟨row, -, hedges⟩ := exists_joined_edges h hs
  intro e he
  rw [hedges] at he
  obtain ⟨p, -, rfl⟩ := List.mem_map.mp he
  exact ⟨p.1, rfl⟩

/-- **A deterministic automaton can be told from its drawing**, whatever characters it reads. -/
theorem eq_of_dot_eq (h₁ : a₁.determinize limit₁ = .ok d₁) (h₂ : a₂.determinize limit₂ = .ok d₂)
    (h : d₁.dot = d₂.dot) : d₁ = d₂ := by
  have hstates : d₁.states.toList = d₂.states.toList :=
    eq_of_forall₂ (fun s t hs ht => State.WrittenAlike.eq hs ht) (dot_eq_iff.mp h)
      (fun s hs => readsInterval_of_determinize h₁ (Array.mem_toList_iff.mp hs))
      (fun s hs => readsInterval_of_determinize h₂ (Array.mem_toList_iff.mp hs))
  exact ext_states (Array.toList_inj.mp hstates)

/-- Quotation marks and control characters, read along two edges or along one. -/
theorem eq_of_dot_eq_quotes :
    ∃ a₁ a₂ d₁ d₂, a₁ = ofGraph #[
        ⟨[⟨.within ⟨'\n', '"'⟩, 1⟩, ⟨.within ⟨'#', '\\'⟩, 1⟩], false, false⟩, ⟨[], false, true⟩] 0 ∧
      a₂ = ofGraph #[⟨[⟨.within ⟨'\n', '\\'⟩, 1⟩], false, false⟩, ⟨[], false, true⟩] 0 ∧
      a₁.determinize 2 = .ok d₁ ∧ a₂.determinize 3 = .ok d₂ ∧ d₁.dot = d₂.dot ∧ d₁ = d₂ := by
  have h₁ : determinize _ 2 = .ok (ofLabel (.within ⟨'\n', '\\'⟩)) :=
    determinize_of_some (a := ofGraph #[⟨[⟨.within ⟨'\n', '"'⟩, 1⟩, ⟨.within ⟨'#', '\\'⟩, 1⟩],
      false, false⟩, ⟨[], false, true⟩] 0) (by decide +kernel)
  have h₂ : determinize _ 3 = .ok (ofLabel (.within ⟨'\n', '\\'⟩)) :=
    determinize_of_some (a := ofGraph #[⟨[⟨.within ⟨'\n', '\\'⟩, 1⟩], false, false⟩,
      ⟨[], false, true⟩] 0) (by decide +kernel)
  exact ⟨_, _, _, _, rfl, rfl, h₁, h₂, rfl, eq_of_dot_eq h₁ h₂ rfl⟩

end Automaton

end PatternAutomata
