import PatternAutomata.Proofs.Graphs
import PatternAutomata.Proofs.Passage
import PatternAutomata.Regex.Basic

/-!
# The language of a pattern's automaton

About `build_nfa` (in `nfa`) and `accepts` (in `automaton`).

The automaton of an expression accepts what can be read across its fragment. That is all of the
language of the expression, but it may be more: the edge that bypasses the operand of a `?` runs
between the operand's own ends, and where a `+` leads back to one of these ends the bypass can be
taken in the middle of the operand.

Results:
* `Expr.accepts_toAutomaton_iff`: the automaton of an expression accepts what can be read across it;
* `Expr.language_le_across`: nothing of the language of an expression is lost;
* `Expr.across_of_bypassSafe`: nothing else is accepted where no bypass begins or ends at a state
  that is passed again;
* **`Automaton.accepts_ofTree_iff`**: the language of a pattern's automaton, and when it is that of
  the pattern.

Out of scope: trees that no pattern has.
-/

namespace PatternAutomata

open Computability

/-! ## From fragments to automata -/

namespace Fragment

/-- The edges of each state, for a list of arcs between `n` states. -/
theorem getElem?_foldr_modify (arcs : List Arc) (n i : Nat) :
    (arcs.foldr (fun a rows => rows.modify a.source (⟨a.label, a.target⟩ :: ·))
      (Array.replicate n ([] : List Edge)))[i]? =
      if i < n then some ((arcs.filter (·.source = i)).map fun a => ⟨a.label, a.target⟩)
      else none := by
  induction arcs with
  | nil => exact Array.getElem?_replicate
  | cons a arcs ih =>
    rw [List.foldr_cons, Array.getElem?_modify, ih]
    by_cases hi : i < n
    · by_cases ha : a.source = i
      · rw [if_pos ha, if_pos hi, if_pos hi, List.filter_cons_of_pos (by simpa using ha)]
        rfl
      · rw [if_neg ha, if_pos hi, if_pos hi, List.filter_cons_of_neg (by simpa using ha)]
    · rw [if_neg hi, if_neg hi]
      simp

variable {f : Fragment} {i j : Nat} {l : Label}

theorem getElem?_toGraph (f : Fragment) (i : Nat) :
    f.toGraph[i]? = if i < f.size then
        some ⟨(f.arcs.toList.filter (·.source = i)).map fun a => ⟨a.label, a.target⟩,
          i == f.start, i == f.stop⟩
      else none := by
  unfold toGraph rows
  rw [Array.getElem?_mapIdx, ← Array.foldr_toList, getElem?_foldr_modify]
  by_cases hi : i < f.size
  · simp [hi]
  · simp [hi]

theorem size_toGraph (f : Fragment) : f.toGraph.size = f.size := by
  unfold toGraph rows
  rw [Array.size_mapIdx, ← Array.foldr_toList]
  induction f.arcs.toList with
  | nil => exact Array.size_replicate
  | cons a arcs ih => rw [List.foldr_cons, Array.size_modify, ih]

/-- The arcs of the graph are those of the fragment. -/
theorem Valid.arc_toGraph_iff (hf : f.Valid) : f.toGraph.arc i l j ↔ f.arc i l j := by
  have hmem : ∀ {s : State}, f.toGraph[i]? = some s → (⟨l, j⟩ ∈ s.edges ↔ f.arc i l j) := by
    intro s hs
    rw [getElem?_toGraph] at hs
    by_cases hi : i < f.size
    · rw [if_pos hi] at hs
      cases hs
      simp only [List.mem_map, List.mem_filter, Array.mem_toList_iff, decide_eq_true_eq,
        Edge.mk.injEq, Fragment.arc]
      constructor
      · rintro ⟨⟨i', l', j'⟩, ⟨ha, rfl⟩, rfl, rfl⟩
        exact ha
      · exact fun ha => ⟨⟨i, l, j⟩, ⟨ha, rfl⟩, rfl, rfl⟩
    · rw [if_neg hi] at hs
      cases hs
  rw [Graph.arc_iff]
  constructor
  · rintro ⟨s, hs, he, -⟩
    exact (hmem hs).mp he
  · intro ha
    obtain ⟨hi, hj⟩ := hf.arc_lt i l j ha
    rw [size_toGraph]
    have hs := getElem?_toGraph f i
    rw [if_pos hi] at hs
    exact ⟨_, hs, (hmem hs).mpr ha, hj⟩

theorem accepting_toGraph_iff (hf : f.Valid) : f.toGraph.accepting i = true ↔ i = f.stop := by
  unfold Graph.accepting
  rw [getElem?_toGraph]
  by_cases hi : i < f.size
  · simp [hi]
  · have hne : i ≠ f.stop := by
      rintro rfl
      exact hi hf.stop_lt
    simp [hi, hne]

/-- **The automaton of a fragment** accepts what can be read across the fragment. -/
theorem accepts_toAutomaton_iff (hf : f.Valid) (w : List Char) :
    f.toAutomaton.accepts w = true ↔ w ∈ f.passage.across := by
  have hs : f.start < f.toGraph.size := by
    rw [size_toGraph]
    exact hf.start_lt
  unfold toAutomaton
  rw [Automaton.accepts_ofGraph_iff hs]
  constructor
  · rintro ⟨j, hw, hacc⟩
    obtain rfl := (accepting_toGraph_iff hf).mp hacc
    exact hw.mono hf.arc_toGraph_iff.mp
  · intro hw
    have hw : Walk f.arc f.start w f.stop := hw
    exact ⟨f.stop, hw.mono hf.arc_toGraph_iff.mpr, (accepting_toGraph_iff hf).mpr rfl⟩

end Fragment

/-! ## Bypasses -/

namespace Passage

/-- What can be read by way of a silent edge from the way in to the way out: a walk may return to
the way in before, come back between two uses, and return to the way out afterwards. -/
def bypass (m : Passage) : Language Char := m .entry .entry * (m .exit .entry)∗ * m .exit .exit

theorem across_connect_forth (m : Passage) :
    (m.connect .entry .exit).across = m.bypass + m.across :=
  add_comm _ _

/-- The ends at which `r` is false are passed at most once. -/
structure Once (m : Passage) (r : Port → Bool) : Prop where
  stay : ∀ p, r p = false → m p p = 1
  back : ∀ p, r p = false → m .exit .entry = 0

variable {m n : Passage} {r s : Port → Bool}

theorem once_oneWay (l : Language Char) : (oneWay l).Once fun _ => false where
  stay p _ := by cases p <;> rfl
  back _ _ := rfl

/-- The ends of `append`, given those of its parts. -/
def endsOf (r s : Port → Bool) : Port → Bool
  | .entry => r .entry
  | .exit => s .exit

theorem Once.append (hm : m.Once r) (hn : n.Once s) : (m.append n).Once (endsOf r s) where
  stay
    | .entry, h => hm.stay .entry h
    | .exit, h => hn.stay .exit h
  back _ _ := rfl

theorem Once.connect_forth (h : m.Once r) : (m.connect .entry .exit).Once r where
  stay p hp := by
    have hb := h.back p hp
    cases p with
    | entry => rw [connect, h.stay .entry hp, hb, mul_zero, add_zero]
    | exit => rw [connect, h.stay .exit hp, hb, zero_mul, zero_mul, add_zero]
  back p hp := by
    rw [connect, h.back p hp, mul_zero, add_zero]

/-- Where both ends are passed at most once, nothing can be read by way of a bypass. -/
theorem Once.bypass_eq (h : m.Once r) (hs : r .entry = false) (hf : r .exit = false) :
    m.bypass = 1 := by
  rw [bypass, h.stay .entry hs, h.stay .exit hf, h.back .entry hs, kstar_zero, mul_one, mul_one]

end Passage

/-! ## From expressions to automata -/

namespace Expr

/-- **The automaton of an expression** accepts what can be read across the expression. -/
theorem accepts_toAutomaton_iff (e : Expr) (w : List Char) :
    e.toAutomaton.accepts w = true ↔ w ∈ e.passage.across := by
  obtain ⟨hv, hp⟩ := e.fragment_spec
  unfold toAutomaton
  rw [Fragment.accepts_toAutomaton_iff hv, hp]

theorem one_le_passage (e : Expr) (p : Port) : 1 ≤ e.passage p p := by
  obtain ⟨-, hp⟩ := e.fragment_spec
  rw [← hp]
  exact one_le_walks _ _

theorem one_le_bypass (e : Expr) : 1 ≤ e.passage.bypass := by
  calc (1 : Language Char)
      = 1 * 1 * 1 := by rw [mul_one, mul_one]
    _ ≤ e.passage .entry .entry * (e.passage .exit .entry)∗ * e.passage .exit .exit :=
        mul_le_mul' (mul_le_mul' (e.one_le_passage .entry) one_le_kstar) (e.one_le_passage .exit)
    _ = e.passage.bypass := rfl

mutual

/-- All words of an expression can be read across it. -/
theorem language_le_across : ∀ e : Expr, e.language ≤ e.passage.across
  | .chars cls => by
    rw [language, passage]
    exact le_refl _
  | .sequence first rest => by
    rw [language, passage]
    exact (mul_le_mul_left (language_le_across first) _).trans (mul_product_le _ rest)
  | .choice branches => by
    rw [language, passage]
    exact union_le_acrossAny branches
  | .star body => by
    rw [language, passage]
    exact kstar_mono (language_le_across body)
  | .plus body => by
    have ih := language_le_across body
    rw [language, passage, Passage.across_connect_back]
    exact mul_le_mul' ih (kstar_mono ih)
  | .optional body => by
    have ih := language_le_across body
    rw [language, passage, Passage.across_connect_forth]
    exact add_le_add (one_le_bypass body) ih

theorem mul_product_le (m : Passage) : ∀ rest : List Expr,
    m.across * product rest ≤ (passageThen m rest).across
  | [] => by
    rw [product, passageThen, mul_one]
  | e :: rest => by
    rw [product, passageThen, ← mul_assoc]
    have ih := language_le_across e
    exact (mul_le_mul_left (mul_le_mul_right ih _) _).trans
      (mul_product_le (m.append e.passage) rest)

theorem union_le_acrossAny : ∀ branches : List Expr, union branches ≤ acrossAny branches
  | [] => by
    rw [union, acrossAny]
  | e :: rest => by
    rw [union, acrossAny]
    exact add_le_add (language_le_across e) (union_le_acrossAny rest)

end

/-! ## Where no more is accepted -/

mutual

/-- Whether the walks across an expression may pass an end more than once, as they do where a `+`
leads back to it. -/
def revisits : Expr → Port → Bool
  | .chars _ => fun _ => false
  | .sequence first rest => revisitsThen first.revisits rest
  | .choice _ => fun _ => false
  | .star _ => fun _ => false
  | .plus _ => fun _ => true
  | .optional body => body.revisits

/-- The ends of an expression followed by the given ones. -/
def revisitsThen (r : Port → Bool) : List Expr → Port → Bool
  | [] => r
  | e :: rest => revisitsThen (Passage.endsOf r e.revisits) rest

end

mutual

/-- Whether the walks across each operand of a `?` pass its ends only once. -/
def bypassSafe : Expr → Bool
  | .chars _ => true
  | .sequence first rest => first.bypassSafe && bypassSafeAll rest
  | .choice branches => bypassSafeAll branches
  | .star body => body.bypassSafe
  | .plus body => body.bypassSafe
  | .optional body => body.bypassSafe && !body.revisits .entry && !body.revisits .exit

/-- Whether this is so in all of the expressions. -/
def bypassSafeAll : List Expr → Bool
  | [] => true
  | e :: rest => e.bypassSafe && bypassSafeAll rest

end

mutual

theorem once_passage : ∀ e : Expr, e.passage.Once e.revisits
  | .chars cls => by
    rw [passage, revisits]
    exact Passage.once_oneWay _
  | .sequence first rest => by
    rw [passage, revisits]
    exact once_passageThen (once_passage first) rest
  | .choice branches => by
    rw [passage, revisits]
    exact Passage.once_oneWay _
  | .star body => by
    rw [passage, revisits]
    exact Passage.once_oneWay _
  | .plus body => by
    rw [revisits]
    exact ⟨fun _ h => Bool.noConfusion h, fun _ h => Bool.noConfusion h⟩
  | .optional body => by
    rw [passage, revisits]
    exact (once_passage body).connect_forth

theorem once_passageThen {m : Passage} {r : Port → Bool} (h : m.Once r) : ∀ rest : List Expr,
    (passageThen m rest).Once (revisitsThen r rest)
  | [] => by
    rw [passageThen, revisitsThen]
    exact h
  | e :: rest => by
    rw [passageThen, revisitsThen]
    exact once_passageThen (h.append (once_passage e)) rest

end

mutual

/-- Where every bypass is safe, only the words of an expression can be read across it. -/
theorem across_of_bypassSafe : ∀ e : Expr, e.bypassSafe = true → e.passage.across = e.language
  | .chars cls, _ => by
    rw [language, passage]
    rfl
  | .sequence first rest, h => by
    rw [bypassSafe, Bool.and_eq_true] at h
    rw [language, passage, passageThen_of_bypassSafe _ rest h.2, across_of_bypassSafe first h.1]
  | .choice branches, h => by
    rw [bypassSafe] at h
    rw [language, passage]
    exact acrossAny_of_bypassSafe branches h
  | .star body, h => by
    rw [bypassSafe] at h
    rw [language, passage, ← across_of_bypassSafe body h]
    rfl
  | .plus body, h => by
    rw [bypassSafe] at h
    rw [language, passage, Passage.across_connect_back, across_of_bypassSafe body h]
  | .optional body, h => by
    rw [bypassSafe, Bool.and_eq_true, Bool.and_eq_true, Bool.not_eq_true', Bool.not_eq_true'] at h
    obtain ⟨⟨hb, hs⟩, hf⟩ := h
    rw [language, passage, Passage.across_connect_forth, (once_passage body).bypass_eq hs hf,
      across_of_bypassSafe body hb]

theorem passageThen_of_bypassSafe (m : Passage) : ∀ rest : List Expr, bypassSafeAll rest = true →
    (passageThen m rest).across = m.across * product rest
  | [], _ => by
    rw [passageThen, product, mul_one]
  | e :: rest, h => by
    rw [bypassSafeAll, Bool.and_eq_true] at h
    rw [passageThen, product, passageThen_of_bypassSafe _ rest h.2, ← across_of_bypassSafe e h.1,
      ← mul_assoc]
    rfl

theorem acrossAny_of_bypassSafe : ∀ branches : List Expr, bypassSafeAll branches = true →
    acrossAny branches = union branches
  | [], _ => by
    rw [acrossAny, union]
  | e :: rest, h => by
    rw [bypassSafeAll, Bool.and_eq_true] at h
    rw [acrossAny, union, across_of_bypassSafe e h.1, acrossAny_of_bypassSafe rest h.2]

end

end Expr

/-! ## From patterns to automata -/

namespace Automaton

/-- **The language of a pattern's automaton.** It is what can be read across the expression of the
pattern. No word of the pattern is lost, and no other is accepted iff nothing else can be read
across, as it is where every bypass is safe. -/
theorem accepts_ofTree_iff {limit : Nat} {pattern : List Char} {t : Tree}
    (h : Tree.parse limit pattern = .ok t) :
    ∃ e a, Expr.ofTree? t = .ok e ∧ ofTree? t = .ok a ∧
      (∀ w, a.accepts w = true ↔ w ∈ e.passage.across) ∧
      (∀ w ∈ t.language, a.accepts w = true) ∧
      ((∀ w, a.accepts w = true ↔ w ∈ t.language) ↔ e.passage.across ≤ t.language) ∧
      (e.bypassSafe = true → ∀ w, a.accepts w = true ↔ w ∈ t.language) := by
  obtain ⟨e, he, hl⟩ := Tree.exists_expr (Tree.wellShaped_of_parse h)
  have hacc := e.accepts_toAutomaton_iff
  have hle := e.language_le_across
  rw [hl] at hle
  refine ⟨e, e.toAutomaton, he, ?_, hacc, ?_, ⟨?_, ?_⟩, ?_⟩
  · unfold ofTree?
    rw [he]
    rfl
  · intro w hw
    exact (hacc w).mpr (hle hw)
  · intro hall w hw
    exact (hall w).mp ((hacc w).mpr hw)
  · intro hge w
    rw [hacc]
    exact ⟨fun hw => hge hw, fun hw => hle hw⟩
  · intro hs w
    rw [hacc, e.across_of_bypassSafe hs, hl]

/-- The tree of a pattern whose expression can be evaluated. -/
theorem exists_tree {limit : Nat} {pattern : List Char} {e : Expr}
    (h : (Tree.parse limit pattern).toOption.map Expr.ofTree? = some (.ok e)) :
    ∃ t, Tree.parse limit pattern = .ok t ∧ Expr.ofTree? t = .ok e := by
  cases ht : Tree.parse limit pattern with
  | error err =>
    rw [ht] at h
    cases h
  | ok t =>
    rw [ht] at h
    exact ⟨t, rfl, Option.some.inj h⟩

/-- The bypass of `(ab*)?` is safe. -/
theorem accepts_ofTree_optional_sequence :
    ∃ t e a, Tree.parse 250 "(ab*)?".toList = .ok t ∧ Expr.ofTree? t = .ok e ∧
      ofTree? t = .ok a ∧ e.bypassSafe = true ∧ ∀ w, a.accepts w = true ↔ w ∈ t.language := by
  have hp : (Tree.parse 250 "(ab*)?".toList).toOption.map Expr.ofTree? =
      some (.ok (.optional (.sequence (.chars (.single 'a')) [.star (.chars (.single 'b'))]))) := by
    cbv
  obtain ⟨t, ht, he'⟩ := exists_tree hp
  obtain ⟨e, a, he, ha, -, -, -, hsafe⟩ := accepts_ofTree_iff ht
  have hs : e.bypassSafe = true := by
    cases he.symm.trans he'
    decide
  exact ⟨t, e, a, ht, he, ha, hs, hsafe hs⟩

/-- In `(a+b)?` the `+` leads back to where the bypass begins, so that `a` is accepted. -/
theorem accepts_more_than_language :
    ∃ t a, Tree.parse 250 "(a+b)?".toList = .ok t ∧ ofTree? t = .ok a ∧
      a.accepts ['a'] = true ∧ ['a'] ∉ t.language := by
  have hp : (Tree.parse 250 "(a+b)?".toList).toOption.map Expr.ofTree? =
      some (.ok (.optional (.sequence (.plus (.chars (.single 'a'))) [.chars (.single 'b')]))) := by
    cbv
  obtain ⟨t, ht, he'⟩ := exists_tree hp
  obtain ⟨e, he, hl⟩ := Tree.exists_expr (Tree.wellShaped_of_parse ht)
  cases he.symm.trans he'
  refine ⟨t, _, ht, by rw [ofTree?, he]; rfl, by decide +kernel, ?_⟩
  rw [← hl]
  simp only [Expr.language, Expr.product, mul_one]
  rintro (hnil | ⟨u, -, v, ⟨c, hc, rfl⟩, huv⟩)
  · cases hnil
  · have hb : c = 'b' := by
      simpa [CharClass.contains_iff, CharClass.single, CharClass.intervals,
        ClassMember.interval, Interval.mem_single] using hc
    have hlast := congrArg List.getLast? huv
    simp [hb] at hlast

end Automaton

end PatternAutomata
