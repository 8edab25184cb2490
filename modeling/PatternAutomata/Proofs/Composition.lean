import PatternAutomata.Proofs.ParserCompleteness
import PatternAutomata.Proofs.PatternSearch
import PatternAutomata.Proofs.Relocation

/-!
# Patterns made of groups

About `parse` (in `parser`) and `build_nfa` (in `nfa`) on patterns that are put together from
groups.

A pattern in parentheses is a unit: whatever operators it holds, what is written around it applies
to all of it. So the words of a pattern that is composed of groups are found from the words of the
groups by concatenation, union and repetition.

Results:
* `denotes_of_tokens`: the words of the pattern that a derivation derives;
* **`Automaton.denotes_composed`**: what is accepted by two patterns in a row, by two alternatives
  and by a repeated pattern.

Out of scope: parts without parentheses, in which an operator may apply to less than the part.
-/

namespace PatternAutomata

open Computability

/-- The texts that an automaton accepts. -/
def Automaton.language (a : Automaton) : Language Char := {w | a.accepts w = true}

/-- The pattern has an automaton where groups may be nested to the given depth; under whatever
limits it has one, the automaton accepts the words of `l` and no others. -/
structure Denotes (depth : Nat) (pattern : String) (l : Language Char) : Prop where
  exists_automaton : ∀ limits : Limits, depth ≤ limits.nesting →
    ∃ a, Automaton.ofPattern limits pattern = .ok a
  language_eq : ∀ (limits : Limits) (a : Automaton), Automaton.ofPattern limits pattern = .ok a →
    a.language = l

theorem Denotes.mono {depth depth' : Nat} {pattern : String} {l : Language Char}
    (h : Denotes depth pattern l) (hle : depth ≤ depth') : Denotes depth' pattern l :=
  ⟨fun limits hlimits => h.exists_automaton limits (Nat.le_trans hle hlimits), h.language_eq⟩

/-! ## The words of a derivation -/

theorem Expr.language_toAutomaton (e : Expr) : e.toAutomaton.language = e.passage.across :=
  Set.ext e.accepts_toAutomaton_iff

/-- Behind the automaton of a pattern there is a derivation of the pattern's tokens. -/
theorem Grammar.exists_regexp_of_ofPattern {limits : Limits} {pattern : String} {a : Automaton}
    (h : Automaton.ofPattern limits pattern = .ok a) : ∃ r : Regexp,
      Tokens.ofPattern pattern.toList = ⟨r.tokens, none⟩ ∧ r.depth ≤ limits.nesting ∧
        a = r.expr.toAutomaton := by
  obtain ⟨t, e, ht, he, -, rfl⟩ := Automaton.ofPattern_eq_ok h
  obtain ⟨r, hts, hd, rfl⟩ := exists_regexp_of_parse ht
  rw [r.ofTree?_tree] at he
  cases he
  exact ⟨r, hts, hd, rfl⟩

/-- **The words of a derivation**: the pattern with its tokens denotes what can be read across its
expression. -/
theorem denotes_of_tokens {pattern : String} {r : Grammar.Regexp}
    (hts : Tokens.ofPattern pattern.toList = ⟨r.tokens, none⟩) :
    Denotes r.depth pattern r.expr.passage.across where
  exists_automaton limits hlimits := by
    obtain ⟨t, ht⟩ := Grammar.Regexp.exists_tree hts hlimits
    obtain ⟨r', -, -, rfl⟩ := Grammar.exists_regexp_of_parse ht
    refine ⟨r'.expr.toAutomaton, ?_⟩
    unfold Automaton.ofPattern Tree.ofPattern Automaton.ofTree?
    rw [ht]
    show (((Expr.ofTree? (.root r'.tree)).map Expr.toAutomaton).mapError CompileError.shape) = _
    rw [r'.ofTree?_tree]
    rfl
  language_eq limits a ha := by
    obtain ⟨r', hts', -, rfl⟩ := Grammar.exists_regexp_of_ofPattern ha
    -- the tokens have one derivation only, so the limits make no difference
    have hr : r' = r := Grammar.Regexp.tokens_inj (congrArg Tokens.list (hts'.symm.trans hts))
    rw [hr, Expr.language_toAutomaton]

/-! ## Groups -/

namespace Grammar

/-- The group whose parenthesis is opened at `position` and closed behind a pattern of `length`
characters. -/
def Regexp.enclosed (r : Regexp) (position length : Nat) : Operand :=
  .group ⟨⟨.leftParen, '(', position⟩, rfl⟩ (r.move (· + (position + 1)))
    ⟨⟨.rightParen, ')', position + 1 + length⟩, rfl⟩

theorem Regexp.expr_enclosed (r : Regexp) (position length : Nat) :
    (r.enclosed position length).expr = r.expr :=
  r.expr_move _

theorem Regexp.depth_enclosed (r : Regexp) (position length : Nat) :
    (r.enclosed position length).depth = r.depth + 1 :=
  congrArg (· + 1) (r.depth_move _)

/-- The tokens of a group are those of the pattern in it, with the parentheses around them. -/
theorem Regexp.tokens_of_group {r : Regexp} {p : List Char}
    (hp : Tokens.ofPattern p = ⟨r.tokens, none⟩) (position : Nat) (rest : List Char) :
    (Reader.mk ('(' :: (p ++ ')' :: rest)) position).tokens =
      .prepend (r.enclosed position p.length).tokens
        (Reader.mk rest (position + 1 + p.length + 1)).tokens := by
  rw [Reader.tokens_cons (by decide) (by decide) (by decide : _ = some TokenKind.leftParen),
    Reader.tokens_followed hp,
    Reader.tokens_cons (by decide) (by decide) (by decide : _ = some TokenKind.rightParen),
    Tokens.prepend_prepend, Tokens.prepend_prepend, Regexp.enclosed, Operand.tokens,
    r.tokens_move]
  rfl

/-! ## Composed derivations -/

/-- A group by itself, with its quantifier, if there is one. -/
def Operand.alone (o : Operand) (quantifier : Option (Terminal .quantifier)) : Sequence :=
  .last (.mk o quantifier)

/-- The derivation of two groups in a row, around patterns of the given lengths. -/
def Regexp.concatenation (r r' : Regexp) (n n' : Nat) : Regexp :=
  .mk (.cons (.mk (r.enclosed 0 n) none) ((r'.enclosed (0 + 1 + n + 1) n').alone none)) .nil

/-- The derivation of two groups with a bar between them. -/
def Regexp.alternation (r r' : Regexp) (n n' : Nat) : Regexp :=
  .mk ((r.enclosed 0 n).alone none)
    (.cons ⟨⟨.pipe, '|', 0 + 1 + n + 1⟩, rfl⟩
      ((r'.enclosed (0 + 1 + n + 1 + 1) n').alone none) .nil)

/-- The derivation of a group with a quantifier. -/
def Regexp.repetition (r : Regexp) (n : Nat) (quantifier : Char) : Regexp :=
  .mk ((r.enclosed 0 n).alone (some ⟨⟨.quantifier, quantifier, 0 + 1 + n + 1⟩, rfl⟩)) .nil

section

variable {r r' : Regexp} {p q : List Char} {c : Char}

theorem Regexp.tokens_concatenation (hp : Tokens.ofPattern p = ⟨r.tokens, none⟩)
    (hq : Tokens.ofPattern q = ⟨r'.tokens, none⟩) :
    Tokens.ofPattern ('(' :: (p ++ ')' :: '(' :: (q ++ [')']))) =
      ⟨(r.concatenation r' p.length q.length).tokens, none⟩ := by
  rw [Tokens.ofPattern, Reader.ofList, tokens_of_group hp, tokens_of_group hq, Reader.tokens_nil,
    Tokens.prepend_prepend]
  simp [Tokens.prepend, concatenation, Operand.alone, Regexp.tokens, Sequence.tokens,
    Alternatives.tokens, Quantified.tokens]

theorem Regexp.tokens_alternation (hp : Tokens.ofPattern p = ⟨r.tokens, none⟩)
    (hq : Tokens.ofPattern q = ⟨r'.tokens, none⟩) :
    Tokens.ofPattern ('(' :: (p ++ ')' :: '|' :: '(' :: (q ++ [')']))) =
      ⟨(r.alternation r' p.length q.length).tokens, none⟩ := by
  rw [Tokens.ofPattern, Reader.ofList, tokens_of_group hp,
    Reader.tokens_cons (by decide) (by decide) (by decide : _ = some TokenKind.pipe),
    tokens_of_group hq, Reader.tokens_nil, Tokens.prepend_prepend, Tokens.prepend_prepend]
  simp [Tokens.prepend, alternation, Operand.alone, Regexp.tokens, Sequence.tokens,
    Alternatives.tokens, Quantified.tokens]

theorem Regexp.tokens_repetition (hp : Tokens.ofPattern p = ⟨r.tokens, none⟩)
    (hb : Token.isBlank c = false) (hc : c ≠ '\\') (hk : Token.kindOf? c = some .quantifier) :
    Tokens.ofPattern ('(' :: (p ++ [')', c])) = ⟨(r.repetition p.length c).tokens, none⟩ := by
  rw [Tokens.ofPattern, Reader.ofList, tokens_of_group hp, Reader.tokens_cons hb hc hk,
    Reader.tokens_nil, Tokens.prepend_prepend]
  simp [Tokens.prepend, repetition, Operand.alone, Regexp.tokens, Sequence.tokens,
    Alternatives.tokens, Quantified.tokens]

theorem Regexp.depth_concatenation (r r' : Regexp) (n n' : Nat) :
    (r.concatenation r' n n').depth = max r.depth r'.depth + 1 := by
  simp [concatenation, Operand.alone, Regexp.depth, Sequence.depth, Quantified.depth,
    Alternatives.depth, depth_enclosed]

theorem Regexp.depth_alternation (r r' : Regexp) (n n' : Nat) :
    (r.alternation r' n n').depth = max r.depth r'.depth + 1 := by
  simp [alternation, Operand.alone, Regexp.depth, Sequence.depth, Quantified.depth,
    Alternatives.depth, depth_enclosed]

theorem Regexp.depth_repetition (r : Regexp) (n : Nat) (c : Char) :
    (r.repetition n c).depth = r.depth + 1 := by
  simp [repetition, Operand.alone, Regexp.depth, Sequence.depth, Quantified.depth,
    Alternatives.depth, depth_enclosed]

theorem Regexp.expr_concatenation (r r' : Regexp) (n n' : Nat) :
    (r.concatenation r' n n').expr = .sequence r.expr [r'.expr] := by
  rw [← r.expr_enclosed 0 n, ← r'.expr_enclosed (0 + 1 + n + 1) n']
  rfl

theorem Regexp.expr_alternation (r r' : Regexp) (n n' : Nat) :
    (r.alternation r' n n').expr = .choice [r.expr, r'.expr] := by
  rw [← r.expr_enclosed 0 n, ← r'.expr_enclosed (0 + 1 + n + 1 + 1) n']
  rfl

theorem Regexp.expr_repetition (r : Regexp) (n : Nat) (c : Char) :
    (r.repetition n c).expr = r.expr.quantify (some c) := by
  rw [← r.expr_enclosed 0 n]
  rfl

end

end Grammar

/-! ## Composed patterns -/

section

open Grammar (Regexp)

variable {p q : String} {r r' : Regexp}

theorem denotes_concatenation (hp : Tokens.ofPattern p.toList = ⟨r.tokens, none⟩)
    (hq : Tokens.ofPattern q.toList = ⟨r'.tokens, none⟩) :
    Denotes (max r.depth r'.depth + 1) ("(" ++ p ++ ")(" ++ q ++ ")")
      (r.expr.passage.across * r'.expr.passage.across) := by
  have htext : ("(" ++ p ++ ")(" ++ q ++ ")").toList =
      '(' :: (p.toList ++ ')' :: '(' :: (q.toList ++ [')'])) := by
    simp
  have h := denotes_of_tokens ((congrArg Tokens.ofPattern htext).trans
    (Regexp.tokens_concatenation hp hq))
  rw [Regexp.depth_concatenation, Regexp.expr_concatenation] at h
  exact h

theorem denotes_alternation (hp : Tokens.ofPattern p.toList = ⟨r.tokens, none⟩)
    (hq : Tokens.ofPattern q.toList = ⟨r'.tokens, none⟩) :
    Denotes (max r.depth r'.depth + 1) ("(" ++ p ++ ")|(" ++ q ++ ")")
      (r.expr.passage.across + r'.expr.passage.across) := by
  have htext : ("(" ++ p ++ ")|(" ++ q ++ ")").toList =
      '(' :: (p.toList ++ ')' :: '|' :: '(' :: (q.toList ++ [')'])) := by
    simp
  have hunion : (Expr.choice [r.expr, r'.expr]).passage.across =
      r.expr.passage.across + r'.expr.passage.across := by
    rw [Expr.passage, Passage.across, Passage.oneWay, Expr.acrossAny, Expr.acrossAny,
      Expr.acrossAny, add_zero]
  have h := denotes_of_tokens ((congrArg Tokens.ofPattern htext).trans
    (Regexp.tokens_alternation hp hq))
  rwa [Regexp.depth_alternation, Regexp.expr_alternation, hunion] at h

theorem denotes_star (hp : Tokens.ofPattern p.toList = ⟨r.tokens, none⟩) :
    Denotes (r.depth + 1) ("(" ++ p ++ ")*") r.expr.passage.across∗ := by
  have htext : ("(" ++ p ++ ")*").toList = '(' :: (p.toList ++ [')', '*']) := by simp
  have hstar : (r.expr.quantify (some '*')).passage.across = r.expr.passage.across∗ := by
    rw [Expr.quantify, if_pos rfl, Expr.passage]
    rfl
  have h := denotes_of_tokens ((congrArg Tokens.ofPattern htext).trans
    (Regexp.tokens_repetition hp (by decide) (by decide) (by decide)))
  rwa [Regexp.depth_repetition, Regexp.expr_repetition, hstar] at h

theorem denotes_plus (hp : Tokens.ofPattern p.toList = ⟨r.tokens, none⟩) :
    Denotes (r.depth + 1) ("(" ++ p ++ ")+")
      (r.expr.passage.across * r.expr.passage.across∗) := by
  have htext : ("(" ++ p ++ ")+").toList = '(' :: (p.toList ++ [')', '+']) := by simp
  have hplus : (r.expr.quantify (some '+')).passage.across =
      r.expr.passage.across * r.expr.passage.across∗ := by
    rw [← Passage.across_connect_back, Expr.quantify, if_neg (by decide), if_pos rfl, Expr.passage]
  have h := denotes_of_tokens ((congrArg Tokens.ofPattern htext).trans
    (Regexp.tokens_repetition hp (by decide) (by decide) (by decide)))
  rwa [Regexp.depth_repetition, Regexp.expr_repetition, hplus] at h

end

namespace Automaton

variable {lp lq : Limits} {p q : String} {a b : Automaton}

/-- **Composed patterns**: whatever two patterns hold, as long as they can be read, in parentheses
they stand for the words that their own automata accept. One after the other denotes the
concatenation, with a bar between them the union, with `*` behind it any number of repetitions and
with `+` at least one. All this goes for any limits under which the composed pattern can be read,
as it can where groups may be nested one level deeper than each pattern needs. -/
theorem denotes_composed (hp : ofPattern lp p = .ok a) (hq : ofPattern lq q = .ok b) :
    Denotes (max lp.nesting lq.nesting + 1) ("(" ++ p ++ ")(" ++ q ++ ")")
        (a.language * b.language) ∧
      Denotes (max lp.nesting lq.nesting + 1) ("(" ++ p ++ ")|(" ++ q ++ ")")
        (a.language + b.language) ∧
      Denotes (lp.nesting + 1) ("(" ++ p ++ ")*") a.language∗ ∧
      Denotes (lp.nesting + 1) ("(" ++ p ++ ")+") (a.language * a.language∗) := by
  obtain ⟨r, hr, hd, rfl⟩ := Grammar.exists_regexp_of_ofPattern hp
  obtain ⟨r', hr', hd', rfl⟩ := Grammar.exists_regexp_of_ofPattern hq
  have hmax : max r.depth r'.depth + 1 ≤ max lp.nesting lq.nesting + 1 :=
    Nat.succ_le_succ (max_le_max hd hd')
  rw [Expr.language_toAutomaton, Expr.language_toAutomaton]
  exact ⟨(denotes_concatenation hr hr').mono hmax, (denotes_alternation hr hr').mono hmax,
    (denotes_star hr).mono (Nat.succ_le_succ hd), (denotes_plus hr).mono (Nat.succ_le_succ hd)⟩

theorem exists_ofPattern {limits : Limits} {pattern : String}
    (h : (ofPattern limits pattern).toOption.isSome = true) :
    ∃ a, ofPattern limits pattern = .ok a :=
  exists_eq_ok_iff.mpr h

/-- A bar that ends up inside a group, and a group that needs one level of its own. -/
theorem denotes_composed_bar :
    ∃ a b, ofPattern ⟨0, 0⟩ "a|b+" = .ok a ∧ ofPattern ⟨1, 0⟩ "(c?d)*" = .ok b ∧
      Denotes 2 "(a|b+)((c?d)*)" (a.language * b.language) ∧
      Denotes 2 "(a|b+)|((c?d)*)" (a.language + b.language) ∧
      Denotes 1 "(a|b+)*" a.language∗ ∧ Denotes 1 "(a|b+)+" (a.language * a.language∗) := by
  have ha' : (ofPattern ⟨0, 0⟩ "a|b+").toOption.isSome = true := by decide +kernel
  have hb' : (ofPattern ⟨1, 0⟩ "(c?d)*").toOption.isSome = true := by decide +kernel
  obtain ⟨a, ha⟩ := exists_ofPattern ha'
  obtain ⟨b, hb⟩ := exists_ofPattern hb'
  exact ⟨a, b, ha, hb, denotes_composed ha hb⟩

end Automaton

end PatternAutomata
