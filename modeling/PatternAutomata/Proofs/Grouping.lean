import PatternAutomata.Proofs.Composition
import PatternAutomata.Proofs.MovedTokens

/-!
# Patterns in parentheses

About `group` (in `parser`) and the case of a group in `expression` (in `nfa`).

Parentheses around a whole pattern change its tree and nothing that is read off the tree. The group
has a node of its own, and the nodes in it stand one place further on; but the expression has
neither groups nor places, so it is the same, and so is the automaton, state by state. Only the
limit on the nesting of groups sees the parentheses: each pair takes up one level.

Results:
* `Grammar.Regexp.tokens_grouped`, `depth_grouped`, `expr_grouped`: the derivation of a pattern in
  parentheses;
* **`Automaton.eq_of_parenthesized`**: a pattern in parentheses has the automata of the pattern.

Out of scope: groups within a pattern.
-/

namespace PatternAutomata

/-- The pattern in parentheses. -/
def parenthesized (p : String) : String := "(" ++ p ++ ")"

theorem toList_parenthesized (p : String) :
    (parenthesized p).toList = '(' :: (p.toList ++ [')']) := by
  simp [parenthesized]

/-! ## Derivations -/

namespace Grammar

variable {r : Regexp}

/-- The derivation of a pattern that is one group, around a pattern of `n` characters. -/
def Regexp.grouped (r : Regexp) (n : Nat) : Regexp := .mk ((r.enclosed 0 n).alone none) .nil

theorem Regexp.tokens_grouped {p : List Char} (hp : Tokens.ofPattern p = ⟨r.tokens, none⟩) :
    Tokens.ofPattern ('(' :: (p ++ [')'])) = ⟨(r.grouped p.length).tokens, none⟩ := by
  rw [Tokens.ofPattern, Reader.ofList, tokens_of_group hp, Reader.tokens_nil]
  simp [Tokens.prepend, grouped, Operand.alone, Regexp.tokens, Sequence.tokens,
    Alternatives.tokens, Quantified.tokens]

theorem Regexp.depth_grouped (r : Regexp) (n : Nat) : (r.grouped n).depth = r.depth + 1 := by
  simp [grouped, Operand.alone, Regexp.depth, Sequence.depth, Quantified.depth,
    Alternatives.depth, depth_enclosed]

theorem Regexp.expr_grouped (r : Regexp) (n : Nat) : (r.grouped n).expr = r.expr := by
  rw [← r.expr_enclosed 0 n]
  rfl

end Grammar

/-! ## Automata -/

namespace Automaton

theorem deterministicOfPattern_of_tree {limits : Limits} {p : String} {t : Tree} {a : Automaton}
    (ht : Tree.parse limits.nesting p.toList = .ok t) (ha : ofTree? t = .ok a) :
    deterministicOfPattern limits p = a.determinize limits.states := by
  unfold deterministicOfPattern ofPattern Tree.ofPattern
  rw [ht]
  show ((ofTree? t).mapError CompileError.shape >>= _) = _
  rw [ha]
  rfl

/-- **Groups are transparent**: where a pattern has a tree, it has one in parentheses too, with one
level of nesting more. Both trees have the same automaton, and under every limit on the number of
states the same deterministic automaton or the same error. -/
theorem eq_of_parenthesized {limit : Nat} {p : String} {t : Tree}
    (h : Tree.parse limit p.toList = .ok t) :
    ∃ t' a, Tree.parse (limit + 1) (parenthesized p).toList = .ok t' ∧
      ofTree? t = .ok a ∧ ofTree? t' = .ok a ∧
      ∀ states, deterministicOfPattern ⟨limit, states⟩ p = a.determinize states ∧
        deterministicOfPattern ⟨limit + 1, states⟩ (parenthesized p) = a.determinize states := by
  obtain ⟨r, hr, hd, rfl⟩ := Grammar.exists_regexp_of_parse h
  let r' := r.grouped p.toList.length
  have hr' : Tokens.ofPattern (parenthesized p).toList = ⟨r'.tokens, none⟩ := by
    rw [toList_parenthesized]
    exact r.tokens_grouped hr
  have hdepth : r'.depth ≤ limit + 1 := by
    rw [r.depth_grouped]
    exact Nat.succ_le_succ hd
  have h' : Tree.parse (limit + 1) (parenthesized p).toList = .ok (.root r'.tree) :=
    Grammar.Regexp.parse_eq_ok hr' hdepth
  have ha := r.automaton_tree
  have ha' := r'.automaton_tree
  rw [r.expr_grouped] at ha'
  exact ⟨_, _, h', ha, ha', fun states =>
    ⟨deterministicOfPattern_of_tree h ha, deterministicOfPattern_of_tree h' ha'⟩⟩

/-- A bar and a star inside the parentheses; two states are one too few with them and without. -/
theorem eq_of_parenthesized_bar :
    ∃ t t' a, Tree.parse 0 "a|b*".toList = .ok t ∧ Tree.parse 1 "(a|b*)".toList = .ok t' ∧
      ofTree? t = .ok a ∧ ofTree? t' = .ok a ∧
      deterministicOfPattern ⟨0, 2⟩ "a|b*" = .error (.tooManyStates 2) ∧
      deterministicOfPattern ⟨1, 2⟩ "(a|b*)" = .error (.tooManyStates 2) := by
  have hsome : (Tree.parse 0 "a|b*".toList).toOption.isSome = true := by decide +kernel
  have herror : deterministicOfPattern ⟨0, 2⟩ "a|b*" = .error (.tooManyStates 2) := by
    decide +kernel
  obtain ⟨t, h⟩ := exists_eq_ok_iff.mpr hsome
  obtain ⟨t', a, h', ha, ha', heq⟩ := eq_of_parenthesized h
  have herror' := (heq 2).2
  rw [← (heq 2).1, herror] at herror'
  exact ⟨t, t', a, h, h', ha, ha', herror, herror'⟩

end Automaton

end PatternAutomata
