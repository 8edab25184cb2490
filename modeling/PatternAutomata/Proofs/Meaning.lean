import PatternAutomata.Proofs.Language
import PatternAutomata.Proofs.ParserSoundness
import PatternAutomata.Regex.Basic

/-!
# The expression of a derivation

About the way in which `build_nfa` (in `nfa`) goes through the trees that `parse` (in `parser`)
returns.

A derivation has an expression, by recursion on its parts and without the detour over a tree. The
expression that is read off the tree of a derivation is this one, so what holds of the expressions
of patterns can be proved along their derivations.

The expressions of patterns that can be read are live: every class in them reads some character. A
negated class does so because it reads NUL, which no token of a pattern stands for.

Results:
* **`Grammar.Regexp.ofTree?_tree`**: the expression of a derivation's tree is that of the
  derivation;
* `Tokens.value_ne_nul`: no token of a pattern stands for NUL;
* `Grammar.Regexp.live_expr`: the expression of a derivation is live;
* **`Expr.live_of_parse`**: the expression of a pattern is live.
-/

namespace PatternAutomata

namespace Grammar

/-! ## Expressions -/

/-- What a member of a class stands for. -/
def Member.classMember : Member → ClassMember
  | .single t => .char t.value
  | .range lo _ hi _ _ => .range ⟨lo.value, hi.value⟩

/-- What a class reads. -/
def Bracketed.charClass (c : Bracketed) : CharClass :=
  ⟨c.caret.isSome, c.members.map Member.classMember⟩

mutual

/-- The expression of an operand. -/
def Operand.expr : Operand → Expr
  | .literal t _ => .chars (.single t.1.value)
  | .dot _ _ => .chars .any
  | .escape t => .chars (.single t.1.value)
  | .charClass c => .chars c.charClass
  | .group _ body _ => body.expr

/-- The expression of a quantified operand. -/
def Quantified.expr : Quantified → Expr
  | .mk operand quantifier => operand.expr.quantify (quantifier.map fun q => q.1.value)

/-- The expressions of the quantified operands. -/
def Sequence.exprs : Sequence → List Expr
  | .last q => [q.expr]
  | .cons q rest => q.expr :: rest.exprs

/-- The expression of a sequence. -/
def Sequence.expr : Sequence → Expr
  | .last q => q.expr
  | .cons q rest => .sequence q.expr rest.exprs

/-- The expressions of the alternatives. -/
def Alternatives.exprs : Alternatives → List Expr
  | .nil => []
  | .cons _ s rest => s.expr :: rest.exprs

/-- The expression of a regular expression. -/
def Regexp.expr : Regexp → Expr
  | .mk first rest => .oneOf first.expr rest.exprs

end

/-- A sequence has a first expression. -/
theorem Sequence.exists_exprs (s : Sequence) :
    ∃ e rest, s.exprs = e :: rest ∧ Expr.inSequence e rest = s.expr := by
  cases s with
  | last q => exact ⟨q.expr, [], rfl, rfl⟩
  | cons q rest =>
    refine ⟨q.expr, rest.exprs, rfl, ?_⟩
    cases rest <;> rfl

/-! ## The expression of a tree -/

theorem classMember_tree (m : Member) : Expr.OfTree.classMember m.tree = .ok m.classMember := by
  cases m <;> rfl

theorem mapM_classMember (ms : List Member) :
    (ms.map Member.tree).mapM Expr.OfTree.classMember = .ok (ms.map Member.classMember) := by
  induction ms with
  | nil => rfl
  | cons m ms ih =>
    rw [List.map_cons, List.mapM_cons, classMember_tree, ih]
    rfl

theorem charClass_tree (c : Bracketed) : Expr.OfTree.charClass c.tree = .ok c.charClass := by
  rw [Bracketed.tree, Tree.charClass, Expr.OfTree.charClass, mapM_classMember, Bracketed.charClass]
  cases c.caret <;> rfl

/-- A quantified operand comes before what is read off the trees after it. -/
theorem Quantified.parts_cons {q : Quantified} {e : Expr} {ts : List Tree}
    {items branches : List Expr} (he : Expr.OfTree.expression q.tree.children = .ok e)
    (hq : e.quantify q.tree.value = q.expr) (h : Expr.OfTree.parts ts = .ok (items, branches)) :
    Expr.OfTree.parts (q.tree :: ts) = .ok (q.expr :: items, branches) := by
  have hk : q.tree.kind = .quantified := by
    cases q
    rfl
  rw [Expr.OfTree.parts_cons_quantified hk, he, h, ← hq]
  rfl

/-- A sequence and further branches are a regular expression. -/
theorem Sequence.regexp_spanning {s : Sequence} {ts : List Tree} {branches : List Expr}
    (h : Expr.OfTree.parts ts = .ok (s.exprs ++ [], branches)) :
    Expr.OfTree.regexp (.spanning .regexp none ts) = .ok (Expr.oneOf s.expr branches) := by
  obtain ⟨e, items, he, hs⟩ := s.exists_exprs
  rw [List.append_nil, he] at h
  rw [Tree.spanning, Expr.OfTree.regexp, h, ← hs]
  rfl

mutual

theorem Operand.operand_tree : ∀ o : Operand, Expr.OfTree.operand [o.tree] = .ok o.expr
  | .literal _ _ => rfl
  | .dot _ _ => rfl
  | .escape _ => rfl
  | .charClass c => by
    show (Expr.OfTree.charClass c.tree).map Expr.chars = _
    rw [charClass_tree]
    rfl
  | .group _ body _ => body.regexp_tree

theorem Quantified.expression_tree : ∀ q : Quantified, ∃ e,
    Expr.OfTree.expression q.tree.children = .ok e ∧ e.quantify q.tree.value = q.expr
  | .mk o _ => ⟨o.expr, o.operand_tree, rfl⟩

/-- The operands of a sequence come before what is read off the trees after it. -/
theorem Sequence.parts_trees : ∀ (s : Sequence) {ts : List Tree} {items branches : List Expr},
    Expr.OfTree.parts ts = .ok (items, branches) →
      Expr.OfTree.parts (s.trees ++ ts) = .ok (s.exprs ++ items, branches)
  | .last q, ts, items, branches, h => by
    obtain ⟨e, he, hq⟩ := q.expression_tree
    exact q.parts_cons he hq h
  | .cons q rest, ts, items, branches, h => by
    obtain ⟨e, he, hq⟩ := q.expression_tree
    exact q.parts_cons he hq (rest.parts_trees h)

theorem Alternatives.parts_trees : ∀ a : Alternatives,
    Expr.OfTree.parts a.trees = .ok ([], a.exprs)
  | .nil => rfl
  | .cons bar s rest => by
    have hs : Expr.OfTree.parts s.trees = .ok (s.exprs ++ [], []) := by
      rw [← s.trees.append_nil]
      exact s.parts_trees rfl
    have hr : Expr.OfTree.onlyRegexp
        (Tree.alternation bar.1.position (.spanning .regexp none s.trees)).children =
          .ok s.expr :=
      Sequence.regexp_spanning hs
    rw [Alternatives.trees, Expr.OfTree.parts_cons_alternation rfl, hr, rest.parts_trees]
    rfl

theorem Regexp.regexp_tree : ∀ r : Regexp, Expr.OfTree.regexp r.tree = .ok r.expr
  | .mk first rest => Sequence.regexp_spanning (first.parts_trees rest.parts_trees)

end

/-- **The expression of a derivation's tree** is that of the derivation. -/
theorem Regexp.ofTree?_tree (r : Regexp) : Expr.ofTree? (.root r.tree) = .ok r.expr :=
  r.regexp_tree

/-- The automaton of a derivation's tree is that of the derivation's expression. -/
theorem Regexp.automaton_tree (r : Regexp) :
    Automaton.ofTree? (.root r.tree) = .ok r.expr.toAutomaton := by
  rw [Automaton.ofTree?, r.ofTree?_tree]
  rfl

end Grammar

/-! ## Live expressions -/

/-- The class reads some character. -/
def CharClass.Live (cls : CharClass) : Prop := ∃ c, cls.contains c = true

namespace Expr

mutual

/-- Every class reads some character, and every choice has branches. -/
def Live : Expr → Prop
  | .chars cls => cls.Live
  | .sequence first rest => first.Live ∧ LiveAll rest
  | .choice branches => branches ≠ [] ∧ LiveAll branches
  | .star body => body.Live
  | .plus body => body.Live
  | .optional body => body.Live

/-- All of the expressions are live. -/
def LiveAll : List Expr → Prop
  | [] => True
  | e :: rest => e.Live ∧ LiveAll rest

end

theorem Live.quantify {e : Expr} (h : e.Live) (quantifier : Option Char) :
    (e.quantify quantifier).Live := by
  unfold Expr.quantify
  split
  · exact h
  split
  · exact h
  split
  · exact h
  · exact h

theorem Live.oneOf {e : Expr} (h : e.Live) {branches : List Expr} (hb : LiveAll branches) :
    (e.oneOf branches).Live := by
  cases branches with
  | nil => exact h
  | cons f branches => exact ⟨List.cons_ne_nil _ _, h, hb⟩

end Expr

/-- A sequence is live when its expressions are. -/
theorem Grammar.Sequence.live_expr {s : Sequence} (h : Expr.LiveAll s.exprs) : s.expr.Live := by
  cases s with
  | last q => exact h.1
  | cons q rest => exact h

/-! ### Tokens -/

namespace Token

theorem ne_nul_of_kindOf? {c : Char} {kind : TokenKind} (h : kindOf? c = some kind) :
    c ≠ '\x00' := by
  rintro rfl
  have hno : kindOf? '\x00' = none := by decide
  rw [hno] at h
  cases h

theorem ne_nul_of_escaped? {c value : Char} (h : escaped? c = some value) : value ≠ '\x00' := by
  unfold escaped? at h
  split at h
  · cases h
    decide
  split at h
  · cases h
    decide
  split at h
  · rename_i hc
    cases h
    intro hnul
    rw [hnul] at hc
    exact absurd hc (by decide)
  · cases h

end Token

/-- No token of a pattern stands for NUL. -/
theorem Tokens.value_ne_nul (pattern : List Char) :
    ∀ t ∈ (Tokens.ofPattern pattern).list, t.value ≠ '\x00' :=
  Reader.forall_mem_tokens (fun _ => Token.ne_nul_of_kindOf?) (fun _ => Token.ne_nul_of_escaped?) _

/-! ### Derivations -/

namespace Grammar

/-- A member of a class stands for some character, and for NUL only if one of its tokens does. -/
theorem Member.exists_mem (m : Member) : ∃ c, c ∈ m.classMember.interval := by
  cases m with
  | single t => exact ⟨t.value, Interval.mem_single.mpr rfl⟩
  | range lo dash hi hd hle => exact ⟨lo.value, Interval.mem_iff.mpr ⟨le_refl _, hle⟩⟩

theorem Member.nul_notMem {m : Member} (h : ∀ t ∈ m.tokens, t.value ≠ '\x00') :
    '\x00' ∉ m.classMember.interval := by
  cases m with
  | single t => exact fun hc => h t List.mem_cons_self (Interval.mem_single.mp hc).symm
  | range lo dash hi hd hle =>
    exact fun hc => h lo List.mem_cons_self (le_antisymm (Interval.mem_iff.mp hc).1 (nul_le _))

/-- A class of the grammar reads some character: one of its members, or NUL. -/
theorem Bracketed.live_charClass (c : Bracketed)
    (h : ∀ t ∈ memberTokens c.members, t.value ≠ '\x00') : c.charClass.Live := by
  have hintervals : ∀ i, i ∈ c.charClass.intervals ↔ ∃ m ∈ c.members, m.classMember.interval = i :=
    fun i => by simp [CharClass.intervals, Bracketed.charClass]
  cases hc : c.charClass.negated with
  | false =>
    obtain ⟨m, hm⟩ := List.exists_mem_of_ne_nil c.members c.ne_nil
    obtain ⟨d, hd⟩ := m.exists_mem
    refine ⟨d, CharClass.contains_iff.mpr ?_⟩
    rw [hc, if_neg Bool.false_ne_true]
    exact ⟨_, (hintervals _).mpr ⟨m, hm, rfl⟩, hd⟩
  | true =>
    refine ⟨'\x00', CharClass.contains_iff.mpr ?_⟩
    rw [hc, if_pos rfl]
    intro i hi
    obtain ⟨m, hm, rfl⟩ := (hintervals i).mp hi
    exact m.nul_notMem fun t ht => h t (List.mem_flatMap.mpr ⟨m, hm, ht⟩)

theorem live_single (c : Char) : (CharClass.single c).Live := by
  refine ⟨c, ?_⟩
  simp [CharClass.contains_iff, CharClass.single, CharClass.intervals, ClassMember.interval,
    Interval.mem_single]

theorem live_any : CharClass.any.Live := ⟨' ', by decide⟩

mutual

theorem Operand.live_expr : ∀ o : Operand, (∀ t ∈ o.tokens, t.value ≠ '\x00') → o.expr.Live
  | .literal t _, _ => live_single t.1.value
  | .dot _ _, _ => live_any
  | .escape t, _ => live_single t.1.value
  | .charClass c, h => c.live_charClass fun t ht => h t (by
      rw [Operand.tokens, Bracketed.tokens]
      simp [ht])
  | .group _ body _, h => body.live_expr fun t ht => h t (by
      rw [Operand.tokens]
      simp [ht])

theorem Quantified.live_expr : ∀ q : Quantified, (∀ t ∈ q.tokens, t.value ≠ '\x00') → q.expr.Live
  | .mk o _, h => by
    rw [Quantified.tokens, List.forall_mem_append] at h
    exact (o.live_expr h.1).quantify _

theorem Sequence.liveAll_exprs : ∀ s : Sequence, (∀ t ∈ s.tokens, t.value ≠ '\x00') →
    Expr.LiveAll s.exprs
  | .last q, h => ⟨q.live_expr h, trivial⟩
  | .cons q rest, h => by
    rw [Sequence.tokens, List.forall_mem_append] at h
    exact ⟨q.live_expr h.1, rest.liveAll_exprs h.2⟩

theorem Alternatives.liveAll_exprs : ∀ a : Alternatives, (∀ t ∈ a.tokens, t.value ≠ '\x00') →
    Expr.LiveAll a.exprs
  | .nil, _ => trivial
  | .cons bar s rest, h => by
    rw [Alternatives.tokens, List.forall_mem_cons, List.forall_mem_append] at h
    exact ⟨Sequence.live_expr (s.liveAll_exprs h.2.1), rest.liveAll_exprs h.2.2⟩

theorem Regexp.live_expr : ∀ r : Regexp, (∀ t ∈ r.tokens, t.value ≠ '\x00') → r.expr.Live
  | .mk first rest, h => by
    rw [Regexp.tokens, List.forall_mem_append] at h
    exact (Sequence.live_expr (first.liveAll_exprs h.1)).oneOf (rest.liveAll_exprs h.2)

end

end Grammar

/-- **The expression of a pattern is live.** -/
theorem Expr.live_of_parse {limit : Nat} {pattern : List Char} {t : Tree} {e : Expr}
    (h : Tree.parse limit pattern = .ok t) (he : Expr.ofTree? t = .ok e) : e.Live := by
  obtain ⟨r, hts, -, rfl⟩ := Grammar.exists_regexp_of_parse h
  rw [Grammar.Regexp.ofTree?_tree] at he
  cases he
  refine r.live_expr fun t ht => Tokens.value_ne_nul pattern t ?_
  rw [hts]
  exact ht

end PatternAutomata
