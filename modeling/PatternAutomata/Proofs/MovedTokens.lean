import PatternAutomata.Proofs.ParserCompleteness
import PatternAutomata.Proofs.Relocation

/-!
# Parsing tokens at other positions

About `Parser` (in `parser`) on the same tokens at other positions.

A parser that gets the tokens of a pattern at other positions does the same, and reports the same
errors at the other positions. The positions that are known after some tokens are those of tokens,
with two exceptions: the level of the whole pattern has no opening and a first branch no bar, and
both are zero whatever the tokens are. `Parsing.Moved` leaves these two out, and the trees, about
which the derivation behind a tree says more.

Results:
* `EndAlike.bind`: computations that end alike step by step end alike;
* **`Parsing.step_alike`**, `Parsing.run_alike`, `Parsing.finish_alike`: a step, a run and the end;
* `Grammar.Regexp.unplaced_tree_move`: the tree of a derivation is the same up to positions;
* **`Tree.parse_alike`**: patterns whose tokens are the same at other positions have trees of one
  derivation, or are refused for one reason.
-/

namespace PatternAutomata

/-! ## Computations that end alike -/

/-- Two computations end alike: both succeed, with results that are related, or both fail, and what
the second fails for is what `g` makes of what the first fails for. -/
inductive EndAlike {ε α : Type} (g : ε → ε) (R : α → α → Prop) : Except ε α → Except ε α → Prop
  | ok {a b : α} : R a b → EndAlike g R (.ok a) (.ok b)
  | error {e e' : ε} : e' = g e → EndAlike g R (.error e) (.error e')

namespace EndAlike

variable {ε ε' α β : Type} {g : ε → ε} {R : α → α → Prop} {S : β → β → Prop} {x y : Except ε α}

theorem bind {m n : α → Except ε β} (h : EndAlike g R x y)
    (hmn : ∀ {a b}, R a b → EndAlike g S (m a) (n b)) : EndAlike g S (x >>= m) (y >>= n) := by
  cases h with
  | ok hab => exact hmn hab
  | error he => exact .error he

theorem imp {R' : α → α → Prop} (h : EndAlike g R x y) (hR : ∀ {a b}, R a b → R' a b) :
    EndAlike g R' x y := by
  cases h with
  | ok hab => exact .ok (hR hab)
  | error he => exact .error he

theorem mapError {g' : ε' → ε'} {m : ε → ε'} (h : EndAlike g R x y) (hm : ∀ e, m (g e) = g' (m e)) :
    EndAlike g' R (x.mapError m) (y.mapError m) := by
  cases h with
  | ok hab => exact .ok hab
  | error he => exact .error (he ▸ hm _)

end EndAlike

/-! ## Errors at other positions -/

/-- The error at another position. -/
def SyntaxError.move (f : Nat → Nat) : SyntaxError → SyntaxError
  | .emptyPattern => .emptyPattern
  | .unexpectedToken k found expected => .unexpectedToken (f k) found expected
  | .unexpectedEnd k expected => .unexpectedEnd (f k) expected
  | .unclosedGroup k => .unclosedGroup (f k)
  | .unbalancedParenthesis k => .unbalancedParenthesis (f k)
  | .emptyClass k => .emptyClass (f k)
  | .unclosedClass k => .unclosedClass (f k)
  | .missingAlternative k => .missingAlternative (f k)
  | .invalidRange k start stop => .invalidRange (f k) start stop
  | .nestTooDeep k limit => .nestTooDeep (f k) limit

/-- The error at another position. -/
def PatternError.move (f : Nat → Nat) : PatternError → PatternError
  | .lexical e => .lexical (e.move f)
  | .syntactic e => .syntactic (e.move f)

/-! ## States -/

/-- The level with its last bar elsewhere, if there is one. -/
structure Level.Moved (f : Nat → Nat) (l l' : Level) : Prop where
  complete : l'.complete = [] ↔ l.complete = []
  bar : l.complete ≠ [] → l'.current.bar = f l.current.bar

/-- Levels, the innermost first, with their openings elsewhere. The outermost one has none. -/
inductive LevelsMoved (f : Nat → Nat) : List Level → List Level → Prop
  | pattern {l l' : Level} : l.Moved f l' → LevelsMoved f [l] [l']
  | group {l l' : Level} {ls ls' : List Level} : l.Moved f l' → l'.opening = f l.opening →
    LevelsMoved f ls ls' → LevelsMoved f (l :: ls) (l' :: ls')

/-- The phase with all tokens elsewhere, whatever the operand is. -/
inductive Phase.Moved (f : Nat → Nat) : Phase → Phase → Prop
  | operand : Moved f .operand .operand
  | quantifiable (operand operand' : Tree) :
    Moved f (.quantifiable operand) (.quantifiable operand')
  | quantified : Moved f .quantified .quantified
  | classStart (k : Nat) : Moved f (.classStart k) (.classStart (f k))
  | classBody (k : Nat) (negated : Bool) (members : List Token) :
    Moved f (.classBody k negated members) (.classBody (f k) negated (members.map (Token.move f)))
  | classEnd (k : Nat) (negated : Bool) (members : List Token) :
    Moved f (.classEnd k negated members) (.classEnd (f k) negated (members.map (Token.move f)))

/-- The state with all tokens elsewhere, up to the trees. -/
structure Parsing.Moved (f : Nat → Nat) (s s' : Parsing) : Prop where
  levels : LevelsMoved f (s.level :: s.outer) (s'.level :: s'.outer)
  phase : s.phase.Moved f s'.phase

variable {f : Nat → Nat}

section Levels

variable {l l' m m' : Level} {ls ls' ms : List Level}

theorem Level.Moved.push (h : l.Moved f l') (item item' : Tree) :
    (l.push item).Moved f (l'.push item') :=
  ⟨h.complete, h.bar⟩

theorem Level.moved_split (k : Nat) : (l.split k).Moved f (l'.split (f k)) :=
  ⟨iff_of_false (List.cons_ne_nil _ _) (List.cons_ne_nil _ _), fun _ => rfl⟩

theorem Level.moved_opened (k k' : Nat) : (Level.opened k).Moved f (.opened k') :=
  ⟨Iff.rfl, fun h => absurd rfl h⟩

namespace LevelsMoved

theorem length_eq (h : LevelsMoved f ls ls') : ls'.length = ls.length := by
  induction h with
  | pattern => rfl
  | group _ _ _ ih => rw [List.length_cons, List.length_cons, ih]

/-- The innermost level may be another one that was opened at the same place. -/
theorem withHead (h : LevelsMoved f (l :: ls) (l' :: ls')) (hm : m.Moved f m')
    (ho : m.opening = l.opening) (ho' : m'.opening = l'.opening) :
    LevelsMoved f (m :: ls) (m' :: ls') := by
  cases h with
  | pattern _ => exact .pattern hm
  | group _ hopening hls => exact .group hm (by rw [ho, ho', hopening]) hls

theorem head (h : LevelsMoved f (l :: ls) (l' :: ls')) : l.Moved f l' := by
  cases h with
  | pattern hl => exact hl
  | group hl _ _ => exact hl

theorem outer_eq_nil_iff (h : LevelsMoved f (l :: ls) (l' :: ls')) : ls' = [] ↔ ls = [] := by
  rw [← List.length_eq_zero_iff, ← List.length_eq_zero_iff, Nat.succ.inj h.length_eq]

theorem opening (h : LevelsMoved f (l :: ls) (l' :: ls')) (hne : ls ≠ []) :
    l'.opening = f l.opening := by
  cases h with
  | pattern _ => exact absurd rfl hne
  | group _ hopening _ => exact hopening

theorem tail (h : LevelsMoved f (l :: m :: ms) (l' :: ls')) :
    ∃ m' ms', ls' = m' :: ms' ∧ LevelsMoved f (m :: ms) (m' :: ms') := by
  cases h with
  | group _ _ hls =>
    cases hls with
    | pattern hm => exact ⟨_, _, rfl, .pattern hm⟩
    | group hm ho hms => exact ⟨_, _, rfl, .group hm ho hms⟩

end LevelsMoved

end Levels

/-! ## Classes -/

/-- Members are grouped, or refused, by what they are written as. -/
theorem classMembers_alike (f : Nat → Nat) (ts : List Token) :
    EndAlike (SyntaxError.move f) (fun _ _ => True) (classMembers ts)
      (classMembers (ts.map (Token.move f))) := by
  fun_induction classMembers ts with
  | case1 lo dash hi rest hd hlt =>
    have hd' : (dash.move f).isBare '-' = true := hd
    have hlt' : (hi.move f).value < (lo.move f).value := hlt
    rw [List.map_cons, List.map_cons, List.map_cons, classMembers, if_pos hd', if_pos hlt']
    exact .error rfl
  | case2 lo dash hi rest hd hlt ih =>
    have hd' : (dash.move f).isBare '-' = true := hd
    have hlt' : ¬ (hi.move f).value < (lo.move f).value := hlt
    rw [List.map_cons, List.map_cons, List.map_cons, classMembers, if_pos hd', if_neg hlt']
    exact ih.bind fun _ => .ok trivial
  | case3 lo dash hi rest hd ih =>
    have hd' : ¬ (dash.move f).isBare '-' = true := hd
    rw [List.map_cons, List.map_cons, List.map_cons, classMembers, if_neg hd']
    exact ih.bind fun _ => .ok trivial
  | case4 ts hlen =>
    rcases ts with _ | ⟨t, _ | ⟨u, _ | ⟨v, rest⟩⟩⟩
    · exact .ok trivial
    · exact .ok trivial
    · exact .ok trivial
    · exact absurd rfl (hlen t u v rest)

theorem classTree_alike (f : Nat → Nat) (k : Nat) (negated : Bool) (members : List Token) :
    EndAlike (SyntaxError.move f) (fun _ _ => True) (classTree k negated members)
      (classTree (f k) negated (members.map (Token.move f))) := by
  unfold classTree
  rw [List.isEmpty_map, ← List.map_reverse]
  split
  · exact .error rfl
  · exact (classMembers_alike f members.reverse).bind fun _ => .ok trivial

/-! ## Steps -/

namespace Parsing

variable {s s' : Parsing}

theorem moved_start (f : Nat → Nat) : start.Moved f start :=
  ⟨.pattern (Level.moved_opened 0 0), .operand⟩

/-- An operand is added to the innermost level. -/
theorem Moved.push (h : s.Moved f s') (item item' : Tree) :
    Moved f { s with level := s.level.push item } { s' with level := s'.level.push item' } :=
  ⟨h.levels.withHead (h.levels.head.push item item') rfl rfl, h.phase⟩

theorem Moved.unexpected (h : s.Moved f s') (t : Token) (expected : List TokenKind) :
    s'.unexpected (t.move f) expected = (s.unexpected t expected).move f := by
  have hiff : (t.move f).kind = .rightParen ∧ s'.outer = [] ↔ t.kind = .rightParen ∧ s.outer = [] :=
    and_congr_right fun _ => h.levels.outer_eq_nil_iff
  unfold Parsing.unexpected
  by_cases hc : t.kind = .rightParen ∧ s.outer = []
  · rw [if_pos hc, if_pos (hiff.mpr hc)]
    rfl
  · rw [if_neg hc, if_neg (mt hiff.mp hc)]
    rfl

theorem Moved.branchEnds (h : s.Moved f s') : s'.branchEnds = s.branchEnds := by
  unfold Parsing.branchEnds
  simp only [h.levels.outer_eq_nil_iff]

theorem Moved.depth (h : s.Moved f s') : s'.depth = s.depth :=
  Nat.succ.inj h.levels.length_eq

theorem beginOperand_alike (h : s.Moved f s') (limit : Nat) (t : Token) :
    EndAlike (SyntaxError.move f) (Moved f) (s.beginOperand limit t)
      (s'.beginOperand limit (t.move f)) := by
  have hunexpected := h.unexpected t TokenKind.expressionStarts
  obtain ⟨kind, value, position⟩ := t
  cases kind with
  | character => exact .ok ⟨h.levels, .quantifiable _ _⟩
  | escape => exact .ok ⟨h.levels, .quantifiable _ _⟩
  | leftBracket => exact .ok ⟨h.levels, .classStart position⟩
  | leftParen =>
    simp only [beginOperand, Token.move, h.depth]
    split
    · exact .error rfl
    · exact .ok ⟨.group (Level.moved_opened _ _) rfl h.levels, .operand⟩
  | rightParen | quantifier | pipe | patternEnd => exact .error hunexpected

theorem continueBranch_alike (h : s.Moved f s') (limit : Nat) (t : Token) :
    EndAlike (SyntaxError.move f) (Moved f) (s.continueBranch limit t)
      (s'.continueBranch limit (t.move f)) := by
  have hunexpected : s'.unexpected (t.move f) s'.branchEnds =
      (s.unexpected t s.branchEnds).move f := by
    rw [h.branchEnds, h.unexpected]
  obtain ⟨kind, value, position⟩ := t
  cases kind with
  | character => exact beginOperand_alike h limit ⟨.character, value, position⟩
  | escape => exact beginOperand_alike h limit ⟨.escape, value, position⟩
  | leftBracket => exact beginOperand_alike h limit ⟨.leftBracket, value, position⟩
  | leftParen => exact beginOperand_alike h limit ⟨.leftParen, value, position⟩
  | pipe => exact .ok ⟨h.levels.withHead (Level.moved_split position) rfl rfl, .operand⟩
  | quantifier | patternEnd => exact .error hunexpected
  | rightParen =>
    obtain ⟨outer, level, phase⟩ := s
    obtain ⟨outer', level', phase'⟩ := s'
    cases outer with
    | nil =>
      obtain rfl : outer' = [] := h.levels.outer_eq_nil_iff.mpr rfl
      exact .error hunexpected
    | cons m ms =>
      obtain ⟨m', ms', rfl, htail⟩ := h.levels.tail
      exact .ok ⟨htail, .quantifiable _ _⟩

theorem afterOperand_alike (h : s.Moved f s') (limit : Nat) (operand operand' : Tree) (t : Token) :
    EndAlike (SyntaxError.move f) (Moved f) (s.afterOperand limit operand t)
      (s'.afterOperand limit operand' (t.move f)) := by
  unfold afterOperand
  show EndAlike _ _ _ (if t.kind = .quantifier then _ else _)
  split
  · exact .ok ⟨(h.push _ _).levels, .quantified⟩
  · exact continueBranch_alike (h.push _ _) limit t

theorem beginClass_alike (h : s.Moved f s') (k : Nat) (t : Token) :
    EndAlike (SyntaxError.move f) (Moved f) (s.beginClass k t)
      (s'.beginClass (f k) (t.move f)) := by
  unfold beginClass
  show EndAlike _ _ _ (if t.kind = .character ∨ t.kind = .escape then
    if t.isBare ']' = true then _ else if t.isBare '^' = true then _ else _ else _)
  split
  · split
    · exact .error rfl
    · split
      · exact .ok ⟨h.levels, .classBody k true []⟩
      · exact .ok ⟨h.levels, .classBody k false [t]⟩
  · exact .error (h.unexpected t _)

theorem continueClass_moved (h : s.Moved f s') (k : Nat) (negated : Bool) (members : List Token)
    (t : Token) : (s.continueClass k negated members t).Moved f
      (s'.continueClass (f k) negated (members.map (Token.move f)) (t.move f)) := by
  unfold continueClass
  show Moved f _ (if t.isBare ']' = true then _ else _)
  split
  · exact ⟨h.levels, .classEnd k negated members⟩
  · exact ⟨h.levels, .classBody k negated (t :: members)⟩

/-- **Step**: a token elsewhere is taken, or refused, alike. -/
theorem step_alike (h : s.Moved f s') (limit : Nat) (t : Token) :
    EndAlike (SyntaxError.move f) (Moved f) (s.step limit t) (s'.step limit (t.move f)) := by
  have hphase := h.phase
  unfold step
  generalize s.phase = phase at hphase
  generalize s'.phase = phase' at hphase
  cases hphase with
  | operand => exact beginOperand_alike h limit t
  | quantifiable operand operand' => exact afterOperand_alike h limit operand operand' t
  | quantified => exact continueBranch_alike h limit t
  | classStart k => exact beginClass_alike h k t
  | classBody k negated members => exact .ok (continueClass_moved h k negated members t)
  | classEnd k negated members =>
    exact (classTree_alike f k negated members).bind fun _ => afterOperand_alike h limit _ _ t

/-- **Run**: tokens elsewhere are taken, or refused, alike. -/
theorem run_alike (h : s.Moved f s') (limit : Nat) (ts : List Token) :
    EndAlike (SyntaxError.move f) (Moved f) (s.run limit ts)
      (s'.run limit (ts.map (Token.move f))) := by
  induction ts generalizing s s' with
  | nil => exact .ok h
  | cons t ts ih =>
    rw [List.map_cons, run_cons, run_cons]
    exact (step_alike h limit t).bind fun hr => ih hr

theorem close_alike (h : LevelsMoved f (s.level :: s.outer) (s'.level :: s'.outer)) :
    EndAlike (SyntaxError.move f) (fun _ _ => True) s.close s'.close := by
  unfold close
  by_cases ho : s.outer = []
  · rw [if_pos ho, if_pos (h.outer_eq_nil_iff.mpr ho)]
    exact .ok trivial
  · rw [if_neg ho, if_neg (mt h.outer_eq_nil_iff.mp ho), h.opening ho]
    exact .error rfl

/-- **End**: the end is taken, or refused, alike. -/
theorem finish_alike (h : s.Moved f s') :
    EndAlike (SyntaxError.move f) (fun _ _ => True) s.finish s'.finish := by
  have hphase := h.phase
  have hcomplete := h.levels.head.complete
  unfold finish
  generalize s.phase = phase at hphase
  generalize s'.phase = phase' at hphase
  cases hphase with
  | operand =>
    by_cases hc : s.level.complete = []
    · have hc' := hcomplete.mpr hc
      by_cases ho : s.outer = []
      · have ho' := h.levels.outer_eq_nil_iff.mpr ho
        simp only [hc, hc', ho, ho']
        exact .error rfl
      · have ho' := mt h.levels.outer_eq_nil_iff.mp ho
        simp only [hc, hc', ho, ho', h.levels.opening ho]
        exact .error rfl
    · have hc' := mt hcomplete.mp hc
      simp only [ne_eq, hc, hc', not_false_eq_true, if_true, h.levels.head.bar hc]
      exact .error rfl
  | quantifiable operand operand' => exact close_alike (h.push _ _).levels
  | quantified => exact close_alike h.levels
  | classStart k => exact .error rfl
  | classBody k negated members => exact .error rfl
  | classEnd k negated members =>
    exact (classTree_alike f k negated members).bind fun _ => close_alike (h.push _ _).levels

end Parsing

/-- **A parse of tokens at other positions** fails when the parse of the tokens does, with the same
error at its other position. -/
theorem Tokens.parse_alike (f : Nat → Nat) (limit : Nat) (ts : Tokens) :
    EndAlike (PatternError.move f) (fun _ _ => True) (ts.parse limit)
      ((ts.move f).parse limit) := by
  obtain ⟨list, failure⟩ := ts
  have hrun := Parsing.run_alike (Parsing.moved_start f) limit list
  unfold Tokens.parse Tokens.move
  generalize Parsing.start.run limit list = x at hrun
  generalize Parsing.start.run limit (list.map (Token.move f)) = y at hrun
  cases hrun with
  | error he => exact .error (congrArg PatternError.syntactic he)
  | ok hs =>
    cases failure with
    | some e => exact .error rfl
    | none => exact (Parsing.finish_alike hs).mapError fun _ => rfl

/-! ## Trees -/

namespace Tree

mutual

/-- The tree without its positions. -/
def unplaced : Tree → Tree
  | .node kind value _ children => .node kind value 0 (unplacedAll children)

def unplacedAll : List Tree → List Tree
  | [] => []
  | t :: ts => t.unplaced :: unplacedAll ts

end

theorem unplacedAll_eq_map (ts : List Tree) : unplacedAll ts = ts.map unplaced := by
  induction ts with
  | nil => rfl
  | cons t ts ih => rw [unplacedAll, ih, List.map_cons]

theorem unplaced_spanning (kind : NodeKind) (value : Option Char) (ts : List Tree) :
    (spanning kind value ts).unplaced = .node kind value 0 (ts.map unplaced) :=
  congrArg (Tree.node kind value 0) (unplacedAll_eq_map ts)

end Tree

namespace Grammar

variable (f : Nat → Nat)

theorem Member.unplaced_tree_move (m : Member) : (m.move f).tree.unplaced = m.tree.unplaced := by
  cases m <;> rfl

theorem Bracketed.unplaced_tree_move (c : Bracketed) :
    (c.move f).tree.unplaced = c.tree.unplaced := by
  have hmembers : ((c.members.map (Member.move f)).map Member.tree).map Tree.unplaced =
      (c.members.map Member.tree).map Tree.unplaced := by
    simp only [List.map_map]
    exact List.map_congr_left fun m _ => m.unplaced_tree_move f
  simp only [tree, move, Option.isSome_map, Tree.charClass, Tree.unplaced, Tree.unplacedAll_eq_map,
    hmembers]

mutual

theorem Operand.unplaced_tree_move : ∀ o : Operand, (o.move f).tree.unplaced = o.tree.unplaced
  | .literal _ _ => rfl
  | .dot _ _ => rfl
  | .escape _ => rfl
  | .charClass c => congrArg (fun t => Tree.node .selector none 0 [t]) (c.unplaced_tree_move f)
  | .group _ body _ => congrArg (fun t => Tree.node .group none 0 [t]) body.unplaced_tree_move

theorem Quantified.unplaced_tree_move :
    ∀ q : Quantified, (q.move f).tree.unplaced = q.tree.unplaced
  | .mk o quantifier => by
    rw [Quantified.move, Quantified.tree, Quantified.tree, Terminal.map_value_move]
    exact congrArg (fun t => Tree.node .quantified _ 0 [.node .expression none 0 [t]])
      o.unplaced_tree_move

theorem Sequence.unplaced_trees_move :
    ∀ s : Sequence, (s.move f).trees.map Tree.unplaced = s.trees.map Tree.unplaced
  | .last q => congrArg ([·]) q.unplaced_tree_move
  | .cons q rest => congrArg₂ List.cons q.unplaced_tree_move rest.unplaced_trees_move

theorem Alternatives.unplaced_trees_move :
    ∀ a : Alternatives, (a.move f).trees.map Tree.unplaced = a.trees.map Tree.unplaced
  | .nil => rfl
  | .cons bar s rest => by
    have hbranch : (Tree.spanning .regexp none (s.move f).trees).unplaced =
        (Tree.spanning .regexp none s.trees).unplaced := by
      rw [Tree.unplaced_spanning, Tree.unplaced_spanning, s.unplaced_trees_move]
    exact congrArg₂ List.cons (congrArg (fun t => Tree.node .alternation none 0 [t]) hbranch)
      rest.unplaced_trees_move

/-- The tree without its positions does not depend on where the tokens stand. -/
theorem Regexp.unplaced_tree_move : ∀ r : Regexp, (r.move f).tree.unplaced = r.tree.unplaced
  | .mk first rest => by
    rw [Regexp.move, Regexp.tree, Regexp.tree, Tree.unplaced_spanning, Tree.unplaced_spanning,
      List.map_append, List.map_append, first.unplaced_trees_move, rest.unplaced_trees_move]

end

end Grammar

/-! ## Patterns -/

/-- A derivation of the tokens is that of the tree. -/
theorem Grammar.Regexp.parse_eq_ok {limit : Nat} {p : List Char} {r : Regexp}
    (hts : Tokens.ofPattern p = ⟨r.tokens, none⟩) (hd : r.depth ≤ limit) :
    Tree.parse limit p = .ok (.root r.tree) := by
  obtain ⟨tree, hparse⟩ := Regexp.exists_tree hts hd
  obtain ⟨r', hts', -, rfl⟩ := exists_regexp_of_parse hparse
  have hr : r' = r := Regexp.tokens_inj (congrArg Tokens.list (hts'.symm.trans hts))
  rw [hparse, hr]

/-- **Patterns whose tokens are the same at other positions** have trees of the same derivation, or
are refused for the same reason at its other position. -/
theorem Tree.parse_alike {f : Nat → Nat} {p p' : List Char}
    (h : Tokens.ofPattern p' = (Tokens.ofPattern p).move f) (limit : Nat) :
    EndAlike (PatternError.move f)
      (fun t t' => ∃ r : Grammar.Regexp, t = .root r.tree ∧ t' = .root (r.move f).tree)
      (parse limit p) (parse limit p') := by
  have halike := Tokens.parse_alike f limit (Tokens.ofPattern p)
  rw [← h] at halike
  change EndAlike _ _ (parse limit p) (parse limit p') at halike
  cases hp : parse limit p with
  | error e =>
    rw [hp] at halike
    generalize parse limit p' = x at halike ⊢
    cases halike with
    | error he => exact .error he
  | ok t =>
    obtain ⟨r, hts, hd, rfl⟩ := Grammar.exists_regexp_of_parse hp
    have hts' : Tokens.ofPattern p' = ⟨(r.move f).tokens, none⟩ := by
      rw [h, hts, r.tokens_move]
      rfl
    rw [Grammar.Regexp.parse_eq_ok hts' (by rw [r.depth_move]; exact hd)]
    exact .ok ⟨r, rfl, rfl⟩

end PatternAutomata
