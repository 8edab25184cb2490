import Mathlib.Data.Char
import PatternAutomata.Pattern.Parsing

/-!
# The grammar of patterns

The grammar in the comments on `Parser` and on its function `class` (in `parser`), and the ranges of
`class_members`.

The derivations of the grammar

    regexp      ::= sequence ('|' sequence)*
    sequence    ::= quantified quantified*
    quantified  ::= operand [quantifier]
    operand     ::= literal | '.' | escape | class | '(' regexp ')'
    class       ::= '[' ['^'] member member* ']'
    member      ::= token | token '-' token

as a type for each symbol, apart from any way of finding them. Each derivation has the tokens that
it derives, the depth to which its groups are nested, and a tree.

The rules for classes do not mention the kinds of the tokens, so two conditions say how a class is
read: no member holds a bare `]`, and a token that stands for itself is not followed by a bare `-`
and a further token.

Out of scope: how a derivation is found (`Proofs.ParserSoundness`, `Proofs.ParserCompleteness`).
-/

namespace PatternAutomata

/-- A token of the given kind. -/
abbrev Terminal (kind : TokenKind) : Type := {t : Token // t.kind = kind}

theorem Terminal.kind_ne {kind other : TokenKind} (t : Terminal kind) (h : kind ≠ other) :
    t.1.kind ≠ other :=
  t.2.symm ▸ h

namespace Grammar

/-! ## Classes -/

/-- A member of a class. -/
inductive Member
  /-- A token that stands for itself. -/
  | single (t : Token)
  /-- The characters between two tokens, which have a bare `-` between them. -/
  | range (lo dash hi : Token) (bare : dash.isBare '-' = true) (le : lo.value ≤ hi.value)

namespace Member

def tokens : Member → List Token
  | .single t => [t]
  | .range lo dash hi _ _ => [lo, dash, hi]

def tree : Member → Tree
  | .single t => .literal t.value t.position
  | .range lo _ hi _ _ => .range (.literal lo.value lo.position) (.literal hi.value hi.position)

end Member

/-- The tokens of all the members. -/
def memberTokens (ms : List Member) : List Token := ms.flatMap Member.tokens

/-- Whether the tokens after a member make it the lower bound of a range. -/
def RangeFollows (ts : List Token) : Prop :=
  ∃ dash hi rest, ts = dash :: hi :: rest ∧ dash.isBare '-' = true

/-- No member stands for itself that could be the lower bound of a range. -/
def Greedy : List Member → Prop
  | [] => True
  | .single _ :: ms => ¬ RangeFollows (memberTokens ms) ∧ Greedy ms
  | .range _ _ _ _ _ :: ms => Greedy ms

/-- A class in its brackets. The first token after the opening bracket is a character or an escape;
a bare `^` there negates the class. -/
structure Bracketed where
  opening : Terminal .leftBracket
  caret : Option Token
  members : List Member
  closing : Token
  caret_isBare : ∀ t ∈ caret, t.isBare '^' = true
  ne_nil : members ≠ []
  first : caret = none → ∀ t ∈ (memberTokens members).head?,
    (t.kind = .character ∨ t.kind = .escape) ∧ t.isBare '^' = false
  inside : ∀ t ∈ memberTokens members, t.isBare ']' = false
  greedy : Greedy members
  closing_isBare : closing.isBare ']' = true

namespace Bracketed

def tokens (c : Bracketed) : List Token :=
  c.opening.1 :: (c.caret.toList ++ memberTokens c.members ++ [c.closing])

def tree (c : Bracketed) : Tree :=
  .charClass c.caret.isSome c.opening.1.position (c.members.map Member.tree)

end Bracketed

/-! ## Derivations -/

mutual

/-- `literal | '.' | escape | class | '(' regexp ')'` -/
inductive Operand
  | literal (t : Terminal .character) (ne : t.1.value ≠ '.')
  | dot (t : Terminal .character) (eq : t.1.value = '.')
  | escape (t : Terminal .escape)
  | charClass (c : Bracketed)
  | group (opening : Terminal .leftParen) (body : Regexp) (closing : Terminal .rightParen)

/-- `operand [quantifier]` -/
inductive Quantified
  | mk (operand : Operand) (quantifier : Option (Terminal .quantifier))

/-- `quantified quantified*` -/
inductive Sequence
  | last (q : Quantified)
  | cons (q : Quantified) (rest : Sequence)

/-- `('|' sequence)*` -/
inductive Alternatives
  | nil
  | cons (bar : Terminal .pipe) (s : Sequence) (rest : Alternatives)

/-- `sequence ('|' sequence)*` -/
inductive Regexp
  | mk (first : Sequence) (rest : Alternatives)

end

mutual

def Operand.tokens : Operand → List Token
  | .literal t _ => [t.1]
  | .dot t _ => [t.1]
  | .escape t => [t.1]
  | .charClass c => c.tokens
  | .group opening body closing => opening.1 :: (body.tokens ++ [closing.1])

def Quantified.tokens : Quantified → List Token
  | .mk operand quantifier => operand.tokens ++ (quantifier.map Subtype.val).toList

def Sequence.tokens : Sequence → List Token
  | .last q => q.tokens
  | .cons q rest => q.tokens ++ rest.tokens

def Alternatives.tokens : Alternatives → List Token
  | .nil => []
  | .cons bar s rest => bar.1 :: (s.tokens ++ rest.tokens)

def Regexp.tokens : Regexp → List Token
  | .mk first rest => first.tokens ++ rest.tokens

end

mutual

/-- The depth to which groups are nested. -/
def Operand.depth : Operand → Nat
  | .literal _ _ => 0
  | .dot _ _ => 0
  | .escape _ => 0
  | .charClass _ => 0
  | .group _ body _ => body.depth + 1

def Quantified.depth : Quantified → Nat
  | .mk operand _ => operand.depth

def Sequence.depth : Sequence → Nat
  | .last q => q.depth
  | .cons q rest => max q.depth rest.depth

def Alternatives.depth : Alternatives → Nat
  | .nil => 0
  | .cons _ s rest => max s.depth rest.depth

def Regexp.depth : Regexp → Nat
  | .mk first rest => max first.depth rest.depth

end

mutual

/-- The tree of an operand, a `selector` or a `group`. -/
def Operand.tree : Operand → Tree
  | .literal t _ => .selector (.literal t.1.value t.1.position)
  | .dot t _ => .selector (.any t.1.position)
  | .escape t => .selector (.literal t.1.value t.1.position)
  | .charClass c => .selector c.tree
  | .group opening body _ => .group opening.1.position body.tree

/-- The tree of a quantified operand. -/
def Quantified.tree : Quantified → Tree
  | .mk operand quantifier => .quantified (quantifier.map fun q => q.1.value) operand.tree

/-- The trees of the quantified operands. -/
def Sequence.trees : Sequence → List Tree
  | .last q => [q.tree]
  | .cons q rest => q.tree :: rest.trees

/-- The trees of the alternatives, each with its bar. -/
def Alternatives.trees : Alternatives → List Tree
  | .nil => []
  | .cons bar s rest =>
    .alternation bar.1.position (.spanning .regexp none s.trees) :: rest.trees

/-- The tree of a regular expression: the operands of its first sequence, then the other sequences
as alternations. -/
def Regexp.tree : Regexp → Tree
  | .mk first rest => .spanning .regexp none (first.trees ++ rest.trees)

end

end Grammar

end PatternAutomata
