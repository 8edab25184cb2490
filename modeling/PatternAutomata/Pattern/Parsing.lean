import PatternAutomata.Pattern.Token.Reader
import PatternAutomata.Pattern.Tree

/-!
# Parsing

Model of `Parser` and of `class_members` (in `parser`).
* The program descends recursively and has one token of lookahead. Here its calls that have not
  returned yet are data: `enter` and `leave` add and remove a level, and the phase says between
  which two calls of `advance` it is.
* `beginOperand` is `expression` with `group` and `selector`, `continueBranch` and `afterOperand`
  are what `quantified_expr`, `sequence` and `regexp` do after an operand, `beginClass` is the first
  half of `class`, and `classTree` the second.
* `finish` has the errors that are found at the end. It is no token here, so `unexpected` has no
  case for it.

The tree of a pattern is built token by token. The grammar is

    regexp      ::= branch ('|' branch)*
    branch      ::= quantified quantified*
    quantified  ::= operand [quantifier]
    operand     ::= character | escape | class | '(' regexp ')'
    class       ::= '[' ['^'] member member* ']'

where a class has as members all tokens up to the first bare `]`, and a member, a bare `-` and a
further member make up a range.

A `Parsing` is what is known after some of the tokens: a stack of `Level`s, one for each group that
is still open, and a `Phase` that says what may come next. `step` takes one more token and
`finish` the end of the pattern, so an error is found at the first token that cannot continue what
came before it. One rule reaches a token further: whether a class is well formed is only asked once
something follows its closing bracket, so the phase after that bracket keeps the members as tokens.

Results:
* `Parsing.run_append`: tokens can be taken in parts.

Out of scope: the width of machine words. Depths and positions are natural numbers.
-/

namespace PatternAutomata

/-- A branch of a level: the offset of the bar before it (zero for a first branch) and its
quantified operands, the newest first. -/
structure Branch where
  bar : Nat
  items : List Tree

/-- A group that is still open, or the whole pattern: where it was opened (zero for the pattern),
the branches that are complete, the newest first, and the one that is not. -/
structure Level where
  opening : Nat
  complete : List Branch
  current : Branch

/-- What the tokens so far call for. -/
inductive Phase
  /-- An operand has to begin here. -/
  | operand
  /-- An operand is complete; a quantifier may follow. -/
  | quantifiable (operand : Tree)
  /-- An operand and its quantifier are complete. -/
  | quantified
  /-- A class was opened at `position`. -/
  | classStart (position : Nat)
  /-- The class opened at `position` has some members, the newest first. -/
  | classBody (position : Nat) (negated : Bool) (members : List Token)
  /-- The class opened at `position` was closed and is not settled yet. -/
  | classEnd (position : Nat) (negated : Bool) (members : List Token)

/-- What is known after some tokens: the levels around the innermost one, the innermost one, and
what is called for there. -/
structure Parsing where
  outer : List Level
  level : Level
  phase : Phase

/-! ## Trees of finished parts -/

/-- A branch on its own. -/
def Branch.tree (b : Branch) : Tree := .spanning .regexp none b.items.reverse

/-- The branches of a level, the newest first, as one regular expression: the first branch holds its
own items and then the other branches. -/
def Level.treeOf : List Branch → List Tree → Tree
  | [], later => .spanning .regexp none later
  | [b], later => .spanning .regexp none (b.items.reverse ++ later)
  | b :: rest, later => treeOf rest (Tree.alternation b.bar b.tree :: later)

/-- A level as a regular expression. -/
def Level.tree (l : Level) : Tree := treeOf (l.current :: l.complete) []

/-- Adds a quantified operand to the branch that is not complete. -/
def Level.push (l : Level) (item : Tree) : Level :=
  { l with current := { l.current with items := item :: l.current.items } }

/-- Completes the current branch and begins another after the bar at `position`. -/
def Level.split (l : Level) (position : Nat) : Level :=
  { l with complete := l.current :: l.complete, current := ⟨position, []⟩ }

/-- The level of a group opened at `position`, or of the pattern. -/
def Level.opened (position : Nat) : Level := ⟨position, [], ⟨0, []⟩⟩

/-! ## Classes -/

/-- The members of a class: a token, a bare `-` and another token are a range, any other token
stands for itself. -/
def classMembers : List Token → Except SyntaxError (List Tree)
  | lo :: dash :: hi :: rest =>
    if dash.isBare '-' then
      if hi.value < lo.value then .error (.invalidRange lo.position lo.value hi.value)
      else do
        let members ← classMembers rest
        return Tree.range (.literal lo.value lo.position) (.literal hi.value hi.position) :: members
    else do
      let members ← classMembers (dash :: hi :: rest)
      return Tree.literal lo.value lo.position :: members
  | ts => return ts.map fun t => Tree.literal t.value t.position

/-- The class opened at `position` whose tokens between the brackets, the newest first, are
`members`. -/
def classTree (position : Nat) (negated : Bool) (members : List Token) : Except SyntaxError Tree :=
  if members.isEmpty then .error (.emptyClass position)
  else do
    let ts ← classMembers members.reverse
    return Tree.selector (.charClass negated position ts)

/-! ## The machine -/

namespace Parsing

/-- Before the first token. -/
def start : Parsing := ⟨[], .opened 0, .operand⟩

/-- The number of open groups. -/
def depth (s : Parsing) : Nat := s.outer.length

/-- The error for a token that is of none of the expected kinds. A closing parenthesis outside all
groups is an error of its own. -/
def unexpected (s : Parsing) (t : Token) (expected : List TokenKind) : SyntaxError :=
  if t.kind = .rightParen ∧ s.outer = [] then .unbalancedParenthesis t.position
  else .unexpectedToken t.position t.kind expected

/-- Takes the first token of an operand. -/
def beginOperand (limit : Nat) (s : Parsing) (t : Token) : Except SyntaxError Parsing :=
  match t.kind with
  | .character =>
    let choice := if t.value = '.' then Tree.any t.position else .literal t.value t.position
    .ok { s with phase := .quantifiable (.selector choice) }
  | .escape => .ok { s with phase := .quantifiable (.selector (.literal t.value t.position)) }
  | .leftBracket => .ok { s with phase := .classStart t.position }
  | .leftParen =>
    if limit ≤ s.depth then .error (.nestTooDeep t.position limit)
    else .ok ⟨s.level :: s.outer, .opened t.position, .operand⟩
  | _ => .error (s.unexpected t TokenKind.expressionStarts)

/-- The kinds named when a token can neither continue a branch nor end it. -/
def branchEnds (s : Parsing) : List TokenKind :=
  if s.outer = [] then [.quantifier, .pipe, .patternEnd] else [.rightParen]

/-- Takes a token after a complete operand and its quantifier: it begins another operand, ends the
branch or closes the group. -/
def continueBranch (limit : Nat) (s : Parsing) (t : Token) : Except SyntaxError Parsing :=
  if t.kind.beginsExpression then s.beginOperand limit t
  else
    match t.kind, s.outer with
    | .pipe, _ => .ok ⟨s.outer, s.level.split t.position, .operand⟩
    | .rightParen, outer :: rest =>
      .ok ⟨rest, outer, .quantifiable (.group s.level.opening s.level.tree)⟩
    | _, _ => .error (s.unexpected t s.branchEnds)

/-- Takes a token after an operand. -/
def afterOperand (limit : Nat) (s : Parsing) (operand : Tree) (t : Token) :
    Except SyntaxError Parsing :=
  if t.kind = .quantifier then
    .ok { s with level := s.level.push (.quantified (some t.value) operand), phase := .quantified }
  else
    { s with level := s.level.push (.quantified none operand) }.continueBranch limit t

/-- Takes the first token of a class. -/
def beginClass (s : Parsing) (position : Nat) (t : Token) : Except SyntaxError Parsing :=
  if t.kind = .character ∨ t.kind = .escape then
    if t.isBare ']' then .error (.emptyClass position)
    else if t.isBare '^' then .ok { s with phase := .classBody position true [] }
    else .ok { s with phase := .classBody position false [t] }
  else .error (s.unexpected t [.character, .escape])

/-- Takes a later token of a class. -/
def continueClass (s : Parsing) (position : Nat) (negated : Bool) (members : List Token)
    (t : Token) : Parsing :=
  if t.isBare ']' then { s with phase := .classEnd position negated members }
  else { s with phase := .classBody position negated (t :: members) }

/-- Takes one token of a pattern whose groups may be nested `limit` deep. -/
def step (limit : Nat) (s : Parsing) (t : Token) : Except SyntaxError Parsing :=
  match s.phase with
  | .operand => s.beginOperand limit t
  | .quantifiable operand => s.afterOperand limit operand t
  | .quantified => s.continueBranch limit t
  | .classStart position => s.beginClass position t
  | .classBody position negated members => .ok (s.continueClass position negated members t)
  | .classEnd position negated members => do
    let operand ← classTree position negated members
    s.afterOperand limit operand t

/-- Ends the pattern after a complete branch. -/
def close (s : Parsing) : Except SyntaxError Tree :=
  if s.outer = [] then .ok (.root s.level.tree) else .error (.unclosedGroup s.level.opening)

/-- Takes the end of the pattern. -/
def finish (s : Parsing) : Except SyntaxError Tree :=
  match s.phase with
  | .operand =>
    if s.level.complete ≠ [] then .error (.missingAlternative s.level.current.bar)
    else if s.outer = [] then .error .emptyPattern
    else .error (.unclosedGroup s.level.opening)
  | .quantifiable operand => { s with level := s.level.push (.quantified none operand) }.close
  | .quantified => s.close
  | .classStart position => .error (.unclosedClass position)
  | .classBody position _ _ => .error (.unclosedClass position)
  | .classEnd position negated members => do
    let operand ← classTree position negated members
    { s with level := s.level.push (.quantified none operand) }.close

/-- Takes all the given tokens in turn. -/
def run (limit : Nat) (s : Parsing) (ts : List Token) : Except SyntaxError Parsing :=
  ts.foldlM (step limit) s

/-- Tokens can be taken in parts. -/
theorem run_append (limit : Nat) (s : Parsing) (ts us : List Token) :
    s.run limit (ts ++ us) = s.run limit ts >>= fun s => s.run limit us :=
  List.foldlM_append

end Parsing

/-- The tree of the tokens of a pattern. A token that does not fit comes before a later place where
no token can be read. -/
def Tokens.parse (limit : Nat) (ts : Tokens) : Except PatternError Tree :=
  match Parsing.start.run limit ts.list, ts.failure with
  | .error e, _ => .error (.syntactic e)
  | .ok _, some e => .error (.lexical e)
  | .ok s, none => s.finish.mapError .syntactic

/-- The tree of a pattern whose groups may be nested `limit` deep. -/
def Tree.parse (limit : Nat) (pattern : List Char) : Except PatternError Tree :=
  (Tokens.ofPattern pattern).parse limit

end PatternAutomata
