/-!
# Tokens of a pattern

Model of `TokenKind`, `Token`, `is_valid_char` and the table of escapes (in `lexer`), and of the
kinds with which an expression starts (in `parser`). `kindOf?` is the choice that `next_token`
makes.

A pattern is read as a list of tokens. `]`, `-`, `^` and `.` are plain characters here: what they
mean depends on where they stand. Blanks between tokens are dropped, so a blank that is to be
matched is written as an escape.
-/

namespace PatternAutomata

/-- What a token can be used for. -/
inductive TokenKind
  | character
  | escape
  | leftBracket
  | leftParen
  | rightParen
  | quantifier
  | pipe
  | patternEnd
deriving DecidableEq

/-- How the kind is called in messages. -/
def TokenKind.name : TokenKind → String
  | .character => "character"
  | .escape => "escape"
  | .leftBracket => "'['"
  | .leftParen => "'('"
  | .rightParen => "')'"
  | .quantifier => "quantifier"
  | .pipe => "'|'"
  | .patternEnd => "end of pattern"

/-- Whether an expression may begin with a token of this kind. -/
def TokenKind.beginsExpression : TokenKind → Bool
  | .character | .escape | .leftBracket | .leftParen => true
  | _ => false

/-- The kinds an expression may begin with, in the order in which messages list them. -/
def TokenKind.expressionStarts : List TokenKind := [.character, .escape, .leftBracket, .leftParen]

theorem TokenKind.mem_expressionStarts {k : TokenKind} :
    k ∈ expressionStarts ↔ k.beginsExpression = true := by
  cases k <;> decide

/-- A token: the character it stands for (an escape has the character that it produces) and the
offset of its first character in the pattern. -/
structure Token where
  kind : TokenKind
  value : Char
  position : Nat
deriving DecidableEq

namespace Token

/-- The token after the last one of a pattern of `length` characters. -/
def patternEnd (length : Nat) : Token := ⟨.patternEnd, '\x00', length⟩

/-- Whether the token is `c` written as itself, not escaped. -/
def isBare (t : Token) (c : Char) : Bool := t.kind = .character && t.value = c

theorem isBare_iff {t : Token} {c : Char} :
    t.isBare c = true ↔ t.kind = .character ∧ t.value = c := by
  simp [isBare]

/-- Blanks are dropped between tokens. -/
def isBlank (c : Char) : Bool := c = ' ' || c = '\t'

/-- The kind of the one-character token `c`, none when no token begins with `c`. A backslash begins
an escape and is no token of its own. -/
def kindOf? (c : Char) : Option TokenKind :=
  if c = '[' then some .leftBracket
  else if c = '(' then some .leftParen
  else if c = ')' then some .rightParen
  else if c = '*' || c = '+' || c = '?' then some .quantifier
  else if c = '|' then some .pipe
  else if ' ' < c then some .character
  else none

/-- The character that `c` stands for after a backslash, none when `c` cannot be escaped. -/
def escaped? (c : Char) : Option Char :=
  if c = 's' then some ' '
  else if c = 't' then some '\t'
  else if ['(', ')', '*', '+', '-', '.', '?', '[', '\\', ']', '^', '|'].contains c then some c
  else none

end Token

end PatternAutomata
