import PatternAutomata.Pattern.Token
import PatternAutomata.Text.Escaped

/-!
# What can be wrong with a pattern

Model of `LexError` (in `lexer`), of `SyntaxError` (in `parser`) and of the part of `CompileError`
that is about patterns (at the top level), with their messages and positions.

`LexicalError` is a character that begins no token, `SyntaxError` a token that does not fit where
it stands, and `PatternError` one of the two. Positions are offsets in characters from the beginning
of the pattern.
-/

namespace PatternAutomata

/-- Why no token can be read. -/
inductive LexicalError
  /-- No token begins with `character`. -/
  | invalidCharacter (position : Nat) (character : Char)
  /-- `character` stands after a backslash and cannot be escaped. -/
  | invalidEscape (position : Nat) (character : Char)
  /-- The backslash at `position` is the last character of the pattern. -/
  | unterminatedEscape (position : Nat)
deriving DecidableEq

namespace LexicalError

def position : LexicalError → Nat
  | .invalidCharacter p _ => p
  | .invalidEscape p _ => p
  | .unterminatedEscape p => p

def message : LexicalError → String
  | .invalidCharacter p c => s!"invalid character {Text.quotedChar c} at {p}"
  | .invalidEscape p c => s!"character {Text.quotedChar c} at {p} cannot be escaped"
  | .unterminatedEscape p => s!"pattern ends after escape marker at {p}"

end LexicalError

/-- Why a list of tokens is not a pattern. -/
inductive SyntaxError
  /-- There is no token. -/
  | emptyPattern
  /-- The token at `position` is of none of the kinds that may follow. -/
  | unexpectedToken (position : Nat) (found : TokenKind) (expected : List TokenKind)
  /-- The pattern ends where one of the expected kinds has to follow. -/
  | unexpectedEnd (position : Nat) (expected : List TokenKind)
  /-- The group opened at `position` is never closed. -/
  | unclosedGroup (position : Nat)
  /-- The closing parenthesis at `position` closes no group. -/
  | unbalancedParenthesis (position : Nat)
  /-- The class opened at `position` has no member. -/
  | emptyClass (position : Nat)
  /-- The class opened at `position` is never closed. -/
  | unclosedClass (position : Nat)
  /-- The pattern ends right after the bar at `position`. -/
  | missingAlternative (position : Nat)
  /-- The class member at `position` is a range whose end comes before its start. -/
  | invalidRange (position : Nat) (start stop : Char)
  /-- The group opened at `position` lies inside `limit` others. -/
  | nestTooDeep (position limit : Nat)
deriving DecidableEq

namespace SyntaxError

/-- The place in the pattern, if the error has one. -/
def position? : SyntaxError → Option Nat
  | .emptyPattern => none
  | .unexpectedToken p _ _ => some p
  | .unexpectedEnd p _ => some p
  | .unclosedGroup p => some p
  | .unbalancedParenthesis p => some p
  | .emptyClass p => some p
  | .unclosedClass p => some p
  | .missingAlternative p => some p
  | .invalidRange p _ _ => some p
  | .nestTooDeep p _ => some p

/-- The names of the kinds, in the given order. -/
def kindList (kinds : List TokenKind) : String := ", ".intercalate (kinds.map TokenKind.name)

def message : SyntaxError → String
  | .emptyPattern => "empty pattern"
  | .unexpectedToken p found expected =>
    s!"unexpected {found.name} at {p}, expected one of: {kindList expected}"
  | .unexpectedEnd p expected =>
    s!"unexpected end of pattern at {p}, expected one of: {kindList expected}"
  | .unclosedGroup p => s!"unclosed parenthesis opened at {p}"
  | .unbalancedParenthesis p => s!"unexpected parenthesis at {p}"
  | .emptyClass p => s!"empty character class at {p}"
  | .unclosedClass p => s!"unclosed character class opened at {p}"
  | .missingAlternative p => s!"missing operand after '|' at {p}"
  | .invalidRange p start stop =>
    s!"invalid range {Text.quotedChar start}-{Text.quotedChar stop} at {p}"
  | .nestTooDeep p limit => s!"nesting deeper than {limit} at {p}"

end SyntaxError

/-- Why a pattern has no tree. -/
inductive PatternError
  | lexical (error : LexicalError)
  | syntactic (error : SyntaxError)
deriving DecidableEq

namespace PatternError

/-- The place in the pattern, if the error has one. -/
def position? : PatternError → Option Nat
  | .lexical e => some e.position
  | .syntactic e => e.position?

/-- What is wrong, without saying of which sort the error is. -/
def detail : PatternError → String
  | .lexical e => e.message
  | .syntactic e => e.message

def message : PatternError → String
  | .lexical e => "lexical error: " ++ e.message
  | .syntactic e => "syntax error: " ++ e.message

end PatternError

end PatternAutomata
