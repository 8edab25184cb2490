import PatternAutomata.Text.Unprintable

/-!
# Escaped text

Model of the three ways in which the program escapes characters: without quotation marks in labels
and trees (`escaped`), and as a quoted character or string in messages and records (`quotedChar`,
`quotedString`).

Characters in labels, messages and records are written so that each can be read back: NUL, tab,
line feed, carriage return and the backslash have a two-character escape, unprintable characters are
written by code point, and a quotation mark is escaped where it could be taken for the end of the
text. Which marks those are depends on what surrounds the text.
-/

namespace PatternAutomata.Text

/-- What surrounds an escaped character, and so which quotation marks are escaped in it. -/
inductive Quoting
  /-- Either kind of quotation mark may surround the text: both are escaped. -/
  | either
  /-- The text is a character between single quotes. -/
  | single
  /-- The text is a string between double quotes. -/
  | double
deriving DecidableEq

/-- The quotation marks that are escaped. -/
def Quoting.marks : Quoting → List Char
  | .either => ['\'', '"']
  | .single => ['\'']
  | .double => ['"']

/-- The code point of `c` in lower-case hexadecimal digits, without leading zeros. -/
def hexDigits (c : Char) : List Char := Nat.toDigits 16 c.toNat

/-- The characters that stand for `c`. -/
def escape (q : Quoting) (c : Char) : List Char :=
  if c = '\x00' then ['\\', '0']
  else if c = '\t' then ['\\', 't']
  else if c = '\n' then ['\\', 'n']
  else if c = '\r' then ['\\', 'r']
  else if c = '\\' || q.marks.contains c then ['\\', c]
  else if isUnprintable c then ['\\', 'u', '\x7b'] ++ hexDigits c ++ ['\x7d']
  else [c]

/-- `c` escaped, with no quotation marks around it. -/
def escaped (c : Char) : String := String.ofList (escape .either c)

/-- `c` escaped, between single quotes. -/
def quotedChar (c : Char) : String := String.ofList ('\'' :: escape .single c ++ ['\''])

/-- `s` escaped, between double quotes. -/
def quotedString (s : String) : String :=
  String.ofList ('"' :: s.toList.flatMap (escape .double) ++ ['"'])

end PatternAutomata.Text
