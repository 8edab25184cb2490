import PatternAutomata.Regex.Search

/-!
# Searching a file line by line

Model of the demo program `grep`: what it reads from its arguments, its loop over the lines of a
file, and what it prints.

The command line program prints the lines of a file that hold a match, or only the matched parts of
them, or the automaton of the pattern. `Options.ofArgs?` reads its arguments, and `Options.run` says
what it prints for a file with given contents and how it ends.

Out of scope: the wording of usage errors and of the help text, and what it logs.
-/

namespace PatternAutomata.LineSearch

/-- What to look for, where, and what to print. -/
structure Options where
  pattern : String
  file : String
  onlyMatching : Bool := false
  dot : Bool := false
  limits : Limits := .default

/-- Why a file is not read. -/
inductive ReadError
  /-- There is no such file. -/
  | missing
  /-- The system reports something else. -/
  | other (report : String)

def ReadError.message : ReadError → String
  | .missing => "No such file or directory (os error 2)"
  | .other report => report

/-- What is printed, and the exit code. -/
structure Outcome where
  exitCode : Nat
  output : String
  errors : String

/-! ## Arguments -/

/-- Why the arguments are refused. -/
inductive UsageError
  | unknownFlag (flag : String)
  | invalidNumber (text : String)
  | missingNumber
  | wrongCount (count : Nat)

def UsageError.message : UsageError → String
  | .unknownFlag flag => s!"unexpected argument '{flag}'"
  | .invalidNumber text => s!"invalid value '{text}' for '--state-limit'"
  | .missingNumber => "a value is required for '--state-limit'"
  | .wrongCount count => s!"a pattern and a file are required, not {count} arguments"

/-- The digits of a number that may have a plus sign before them. -/
def unsigned : List Char → List Char
  | '+' :: digits => digits
  | digits => digits

/-- A number of at most 64 bits, written in decimal digits with or without a plus sign. -/
def number? (text : String) : Option Nat := do
  let digits := unsigned text.toList
  guard (digits.all Char.isDigit)
  let n ← (String.ofList digits).toNat?
  guard (n < UInt64.size)
  return n

/-- The options with the number of states limited as `text` says. -/
def Options.limitStates (o : Options) (text : String) : Except UsageError Options :=
  match number? text with
  | some n => .ok { o with limits := { o.limits with states := n } }
  | none => .error (.invalidNumber text)

/-- Reads flags into the options so far, up to `--`; arguments that are no flags, the newest first,
are collected. -/
def readArgs (o : Options) (plain : List String) :
    List String → Except UsageError (Options × List String)
  | [] => .ok (o, plain.reverse)
  | "--" :: rest => .ok (o, plain.reverse ++ rest)
  | "-o" :: rest => readArgs { o with onlyMatching := true } plain rest
  | "--only-matching" :: rest => readArgs { o with onlyMatching := true } plain rest
  | "--dot" :: rest => readArgs { o with dot := true } plain rest
  | ["--state-limit"] => .error .missingNumber
  | "--state-limit" :: text :: rest => do
    let o ← o.limitStates text
    readArgs o plain rest
  | text :: rest => do
    match text.dropPrefix? "--state-limit=" with
    | some number =>
      let o ← o.limitStates number.toString
      readArgs o plain rest
    | none =>
      if text.startsWith "-" then .error (.unknownFlag text) else readArgs o (text :: plain) rest

/-- The options that the arguments ask for: flags in any order, then or between them the pattern and
the file. -/
def Options.ofArgs? (args : List String) : Except UsageError Options := do
  match ← readArgs { pattern := "", file := "" } [] args with
  | (o, [pattern, file]) => return { o with pattern, file }
  | (_, plain) => .error (.wrongCount plain.length)

/-! ## Lines -/

/-- Drops a carriage return at the end of a reversed line. -/
def dropReturn : List UInt8 → List UInt8
  | 13 :: line => line
  | line => line

/-- The lines of `bytes`, the first of which begins with the reverse of `line`. A line ends at a
line feed, which is dropped together with a carriage return before it; what follows the last line
feed is a line if it is not empty. -/
def linesFrom (line : List UInt8) : List UInt8 → List (List UInt8)
  | [] => if line.isEmpty then [] else [line.reverse]
  | b :: bytes =>
    if b = 10 then (dropReturn line).reverse :: linesFrom [] bytes else linesFrom (b :: line) bytes

/-- The lines of a file. -/
def lines (bytes : ByteArray) : List (List UInt8) := linesFrom [] bytes.toList

/-- The text of a line, if it is valid UTF-8. -/
def decode? (line : List UInt8) : Option String := String.fromUTF8? ⟨line.toArray⟩

/-! ## Output -/

/-- What is printed for a line: each match that is not empty on a line of its own, or the whole line
if it holds a match. -/
def Options.printed (o : Options) (re : Regex) (line : String) : List String :=
  if o.onlyMatching then
    let buffer := line.toList
    ((re.findAll buffer).filter fun m => !m.isEmpty).map fun m =>
      String.ofList (m.slice buffer) ++ "\n"
  else if re.isMatch line then [line ++ "\n"]
  else []

/-- What is printed for the given lines, up to the first that is not valid UTF-8, and whether there
is none. -/
def Options.printAll (o : Options) (re : Regex) : List (List UInt8) → List String × Bool
  | [] => ([], true)
  | line :: rest =>
    match decode? line with
    | none => ([], false)
    | some text =>
      let (printed, valid) := o.printAll re rest
      (o.printed re text ++ printed, valid)

/-- An error as it is printed, with the error that it reports, if there is one. -/
def errorText (message : String) : Option String → String
  | none => "Error: " ++ message ++ "\n"
  | some cause => "Error: " ++ message ++ "\n\nCaused by:\n    " ++ cause ++ "\n"

/-- What is printed for the file, once the pattern is compiled. -/
def Options.search (o : Options) (re : Regex) : Except ReadError ByteArray → Outcome
  | .error e => ⟨1, "", errorText e.message none⟩
  | .ok bytes =>
    match o.printAll re (lines bytes) with
    | (printed, true) => ⟨0, String.join printed, ""⟩
    | (printed, false) =>
      ⟨1, String.join printed, errorText "stream did not contain valid UTF-8" none⟩

/-- What the program prints for a file with the given contents, and how it ends. The pattern is
compiled before the file is looked at. -/
def Options.run (o : Options) (contents : Except ReadError ByteArray) : Outcome :=
  match Regex.compile o.pattern o.limits with
  | .error e => ⟨1, "", errorText e.message e.cause?⟩
  | .ok re => if o.dot then ⟨0, re.dot, ""⟩ else o.search re contents

end PatternAutomata.LineSearch
