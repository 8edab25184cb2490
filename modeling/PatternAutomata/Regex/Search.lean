import PatternAutomata.Regex.Basic

/-!
# Searching

Model of `find_at` and `longest_at` of `Machine` (in `machine`), and of `Cursor`, `Match`, `Matches`
and the searches of `Regex` (at the top level).
* `longest_at` is `longest`, and `find_at` is `findFrom`. Both are recursions on the text that is
  left, where the program has indices into it.
* `match_at`, `find`, `is_match` and `find_iter` keep their names, `match_end` is `Cursor.stop`, and
  `next` is `Matches.next`.

A search reads a buffer from some position on and looks for the leftmost match that begins there or
later; of the matches that begin at one place it takes the longest. Nothing is found at the end of
the buffer, not even an empty match. Positions and lengths count characters.

`Regex.matchAt` records what it finds in a `Cursor`, and `Regex.findIter` goes from match to match.

Out of scope: positions that are too large for a machine word.
-/

namespace PatternAutomata

/-- A match: the positions of its first character and of the character after its last. -/
structure Match where
  start : Nat
  stop : Nat
deriving DecidableEq

namespace Match

/-- The number of characters. -/
def length (m : Match) : Nat := m.stop - m.start

def isEmpty (m : Match) : Bool := m.start = m.stop

/-- The matched characters. -/
def slice (m : Match) (buffer : List Char) : List Char := (buffer.drop m.start).take m.length

end Match

namespace Automaton

/-- The length of the longest prefix of the text that leads from state `i` to an accepting one, or
else `best`; `n` characters were read before the text. -/
def longest (a : Automaton) (i n : Nat) (best : Option Nat) (text : List Char) : Option Nat :=
  let best := if a.accepting i then some n else best
  match text with
  | [] => best
  | c :: rest =>
    match a.step i c with
    | none => best
    | some j => a.longest j (n + 1) best rest

/-- The leftmost longest match in a text whose first character has position `start`. -/
def findFrom (a : Automaton) (start : Nat) : List Char → Option Match
  | [] => none
  | c :: rest =>
    match a.longest initial 0 none (c :: rest) with
    | some n => some ⟨start, start + n⟩
    | none => a.findFrom (start + 1) rest

end Automaton

/-- Where to read on, and the match found last. -/
structure Cursor where
  position : Nat := 0
  start : Option Nat := none
  length : Nat := 0
deriving DecidableEq

namespace Cursor

/-- A cursor at `position` that has found nothing. -/
def ofPosition (position : Nat) : Cursor := { position }

/-- Where the last match ends, if there is one. -/
def stop (c : Cursor) : Option Nat := c.start.map (· + c.length)

/-- Moves on to the end of the last match, if there is one. -/
def resume (c : Cursor) : Cursor := { c with position := c.stop.getD c.position }

end Cursor

/-- The matches of a pattern in a buffer from `position` on. -/
structure Matches where
  regex : Regex
  buffer : List Char
  position : Nat

namespace Regex

/-- The leftmost longest match that begins at or after `position`. -/
def findAt (re : Regex) (buffer : List Char) (position : Nat) : Option Match :=
  re.automaton.findFrom position (buffer.drop position)

/-- Searches from the position of the cursor on, and records what is found: the match, or that there
is none. The position stays as it is. -/
def matchAt (re : Regex) (buffer : List Char) (c : Cursor) : Bool × Cursor :=
  match re.findAt buffer c.position with
  | some m => (true, { c with start := some m.start, length := m.length })
  | none => (false, { c with start := none, length := 0 })

/-- The matches in the buffer, from left to right. -/
def findIter (re : Regex) (buffer : List Char) : Matches := ⟨re, buffer, 0⟩

end Regex

namespace Matches

/-- Where to look for the match after `m`: at its end, or one character further when it is empty. -/
def after (m : Match) : Nat := if m.isEmpty then m.stop + 1 else m.stop

/-- The next match, and the matches after it. -/
def next (ms : Matches) : Option Match × Matches :=
  match ms.regex.findAt ms.buffer ms.position with
  | some m => (some m, { ms with position := after m })
  | none => (none, ms)

/-- The next `n` matches; none for each that there is not. -/
def nextN (ms : Matches) : Nat → List (Option Match)
  | 0 => []
  | n + 1 =>
    match ms.next with
    | (m, rest) => m :: rest.nextN n

/-- The next matches, at most `n`. -/
def take (ms : Matches) : Nat → List Match
  | 0 => []
  | n + 1 =>
    match ms.next with
    | (some m, rest) => m :: rest.take n
    | (none, _) => []

/-- All the matches that follow. Each begins at a character of its own, so there are no more than
the buffer has characters. -/
def toList (ms : Matches) : List Match := ms.take ms.buffer.length

end Matches

namespace Regex

/-- The leftmost longest match in a text. -/
def find (re : Regex) (text : String) : Option Match := (re.findIter text.toList).next.1

/-- Whether the text holds a match. -/
def isMatch (re : Regex) (text : String) : Bool := (re.find text).isSome

/-- All matches in the buffer, from left to right. -/
def findAll (re : Regex) (buffer : List Char) : List Match := (re.findIter buffer).toList

end Regex

end PatternAutomata
