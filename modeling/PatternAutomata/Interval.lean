/-!
# Intervals of characters

Model of `next_char`, `prev_char` and `complement` (in `automaton`). `next_char` is `Char.succ?` and
`prev_char` is `pred?`. The sweep of `complement` over the sorted ranges is `gapsFrom`; its cursor
is lost past the last character, which is why `start` is optional.

An `Interval` is a pair of inclusive bounds in the order of Unicode scalar values. That order has no
gap at the surrogates: the character after U+D7FF is U+E000, so two intervals can be adjacent across
them. `complement` lists the maximal intervals that a list of intervals leaves free.
-/

namespace PatternAutomata

/-- The greatest character, U+10FFFF. -/
def lastChar : Char := Char.ofNat 0x10ffff

/-- The character before `c`, none for NUL; `Char.succ?` is the character after. -/
def pred? (c : Char) : Option Char :=
  if h : c.ordinal.val = 0 then none
  else some (Char.ofOrdinal ⟨c.ordinal.val - 1, by have := c.ordinal.isLt; omega⟩)

/-- The characters from `lo` to `hi`, bounds included; none when `hi` comes before `lo`. -/
structure Interval where
  lo : Char
  hi : Char
deriving DecidableEq, Ord

namespace Interval

/-- The interval that holds `c` alone. -/
def single (c : Char) : Interval := ⟨c, c⟩

/-- Whether `c` lies between the bounds. -/
def contains (i : Interval) (c : Char) : Bool := i.lo ≤ c && c ≤ i.hi

instance : Membership Char Interval := ⟨fun i c => i.contains c = true⟩

theorem mem_iff {i : Interval} {c : Char} : c ∈ i ↔ i.lo ≤ c ∧ c ≤ i.hi := by
  show i.contains c = true ↔ _
  simp [contains]

instance {i : Interval} {c : Char} : Decidable (c ∈ i) :=
  inferInstanceAs (Decidable (i.contains c = true))

/-- Whether `j` starts with the very next character after `i`. -/
def adjoins (i j : Interval) : Bool := i.hi.succ? == some j.lo

/-- The characters from `start` up to, not including, `stop`. -/
def below? (start stop : Char) : Option Interval :=
  if start < stop then (pred? stop).map (⟨start, ·⟩) else none

/-- The gaps that intervals sorted by their lower bounds leave from the character `start` on. With
no `start` the sweep is past the last character. -/
def gapsFrom : Option Char → List Interval → List Interval
  | none, _ => []
  | some start, [] => [⟨start, lastChar⟩]
  | some start, i :: rest =>
    (below? start i.lo).toList ++ gapsFrom (if start ≤ i.hi then i.hi.succ? else some start) rest

/-- The characters in none of the given intervals, as ascending intervals with at least one
character between any two of them. -/
def complement (is : List Interval) : List Interval :=
  gapsFrom (some '\x00') (is.mergeSort fun i j => (compare i j).isLE)

end Interval

end PatternAutomata
