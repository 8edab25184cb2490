import PatternAutomata.Ascending
import PatternAutomata.Interval
import PatternAutomata.Text.Escaped

/-!
# Edge labels

Model of `Transition` (in `automaton`).
* Its variants are the constructors, `exclude_set` is `excluding`, and `single` and `is_epsilon`
  keep their names.
* `matches` is `accepts`, `intervals` keeps its name, and the canonical text of a symbol is `text`.
* `sort` follows its order, and `distinct` is how `from_graph` collects an alphabet.

A `Label` says which characters may be read along an edge: none at all, those of an interval, or all
but some. Labels are told apart by how they are written, not by the characters they accept: `a-c`
and `b-d` are different labels that both accept `b`. `Label.intervals` lists the accepted
characters in the same form for all of them.

Out of scope: excluded characters that are not in ascending order. `exclude_set` sorts them, and
`matches` relies on it.
-/

namespace PatternAutomata

/-- What an edge reads. The order is that of the constructors, then that of their fields. -/
inductive Label
  /-- Nothing is read. -/
  | epsilon
  /-- One character of the interval. -/
  | within (i : Interval)
  /-- One character that is none of the listed ones. -/
  | noneOf (cs : Ascending Char)
  /-- One character outside the interval. -/
  | outside (i : Interval)
deriving DecidableEq, Ord

namespace Label

/-- The label that reads `c`. -/
def single (c : Char) : Label := .within (.single c)

/-- The label that reads any character but the listed ones, in whatever order they come. -/
def excluding (cs : List Char) : Label := .noneOf (.ofList cs)

def isEpsilon : Label → Bool
  | .epsilon => true
  | _ => false

/-- Whether `c` can be read along the edge. -/
def accepts : Label → Char → Bool
  | .epsilon, _ => false
  | .within i, c => i.contains c
  | .noneOf cs, c => !cs.toList.contains c
  | .outside i, c => c < i.lo || i.hi < c

/-- The accepted characters, as ascending intervals. -/
def intervals : Label → List Interval
  | .epsilon => []
  | .within i => [i]
  | .noneOf cs => Interval.complement (cs.toList.map Interval.single)
  | .outside i => Interval.complement [i]

/-- The bounds of an interval with a hyphen between them. -/
def boundsText (i : Interval) : String := Text.escaped i.lo ++ "-" ++ Text.escaped i.hi

/-- How the label is written: `empty`, `'a'`, `a-z`, `^abc` or `^a-z`. -/
def text : Label → String
  | .epsilon => "empty"
  | .within i => if i.lo = i.hi then "'" ++ Text.escaped i.lo ++ "'" else boundsText i
  | .noneOf cs => String.join ("^" :: cs.toList.map Text.escaped)
  | .outside i => "^" ++ boundsText i

/-- The labels in order, repeats kept. -/
def sort (labels : List Label) : List Label := labels.mergeSort fun a b => (compare a b).isLE

/-- The different labels among the given ones, each where it first occurs. -/
def distinct (labels : List Label) : List Label := labels.eraseDups

end Label

end PatternAutomata
