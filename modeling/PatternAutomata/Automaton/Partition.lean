import PatternAutomata.Automaton.Label

/-!
# Splitting the alphabet

Model of `partition` (in `dfa`). `cells` are the ranges from each of the `cuts` up to the next one,
before those are dropped whose characters no transition accepts.

`Label.partition` splits the characters that some labels accept into disjoint intervals, such that
each label accepts all of an interval or none of it. One character of an interval then stands for
all of them. The intervals begin where an accepted interval begins and right after one ends.
-/

namespace PatternAutomata.Label

/-- Where an interval of the given labels begins or another one can, in ascending order. -/
def cuts (labels : List Label) : Ascending Char :=
  .ofList (labels.flatMap fun l => l.intervals.flatMap fun i => i.lo :: i.hi.succ?.toList)

/-- The intervals from each cut up to the next one; the last reaches to the last character. -/
def cells : List Char → List Interval
  | [] => []
  | [lo] => [⟨lo, lastChar⟩]
  | lo :: next :: rest => (Interval.below? lo next).toList ++ cells (next :: rest)

/-- The intervals between the cuts whose characters some label accepts. -/
def partition (labels : List Label) : List Interval :=
  (cells (cuts labels).toList).filter fun i => labels.any fun l => l.accepts i.lo

end PatternAutomata.Label
