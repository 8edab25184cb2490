import PatternAutomata.Automaton.Label

/-!
# Regular expressions

Model of what `class_transitions`, `quantified` and `selector` (in `nfa`) read off a node:
`CharClass.labels` is `class_transitions`, `quantify` goes by the quantifier as `quantified` does,
and `any` is the range of the dot in `selector`. The program goes from the nodes to the fragments at
once; expressions stand in between, so that what a tree means and what is built from it can be told
apart.

What a pattern means, with everything gone that only its writing shows: positions, parentheses and
the spelling of escapes. A `CharClass` reads one character; the other forms put expressions
together.
-/

namespace PatternAutomata

/-- A member of a character class. -/
inductive ClassMember
  | char (c : Char)
  | range (i : Interval)
deriving DecidableEq

/-- The characters of the member. -/
def ClassMember.interval : ClassMember → Interval
  | .char c => .single c
  | .range i => i

/-- One character of the members, or one of none of them. -/
structure CharClass where
  negated : Bool
  members : List ClassMember
deriving DecidableEq

namespace CharClass

/-- The character `c` alone. -/
def single (c : Char) : CharClass := ⟨false, [.char c]⟩

/-- Any character from the space on. -/
def any : CharClass := ⟨false, [.range ⟨' ', lastChar⟩]⟩

/-- The characters of the members, one interval for each. -/
def intervals (cls : CharClass) : List Interval := cls.members.map ClassMember.interval

/-- Whether the class reads `c`. -/
def contains (cls : CharClass) (c : Char) : Bool :=
  cls.negated != cls.intervals.any fun i => i.contains c

/-- The labels of parallel edges that together read the class. A class has one label for each
member. A negated class of single characters and a negated class of one range have a label of their
own; any other negated class has one for each interval that it leaves free, since an excluding label
for each member would let through what another member excludes. -/
def labels (cls : CharClass) : List Label :=
  if cls.negated then
    match cls.members with
    | [.range i] => [.outside i]
    | members =>
      if members.all (fun | .char _ => true | .range _ => false) then
        [.excluding (cls.intervals.map Interval.lo)]
      else (Interval.complement cls.intervals).map .within
  else cls.intervals.map .within

end CharClass

/-- A regular expression. -/
inductive Expr
  /-- One character. -/
  | chars (cls : CharClass)
  /-- One expression after another. -/
  | sequence (first : Expr) (rest : List Expr)
  /-- One of several expressions. -/
  | choice (branches : List Expr)
  /-- Any number of times, none included. -/
  | star (body : Expr)
  /-- One or more times. -/
  | plus (body : Expr)
  /-- Once or not at all. -/
  | optional (body : Expr)

namespace Expr

/-- One expression after another; a single one stands for itself. -/
def inSequence : Expr → List Expr → Expr
  | e, [] => e
  | e, rest => .sequence e rest

/-- A first expression or one of the others; with no others it stands for itself. -/
def oneOf : Expr → List Expr → Expr
  | e, [] => e
  | e, rest => .choice (e :: rest)

/-- The expression under a quantifier; a character that is no quantifier leaves it as it is. -/
def quantify (e : Expr) (quantifier : Option Char) : Expr :=
  if quantifier = some '*' then .star e
  else if quantifier = some '+' then .plus e
  else if quantifier = some '?' then .optional e
  else e

end Expr

end PatternAutomata
