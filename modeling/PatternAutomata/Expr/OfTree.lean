import PatternAutomata.Expr
import PatternAutomata.Pattern.Tree

/-!
# The expression of a tree

Model of the way in which `build_nfa` (in `nfa`) goes through a tree: `regexp`, `quantified`,
`expression`, `selector`, `class_transitions` and `literal`, with `only_child` (in `parser`). A
`ShapeError` is a place that the program takes to be out of reach, or a child that is missing; there
it stops.

`Expr.ofTree?` reads the expression off the tree of a pattern. It asks of a tree only what it needs:
a node that must have one child has the first one looked at, and only where a node can be of several
kinds is its kind looked at. A tree that falls short of that is refused with a `ShapeError`.

Out of scope: the assertion in `only_child` that a node has no second child, which is made in debug
builds only (`Proofs.ExactReading`).
-/

namespace PatternAutomata

/-- Where a node stands that does not belong there. -/
inductive TreePlace
  | regexp
  | expression
  | selector
deriving DecidableEq

def TreePlace.name : TreePlace → String
  | .regexp => "regexp"
  | .expression => "expression"
  | .selector => "selector"

/-- Why a tree is not that of a pattern. -/
inductive ShapeError
  /-- A node of this kind stands where none can. -/
  | misplaced (kind : NodeKind) (place : TreePlace)
  /-- A `regexp` node has no `quantified` child. -/
  | noExpression
  /-- A node has `count` children, and needs one with number `index`, counted from zero. -/
  | missingChild (count index : Nat)
deriving DecidableEq

def ShapeError.message : ShapeError → String
  | .misplaced kind place => s!"{kind.name} node inside {place.name}"
  | .noExpression => "regexp without expressions"
  | .missingChild count index => s!"child {index} is missing from a node with {count} children"

namespace Expr.OfTree

/-- The character of a leaf; NUL when it has none. -/
def leafChar (t : Tree) : Char := t.value.getD '\x00'

/-- A member of a class: a `range` node, or any other node for its own character. -/
def classMember : Tree → Except ShapeError ClassMember
  | .node .range _ _ [] => .error (.missingChild 0 0)
  | .node .range _ _ [_] => .error (.missingChild 1 1)
  | .node .range _ _ (lo :: hi :: _) => .ok (.range ⟨leafChar lo, leafChar hi⟩)
  | t => .ok (.char (leafChar t))

/-- What the child of a `selector` node reads. -/
def charClass : Tree → Except ShapeError CharClass
  | .node .literal value _ _ => .ok (.single (value.getD '\x00'))
  | .node .any _ _ _ => .ok .any
  | .node .charClass value _ members => do
    let members ← members.mapM classMember
    return ⟨value = some '^', members⟩
  | .node kind _ _ _ => .error (.misplaced kind .selector)

/-- What the children of a `selector` node read. -/
def selected : List Tree → Except ShapeError Expr
  | [] => .error (.missingChild 0 0)
  | t :: _ => (charClass t).map .chars

mutual

/-- The expression of a `regexp` node. -/
def regexp : Tree → Except ShapeError Expr
  | .node _ _ _ ts => do
    match ← parts ts with
    | ([], _) => .error .noExpression
    | (e :: items, branches) => .ok (oneOf (inSequence e items) branches)

/-- The operands of the first branch, and the other branches, among the children of a `regexp`
node. -/
def parts : List Tree → Except ShapeError (List Expr × List Expr)
  | [] => .ok ([], [])
  | .node .quantified quantifier _ ts :: rest => do
    let e ← expression ts
    let (items, branches) ← parts rest
    return (e.quantify quantifier :: items, branches)
  | .node .alternation _ _ ts :: rest => do
    let e ← onlyRegexp ts
    let (items, branches) ← parts rest
    return (items, e :: branches)
  | .node kind _ _ _ :: _ => .error (.misplaced kind .regexp)

/-- The expression of the first of the given nodes, a `regexp`. -/
def onlyRegexp : List Tree → Except ShapeError Expr
  | [] => .error (.missingChild 0 0)
  | t :: _ => regexp t

/-- The operand of the first of the given nodes, an `expression`. -/
def expression : List Tree → Except ShapeError Expr
  | [] => .error (.missingChild 0 0)
  | .node _ _ _ ts :: _ => operand ts

/-- The operand that the first of the given nodes is. -/
def operand : List Tree → Except ShapeError Expr
  | [] => .error (.missingChild 0 0)
  | .node .group _ _ ts :: _ => onlyRegexp ts
  | .node .selector _ _ ts :: _ => selected ts
  | .node kind _ _ _ :: _ => .error (.misplaced kind .expression)

end

end Expr.OfTree

/-- The expression of a whole tree: that of the first child of its root. -/
def Expr.ofTree? (t : Tree) : Except ShapeError Expr := OfTree.onlyRegexp t.children

end PatternAutomata
