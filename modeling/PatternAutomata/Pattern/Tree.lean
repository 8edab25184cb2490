import PatternAutomata.Text.Escaped

/-!
# Trees of patterns

Model of `NodeKind` and `Ast` (in `parser`). The functions that make nodes are those that `Parser`
makes.

A `Tree` records how a pattern is built: each node has a kind, possibly a character, and the offset
in the pattern at which it begins. What a reader of patterns produces follows the shape below; other
trees can be written down, too, and have a text and a drawing all the same.

* `root` has one `regexp`.
* `regexp` has one or more `quantified`, then one `alternation` for each bar.
* `alternation` has one `regexp` without alternations.
* `quantified` has one `expression`; its character is the quantifier, if there is one.
* `expression` has one `selector` or `group`.
* `group` has one `regexp`.
* `selector` has one `literal`, `any` or `charClass`.
* `charClass` has `literal` and `range` members; its character is `^` when it is negated.
* `range` has two `literal`, its bounds.
-/

namespace PatternAutomata

/-- What a node stands for. -/
inductive NodeKind
  | root
  | regexp
  | alternation
  | quantified
  | expression
  | group
  | selector
  | literal
  | any
  | charClass
  | range
deriving DecidableEq

/-- How the kind is written. -/
def NodeKind.name : NodeKind → String
  | .root => "root"
  | .regexp => "regexp"
  | .alternation => "alternation"
  | .quantified => "quantified"
  | .expression => "expression"
  | .group => "group"
  | .selector => "selector"
  | .literal => "literal"
  | .any => "any"
  | .charClass => "class"
  | .range => "range"

/-- A node and, in order, its children. -/
inductive Tree
  | node (kind : NodeKind) (value : Option Char) (position : Nat) (children : List Tree)

namespace Tree

def kind : Tree → NodeKind
  | .node k _ _ _ => k

def value : Tree → Option Char
  | .node _ v _ _ => v

def position : Tree → Nat
  | .node _ _ p _ => p

def children : Tree → List Tree
  | .node _ _ _ ts => ts

/-! ## The nodes of a pattern's tree -/

/-- Where the first of the given trees begins; zero if there is none. -/
def startOf : List Tree → Nat
  | [] => 0
  | t :: _ => t.position

/-- A node that begins where its first child does. -/
def spanning (kind : NodeKind) (value : Option Char) (children : List Tree) : Tree :=
  .node kind value (startOf children) children

/-- A character that stands for itself. -/
def literal (c : Char) (position : Nat) : Tree := .node .literal (some c) position []

/-- The dot. -/
def any (position : Nat) : Tree := .node .any none position []

/-- The characters between two bounds, as a member of a class. -/
def range (lo hi : Tree) : Tree := spanning .range none [lo, hi]

/-- A character class, opened at `position`. -/
def charClass (negated : Bool) (position : Nat) (members : List Tree) : Tree :=
  .node .charClass (if negated then some '^' else none) position members

/-- An operand that reads one character. -/
def selector (choice : Tree) : Tree := spanning .selector none [choice]

/-- A parenthesised pattern, opened at `position`. -/
def group (position : Nat) (body : Tree) : Tree := .node .group none position [body]

/-- An operand with its quantifier, if there is one. -/
def quantified (quantifier : Option Char) (operand : Tree) : Tree :=
  spanning .quantified quantifier [spanning .expression none [operand]]

/-- A branch after the bar at `position`. -/
def alternation (position : Nat) (branch : Tree) : Tree := .node .alternation none position [branch]

/-- The whole pattern. -/
def root (body : Tree) : Tree := .node .root none 0 [body]

/-! ## Preorder -/

/-- A node as it is met on a walk through a tree: `depth` counts the nodes above it. -/
structure Visit where
  depth : Nat
  kind : NodeKind
  value : Option Char
  position : Nat
deriving DecidableEq

mutual

/-- The nodes of a tree whose root has the given depth, each before its children. -/
def preorder (depth : Nat) : Tree → List Visit
  | .node k v p ts => ⟨depth, k, v, p⟩ :: preorderAll (depth + 1) ts

/-- The nodes of all the given trees, one tree after the other. -/
def preorderAll (depth : Nat) : List Tree → List Visit
  | [] => []
  | t :: ts => t.preorder depth ++ preorderAll depth ts

end

end Tree

end PatternAutomata
