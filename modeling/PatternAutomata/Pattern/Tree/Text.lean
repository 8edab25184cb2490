import PatternAutomata.Pattern.Tree

/-!
# The text of a tree

Model of the compact form of an `Ast` (in `parser`) and of `to_dot` for a tree with `write_node` (in
`dot`). `write_node` counts the nodes as it goes; here the number of a node is found from the sizes
of the trees before it.

`Tree.text` writes a tree on one line, as in `regexp(quantified:+(...))`: the kind, a colon and the
escaped character if the node has one, and the children in parentheses with a blank between any two.
`Tree.dot` draws it as an undirected Graphviz graph whose nodes are numbered from the root down.
-/

namespace PatternAutomata.Tree

/-- A node without its children: the kind and, after a colon, the character. -/
def head (k : NodeKind) : Option Char → String
  | none => k.name
  | some c => k.name ++ ":" ++ Text.escaped c

mutual

/-- The pieces of the text of a tree, in order. -/
def pieces : Tree → List String
  | .node k v _ [] => [head k v]
  | .node k v _ (t :: ts) => head k v :: "(" :: (t.pieces ++ siblings ts)

/-- The pieces that follow the first child: the other children and the parenthesis at the end. -/
def siblings : List Tree → List String
  | [] => [")"]
  | t :: ts => " " :: (t.pieces ++ siblings ts)

end

/-- The tree on one line. -/
def text (t : Tree) : String := String.join t.pieces

/-! ## Drawings -/

mutual

/-- The number of nodes, which is how many numbers the drawing of a tree takes up. -/
def size : Tree → Nat
  | .node _ _ _ ts => sizeAll ts + 1

/-- The number of nodes of all the given trees. -/
def sizeAll : List Tree → Nat
  | [] => 0
  | t :: ts => t.size + sizeAll ts

end

/-- What a drawing shows in a node. -/
def label (k : NodeKind) : Option Char → String
  | none => k.name
  | some c => k.name ++ " ('" ++ Text.escaped c ++ "')"

mutual

/-- The lines of the drawing of a tree whose root has number `id`. -/
def dotLines (id : Nat) : Tree → List String
  | .node k v _ ts => s!"  n{id} [label=\"{label k v}\"];\n" :: dotChildren id (id + 1) ts

/-- The lines for the children of node `id`, the first of which has number `next`: the drawing of
each child, then its edge. -/
def dotChildren (id next : Nat) : List Tree → List String
  | [] => []
  | t :: ts => t.dotLines next ++ s!"  n{id} -- n{next};\n" :: dotChildren id (next + t.size) ts

end

/-- The tree as a Graphviz graph. -/
def dot (t : Tree) : String := String.join ("graph ast \x7b\n" :: t.dotLines 0 ++ ["\x7d\n"])

end PatternAutomata.Tree
