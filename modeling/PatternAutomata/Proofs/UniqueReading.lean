import PatternAutomata.Pattern.Tree.Text
import PatternAutomata.Proofs.DrawnLines
import PatternAutomata.Proofs.MovedTokens

/-!
# Unique reading of the text of a tree

About the compact form of an `Ast` (in `parser`).

Blanks, parentheses and colons hold the text of a tree together, and they stand in it for
themselves, too, where they are the characters of nodes. All the same the text can be read in one
way only. The name of a kind consists of small letters, so it ends where something else follows. A
colon after
the name says that a character of the node follows, and the escape of a character says where it
ends. A parenthesis after these says that there are children. So where the text of one tree ends
within that of another is known from the left, and nothing behind it needs to be looked at.

Results:
* `NodeKind.name_append_inj`, `Tree.valueChars_append_inj`: where the two parts of a node end;
* **`Tree.chars_append_inj`**: where the text of a tree ends, and which tree it is;
* **`Tree.text_eq_iff_unplaced_eq`**: trees have the same text iff they are the same up to
  positions.

Out of scope: positions, which it does not show, and the drawing of a tree.
-/

namespace PatternAutomata

/-! ## Names -/

theorem NodeKind.name_inj {k l : NodeKind} (h : k.name.toList = l.name.toList) : k = l := by
  rw [String.toList_inj] at h
  cases k <;> cases l <;> simp [name] at h ⊢

theorem NodeKind.isLower_of_mem_name (k : NodeKind) : ∀ c ∈ k.name.toList, c.isLower = true := by
  cases k <;> simp [name]

/-- The name of a kind ends where something follows that is no small letter. -/
theorem NodeKind.name_append_inj {k l : NodeKind} {u v : List Char}
    (hu : ∀ c ∈ u.head?, ¬ c.isLower = true) (hv : ∀ c ∈ v.head?, ¬ c.isLower = true)
    (h : k.name.toList ++ u = l.name.toList ++ v) : k = l ∧ u = v := by
  obtain ⟨hname, hrest⟩ := append_inj_of_stop k.isLower_of_mem_name l.isLower_of_mem_name hu hv h
  exact ⟨name_inj hname, hrest⟩

namespace Tree

variable {t : Tree} {ts ts' : List Tree} {k : NodeKind} {v w : Option Char} {p : Nat}
  {u u' : List Char}

/-! ## The parts of a text -/

/-- What stands for the character of a node, if it has one. -/
def valueChars : Option Char → List Char
  | none => []
  | some c => ':' :: Text.escape .either c

/-- The characters of the text of a tree. -/
def chars (t : Tree) : List Char := t.pieces.flatMap String.toList

/-- The characters that follow the first child: the other children and the parenthesis. -/
def siblingChars (ts : List Tree) : List Char := (siblings ts).flatMap String.toList

/-- What stands for the children of a node. -/
def childChars : List Tree → List Char
  | [] => []
  | t :: ts => '(' :: (t.chars ++ siblingChars ts)

theorem toList_text (t : Tree) : t.text.toList = t.chars := String.toList_join

theorem toList_head (k : NodeKind) (v : Option Char) :
    (head k v).toList = k.name.toList ++ valueChars v := by
  cases v with
  | none => exact (List.append_nil _).symm
  | some c =>
    rw [head, String.toList_append, String.toList_append, List.append_assoc, Label.toList_escaped]
    rfl

theorem chars_node :
    (node k v p ts).chars = k.name.toList ++ (valueChars v ++ childChars ts) := by
  rw [← List.append_assoc, ← toList_head]
  cases ts with
  | nil => simp [chars, pieces, childChars]
  | cons t ts =>
    simp [chars, pieces, childChars, siblingChars]

theorem siblingChars_cons : siblingChars (t :: ts) = ' ' :: (t.chars ++ siblingChars ts) := by
  simp [siblingChars, siblings, chars]

/-! ## Where the parts end -/

/-- What can follow a tree: nothing, a blank before another child or the parenthesis after the last
one. -/
def EndsTree (u : List Char) : Prop := ∀ c ∈ u.head?, c = ' ' ∨ c = ')'

theorem endsTree_nil : EndsTree [] := fun c hc => by cases hc

theorem endsTree_siblingChars (ts : List Tree) (u : List Char) :
    EndsTree (siblingChars ts ++ u) := by
  cases ts with
  | nil =>
    rintro c ⟨⟩
    exact Or.inr rfl
  | cons t ts =>
    rw [siblingChars_cons]
    rintro c ⟨⟩
    exact Or.inl rfl

/-- Whether a node has children is seen from the first character after it. -/
theorem EndsTree.ne_childChars (hu : EndsTree u) : u ≠ childChars (t :: ts) ++ u' := by
  rintro rfl
  exact absurd (hu '(' rfl) (by decide)

/-- Once it is known where the children begin, they are read like those after a first child. -/
theorem EndsTree.siblingChars_eq (hu : EndsTree u) (hu' : EndsTree u')
    (h : childChars ts ++ u = childChars ts' ++ u') :
    siblingChars ts ++ u = siblingChars ts' ++ u' := by
  cases ts with
  | nil =>
    cases ts' with
    | nil => exact congrArg (List.cons ')') h
    | cons t' ts' => exact absurd h hu.ne_childChars
  | cons t ts =>
    cases ts' with
    | nil => exact absurd h.symm hu'.ne_childChars
    | cons t' ts' =>
      rw [siblingChars_cons, siblingChars_cons]
      exact congrArg (List.cons ' ') (List.cons.inj h).2

/-- No colon follows the character of a node. -/
theorem EndsTree.head?_childChars (hu : EndsTree u) : (childChars ts ++ u).head? ≠ some ':' := by
  cases ts with
  | nil => exact fun hc => absurd (hu ':' hc) (by decide)
  | cons t ts => exact fun hc => absurd hc (by simp [childChars])

/-- No letter follows the name of a node's kind. -/
theorem EndsTree.head?_valueChars (hu : EndsTree u) :
    ∀ c ∈ (valueChars v ++ (childChars ts ++ u)).head?, ¬ c.isLower = true := by
  cases v with
  | some d =>
    rintro c ⟨⟩
    decide
  | none =>
    cases ts with
    | nil =>
      intro c hc
      rcases hu c hc with rfl | rfl <;> decide
    | cons t ts =>
      rintro c ⟨⟩
      decide

/-- The character of a node is seen from what stands after the name. -/
theorem valueChars_append_inj (hu : u.head? ≠ some ':') (hu' : u'.head? ≠ some ':')
    (h : valueChars v ++ u = valueChars w ++ u') : v = w ∧ u = u' := by
  cases v with
  | none =>
    cases w with
    | none => exact ⟨rfl, h⟩
    | some d => exact absurd (congrArg List.head? h) hu
  | some c =>
    cases w with
    | none => exact absurd (congrArg List.head? h).symm hu'
    | some d =>
      obtain ⟨rfl, hrest⟩ := Text.escape_append_inj (List.cons.inj h).2
      exact ⟨rfl, hrest⟩

mutual

/-- **The text of a tree** says where it ends, and which tree it is. -/
theorem chars_append_inj : ∀ {t t' : Tree} {u u' : List Char}, EndsTree u → EndsTree u' →
    t.chars ++ u = t'.chars ++ u' → t.unplaced = t'.unplaced ∧ u = u'
  | .node k v p ts, .node k' v' p' ts', u, u', hu, hu', h => by
    simp only [chars_node, List.append_assoc] at h
    obtain ⟨rfl, hvalue⟩ := NodeKind.name_append_inj hu.head?_valueChars hu'.head?_valueChars h
    obtain ⟨rfl, hchild⟩ :=
      valueChars_append_inj hu.head?_childChars hu'.head?_childChars hvalue
    obtain ⟨hts, hrest⟩ := siblingChars_append_inj (hu.siblingChars_eq hu' hchild)
    exact ⟨congrArg (node k v 0) hts, hrest⟩

theorem siblingChars_append_inj : ∀ {ts ts' : List Tree} {u u' : List Char},
    siblingChars ts ++ u = siblingChars ts' ++ u' → unplacedAll ts = unplacedAll ts' ∧ u = u'
  | [], [], _, _, h => ⟨rfl, (List.cons.inj h).2⟩
  | [], t' :: ts', u, u', h => by
    rw [siblingChars_cons] at h
    exact absurd (List.cons.inj h).1 (by decide)
  | t :: ts, [], u, u', h => by
    rw [siblingChars_cons] at h
    exact absurd (List.cons.inj h).1 (by decide)
  | t :: ts, t' :: ts', u, u', h => by
    simp only [siblingChars_cons, List.cons_append, List.append_assoc] at h
    obtain ⟨ht, hrest⟩ := chars_append_inj (endsTree_siblingChars ts u)
      (endsTree_siblingChars ts' u') (List.cons.inj h).2
    obtain ⟨hts, hrest⟩ := siblingChars_append_inj hrest
    exact ⟨congrArg₂ List.cons ht hts, hrest⟩

end

/-! ## Texts and trees -/

mutual

/-- Positions do not show in the text. -/
theorem chars_unplaced : ∀ t : Tree, t.unplaced.chars = t.chars
  | .node k v p ts => by
    rw [unplaced, chars_node, chars_node, childChars_unplacedAll ts]

theorem childChars_unplacedAll : ∀ ts : List Tree, childChars (unplacedAll ts) = childChars ts
  | [] => rfl
  | t :: ts => by
    rw [unplacedAll, childChars, childChars, chars_unplaced t, siblingChars_unplacedAll ts]

theorem siblingChars_unplacedAll :
    ∀ ts : List Tree, siblingChars (unplacedAll ts) = siblingChars ts
  | [] => rfl
  | t :: ts => by
    rw [unplacedAll, siblingChars_cons, siblingChars_cons, chars_unplaced t,
      siblingChars_unplacedAll ts]

end

/-- **Trees have the same text** iff they are the same up to positions, whatever kinds, characters
and children their nodes have. -/
theorem text_eq_iff_unplaced_eq {t t' : Tree} : t.text = t'.text ↔ t.unplaced = t'.unplaced := by
  rw [← String.toList_inj, toList_text, toList_text]
  constructor
  · intro h
    rw [← List.append_nil t.chars, ← List.append_nil t'.chars] at h
    exact (chars_append_inj endsTree_nil endsTree_nil h).1
  · intro h
    rw [← chars_unplaced t, h, chars_unplaced]

/-- All signs that hold the text together, as members of a class. -/
example : (charClass true 0
      [literal ' ' 2, literal ')' 4, range (literal '(' 5) (literal ':' 7)]).text =
    "class:^(literal:  literal:) range(literal:( literal::))" := by decide

end Tree

end PatternAutomata
