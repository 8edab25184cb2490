import PatternAutomata.Proofs.ParserSoundness
import PatternAutomata.Proofs.TokenPlaces

/-!
# Where the nodes of a tree stand

About the field `position` of an `Ast` (in `parser`).

On a walk through the tree of a pattern each node but the root points at a token: a leaf at the one
that it is, a group, a class or an alternation at the one that it begins with, any other node at the
first one below it. The walk goes along the tokens in their order, and a leaf has its token for
itself, so the order of the tokens is that of the nodes.

Results:
* `GoesAlong.pairwise_position`, `GoesAlong.pairwise_leaves`: the positions on a walk that goes
  along tokens in the order of their positions;
* `Grammar.Regexp.goesAlong`: the walk through the tree of a derivation goes along its tokens;
* **`Tree.pointsInto_of_parse`**: the positions of the nodes of a pattern's tree are in order, and
  the pattern holds there what the nodes stand for.

Out of scope: where a node ends.
-/

namespace PatternAutomata

/-! ## Nodes and tokens -/

namespace Tree.Visit

/-- Whether the node is a leaf of the tree. -/
def isLeaf (v : Visit) : Bool := v.kind = .literal || v.kind = .any

/-- What the node says of the token that it points at. -/
def Names (v : Visit) (t : Token) : Prop :=
  match v.kind with
  | .literal => v.value = some t.value
  | .any => t.isBare '.' = true
  | .group => t.kind = .leftParen
  | .charClass => t.kind = .leftBracket
  | .alternation => t.kind = .pipe
  | _ => True

/-- The node stands where the token does and says of it what is true. -/
structure PointsAt (v : Visit) (t : Token) : Prop where
  position_eq : v.position = t.position
  names : v.Names t

/-- The pattern holds at the node's position what the node stands for: a leaf is a character of the
pattern, or one for which a backslash and another character stand there. -/
def PointsInto (v : Visit) (p : List Char) : Prop :=
  match v.kind with
  | .literal => ∃ c, v.value = some c ∧ (p[v.position]? = some c ∨
      p[v.position]? = some '\\' ∧ ∃ e, p[v.position + 1]? = some e ∧ Token.escaped? e = some c)
  | .any => p[v.position]? = some '.'
  | .group => p[v.position]? = some '('
  | .charClass => p[v.position]? = some '['
  | .alternation => p[v.position]? = some '|'
  | _ => True

/-- A node that points at a token of a pattern points into the pattern. -/
theorem PointsAt.pointsInto {v : Visit} {t : Token} {p : List Char} (h : v.PointsAt t)
    (ht : t.StandsIn p) : v.PointsInto p := by
  obtain ⟨depth, kind, value, position⟩ := v
  obtain ⟨rfl, hnames⟩ := h
  cases kind with
  | literal =>
    cases (hnames : value = some t.value)
    cases ht with
    | character hc _ _ => exact ⟨t.value, rfl, Or.inl hc⟩
    | @escape e _ hb he hv => exact ⟨t.value, rfl, Or.inr ⟨hb, e, he, hv⟩⟩
  | any =>
    obtain ⟨hkind, hvalue⟩ := Token.isBare_iff.mp hnames
    cases ht with
    | character hc _ _ => exact hc.trans (congrArg some hvalue)
    | escape he _ _ _ => exact absurd (hkind.symm.trans he) TokenKind.noConfusion
  | group => exact ht.getElem?_eq_sign (congrArg TokenKind.sign? hnames)
  | charClass => exact ht.getElem?_eq_sign (congrArg TokenKind.sign? hnames)
  | alternation => exact ht.getElem?_eq_sign (congrArg TokenKind.sign? hnames)
  | root => exact trivial
  | regexp => exact trivial
  | quantified => exact trivial
  | expression => exact trivial
  | selector => exact trivial
  | range => exact trivial

end Tree.Visit

/-! ## Walks along tokens -/

/-- The nodes on a walk point at the tokens in order: each token is passed after some nodes that
point at it, a leaf being the last one of these. -/
inductive GoesAlong : List Token → List Tree.Visit → Prop
  | nil : GoesAlong [] []
  | pass {ts : List Token} {vs : List Tree.Visit} (t : Token) : GoesAlong ts vs →
    GoesAlong (t :: ts) vs
  | inner {t : Token} {ts : List Token} {v : Tree.Visit} {vs : List Tree.Visit} : v.PointsAt t →
    v.isLeaf = false → GoesAlong (t :: ts) vs → GoesAlong (t :: ts) (v :: vs)
  | leaf {t : Token} {ts : List Token} {v : Tree.Visit} {vs : List Tree.Visit} : v.PointsAt t →
    GoesAlong ts vs → GoesAlong (t :: ts) (v :: vs)

namespace GoesAlong

variable {ts us : List Token} {vs ws : List Tree.Visit} {v : Tree.Visit}

theorem append (h : GoesAlong ts vs) (h' : GoesAlong us ws) : GoesAlong (ts ++ us) (vs ++ ws) := by
  induction h with
  | nil => exact h'
  | pass t _ ih => exact .pass t ih
  | inner hv hl _ ih => exact .inner hv hl ih
  | leaf hv _ ih => exact .leaf hv ih

theorem no_nodes : ∀ ts : List Token, GoesAlong ts []
  | [] => .nil
  | t :: ts => .pass t (no_nodes ts)

/-- Some tokens are left when the walk has ended. -/
theorem append_tokens (h : GoesAlong ts vs) (us : List Token) : GoesAlong (ts ++ us) vs := by
  have := h.append (no_nodes us)
  rwa [List.append_nil] at this

/-- Every node points at one of the tokens. -/
theorem exists_token (h : GoesAlong ts vs) : ∀ v ∈ vs, ∃ t ∈ ts, v.PointsAt t := by
  induction h with
  | nil => exact fun v hv => absurd hv List.not_mem_nil
  | pass t _ ih =>
    intro v hv
    obtain ⟨u, hu, hvu⟩ := ih v hv
    exact ⟨u, List.mem_cons_of_mem t hu, hvu⟩
  | @inner t ts v vs hv _ _ ih =>
    exact List.forall_mem_cons.mpr ⟨⟨t, List.mem_cons_self, hv⟩, ih⟩
  | @leaf t ts v vs hv _ ih =>
    refine List.forall_mem_cons.mpr ⟨⟨t, List.mem_cons_self, hv⟩, fun w hw => ?_⟩
    obtain ⟨u, hu, hwu⟩ := ih w hw
    exact ⟨u, List.mem_cons_of_mem t hu, hwu⟩

/-- What holds of the positions of all tokens holds of those of all nodes. -/
theorem forall_position (h : GoesAlong ts vs) {P : Nat → Prop} (hP : ∀ t ∈ ts, P t.position) :
    ∀ v ∈ vs, P v.position := by
  intro v hv
  obtain ⟨t, ht, hvt⟩ := h.exists_token v hv
  rw [hvt.position_eq]
  exact hP t ht

/-- **The positions on a walk** never decrease. -/
theorem pairwise_position (h : GoesAlong ts vs)
    (hts : ts.Pairwise fun t u => t.position < u.position) :
    vs.Pairwise fun v w => v.position ≤ w.position := by
  induction h with
  | nil => exact .nil
  | pass t _ ih => exact ih (List.pairwise_cons.mp hts).2
  | inner hv _ h ih =>
    have hbehind := (List.pairwise_cons.mp hts).1
    refine List.pairwise_cons.mpr ⟨?_, ih hts⟩
    rw [hv.position_eq]
    exact h.forall_position (List.forall_mem_cons.mpr ⟨le_refl _, fun u hu => (hbehind u hu).le⟩)
  | leaf hv h ih =>
    obtain ⟨hbehind, hts⟩ := List.pairwise_cons.mp hts
    refine List.pairwise_cons.mpr ⟨?_, ih hts⟩
    rw [hv.position_eq]
    exact h.forall_position fun u hu => (hbehind u hu).le

/-- **The positions of the leaves** increase. -/
theorem pairwise_leaves (h : GoesAlong ts vs)
    (hts : ts.Pairwise fun t u => t.position < u.position) :
    (vs.filter Tree.Visit.isLeaf).Pairwise fun v w => v.position < w.position := by
  induction h with
  | nil => exact .nil
  | pass t _ ih => exact ih (List.pairwise_cons.mp hts).2
  | inner _ hl _ ih =>
    rw [List.filter_cons_of_neg (Bool.eq_false_iff.mp hl)]
    exact ih hts
  | @leaf t ts v vs hv h ih =>
    obtain ⟨hbehind, hts⟩ := List.pairwise_cons.mp hts
    rw [List.filter_cons]
    split
    · refine List.pairwise_cons.mpr ⟨fun w hw => ?_, ih hts⟩
      rw [hv.position_eq]
      exact h.forall_position hbehind w (List.mem_filter.mp hw).1
    · exact ih hts

/-- A node that begins where its first child does. -/
theorem spanning {depth : Nat} {trees : List Tree} (kind : NodeKind) (value : Option Char)
    (h : GoesAlong ts (Tree.preorderAll (depth + 1) trees))
    (hstart : ts.head?.map Token.position = some (Tree.startOf trees))
    (hv : ∀ t : Token, (Tree.Visit.mk depth kind value t.position).Names t)
    (hl : (Tree.Visit.mk depth kind value 0).isLeaf = false) :
    GoesAlong ts ((Tree.spanning kind value trees).preorder depth) := by
  cases ts with
  | nil => cases hstart
  | cons t ts =>
    have hstart : t.position = Tree.startOf trees := Option.some.inj hstart
    rw [Tree.spanning, Tree.preorder, ← hstart]
    exact .inner ⟨rfl, hv t⟩ hl h

end GoesAlong

/-! ## Walks through the trees of derivations -/

theorem Tree.preorderAll_append (depth : Nat) : ∀ ts us : List Tree,
    preorderAll depth (ts ++ us) = preorderAll depth ts ++ preorderAll depth us
  | [], _ => rfl
  | t :: ts, us => by
    rw [List.cons_append, preorderAll, preorderAll, preorderAll_append depth ts us,
      List.append_assoc]

theorem Tree.preorderAll_singleton (depth : Nat) (t : Tree) :
    preorderAll depth [t] = t.preorder depth :=
  List.append_nil (t.preorder depth)

namespace Grammar

/-! ### Where the trees begin -/

theorem Operand.position_tree (o : Operand) :
    o.tokens.head?.map Token.position = some o.tree.position := by
  cases o <;> rfl

theorem Quantified.position_tree (q : Quantified) :
    q.tokens.head?.map Token.position = some q.tree.position := by
  obtain ⟨o, quantifier⟩ := q
  have ho := o.position_tree
  rw [tokens, List.head?_append, Option.map_or, ho]
  rfl

theorem Sequence.startOf_trees (s : Sequence) :
    s.tokens.head?.map Token.position = some (Tree.startOf s.trees) := by
  cases s with
  | last q => exact q.position_tree
  | cons q rest =>
    rw [tokens, List.head?_append, Option.map_or, q.position_tree]
    rfl

/-! ### Walks -/

theorem goesAlong_literal (depth : Nat) (t : Token) :
    GoesAlong [t] ((Tree.literal t.value t.position).preorder depth) :=
  .leaf ⟨rfl, rfl⟩ .nil

theorem Member.goesAlong (depth : Nat) : ∀ m : Member, GoesAlong m.tokens (m.tree.preorder depth)
  | .single t => goesAlong_literal depth t
  | .range lo dash hi _ _ => by
    have hbounds : GoesAlong [lo, dash, hi] (Tree.preorderAll (depth + 1)
        [Tree.literal lo.value lo.position, Tree.literal hi.value hi.position]) :=
      .leaf ⟨rfl, rfl⟩ (.pass dash (.leaf ⟨rfl, rfl⟩ .nil))
    exact hbounds.spanning .range none rfl (fun _ => trivial) rfl

theorem goesAlong_members (depth : Nat) : ∀ ms : List Member,
    GoesAlong (memberTokens ms) (Tree.preorderAll depth (ms.map Member.tree))
  | [] => .nil
  | m :: ms => (m.goesAlong depth).append (goesAlong_members depth ms)

theorem Bracketed.goesAlong (depth : Nat) (c : Bracketed) :
    GoesAlong c.tokens (c.tree.preorder depth) := by
  have hmembers := (goesAlong_members (depth + 1) c.members).append_tokens [c.closing]
  have hinside := (GoesAlong.no_nodes c.caret.toList).append hmembers
  rw [← List.append_assoc] at hinside
  exact .inner ⟨rfl, c.opening.2⟩ rfl (.pass c.opening.1 hinside)

/-- What an operand reads is a child of a node that begins where it does. -/
theorem goesAlong_selector {ts : List Token} {depth : Nat} {choice : Tree}
    (h : GoesAlong ts (choice.preorder (depth + 1)))
    (hstart : ts.head?.map Token.position = some choice.position) :
    GoesAlong ts ((Tree.selector choice).preorder depth) := by
  rw [← Tree.preorderAll_singleton] at h
  exact h.spanning .selector none hstart (fun _ => trivial) rfl

mutual

theorem Operand.goesAlong (depth : Nat) :
    ∀ o : Operand, GoesAlong o.tokens (o.tree.preorder depth)
  | .literal t _ => goesAlong_selector (goesAlong_literal _ t.1) rfl
  | .dot t ht => goesAlong_selector (.leaf ⟨rfl, Token.isBare_iff.mpr ⟨t.2, ht⟩⟩ .nil) rfl
  | .escape t => goesAlong_selector (goesAlong_literal _ t.1) rfl
  | .charClass c => goesAlong_selector (c.goesAlong _) rfl
  | .group opening body closing => by
    have hbody := (Regexp.goesAlong (depth + 1) body).append_tokens [closing.1]
    rw [← Tree.preorderAll_singleton] at hbody
    exact .inner ⟨rfl, opening.2⟩ rfl (.pass opening.1 hbody)

theorem Quantified.goesAlong (depth : Nat) :
    ∀ q : Quantified, GoesAlong q.tokens (q.tree.preorder depth)
  | .mk operand quantifier => by
    have hstart := (Quantified.mk operand quantifier).position_tree
    have hoperand := (Operand.goesAlong (depth + 2) operand).append_tokens
      (quantifier.map Subtype.val).toList
    rw [← Tree.preorderAll_singleton] at hoperand
    have hexpression := hoperand.spanning .expression none hstart (fun _ => trivial) rfl
    rw [← Tree.preorderAll_singleton] at hexpression
    exact hexpression.spanning .quantified _ hstart (fun _ => trivial) rfl

theorem Sequence.goesAlong (depth : Nat) :
    ∀ s : Sequence, GoesAlong s.tokens (Tree.preorderAll depth s.trees)
  | .last q => by
    rw [Sequence.tokens, Sequence.trees, Tree.preorderAll_singleton]
    exact Quantified.goesAlong depth q
  | .cons q rest => (Quantified.goesAlong depth q).append (Sequence.goesAlong depth rest)

theorem Alternatives.goesAlong (depth : Nat) :
    ∀ a : Alternatives, GoesAlong a.tokens (Tree.preorderAll depth a.trees)
  | .nil => .nil
  | .cons bar s rest => by
    have hbranch := (Sequence.goesAlong (depth + 2) s).spanning .regexp none s.startOf_trees
      (fun _ => trivial) rfl
    rw [← Tree.preorderAll_singleton] at hbranch
    have hrest := hbranch.append (Alternatives.goesAlong depth rest)
    exact .inner ⟨rfl, bar.2⟩ rfl (.pass bar.1 hrest)

/-- **The walk through the tree of a derivation** goes along its tokens. -/
theorem Regexp.goesAlong (depth : Nat) :
    ∀ r : Regexp, GoesAlong r.tokens (r.tree.preorder depth)
  | .mk first rest => by
    have htrees := (Sequence.goesAlong (depth + 1) first).append
      (Alternatives.goesAlong (depth + 1) rest)
    rw [← Tree.preorderAll_append] at htrees
    refine htrees.spanning .regexp none ?_ (fun _ => trivial) rfl
    rw [List.head?_append, Option.map_or, first.startOf_trees]
    cases first <;> rfl

end

end Grammar

/-! ## Patterns -/

namespace Tree

variable {limit : Nat} {p : List Char} {t : Tree}

/-- **Where the nodes of a pattern's tree stand**: on a walk in preorder the positions never
decrease, those of the leaves increase, and the pattern holds at each position what the node there
stands for. -/
theorem pointsInto_of_parse (h : parse limit p = .ok t) :
    (t.preorder 0).Pairwise (fun v w => v.position ≤ w.position) ∧
    ((t.preorder 0).filter Visit.isLeaf).Pairwise (fun v w => v.position < w.position) ∧
    ∀ v ∈ t.preorder 0, v.PointsInto p := by
  obtain ⟨r, hp, -, rfl⟩ := Grammar.exists_regexp_of_parse h
  have hts := Tokens.pairwise_position p
  have hstands : ∀ u ∈ (Tokens.ofPattern p).list, u.StandsIn p := fun u =>
    Tokens.standsIn_of_mem
  rw [hp] at hts hstands
  have hwalk := r.goesAlong 1
  have hroot : (Tree.root r.tree).preorder 0 = ⟨0, .root, none, 0⟩ :: r.tree.preorder 1 :=
    congrArg (List.cons _) (preorderAll_singleton 1 r.tree)
  rw [hroot]
  refine ⟨?_, hwalk.pairwise_leaves hts, List.forall_mem_cons.mpr ⟨trivial, fun v hv => ?_⟩⟩
  · exact List.pairwise_cons.mpr ⟨fun v _ => Nat.zero_le v.position, hwalk.pairwise_position hts⟩
  · obtain ⟨u, hu, hvu⟩ := hwalk.exists_token v hv
    exact hvu.pointsInto (hstands u hu)

/-- An escape, the bounds of a range in a negated class, and the dot. -/
theorem pointsInto_of_parse_group :
    ∃ t, parse 250 " (\\t|[^.-b]).".toList = .ok t ∧
      ((t.preorder 0).filter Visit.isLeaf).map Visit.position = [2, 7, 9, 12] ∧
      (t.preorder 0).Pairwise (fun v w => v.position ≤ w.position) ∧
      ((t.preorder 0).filter Visit.isLeaf).Pairwise (fun v w => v.position < w.position) ∧
      ∀ v ∈ t.preorder 0, v.PointsInto " (\\t|[^.-b]).".toList := by
  have hleaves : (parse 250 " (\\t|[^.-b]).".toList).toOption.map
      (fun t => ((t.preorder 0).filter Visit.isLeaf).map Visit.position) = some [2, 7, 9, 12] := by
    decide +kernel
  cases h : parse 250 " (\\t|[^.-b]).".toList with
  | error e =>
    rw [h] at hleaves
    cases hleaves
  | ok t =>
    rw [h] at hleaves
    exact ⟨t, rfl, Option.some.inj hleaves, pointsInto_of_parse h⟩

end Tree

end PatternAutomata
