import Mathlib.Data.Char
import PatternAutomata.Proofs.ParsingStep

/-!
# The shape of a pattern's tree

About the nodes that `Parser` (in `parser`) builds; `build_nfa` (in `nfa`) relies on their shape.

`Tree.Fits` says what the children of a node of each kind are, and which character it has; in a
`WellShaped` tree that holds of every node. A parsing builds its trees from the leaves up, so the
invariant is that every tree it keeps is well shaped and of the kind that its place asks for.

Results:
* `Reader.reads_of_read`: how a token is read;
* `Parsing.shaped_of_takes`: taking a token keeps the invariant;
* **`Tree.wellShaped_of_parse`**: the tree of a pattern is a well shaped `root`.
-/

namespace PatternAutomata

namespace Tree

/-- What a node of the given kind may hold. -/
def Fits (value : Option Char) (ts : List Tree) : NodeKind → Prop
  | .root => value = none ∧ ∃ t, ts = [t] ∧ t.kind = .regexp
  | .regexp => value = none ∧ ∃ first later, ts = first ++ later ∧ first ≠ [] ∧
      (∀ t ∈ first, t.kind = .quantified) ∧ ∀ t ∈ later, t.kind = .alternation
  | .alternation => value = none ∧
      ∃ t, ts = [t] ∧ t.kind = .regexp ∧ ∀ u ∈ t.children, u.kind = .quantified
  | .quantified => (∀ q, value = some q → q = '*' ∨ q = '+' ∨ q = '?') ∧
      ∃ t, ts = [t] ∧ t.kind = .expression
  | .expression => value = none ∧ ∃ t, ts = [t] ∧ (t.kind = .selector ∨ t.kind = .group)
  | .group => value = none ∧ ∃ t, ts = [t] ∧ t.kind = .regexp
  | .selector => value = none ∧
      ∃ t, ts = [t] ∧ (t.kind = .literal ∨ t.kind = .any ∨ t.kind = .charClass)
  | .literal => value ≠ none ∧ ts = []
  | .any => value = none ∧ ts = []
  | .charClass => (value = none ∨ value = some '^') ∧ ts ≠ [] ∧
      ∀ t ∈ ts, t.kind = .literal ∨ t.kind = .range
  | .range => value = none ∧ ∃ lo hi a b, ts = [lo, hi] ∧ lo.kind = .literal ∧ hi.kind = .literal ∧
      lo.value = some a ∧ hi.value = some b ∧ a ≤ b

/-- Every node fits. -/
inductive WellShaped : Tree → Prop
  | node {kind : NodeKind} {value : Option Char} {position : Nat} {ts : List Tree} :
    Fits value ts kind → (∀ t ∈ ts, WellShaped t) → WellShaped (.node kind value position ts)

/-- Well shaped, and of the given kind. -/
def Is (kind : NodeKind) (t : Tree) : Prop := t.WellShaped ∧ t.kind = kind

/-- An operand that can be quantified. -/
def IsOperand (t : Tree) : Prop := t.Is .selector ∨ t.Is .group

theorem wellShaped_singleton {kind : NodeKind} {value : Option Char} {position : Nat} {t : Tree}
    (h : Fits value [t] kind) (ht : t.WellShaped) : (node kind value position [t]).WellShaped :=
  .node h fun _ hu => List.mem_singleton.mp hu ▸ ht

theorem is_literal (c : Char) (position : Nat) : (literal c position).Is .literal :=
  ⟨.node ⟨Option.some_ne_none c, rfl⟩ fun _ h => absurd h List.not_mem_nil, rfl⟩

theorem is_any (position : Nat) : (any position).Is .any :=
  ⟨.node ⟨rfl, rfl⟩ fun _ h => absurd h List.not_mem_nil, rfl⟩

theorem is_range {a b : Char} (hab : a ≤ b) (p q : Nat) :
    (range (literal a p) (literal b q)).Is .range := by
  refine ⟨.node ⟨rfl, _, _, a, b, rfl, rfl, rfl, rfl, rfl, hab⟩ fun t ht => ?_, rfl⟩
  rcases List.mem_cons.mp ht with rfl | ht
  · exact (is_literal a p).1
  · rw [List.mem_singleton.mp ht]
    exact (is_literal b q).1

theorem isOperand_selector {t : Tree}
    (h : t.Is .literal ∨ t.Is .any ∨ t.Is .charClass) : (selector t).IsOperand := by
  refine Or.inl ⟨wellShaped_singleton ⟨rfl, t, rfl, ?_⟩ ?_, rfl⟩
  · exact h.imp And.right (Or.imp And.right And.right)
  · exact h.elim And.left (Or.rec And.left And.left)

theorem isOperand_group {t : Tree} (h : t.Is .regexp) (position : Nat) :
    (group position t).IsOperand :=
  Or.inr ⟨wellShaped_singleton ⟨rfl, t, rfl, h.2⟩ h.1, rfl⟩

theorem is_quantified {t : Tree} {quantifier : Option Char} (h : t.IsOperand)
    (hq : ∀ q, quantifier = some q → q = '*' ∨ q = '+' ∨ q = '?') :
    (quantified quantifier t).Is .quantified := by
  have hk : t.kind = .selector ∨ t.kind = .group := h.imp And.right And.right
  have he : (spanning .expression none [t]).WellShaped :=
    wellShaped_singleton ⟨rfl, t, rfl, hk⟩ (h.elim And.left And.left)
  exact ⟨wellShaped_singleton ⟨hq, _, rfl, rfl⟩ he, rfl⟩

theorem is_regexp {first later : List Tree} (hne : first ≠ [])
    (hf : ∀ t ∈ first, t.Is .quantified) (hl : ∀ t ∈ later, t.Is .alternation) :
    (spanning .regexp none (first ++ later)).Is .regexp := by
  refine ⟨.node ⟨rfl, first, later, rfl, hne, fun t ht => (hf t ht).2, fun t ht => (hl t ht).2⟩
    fun t ht => ?_, rfl⟩
  exact (List.mem_append.mp ht).elim (fun h => (hf t h).1) fun h => (hl t h).1

theorem is_charClass {ts : List Tree} (hne : ts ≠ [])
    (h : ∀ t ∈ ts, t.Is .literal ∨ t.Is .range) (negated : Bool) (position : Nat) :
    (charClass negated position ts).Is .charClass := by
  refine ⟨.node ⟨?_, hne, fun t ht => (h t ht).imp And.right And.right⟩
    fun t ht => (h t ht).elim And.left And.left, rfl⟩
  cases negated
  · exact Or.inl rfl
  · exact Or.inr rfl

end Tree

/-! ## Tokens -/

/-- A quantifier is one of the three characters. -/
def Token.Genuine (t : Token) : Prop :=
  t.kind = .quantifier → t.value = '*' ∨ t.value = '+' ∨ t.value = '?'

theorem Token.genuine_of_kindOf? {c : Char} {kind : TokenKind} (h : kindOf? c = some kind)
    (position : Nat) : Genuine ⟨kind, c, position⟩ := by
  rintro rfl
  unfold kindOf? at h
  iterate 3
    split at h
    · cases h
  split at h
  · rename_i hc
    simpa [or_assoc] using hc
  split at h
  · cases h
  split at h <;> cases h

theorem Reader.tokens_of_error {r s : Reader} {e : LexicalError} (h : r.next = (.error e, s)) :
    r.tokens = ⟨[], some e⟩ := by
  rw [tokens]
  split
  · rename_i h'
    rw [h] at h'
    cases h'
    rfl
  · rename_i h'
    rw [h] at h'
    cases h'

theorem Reader.tokens_of_ok {r s : Reader} {t : Token} (h : r.next = (.ok t, s)) :
    r.tokens = if t.kind = .patternEnd then ⟨[], none⟩ else .cons t s.tokens := by
  rw [tokens]
  split
  · rename_i h'
    rw [h] at h'
    cases h'
  · rename_i h'
    rw [h] at h'
    cases h'
    split <;> rfl

/-- How a token is read: blanks are passed over, and then comes the end, an escape or a character
that is a token by itself. -/
inductive Reader.Reads : Nat → List Char → Token → Reader → Prop
  | patternEnd (start : Nat) : Reads start [] (.patternEnd start) ⟨[], start⟩
  | blank {start : Nat} {c : Char} {u : List Char} {t : Token} {r : Reader} :
    Token.isBlank c = true → Reads (start + 1) u t r → Reads start (c :: u) t r
  | escape {c value : Char} (start : Nat) (u : List Char) : Token.escaped? c = some value →
    Reads start ('\\' :: c :: u) ⟨.escape, value, start⟩ ⟨u, start + 2⟩
  | character {c : Char} {kind : TokenKind} (start : Nat) (u : List Char) :
    Token.isBlank c = false → c ≠ '\\' → Token.kindOf? c = some kind →
    Reads start (c :: u) ⟨kind, c, start⟩ ⟨u, start + 1⟩

/-- How no token is read: blanks are passed over, and then comes a character that begins none, one
that cannot be escaped behind a backslash, or a backslash with nothing behind it. -/
inductive Reader.Fails : Nat → List Char → LexicalError → Reader → Prop
  | blank {start : Nat} {c : Char} {u : List Char} {e : LexicalError} {r : Reader} :
    Token.isBlank c = true → Fails (start + 1) u e r → Fails start (c :: u) e r
  | invalidCharacter {c : Char} (start : Nat) (u : List Char) : Token.isBlank c = false →
    c ≠ '\\' → Token.kindOf? c = none →
    Fails start (c :: u) (.invalidCharacter start c) ⟨u, start + 1⟩
  | invalidEscape {c : Char} (start : Nat) (u : List Char) : Token.escaped? c = none →
    Fails start ('\\' :: c :: u) (.invalidEscape (start + 1) c) ⟨u, start + 2⟩
  | unterminatedEscape (start : Nat) :
    Fails start ['\\'] (.unterminatedEscape start) ⟨[], start + 1⟩

/-- A token is read, or none can be. -/
theorem Reader.reads_or_fails (start : Nat) (u : List Char) :
    match read start u with
    | (.ok t, r) => Reads start u t r
    | (.error e, r) => Fails start u e r := by
  induction u generalizing start with
  | nil => exact .patternEnd start
  | cons c u ih =>
    rw [read]
    split_ifs with hb hc
    · have hrest := ih (start + 1)
      rcases h : read (start + 1) u with ⟨e | t, r⟩ <;> rw [h] at hrest
      · exact .blank hb hrest
      · exact .blank hb hrest
    · subst hc
      cases u with
      | nil => exact .unterminatedEscape start
      | cons d u =>
        simp only [readEscape]
        cases hd : Token.escaped? d with
        | some value => exact .escape start u hd
        | none => exact .invalidEscape start u hd
    · have hb : Token.isBlank c = false := Bool.eq_false_iff.mpr hb
      cases hk : Token.kindOf? c with
      | some kind => exact .character start u hb hc hk
      | none => exact .invalidCharacter start u hb hc hk

theorem Reader.reads_of_read {start : Nat} {u : List Char} {t : Token} {r : Reader}
    (h : read start u = (.ok t, r)) : Reads start u t r := by
  have hread := reads_or_fails start u
  rwa [h] at hread

theorem Reader.fails_of_read {start : Nat} {u : List Char} {e : LexicalError} {r : Reader}
    (h : read start u = (.error e, r)) : Fails start u e r := by
  have hread := reads_or_fails start u
  rwa [h] at hread

theorem Reader.Reads.read_eq {start : Nat} {u : List Char} {t : Token} {r : Reader}
    (h : Reads start u t r) : read start u = (.ok t, r) := by
  induction h with
  | patternEnd start => rfl
  | blank hb _ ih => rw [read, if_pos hb, ih]
  | escape start u hv =>
    rw [read, if_neg (by decide), if_pos rfl]
    simp only [readEscape, hv]
  | character start u hb hc hk =>
    simp only [read, hb, Bool.false_eq_true, if_false, if_neg hc, hk]

theorem Reader.Fails.read_eq {start : Nat} {u : List Char} {e : LexicalError} {r : Reader}
    (h : Fails start u e r) : read start u = (.error e, r) := by
  induction h with
  | blank hb _ ih => rw [read, if_pos hb, ih]
  | invalidCharacter start u hb hc hk =>
    simp only [read, hb, Bool.false_eq_true, if_false, if_neg hc, hk]
  | invalidEscape start u hc =>
    rw [read, if_neg (by decide), if_pos rfl]
    simp only [readEscape, hc]
  | unterminatedEscape start => rfl

/-- What holds of all characters that are tokens and of all escapes holds of a token that is read.
-/
theorem Reader.forall_of_read {P : Token → Prop}
    (hkind : ∀ {c kind} position, Token.kindOf? c = some kind → P ⟨kind, c, position⟩)
    (hescape : ∀ {c value} position, Token.escaped? c = some value → P ⟨.escape, value, position⟩)
    {start : Nat} {rest : List Char} {t : Token} {r : Reader} (h : read start rest = (.ok t, r))
    (ht : t.kind ≠ .patternEnd) : P t := by
  have hreads := reads_of_read h
  clear h
  induction hreads with
  | patternEnd start => exact absurd rfl ht
  | blank _ _ ih => exact ih ht
  | escape start u hv => exact hescape start hv
  | character start u _ _ hk => exact hkind start hk

/-- What holds of all characters that are tokens and of all escapes holds of the tokens of a
pattern. -/
theorem Reader.forall_mem_tokens {P : Token → Prop}
    (hkind : ∀ {c kind} position, Token.kindOf? c = some kind → P ⟨kind, c, position⟩)
    (hescape : ∀ {c value} position, Token.escaped? c = some value → P ⟨.escape, value, position⟩)
    (r : Reader) : ∀ t ∈ r.tokens.list, P t := by
  induction r using Reader.tokens.induct with
  | case1 r e s h =>
    rw [tokens_of_error h]
    exact fun t ht => absurd ht List.not_mem_nil
  | case2 r t s h ht =>
    rw [tokens_of_ok h, if_pos ht]
    exact fun t ht => absurd ht List.not_mem_nil
  | case3 r t s h ht hlt ih =>
    rw [tokens_of_ok h, if_neg ht]
    exact List.forall_mem_cons.mpr ⟨forall_of_read hkind hescape h ht, ih⟩

theorem Reader.genuine_of_mem_tokens (r : Reader) : ∀ t ∈ r.tokens.list, t.Genuine :=
  r.forall_mem_tokens (fun position h => Token.genuine_of_kindOf? h position)
    fun _ _ => TokenKind.noConfusion

/-! ## Classes -/

theorem classMembers_is {tokens : List Token} : ∀ {ts : List Tree}, classMembers tokens = .ok ts →
    (∀ t ∈ ts, t.Is .literal ∨ t.Is .range) ∧ (tokens ≠ [] → ts ≠ []) := by
  fun_induction classMembers tokens with
  | case1 lo dash hi rest hd hlt =>
    intro ts h
    cases h
  | case2 lo dash hi rest hd hlt ih =>
    intro ts h
    obtain ⟨members, hm, h⟩ := bind_eq_ok_iff.mp h
    cases h
    exact ⟨List.forall_mem_cons.mpr ⟨Or.inr (Tree.is_range (not_lt.mp hlt) _ _), (ih hm).1⟩,
      fun _ => List.cons_ne_nil _ _⟩
  | case3 lo dash hi rest hd ih =>
    intro ts h
    obtain ⟨members, hm, h⟩ := bind_eq_ok_iff.mp h
    cases h
    exact ⟨List.forall_mem_cons.mpr ⟨Or.inl (Tree.is_literal _ _), (ih hm).1⟩,
      fun _ => List.cons_ne_nil _ _⟩
  | case4 tokens hlen =>
    intro ts h
    cases h
    refine ⟨fun t ht => ?_, fun hne he => hne (List.map_eq_nil_iff.mp he)⟩
    obtain ⟨u, -, rfl⟩ := List.mem_map.mp ht
    exact Or.inl (Tree.is_literal _ _)

theorem classTree_isOperand {position : Nat} {negated : Bool} {members : List Token}
    {operand : Tree}
    (h : classTree position negated members = .ok operand) : operand.IsOperand := by
  unfold classTree at h
  split at h
  · cases h
  · rename_i hne
    obtain ⟨ts, hm, h⟩ := bind_eq_ok_iff.mp h
    cases h
    have hrev : members.reverse ≠ [] := fun e => hne (by rw [List.reverse_eq_nil_iff.mp e]; rfl)
    obtain ⟨hall, hts⟩ := classMembers_is hm
    exact Tree.isOperand_selector (Or.inr (Or.inr (Tree.is_charClass (hts hrev) hall _ _)))

/-! ## Parsings -/

/-- Only quantified operands. -/
def Branch.Shaped (b : Branch) : Prop := ∀ t ∈ b.items, t.Is .quantified

/-- Only quantified operands, and every branch but the current one has some. -/
structure Level.Shaped (l : Level) : Prop where
  complete : ∀ b ∈ l.complete, b.Shaped ∧ b.items ≠ []
  current : l.current.Shaped

/-- The trees kept so far are those of finished parts: every level has quantified operands, a level
around another waits for an operand, and after an operand there is one. -/
structure Parsing.Shaped (s : Parsing) : Prop where
  outer : ∀ l ∈ s.outer, l.Shaped
  level : s.level.Shaped
  operand : ∀ t, s.phase = .quantifiable t → t.IsOperand
  items : s.phase = .quantified → s.level.current.items ≠ []

/-- A complete branch is a regular expression without alternations. -/
theorem Branch.tree_is {b : Branch} (h : b.Shaped) (hne : b.items ≠ []) :
    b.tree.Is .regexp ∧ ∀ t ∈ b.tree.children, t.kind = .quantified := by
  have hr : (Tree.spanning .regexp none (b.items.reverse ++ [])).Is .regexp :=
    Tree.is_regexp (fun e => hne (List.reverse_eq_nil_iff.mp e))
      (fun t ht => h t (List.mem_reverse.mp ht)) fun t ht => absurd ht List.not_mem_nil
  rw [List.append_nil] at hr
  exact ⟨hr, fun t ht => (h t (List.mem_reverse.mp ht)).2⟩

theorem Branch.alternation_is {b : Branch} (h : b.Shaped) (hne : b.items ≠ []) :
    (Tree.alternation b.bar b.tree).Is .alternation := by
  obtain ⟨hr, hc⟩ := b.tree_is h hne
  exact ⟨Tree.wellShaped_singleton ⟨rfl, _, rfl, hr.2, hc⟩ hr.1, rfl⟩

/-- The first branch is the last of the list; the others become alternations. -/
theorem Level.treeOf_is {bs : List Branch} (hne : bs ≠ [])
    (hb : ∀ b ∈ bs, b.Shaped ∧ b.items ≠ []) :
    ∀ {later : List Tree}, (∀ t ∈ later, t.Is .alternation) → (treeOf bs later).Is .regexp := by
  induction bs with
  | nil => exact absurd rfl hne
  | cons b rest ih =>
    intro later hl
    obtain ⟨hs, hi⟩ := hb b List.mem_cons_self
    cases rest with
    | nil =>
      exact Tree.is_regexp (fun e => hi (List.reverse_eq_nil_iff.mp e))
        (fun t ht => hs t (List.mem_reverse.mp ht)) hl
    | cons c rest =>
      exact ih (List.cons_ne_nil c rest) (fun d hd => hb d (List.mem_cons_of_mem b hd))
        (List.forall_mem_cons.mpr ⟨b.alternation_is hs hi, hl⟩)

theorem Level.Shaped.tree_is {l : Level} (h : l.Shaped) (hne : l.current.items ≠ []) :
    l.tree.Is .regexp :=
  Level.treeOf_is (List.cons_ne_nil _ _) (List.forall_mem_cons.mpr ⟨⟨h.current, hne⟩, h.complete⟩)
    fun _ ht => absurd ht List.not_mem_nil

theorem Level.shaped_opened (position : Nat) : (opened position).Shaped :=
  ⟨fun _ h => absurd h List.not_mem_nil, fun _ h => absurd h List.not_mem_nil⟩

theorem Level.Shaped.split {l : Level} (h : l.Shaped) (hne : l.current.items ≠ [])
    (position : Nat) : (l.split position).Shaped :=
  ⟨List.forall_mem_cons.mpr ⟨⟨h.current, hne⟩, h.complete⟩, fun _ ht => absurd ht List.not_mem_nil⟩

theorem Level.Shaped.push {l : Level} (h : l.Shaped) {item : Tree} (hi : item.Is .quantified) :
    (l.push item).Shaped :=
  ⟨h.complete, List.forall_mem_cons.mpr ⟨hi, h.current⟩⟩

namespace Parsing

variable {limit : Nat} {s s' : Parsing} {t : Token}

theorem shaped_start : start.Shaped :=
  ⟨fun _ h => absurd h List.not_mem_nil, Level.shaped_opened 0, fun _ h => Phase.noConfusion h,
    fun h => Phase.noConfusion h⟩

/-- Another phase that promises nothing. -/
theorem Shaped.withPhase (h : s.Shaped) {phase : Phase} (ho : ∀ t, phase ≠ .quantifiable t)
    (hq : phase ≠ .quantified) : Shaped { s with phase := phase } :=
  ⟨h.outer, h.level, fun t ht => absurd ht (ho t), fun ht => absurd ht hq⟩

theorem Shaped.withOperand (h : s.Shaped) {operand : Tree} (ho : operand.IsOperand) :
    Shaped { s with phase := .quantifiable operand } :=
  ⟨h.outer, h.level, fun _ ht => Phase.quantifiable.inj ht ▸ ho, fun ht => Phase.noConfusion ht⟩

theorem Shaped.pushed (h : s.Shaped) {operand : Tree} (ho : operand.IsOperand)
    {quantifier : Option Char} (hq : ∀ q, quantifier = some q → q = '*' ∨ q = '+' ∨ q = '?') :
    (s.pushed quantifier operand).Shaped :=
  ⟨h.outer, h.level.push (Tree.is_quantified ho hq), fun _ ht => Phase.noConfusion ht,
    fun _ => List.cons_ne_nil _ _⟩

/-- **Step**: taking a token keeps the shape. -/
theorem shaped_of_takes (ht : t.Genuine) (h : Takes limit t s s') (hs : s.Shaped) : s'.Shaped := by
  induction h with
  | character hr hk =>
    refine hs.withOperand (Tree.isOperand_selector ?_)
    split
    · exact Or.inr (Or.inl (Tree.is_any _))
    · exact Or.inl (Tree.is_literal _ _)
  | escape hr hk => exact hs.withOperand (Tree.isOperand_selector (Or.inl (Tree.is_literal _ _)))
  | openClass hr hk => exact hs.withPhase (fun _ => Phase.noConfusion) Phase.noConfusion
  | openGroup hr hk hd =>
    exact ⟨List.forall_mem_cons.mpr ⟨hs.level, hs.outer⟩, Level.shaped_opened _,
      fun _ h => Phase.noConfusion h, fun h => Phase.noConfusion h⟩
  | bar hp hk =>
    exact ⟨hs.outer, hs.level.split (hs.items hp) _, fun _ h => Phase.noConfusion h,
      fun h => Phase.noConfusion h⟩
  | closeGroup hp hk ho =>
    obtain ⟨hl, hrest⟩ := List.forall_mem_cons.mp (ho ▸ hs.outer)
    refine ⟨hrest, hl, fun t h => ?_, fun h => Phase.noConfusion h⟩
    cases h
    exact Tree.isOperand_group (hs.level.tree_is (hs.items hp)) _
  | quantify hp hk =>
    exact hs.pushed (hs.operand _ hp) fun q hq => Option.some.inj hq ▸ ht hk
  | pass hp hk _ ih =>
    exact ih (hs.pushed (hs.operand _ hp) fun _ hq => absurd hq (Option.some_ne_none _).symm)
  | negate hp hb => exact hs.withPhase (fun _ => Phase.noConfusion) Phase.noConfusion
  | firstMember hp hk hb hn => exact hs.withPhase (fun _ => Phase.noConfusion) Phase.noConfusion
  | member hp hb => exact hs.withPhase (fun _ => Phase.noConfusion) Phase.noConfusion
  | closeClass hp hb => exact hs.withPhase (fun _ => Phase.noConfusion) Phase.noConfusion
  | settle hp hc _ ih => exact ih (hs.withOperand (classTree_isOperand hc))

theorem close_is {tree : Tree} (hs : s.Shaped) (hne : s.level.current.items ≠ [])
    (h : s.close = .ok tree) : tree.Is .root := by
  unfold close at h
  split at h
  · cases h
    have hr := hs.level.tree_is hne
    exact ⟨Tree.wellShaped_singleton ⟨rfl, _, rfl, hr.2⟩ hr.1, rfl⟩
  · cases h

theorem finish_is {tree : Tree} (hs : s.Shaped) (h : s.finish = .ok tree) : tree.Is .root := by
  have pushed : ∀ operand : Tree, operand.IsOperand →
      Parsing.close { s with level := s.level.push (.quantified none operand) } = .ok tree →
      tree.Is .root := fun operand ho h =>
    close_is (hs.pushed ho fun _ hq => absurd hq (Option.some_ne_none _).symm)
      (List.cons_ne_nil _ _) h
  unfold finish at h
  split at h
  · split at h
    · cases h
    · split at h <;> cases h
  · rename_i operand hp
    exact pushed operand (hs.operand operand hp) h
  · rename_i hp
    exact close_is hs (hs.items hp) h
  · cases h
  · cases h
  · rename_i position negated members hp
    obtain ⟨operand, hc, h⟩ := bind_eq_ok_iff.mp h
    exact pushed operand (classTree_isOperand hc) h

end Parsing

/-- **The tree of a pattern is well shaped**, and its root is a `root` node. -/
theorem Tree.wellShaped_of_parse {limit : Nat} {pattern : List Char} {t : Tree}
    (h : Tree.parse limit pattern = .ok t) : t.Is .root := by
  obtain ⟨-, s, hrun, hf⟩ := Tokens.parse_eq_ok_iff.mp h
  exact Parsing.finish_is (Parsing.run_induction Token.Genuine Parsing.shaped_of_takes
    (Reader.genuine_of_mem_tokens _) Parsing.shaped_start hrun) hf

end PatternAutomata
