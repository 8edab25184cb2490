import PatternAutomata.Proofs.Meaning

/-!
# Patterns inside other patterns

About `next_token` (in `lexer`) on a part of a pattern, and about the derivations of that part.

The tokens of a text do not depend on what stands around it, apart from their positions, as long as
the text can be read to its end. The same goes for derivations: wherever its tokens stand, a
derivation has the same depth and the same expression.

Results:
* `Reader.tokens_move`: a text that stands further on is read in the same way further on;
* `Reader.tokens_append`, `Reader.tokens_followed`: the tokens of two texts one after the other;
* **`Grammar.Regexp.tokens_move`**, `Grammar.Regexp.expr_move`: a derivation with its tokens moved
  is one of the moved tokens and has the same expression.
-/

namespace PatternAutomata

/-- The token at another position. -/
def Token.move (f : Nat → Nat) (t : Token) : Token := ⟨t.kind, t.value, f t.position⟩

/-- The error at another position. -/
def LexicalError.move (f : Nat → Nat) : LexicalError → LexicalError
  | .invalidCharacter k c => .invalidCharacter (f k) c
  | .invalidEscape k c => .invalidEscape (f k) c
  | .unterminatedEscape k => .unterminatedEscape (f k)

theorem LexicalError.move_eq_self {f : Nat → Nat} {e : LexicalError}
    (h : f e.position = e.position) : e.move f = e := by
  cases e with
  | invalidCharacter k c => exact congrArg (invalidCharacter · c) h
  | invalidEscape k c => exact congrArg (invalidEscape · c) h
  | unterminatedEscape k => exact congrArg unterminatedEscape h

/-- The tokens, and the place where none can be read, at other positions. -/
def Tokens.move (f : Nat → Nat) (ts : Tokens) : Tokens :=
  ⟨ts.list.map (Token.move f), ts.failure.map (LexicalError.move f)⟩

/-- Some tokens before all others. -/
def Tokens.prepend (ts : List Token) (us : Tokens) : Tokens := ⟨ts ++ us.list, us.failure⟩

theorem Tokens.prepend_prepend (ts us : List Token) (vs : Tokens) :
    prepend ts (prepend us vs) = prepend (ts ++ us) vs :=
  congrArg (Tokens.mk · vs.failure) (List.append_assoc ts us vs.list).symm

theorem Tokens.move_prepend (f : Nat → Nat) (ts : List Token) (us : Tokens) :
    (prepend ts us).move f = prepend (ts.map (Token.move f)) (us.move f) := by
  simp only [prepend, move, List.map_append]

/-! ## Reading further on -/

theorem Token.kindOf?_ne_patternEnd (c : Char) : kindOf? c ≠ some .patternEnd := by
  unfold kindOf?
  intro h
  iterate 6
    split at h
    · cases h
  cases h

namespace Reader

variable {start : Nat} {u : List Char} {t : Token} {r s : Reader}

/-- A token further on is the same token further on. -/
theorem Reads.move {f : Nat → Nat} {k : Nat} (h : Reads start u t r)
    (hf : ∀ j, start ≤ j → f j = j + k) :
    Reads (start + k) u (t.move f) ⟨r.rest, r.position + k⟩ := by
  induction h with
  | patternEnd start =>
    rw [Token.move, Token.patternEnd, hf start (Nat.le_refl start)]
    exact .patternEnd (start + k)
  | @blank start _ _ _ _ hb _ ih =>
    rw [Nat.add_right_comm] at ih
    exact .blank hb (ih fun j hj => hf j (Nat.le_of_succ_le hj))
  | escape start u hv =>
    rw [Token.move, hf start (Nat.le_refl start), Nat.add_right_comm]
    exact .escape (start + k) u hv
  | character start u hb hc hk =>
    rw [Token.move, hf start (Nat.le_refl start), Nat.add_right_comm]
    exact .character (start + k) u hb hc hk

/-- Where no token can be read, none can be read further on. -/
theorem Fails.move {f : Nat → Nat} {k : Nat} {e : LexicalError} (h : Fails start u e r)
    (hf : ∀ j, start ≤ j → f j = j + k) :
    Fails (start + k) u (e.move f) ⟨r.rest, r.position + k⟩ := by
  induction h with
  | @blank start _ _ _ _ hb _ ih =>
    rw [Nat.add_right_comm] at ih
    exact .blank hb (ih fun j hj => hf j (Nat.le_of_succ_le hj))
  | invalidCharacter start u hb hc hk =>
    rw [LexicalError.move, hf start (Nat.le_refl start), Nat.add_right_comm]
    exact .invalidCharacter (start + k) u hb hc hk
  | invalidEscape start u hc =>
    rw [LexicalError.move, hf (start + 1) (Nat.le_succ start), Nat.add_right_comm start 1,
      Nat.add_right_comm start 2]
    exact .invalidEscape (start + k) u hc
  | unterminatedEscape start =>
    rw [LexicalError.move, hf start (Nat.le_refl start), Nat.add_right_comm]
    exact .unterminatedEscape (start + k)

/-- What stands after a token makes no difference to it. -/
theorem Reads.append (v : List Char) (h : Reads start u t r) (ht : t.kind ≠ .patternEnd) :
    Reads start (u ++ v) t ⟨r.rest ++ v, r.position⟩ := by
  induction h with
  | patternEnd start => exact absurd rfl ht
  | blank hb _ ih => exact .blank hb (ih ht)
  | escape start u hv => exact .escape start (u ++ v) hv
  | character start u hb hc hk => exact .character start (u ++ v) hb hc hk

/-- The position is the number of characters that are read. -/
theorem Reads.position_add_length (h : Reads start u t r) :
    r.position + r.rest.length = start + u.length := by
  induction h with
  | patternEnd start => rfl
  | blank _ _ ih => rw [ih, List.length_cons, Nat.add_assoc, Nat.add_comm 1]
  | escape start u _ => exact Nat.add_right_comm start 2 u.length
  | character start u _ _ _ => exact Nat.add_right_comm start 1 u.length

/-- Only blanks stand before the end, so reading goes on right after it. -/
theorem Reads.read_append (v : List Char) (h : Reads start u t r) (ht : t.kind = .patternEnd) :
    read start (u ++ v) = read (start + u.length) v := by
  induction h with
  | patternEnd start => rfl
  | blank hb _ ih =>
    rw [List.cons_append, read, if_pos hb, ih ht, List.length_cons, Nat.add_assoc, Nat.add_comm 1]
  | escape start u _ => cases ht
  | @character c kind start u _ _ hk =>
    have hkind : kind = .patternEnd := ht
    exact absurd (hkind ▸ hk) (Token.kindOf?_ne_patternEnd c)

/-! ## All tokens -/

theorem tokens_congr (h : r.next = s.next) : r.tokens = s.tokens := by
  cases hs : s.next with
  | mk x s' =>
    cases x with
    | error e => rw [tokens_of_error hs, tokens_of_error (h.trans hs)]
    | ok t => rw [tokens_of_ok hs, tokens_of_ok (h.trans hs)]

/-- A text that stands further on has the same tokens further on. -/
theorem tokens_move {f : Nat → Nat} {k : Nat} (r : Reader)
    (hf : ∀ j, r.position ≤ j → f j = j + k) :
    (Reader.mk r.rest (r.position + k)).tokens = r.tokens.move f := by
  induction r using Reader.tokens.induct with
  | case1 r e s hr =>
    have hr' : (Reader.mk r.rest (r.position + k)).next = _ := ((fails_of_read hr).move hf).read_eq
    rw [tokens_of_error hr, tokens_of_error hr']
    rfl
  | case2 r t s hr ht =>
    have hr' : (Reader.mk r.rest (r.position + k)).next = _ :=
      ((reads_of_read hr).move hf).read_eq
    rw [tokens_of_ok hr, tokens_of_ok hr', if_pos ht]
    exact if_pos ht
  | case3 r t s hr ht hlt ih =>
    have hreads : Reads r.position r.rest t s := reads_of_read hr
    have hr' : (Reader.mk r.rest (r.position + k)).next = _ := (hreads.move hf).read_eq
    have hle : r.position ≤ s.position := by
      have := hreads.position_add_length
      omega
    have ht' : (t.move f).kind ≠ .patternEnd := ht
    rw [tokens_of_ok hr, tokens_of_ok hr', if_neg ht, if_neg ht',
      ih fun j hj => hf j (Nat.le_trans hle hj)]
    rfl

/-- The tokens of a text that another follows. -/
theorem tokens_append (v : List Char) (r : Reader) (h : r.tokens.failure = none) :
    (Reader.mk (r.rest ++ v) r.position).tokens =
      .prepend r.tokens.list (Reader.mk v (r.position + r.rest.length)).tokens := by
  induction r using Reader.tokens.induct with
  | case1 r e s hr =>
    rw [tokens_of_error hr] at h
    cases h
  | case2 r t s hr ht =>
    rw [tokens_of_ok hr, if_pos ht]
    exact tokens_congr ((reads_of_read hr).read_append v ht)
  | case3 r t s hr ht hlt ih =>
    have hreads : Reads r.position r.rest t s := reads_of_read hr
    have hnext : (Reader.mk (r.rest ++ v) r.position).next = _ := (hreads.append v ht).read_eq
    rw [tokens_of_ok hr, if_neg ht] at h ⊢
    rw [tokens_of_ok hnext, if_neg ht, ih h, hreads.position_add_length]
    rfl

/-- A pattern that stands further on and that another text follows. -/
theorem tokens_followed {pattern : List Char} {ts : List Token}
    (h : Tokens.ofPattern pattern = ⟨ts, none⟩) (position : Nat) (v : List Char) :
    (Reader.mk (pattern ++ v) position).tokens =
      .prepend (ts.map (Token.move (· + position)))
        (Reader.mk v (position + pattern.length)).tokens := by
  have hmoved := tokens_move (.ofList pattern) (f := (· + position)) fun _ _ => rfl
  rw [show (Reader.ofList pattern).tokens = _ from h, Reader.ofList, Nat.zero_add] at hmoved
  have happend := tokens_append v ⟨pattern, position⟩ (congrArg Tokens.failure hmoved)
  rwa [hmoved] at happend

theorem tokens_nil (position : Nat) : (Reader.mk [] position).tokens = ⟨[], none⟩ := by
  have hnext : (Reader.mk [] position).next = (.ok (.patternEnd position), ⟨[], position⟩) := rfl
  rw [tokens_of_ok hnext]
  rfl

/-- The token that a character by itself is. -/
theorem tokens_cons {c : Char} {kind : TokenKind} (hb : Token.isBlank c = false) (hc : c ≠ '\\')
    (hk : Token.kindOf? c = some kind) (rest : List Char) (position : Nat) :
    (Reader.mk (c :: rest) position).tokens =
      .prepend [⟨kind, c, position⟩] (Reader.mk rest (position + 1)).tokens := by
  have hnext : (Reader.mk (c :: rest) position).next =
      (.ok ⟨kind, c, position⟩, ⟨rest, position + 1⟩) :=
    (Reads.character position rest hb hc hk).read_eq
  have hkind : kind ≠ .patternEnd := by
    rintro rfl
    exact Token.kindOf?_ne_patternEnd c hk
  rw [tokens_of_ok hnext, if_neg hkind]
  rfl

end Reader

/-! ## Derivations of moved tokens -/

/-- The token of the given kind at another position. -/
def Terminal.move {kind : TokenKind} (f : Nat → Nat) (t : Terminal kind) : Terminal kind :=
  ⟨t.1.move f, t.2⟩

theorem Terminal.map_value_move {kind : TokenKind} (f : Nat → Nat) (t : Option (Terminal kind)) :
    (t.map (Terminal.move f)).map (fun t => t.1.value) = t.map fun t => t.1.value := by
  cases t <;> rfl

namespace Grammar

variable (f : Nat → Nat)

namespace Member

def move : Member → Member
  | .single t => .single (t.move f)
  | .range lo dash hi bare le => .range (lo.move f) (dash.move f) (hi.move f) bare le

theorem tokens_move (m : Member) : (m.move f).tokens = m.tokens.map (Token.move f) := by
  cases m <;> rfl

theorem classMember_move (m : Member) : (m.move f).classMember = m.classMember := by
  cases m <;> rfl

end Member

theorem memberTokens_move (ms : List Member) :
    memberTokens (ms.map (Member.move f)) = (memberTokens ms).map (Token.move f) := by
  unfold memberTokens
  rw [List.flatMap_map, List.map_flatMap]
  exact List.flatMap_congr fun m _ => m.tokens_move f

theorem rangeFollows_move {ts : List Token} (h : RangeFollows (ts.map (Token.move f))) :
    RangeFollows ts := by
  obtain ⟨dash, hi, rest, hts, hd⟩ := h
  obtain ⟨dash, us, rfl, rfl, hus⟩ := List.map_eq_cons_iff.mp hts
  obtain ⟨hi, vs, rfl, rfl, rfl⟩ := List.map_eq_cons_iff.mp hus
  exact ⟨dash, hi, vs, rfl, hd⟩

theorem greedy_move : ∀ ms : List Member, Greedy ms → Greedy (ms.map (Member.move f))
  | [], _ => trivial
  | .single _ :: ms, h => by
    refine ⟨fun hr => h.1 ?_, greedy_move ms h.2⟩
    rw [memberTokens_move] at hr
    exact rangeFollows_move f hr
  | .range _ _ _ _ _ :: ms, h => greedy_move ms h

namespace Bracketed

/-- The class with its tokens at other positions. -/
def move (c : Bracketed) : Bracketed where
  opening := Terminal.move f c.opening
  caret := c.caret.map (Token.move f)
  members := c.members.map (Member.move f)
  closing := c.closing.move f
  caret_isBare t ht := by
    obtain ⟨s, hs, rfl⟩ := Option.map_eq_some_iff.mp ht
    exact c.caret_isBare s hs
  ne_nil h := c.ne_nil (List.map_eq_nil_iff.mp h)
  first hc t ht := by
    rw [memberTokens_move, List.head?_map] at ht
    obtain ⟨s, hs, rfl⟩ := Option.map_eq_some_iff.mp ht
    exact c.first (Option.map_eq_none_iff.mp hc) s hs
  inside t ht := by
    rw [memberTokens_move] at ht
    obtain ⟨s, hs, rfl⟩ := List.mem_map.mp ht
    exact c.inside s hs
  greedy := greedy_move f c.members c.greedy
  closing_isBare := c.closing_isBare

theorem tokens_move (c : Bracketed) : (c.move f).tokens = c.tokens.map (Token.move f) := by
  have hcaret : (c.caret.map (Token.move f)).toList = c.caret.toList.map (Token.move f) := by
    cases c.caret <;> rfl
  simp only [tokens, move, memberTokens_move, hcaret, List.map_cons, List.map_append, List.map_nil]
  rfl

theorem charClass_move (c : Bracketed) : (c.move f).charClass = c.charClass := by
  have hmembers : (c.members.map (Member.move f)).map Member.classMember =
      c.members.map Member.classMember := by
    rw [List.map_map]
    exact List.map_congr_left fun m _ => m.classMember_move f
  simp only [charClass, move, hmembers, Option.isSome_map]

end Bracketed

mutual

/-- The operand with its tokens at other positions. -/
def Operand.move : Operand → Operand
  | .literal t ne => .literal (Terminal.move f t) ne
  | .dot t eq => .dot (Terminal.move f t) eq
  | .escape t => .escape (Terminal.move f t)
  | .charClass c => .charClass (c.move f)
  | .group opening body closing =>
    .group (Terminal.move f opening) body.move (Terminal.move f closing)

def Quantified.move : Quantified → Quantified
  | .mk operand quantifier => .mk operand.move (quantifier.map (Terminal.move f))

def Sequence.move : Sequence → Sequence
  | .last q => .last q.move
  | .cons q rest => .cons q.move rest.move

def Alternatives.move : Alternatives → Alternatives
  | .nil => .nil
  | .cons bar s rest => .cons (Terminal.move f bar) s.move rest.move

def Regexp.move : Regexp → Regexp
  | .mk first rest => .mk first.move rest.move

end

mutual

theorem Operand.tokens_move : ∀ o : Operand, (o.move f).tokens = o.tokens.map (Token.move f)
  | .literal _ _ => rfl
  | .dot _ _ => rfl
  | .escape _ => rfl
  | .charClass c => c.tokens_move f
  | .group opening body closing => by
    rw [Operand.move, Operand.tokens, Operand.tokens, body.tokens_move, List.map_cons,
      List.map_append]
    rfl

theorem Quantified.tokens_move :
    ∀ q : Quantified, (q.move f).tokens = q.tokens.map (Token.move f)
  | .mk o none => by
    rw [Quantified.move, Quantified.tokens, Quantified.tokens, o.tokens_move, List.map_append]
    rfl
  | .mk o (some t) => by
    rw [Quantified.move, Quantified.tokens, Quantified.tokens, o.tokens_move, List.map_append]
    rfl

theorem Sequence.tokens_move : ∀ s : Sequence, (s.move f).tokens = s.tokens.map (Token.move f)
  | .last q => q.tokens_move
  | .cons q rest => by
    rw [Sequence.move, Sequence.tokens, Sequence.tokens, q.tokens_move, rest.tokens_move,
      List.map_append]

theorem Alternatives.tokens_move :
    ∀ a : Alternatives, (a.move f).tokens = a.tokens.map (Token.move f)
  | .nil => rfl
  | .cons bar s rest => by
    rw [Alternatives.move, Alternatives.tokens, Alternatives.tokens, s.tokens_move,
      rest.tokens_move, List.map_cons, List.map_append]
    rfl

/-- **A derivation with its tokens moved** is a derivation of the moved tokens. -/
theorem Regexp.tokens_move : ∀ r : Regexp, (r.move f).tokens = r.tokens.map (Token.move f)
  | .mk first rest => by
    rw [Regexp.move, Regexp.tokens, Regexp.tokens, first.tokens_move, rest.tokens_move,
      List.map_append]

end

mutual

theorem Operand.depth_move : ∀ o : Operand, (o.move f).depth = o.depth
  | .literal _ _ => rfl
  | .dot _ _ => rfl
  | .escape _ => rfl
  | .charClass _ => rfl
  | .group _ body _ => by
    rw [Operand.move, Operand.depth, Operand.depth, body.depth_move]

theorem Quantified.depth_move : ∀ q : Quantified, (q.move f).depth = q.depth
  | .mk o _ => o.depth_move

theorem Sequence.depth_move : ∀ s : Sequence, (s.move f).depth = s.depth
  | .last q => q.depth_move
  | .cons q rest => by
    rw [Sequence.move, Sequence.depth, Sequence.depth, q.depth_move, rest.depth_move]

theorem Alternatives.depth_move : ∀ a : Alternatives, (a.move f).depth = a.depth
  | .nil => rfl
  | .cons _ s rest => by
    rw [Alternatives.move, Alternatives.depth, Alternatives.depth, s.depth_move, rest.depth_move]

theorem Regexp.depth_move : ∀ r : Regexp, (r.move f).depth = r.depth
  | .mk first rest => by
    rw [Regexp.move, Regexp.depth, Regexp.depth, first.depth_move, rest.depth_move]

end

mutual

theorem Operand.expr_move : ∀ o : Operand, (o.move f).expr = o.expr
  | .literal _ _ => rfl
  | .dot _ _ => rfl
  | .escape _ => rfl
  | .charClass c => by
    rw [Operand.move, Operand.expr, Operand.expr, c.charClass_move]
  | .group _ body _ => body.expr_move

theorem Quantified.expr_move : ∀ q : Quantified, (q.move f).expr = q.expr
  | .mk o quantifier => by
    rw [Quantified.move, Quantified.expr, Quantified.expr, o.expr_move, Terminal.map_value_move]

theorem Sequence.exprs_move : ∀ s : Sequence, (s.move f).exprs = s.exprs
  | .last q => by
    rw [Sequence.move, Sequence.exprs, Sequence.exprs, q.expr_move]
  | .cons q rest => by
    rw [Sequence.move, Sequence.exprs, Sequence.exprs, q.expr_move, rest.exprs_move]

theorem Sequence.expr_move : ∀ s : Sequence, (s.move f).expr = s.expr
  | .last q => q.expr_move
  | .cons q rest => by
    rw [Sequence.move, Sequence.expr, Sequence.expr, q.expr_move, rest.exprs_move]

theorem Alternatives.exprs_move : ∀ a : Alternatives, (a.move f).exprs = a.exprs
  | .nil => rfl
  | .cons _ s rest => by
    rw [Alternatives.move, Alternatives.exprs, Alternatives.exprs, s.expr_move, rest.exprs_move]

/-- The expression does not depend on where the tokens stand. -/
theorem Regexp.expr_move : ∀ r : Regexp, (r.move f).expr = r.expr
  | .mk first rest => by
    rw [Regexp.move, Regexp.expr, Regexp.expr, first.expr_move, rest.exprs_move]

end

end Grammar

end PatternAutomata
