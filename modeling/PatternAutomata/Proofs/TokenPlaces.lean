import PatternAutomata.Proofs.Relocation

/-!
# Where tokens stand

About `next_token` and `escape` (in `lexer`): the positions in what they return.

The position of a token is the offset of its first character, and what the pattern holds there says
which token it is. The same goes for the place where no token can be read. What follows the last
token of a pattern are blanks.

Results:
* **`Tokens.standsIn_of_mem`**: a token of a pattern stands in it at its position;
* `Tokens.pairwise_position`: the tokens come in the order of their positions;
* **`Tokens.occursIn_of_failure`**: where no token can be read, the pattern holds what the error
  says;
* `Tokens.ofPattern_eq_nil_iff`: a pattern has no token when it holds nothing but blanks;
* `Tokens.isBlank_of_last`: what follows the last token.
-/

namespace PatternAutomata

/-- A pattern holds the token at its position: the character that the token is by itself, or a
backslash and the character that is escaped. -/
inductive Token.StandsIn (p : List Char) (t : Token) : Prop
  | character : p[t.position]? = some t.value → t.value ≠ '\\' →
    Token.kindOf? t.value = some t.kind → t.StandsIn p
  | escape {c : Char} : t.kind = .escape → p[t.position]? = some '\\' →
    p[t.position + 1]? = some c → Token.escaped? c = some t.value → t.StandsIn p

/-- A pattern holds what the error says at its position: a character that begins no token, one that
cannot be escaped behind a backslash, or a backslash at the end. -/
def LexicalError.OccursIn (p : List Char) : LexicalError → Prop
  | .invalidCharacter k c => p[k]? = some c ∧ c < ' ' ∧ c ≠ '\t'
  | .invalidEscape k c => p[k]? = some c ∧ Token.escaped? c = none ∧ 0 < k ∧ p[k - 1]? = some '\\'
  | .unterminatedEscape k => p[k]? = some '\\' ∧ p.length = k + 1

/-! ## Kinds of tokens -/

/-- The character that every token of the kind is written as, if there is one. -/
def TokenKind.sign? : TokenKind → Option Char
  | .leftBracket => some '['
  | .leftParen => some '('
  | .rightParen => some ')'
  | .pipe => some '|'
  | _ => none

theorem Token.kindOf?_eq_sign {c d : Char} {kind : TokenKind} (h : kindOf? c = some kind)
    (hd : kind.sign? = some d) : c = d := by
  unfold kindOf? at h
  iterate 3
    split at h
    · rename_i hc
      cases h
      cases hd
      exact hc
  split at h
  · cases h
    cases hd
  split at h
  · rename_i hc
    cases h
    cases hd
    exact hc
  split at h
  · cases h
    cases hd
  · cases h

/-- A character that begins no token comes before the space, unless it is one. -/
theorem Token.lt_space_of_kindOf? {c : Char} (h : kindOf? c = none) (hb : isBlank c = false) :
    c < ' ' ∧ c ≠ '\t' := by
  have hspace : c ≠ ' ' ∧ c ≠ '\t' := by simpa [isBlank] using hb
  refine ⟨lt_of_le_of_ne (not_lt.mp fun hlt => ?_) hspace.1, hspace.2⟩
  unfold kindOf? at h
  iterate 5
    split at h
    · cases h
  cases h

namespace Token.StandsIn

variable {p : List Char} {t : Token}

theorem kind_ne_patternEnd (h : t.StandsIn p) : t.kind ≠ .patternEnd := by
  cases h with
  | character _ _ hk =>
    intro he
    exact kindOf?_ne_patternEnd _ (he ▸ hk)
  | escape hk _ _ _ =>
    rw [hk]
    exact TokenKind.noConfusion

/-- A kind of token that has a sign of its own is written as that sign. -/
theorem getElem?_eq_sign (h : t.StandsIn p) {c : Char} (hc : t.kind.sign? = some c) :
    p[t.position]? = some c := by
  cases h with
  | character ht _ hk => rw [ht, kindOf?_eq_sign hk hc]
  | escape hk _ _ _ =>
    rw [hk] at hc
    cases hc

theorem position_lt (h : t.StandsIn p) : t.position < p.length := by
  cases h with
  | character ht _ _ => exact (List.getElem?_eq_some_iff.mp ht).1
  | escape _ ht _ _ => exact (List.getElem?_eq_some_iff.mp ht).1

end Token.StandsIn

theorem LexicalError.OccursIn.position_lt {p : List Char} {e : LexicalError} (h : e.OccursIn p) :
    e.position < p.length := by
  cases e with
  | invalidCharacter k c => exact (List.getElem?_eq_some_iff.mp h.1).1
  | invalidEscape k c => exact (List.getElem?_eq_some_iff.mp h.1).1
  | unterminatedEscape k => exact (List.getElem?_eq_some_iff.mp h.1).1

/-! ## Reading -/

theorem getElem?_of_drop_eq {p u : List Char} {start : Nat} {c : Char}
    (h : p.drop start = c :: u) : p[start]? = some c := by
  rw [← List.head?_drop, h]
  rfl

theorem drop_succ_of_drop_eq {p u : List Char} {start : Nat} {c : Char}
    (h : p.drop start = c :: u) : p.drop (start + 1) = u := by
  rw [← List.tail_drop, h]
  rfl

namespace Reader

variable {p u : List Char} {start : Nat} {t : Token} {r : Reader}

/-- The reader stands in the pattern `p`, with the rest of it still to be read. -/
def StandsIn (p : List Char) (r : Reader) : Prop := p.drop r.position = r.rest

theorem standsIn_ofList (p : List Char) : (ofList p).StandsIn p := rfl

theorem Reads.standsIn_rest (h : Reads start u t r) (hp : p.drop start = u) : r.StandsIn p := by
  induction h with
  | patternEnd start => exact hp
  | blank _ _ ih => exact ih (drop_succ_of_drop_eq hp)
  | escape start u _ => exact drop_succ_of_drop_eq (drop_succ_of_drop_eq hp)
  | character start u _ _ _ => exact drop_succ_of_drop_eq hp

theorem Reads.standsIn (h : Reads start u t r) (hp : p.drop start = u)
    (ht : t.kind ≠ .patternEnd) : t.StandsIn p := by
  induction h with
  | patternEnd start => exact absurd rfl ht
  | blank _ _ ih => exact ih (drop_succ_of_drop_eq hp) ht
  | escape start u hv =>
    exact .escape rfl (getElem?_of_drop_eq hp) (getElem?_of_drop_eq (drop_succ_of_drop_eq hp)) hv
  | character start u _ hc hk => exact .character (getElem?_of_drop_eq hp) hc hk

/-- A token that is no escape is one character. -/
theorem Reads.position_eq (h : Reads start u t r) (ht : t.kind ≠ .patternEnd)
    (he : t.kind ≠ .escape) : r.position = t.position + 1 := by
  induction h with
  | patternEnd start => exact absurd rfl ht
  | blank _ _ ih => exact ih ht he
  | escape start u hv => exact absurd rfl he
  | character start u _ _ _ => rfl

/-- Only blanks stand before the end. -/
theorem Reads.isBlank_of_patternEnd (h : Reads start u t r) (ht : t.kind = .patternEnd) :
    ∀ c ∈ u, Token.isBlank c = true := by
  induction h with
  | patternEnd start => exact fun c hc => absurd hc List.not_mem_nil
  | blank hb _ ih => exact List.forall_mem_cons.mpr ⟨hb, ih ht⟩
  | escape start u _ => cases ht
  | @character c kind start u _ _ hk =>
    have hkind : kind = .patternEnd := ht
    exact absurd (hkind ▸ hk) (Token.kindOf?_ne_patternEnd c)

theorem Fails.occursIn {e : LexicalError} (h : Fails start u e r) (hp : p.drop start = u) :
    e.OccursIn p := by
  induction h with
  | blank _ _ ih => exact ih (drop_succ_of_drop_eq hp)
  | invalidCharacter start u hb _ hk =>
    exact ⟨getElem?_of_drop_eq hp, Token.lt_space_of_kindOf? hk hb⟩
  | invalidEscape start u hc =>
    exact ⟨getElem?_of_drop_eq (drop_succ_of_drop_eq hp), hc, Nat.succ_pos start,
      getElem?_of_drop_eq hp⟩
  | unterminatedEscape start =>
    have hstart : p[start]? = some '\\' := getElem?_of_drop_eq hp
    have hle : p.length ≤ start + 1 := List.drop_eq_nil_iff.mp (drop_succ_of_drop_eq hp)
    have hlt : start < p.length := (List.getElem?_eq_some_iff.mp hstart).1
    exact ⟨hstart, by omega⟩

/-- A token begins no earlier than where it is looked for, and reading goes on after it. -/
theorem Reads.le_position_lt (h : Reads start u t r) (ht : t.kind ≠ .patternEnd) :
    start ≤ t.position ∧ t.position < r.position := by
  induction h with
  | patternEnd start => exact absurd rfl ht
  | blank _ _ ih =>
    obtain ⟨hle, hlt⟩ := ih ht
    exact ⟨Nat.le_of_succ_le hle, hlt⟩
  | escape start u _ => exact ⟨le_refl start, Nat.lt_add_of_pos_right (by decide)⟩
  | character start u _ _ _ => exact ⟨le_refl start, Nat.lt_succ_self start⟩

/-! ## All tokens -/

/-- Each token begins behind the ones before it. -/
theorem pairwise_tokens (r : Reader) : (∀ t ∈ r.tokens.list, r.position ≤ t.position) ∧
    r.tokens.list.Pairwise fun t u => t.position < u.position := by
  induction r using Reader.tokens.induct with
  | case1 r e s h =>
    rw [tokens_of_error h]
    exact ⟨fun t ht => absurd ht List.not_mem_nil, .nil⟩
  | case2 r t s h ht =>
    rw [tokens_of_ok h, if_pos ht]
    exact ⟨fun t ht => absurd ht List.not_mem_nil, .nil⟩
  | case3 r t s h ht _ ih =>
    obtain ⟨hfirst, hrest⟩ := ih
    obtain ⟨hle, hlt⟩ := (reads_of_read h).le_position_lt ht
    have hbehind : ∀ u ∈ s.tokens.list, t.position < u.position := fun u hu =>
      Nat.lt_of_lt_of_le hlt (hfirst u hu)
    rw [tokens_of_ok h, if_neg ht]
    exact ⟨List.forall_mem_cons.mpr ⟨hle, fun u hu => Nat.le_trans hle (hbehind u hu).le⟩,
      List.pairwise_cons.mpr ⟨hbehind, hrest⟩⟩

theorem standsIn_of_mem_tokens (r : Reader) (hr : r.StandsIn p) :
    ∀ t ∈ r.tokens.list, t.StandsIn p := by
  induction r using Reader.tokens.induct with
  | case1 r e s h =>
    rw [tokens_of_error h]
    exact fun t ht => absurd ht List.not_mem_nil
  | case2 r t s h ht =>
    rw [tokens_of_ok h, if_pos ht]
    exact fun t ht => absurd ht List.not_mem_nil
  | case3 r t s h ht hlt ih =>
    have hreads : Reads r.position r.rest t s := reads_of_read h
    rw [tokens_of_ok h, if_neg ht]
    exact List.forall_mem_cons.mpr ⟨hreads.standsIn hr ht, ih (hreads.standsIn_rest hr)⟩

theorem occursIn_of_failure (r : Reader) (hr : r.StandsIn p) {e : LexicalError}
    (he : r.tokens.failure = some e) : e.OccursIn p := by
  induction r using Reader.tokens.induct with
  | case1 r e' s h =>
    rw [tokens_of_error h] at he
    cases he
    exact (fails_of_read h).occursIn hr
  | case2 r t s h ht =>
    rw [tokens_of_ok h, if_pos ht] at he
    cases he
  | case3 r t s h ht hlt ih =>
    have hreads : Reads r.position r.rest t s := reads_of_read h
    rw [tokens_of_ok h, if_neg ht] at he
    exact ih (hreads.standsIn_rest hr) he

theorem isBlank_of_tokens_eq_nil {r : Reader} (h : r.tokens = ⟨[], none⟩) :
    ∀ c ∈ r.rest, Token.isBlank c = true := by
  rcases hr : r.next with ⟨e | t, s⟩
  · rw [tokens_of_error hr] at h
    cases h
  · rw [tokens_of_ok hr] at h
    split at h
    · rename_i ht
      exact (reads_of_read hr).isBlank_of_patternEnd ht
    · cases h

theorem tokens_of_isBlank : ∀ {u : List Char} (start : Nat), (∀ c ∈ u, Token.isBlank c = true) →
    (Reader.mk u start).tokens = ⟨[], none⟩
  | [], start, _ => tokens_nil start
  | c :: u, start, h => by
    obtain ⟨hc, hu⟩ := List.forall_mem_cons.mp h
    have hnext : (Reader.mk (c :: u) start).next = (Reader.mk u (start + 1)).next := if_pos hc
    rw [tokens_congr hnext]
    exact tokens_of_isBlank (start + 1) hu

/-- What follows the last token. -/
theorem isBlank_of_last {before : List Token} (r : Reader) (hr : r.StandsIn p)
    (h : r.tokens = ⟨before ++ [t], none⟩) (ht : t.kind ≠ .escape) :
    ∀ c ∈ p.drop (t.position + 1), Token.isBlank c = true := by
  induction r using Reader.tokens.induct generalizing before with
  | case1 r e s hnext =>
    rw [tokens_of_error hnext] at h
    cases congrArg Tokens.failure h
  | case2 r u s hnext hu =>
    rw [tokens_of_ok hnext, if_pos hu] at h
    exact absurd (congrArg Tokens.list h).symm (List.append_ne_nil_of_right_ne_nil _ (by simp))
  | case3 r u s hnext hu hlt ih =>
    have hreads : Reads r.position r.rest u s := reads_of_read hnext
    have hs : s.StandsIn p := hreads.standsIn_rest hr
    rw [tokens_of_ok hnext, if_neg hu] at h
    obtain ⟨hlist, hfailure⟩ := Tokens.mk.inj h
    have htokens : ∀ {ts}, s.tokens.list = ts → s.tokens = ⟨ts, none⟩ := fun hts =>
      congrArg₂ Tokens.mk hts hfailure
    cases before with
    | nil =>
      obtain ⟨rfl, hnil⟩ := List.cons.inj hlist
      rw [← hreads.position_eq hu ht, hs]
      exact isBlank_of_tokens_eq_nil (htokens hnil)
    | cons v before =>
      exact ih hs (htokens (List.cons.inj hlist).2)

end Reader

/-! ## Patterns -/

namespace Tokens

variable {p : List Char} {t : Token}

/-- **A token of a pattern** stands in it at its position. -/
theorem standsIn_of_mem (h : t ∈ (ofPattern p).list) : t.StandsIn p :=
  Reader.standsIn_of_mem_tokens _ (Reader.standsIn_ofList p) t h

/-- **The tokens of a pattern** come in the order of their positions. -/
theorem pairwise_position (p : List Char) :
    (ofPattern p).list.Pairwise fun t u => t.position < u.position :=
  (Reader.pairwise_tokens (.ofList p)).2

/-- A token that is always written as the same sign. -/
theorem getElem?_eq_sign (h : t ∈ (ofPattern p).list) {c : Char} (hc : t.kind.sign? = some c) :
    p[t.position]? = some c :=
  (standsIn_of_mem h).getElem?_eq_sign hc

/-- **Where no token can be read**, the pattern holds what the error says. -/
theorem occursIn_of_failure {e : LexicalError} (h : (ofPattern p).failure = some e) :
    e.OccursIn p :=
  Reader.occursIn_of_failure _ (Reader.standsIn_ofList p) h

/-- A pattern has no token when it holds nothing but blanks. -/
theorem ofPattern_eq_nil_iff :
    ofPattern p = ⟨[], none⟩ ↔ ∀ c ∈ p, Token.isBlank c = true :=
  ⟨Reader.isBlank_of_tokens_eq_nil, Reader.tokens_of_isBlank 0⟩

/-- What follows the last token of a pattern, if it is no escape. -/
theorem isBlank_of_last {before : List Token} (h : ofPattern p = ⟨before ++ [t], none⟩)
    (ht : t.kind ≠ .escape) : ∀ c ∈ p.drop (t.position + 1), Token.isBlank c = true :=
  Reader.isBlank_of_last _ (Reader.standsIn_ofList p) h ht

end Tokens

end PatternAutomata
