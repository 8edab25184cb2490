import Mathlib.Data.List.Basic
import PatternAutomata.Proofs.Grammar

/-!
# The grammar of patterns is unambiguous

About the grammar of `Parser` (in `parser`), and so about why one token of lookahead is enough.

Two derivations of tokens that begin alike are the same, and so is what follows them, as long as
neither is followed by a token that continues it. One token is enough to tell: a quantifier
continues a quantified operand, what begins an expression continues a sequence, and a bar continues
a regular expression. An operand is never continued.

Results:
* `Grammar.Bracketed.eq_of_append`: a class is read in one way;
* **`Grammar.Regexp.tokens_inj`**: derivations of the same tokens are the same.
-/

namespace PatternAutomata

namespace Grammar

/-! ## A class is read in one way -/

theorem Member.tokens_ne_nil (m : Member) : m.tokens ≠ [] := by
  cases m with
  | single t => exact List.cons_ne_nil _ _
  | range lo dash hi hd hle => exact List.cons_ne_nil _ _

theorem memberTokens_cons (m : Member) (ms : List Member) :
    memberTokens (m :: ms) = m.tokens ++ memberTokens ms :=
  List.flatMap_cons

theorem memberTokens_eq_nil_iff {ms : List Member} : memberTokens ms = [] ↔ ms = [] := by
  cases ms with
  | nil => exact ⟨fun _ => rfl, fun _ => rfl⟩
  | cons m ms => simp [memberTokens_cons, m.tokens_ne_nil]

/-- Two lists of members with the same tokens are the same: the first member of each is a range iff
a bare `-` and a further token follow. -/
theorem memberTokens_inj : ∀ {ms ms' : List Member}, Greedy ms → Greedy ms' →
    memberTokens ms = memberTokens ms' → ms = ms'
  | [], ms', _, _, h => (memberTokens_eq_nil_iff.mp h.symm).symm
  | m :: ms, [], _, _, h => absurd (memberTokens_eq_nil_iff.mp h) (List.cons_ne_nil m ms)
  | .single t :: ms, .single t' :: ms', hg, hg', h => by
    obtain ⟨ht, hms⟩ := List.cons.inj h
    rw [ht, memberTokens_inj hg.2 hg'.2 hms]
  | .single t :: ms, .range lo dash hi hd hle :: ms', hg, _, h =>
    absurd ⟨dash, hi, _, (List.cons.inj h).2, hd⟩ hg.1
  | .range lo dash hi hd hle :: ms, .single t :: ms', _, hg', h =>
    absurd ⟨dash, hi, _, (List.cons.inj h).2.symm, hd⟩ hg'.1
  | .range lo dash hi hd hle :: ms, .range lo' dash' hi' hd' hle' :: ms', hg, hg', h => by
    obtain ⟨hlo, h⟩ := List.cons.inj h
    obtain ⟨hdash, h⟩ := List.cons.inj h
    obtain ⟨hhi, hms⟩ := List.cons.inj h
    subst hlo hdash hhi
    exact congrArg _ (@memberTokens_inj ms ms' hg hg' hms)

namespace Bracketed

variable {c c' : Bracketed} {u v : List Token}

theorem tokens_append (c : Bracketed) (u : List Token) : c.tokens ++ u =
    c.opening.1 :: (c.caret.toList ++ (memberTokens c.members ++ c.closing :: u)) := by
  simp [tokens]

/-- The first member of a class that is not negated is no bare `^`. -/
theorem isBare_of_caret_eq_none (h : c.caret = none) :
    ∀ t ∈ (memberTokens c.members ++ u).head?, t.isBare '^' = false := by
  intro t ht
  cases hm : memberTokens c.members with
  | nil => exact absurd (memberTokens_eq_nil_iff.mp hm) c.ne_nil
  | cons s ss =>
    rw [hm] at ht
    exact (c.first h t (by rw [hm]; exact ht)).2

/-- A class is closed by the first bare `]`. -/
theorem eq_of_append_closing {us vs : List Token} {closing closing' : Token}
    (hus : ∀ t ∈ us, t.isBare ']' = false) (hvs : ∀ t ∈ vs, t.isBare ']' = false)
    (hcl : closing.isBare ']' = true) (hcl' : closing'.isBare ']' = true)
    (h : us ++ closing :: u = vs ++ closing' :: v) : us = vs ∧ closing = closing' ∧ u = v := by
  have before : ∀ {ts w : List Token} {t : Token}, (∀ t ∈ ts, t.isBare ']' = false) →
      t.isBare ']' = true → ((ts ++ t :: w).takeWhile fun t => !t.isBare ']') = ts := by
    intro ts w t hts ht
    rw [List.takeWhile_append_of_pos fun t ht => by simp [hts t ht],
      List.takeWhile_cons_of_neg (by simp [ht]), List.append_nil]
  obtain rfl : us = vs := by rw [← before hus hcl, h, before hvs hcl']
  rw [List.append_cancel_left_eq] at h
  exact ⟨rfl, List.cons.inj h⟩

/-- Whether there is a caret is read in one way, if without one no bare `^` comes first. -/
theorem caret_eq_of_toList_append {caret caret' : Option Token}
    (hc : ∀ t ∈ caret, t.isBare '^' = true) (hc' : ∀ t ∈ caret', t.isBare '^' = true)
    (hu : caret = none → ∀ t ∈ u.head?, t.isBare '^' = false)
    (hv : caret' = none → ∀ t ∈ v.head?, t.isBare '^' = false)
    (h : caret.toList ++ u = caret'.toList ++ v) : caret = caret' := by
  cases caret with
  | none =>
    cases caret' with
    | none => rfl
    | some t =>
      have hno := hu rfl t (by rw [show u = [t] ++ v from h]; rfl)
      rw [hc' t rfl] at hno
      cases hno
  | some t =>
    cases caret' with
    | none =>
      have hno := hv rfl t (by rw [show v = [t] ++ u from h.symm]; rfl)
      rw [hc t rfl] at hno
      cases hno
    | some t' => exact congrArg some (List.cons.inj h).1

/-- A class is read in one way, whatever follows it. -/
theorem eq_of_append (h : c.tokens ++ u = c'.tokens ++ v) : c = c' ∧ u = v := by
  rw [tokens_append, tokens_append] at h
  obtain ⟨ho, h⟩ := List.cons.inj h
  have hcaret : c.caret = c'.caret := caret_eq_of_toList_append c.caret_isBare c'.caret_isBare
    isBare_of_caret_eq_none isBare_of_caret_eq_none h
  rw [hcaret, List.append_cancel_left_eq] at h
  obtain ⟨hm, hcl, huv⟩ :=
    eq_of_append_closing c.inside c'.inside c.closing_isBare c'.closing_isBare h
  obtain ⟨o, k, ms, cl, hk, hn, hf, hi, hg, hb⟩ := c
  obtain ⟨o', k', ms', cl', hk', hn', hf', hi', hg', hb'⟩ := c'
  obtain rfl : o = o' := Subtype.ext ho
  obtain rfl : k = k' := hcaret
  obtain rfl : ms = ms' := memberTokens_inj hg hg' hm
  obtain rfl : cl = cl' := hcl
  exact ⟨rfl, huv⟩

end Bracketed

/-! ## A derivation is read in one way -/

/-- The first token, if there is one, is not of a kind in `p`. -/
def Stops (p : TokenKind → Bool) (ts : List Token) : Prop := ∀ t ∈ ts.head?, p t.kind = false

/-- The kinds of token that continue a quantified operand. -/
def continuesQuantified (k : TokenKind) : Bool := k = .quantifier

/-- The kinds of token that continue a sequence. -/
def continuesSequence (k : TokenKind) : Bool := k.beginsExpression || continuesQuantified k

/-- The kinds of token that continue a regular expression. -/
def continuesRegexp (k : TokenKind) : Bool := k = .pipe || continuesSequence k

section

variable {p : TokenKind → Bool} {t : Token} {ts : List Token}

theorem stops_cons : Stops p (t :: ts) ↔ p t.kind = false := by
  simp [Stops]

theorem stops_nil : Stops p [] := fun _ h => by cases h

/-- What does not continue a sequence does not continue its last operand. -/
theorem Stops.quantified (h : Stops continuesSequence ts) : Stops continuesQuantified ts :=
  fun t ht => (Bool.or_eq_false_iff.mp (h t ht)).2

/-- What does not continue a regular expression does not continue its last sequence. -/
theorem Stops.sequence (h : Stops continuesRegexp ts) : Stops continuesSequence ts :=
  fun t ht => (Bool.or_eq_false_iff.mp (h t ht)).2

theorem not_stops_bar (bar : Terminal .pipe) (ts : List Token) :
    ¬ Stops continuesRegexp (bar.1 :: ts) := by
  rw [stops_cons, bar.2]
  exact Bool.noConfusion

end

/-- The kind of the first token. -/
def Operand.kind : Operand → TokenKind
  | .literal _ _ => .character
  | .dot _ _ => .character
  | .escape _ => .escape
  | .charClass _ => .leftBracket
  | .group _ _ _ => .leftParen

theorem Operand.beginsExpression_kind (o : Operand) : o.kind.beginsExpression = true := by
  cases o <;> rfl

theorem Operand.exists_tokens (o : Operand) : ∃ t ts, o.tokens = t :: ts ∧ t.kind = o.kind := by
  cases o with
  | literal t ne => exact ⟨t.1, [], by rw [tokens], t.2⟩
  | dot t eq => exact ⟨t.1, [], by rw [tokens], t.2⟩
  | escape t => exact ⟨t.1, [], by rw [tokens], t.2⟩
  | charClass c => exact ⟨c.opening.1, _, by rw [tokens, Bracketed.tokens], c.opening.2⟩
  | group opening body closing => exact ⟨opening.1, _, by rw [tokens], opening.2⟩

/-- What is read from the same place on begins with the same kind of token. -/
theorem Operand.kind_eq_of_append {o o' : Operand} {u v : List Token}
    (h : o.tokens ++ u = o'.tokens ++ v) : o.kind = o'.kind := by
  obtain ⟨t, ts, ho, hk⟩ := o.exists_tokens
  obtain ⟨t', ts', ho', hk'⟩ := o'.exists_tokens
  rw [ho, ho'] at h
  rw [← hk, ← hk', (List.cons.inj h).1]

theorem Quantified.exists_tokens (q : Quantified) :
    ∃ t ts, q.tokens = t :: ts ∧ t.kind.beginsExpression = true := by
  obtain ⟨o, quantifier⟩ := q
  obtain ⟨t, ts, ho, hk⟩ := o.exists_tokens
  exact ⟨t, ts ++ (quantifier.map Subtype.val).toList, by rw [tokens, ho, List.cons_append],
    hk ▸ o.beginsExpression_kind⟩

theorem Sequence.exists_tokens (s : Sequence) :
    ∃ t ts, s.tokens = t :: ts ∧ t.kind.beginsExpression = true := by
  cases s with
  | last q =>
    rw [tokens]
    exact q.exists_tokens
  | cons q rest =>
    obtain ⟨t, ts, hq, hk⟩ := q.exists_tokens
    exact ⟨t, ts ++ rest.tokens, by rw [tokens, hq, List.cons_append], hk⟩

/-- What begins with an operand does not continue a quantified operand. -/
theorem stops_of_begins {t : Token} {ts : List Token} (h : t.kind.beginsExpression = true) :
    Stops continuesQuantified (t :: ts) := by
  rw [stops_cons, continuesQuantified, decide_eq_false_iff_not]
  intro hk
  rw [hk] at h
  cases h

theorem stops_sequence_append (s : Sequence) (u : List Token) :
    Stops continuesQuantified (s.tokens ++ u) := by
  obtain ⟨t, ts, hs, hk⟩ := s.exists_tokens
  rw [hs]
  exact stops_of_begins hk

theorem not_stops_sequence_append (s : Sequence) (u : List Token) :
    ¬ Stops continuesSequence (s.tokens ++ u) := by
  obtain ⟨t, ts, hs, hk⟩ := s.exists_tokens
  rw [hs, List.cons_append, stops_cons, continuesSequence, hk]
  exact Bool.noConfusion

/-- Alternatives do not continue a sequence. -/
theorem stops_alternatives_append (a : Alternatives) {u : List Token}
    (h : Stops continuesRegexp u) : Stops continuesSequence (a.tokens ++ u) := by
  cases a with
  | nil =>
    rw [Alternatives.tokens, List.nil_append]
    exact h.sequence
  | cons bar s rest =>
    rw [Alternatives.tokens, List.cons_append, stops_cons, bar.2]
    rfl

/-- Whether there is a quantifier is read in one way. -/
theorem quantifier_eq_of_append {q q' : Option (Terminal .quantifier)} {u v : List Token}
    (hu : Stops continuesQuantified u) (hv : Stops continuesQuantified v)
    (h : (q.map Subtype.val).toList ++ u = (q'.map Subtype.val).toList ++ v) : q = q' ∧ u = v := by
  have not_stops : ∀ (t : Terminal .quantifier) (w : List Token),
      ¬ Stops continuesQuantified ([t.1] ++ w) := by
    intro t w hs
    exact absurd t.2 (of_decide_eq_false (stops_cons.mp hs))
  cases q with
  | none =>
    cases q' with
    | none => exact ⟨rfl, h⟩
    | some t => exact absurd (h ▸ hu) (not_stops t v)
  | some t =>
    cases q' with
    | none => exact absurd (h ▸ hv) (not_stops t u)
    | some t' =>
      obtain ⟨ht, huv⟩ := List.cons.inj h
      obtain rfl := Subtype.ext ht
      exact ⟨rfl, huv⟩

mutual

/-- An operand is read in one way, whatever follows it. -/
theorem Operand.eq_of_append : ∀ (o o' : Operand) {u v : List Token},
    o.tokens ++ u = o'.tokens ++ v → o = o' ∧ u = v
  | .literal t ne, o', u, v, h => by
    have hk := Operand.kind_eq_of_append h
    cases o' with
    | literal t' ne' =>
      obtain ⟨ht, huv⟩ := List.cons.inj h
      obtain rfl := Subtype.ext ht
      exact ⟨rfl, huv⟩
    | dot t' eq' => exact absurd ((List.cons.inj h).1 ▸ eq') ne
    | _ => cases hk
  | .dot t eq, o', u, v, h => by
    have hk := Operand.kind_eq_of_append h
    cases o' with
    | literal t' ne' => exact absurd ((List.cons.inj h).1 ▸ eq) ne'
    | dot t' eq' =>
      obtain ⟨ht, huv⟩ := List.cons.inj h
      obtain rfl := Subtype.ext ht
      exact ⟨rfl, huv⟩
    | _ => cases hk
  | .escape t, o', u, v, h => by
    have hk := Operand.kind_eq_of_append h
    cases o' with
    | escape t' =>
      obtain ⟨ht, huv⟩ := List.cons.inj h
      obtain rfl := Subtype.ext ht
      exact ⟨rfl, huv⟩
    | _ => cases hk
  | .charClass c, o', u, v, h => by
    have hk := Operand.kind_eq_of_append h
    cases o' with
    | charClass c' =>
      obtain ⟨rfl, huv⟩ := Bracketed.eq_of_append h
      exact ⟨rfl, huv⟩
    | _ => cases hk
  | .group opening body closing, o', u, v, h => by
    have hk := Operand.kind_eq_of_append h
    cases o' with
    | group opening' body' closing' =>
      rw [Operand.tokens, Operand.tokens, List.cons_append, List.cons_append, List.append_assoc,
        List.append_assoc] at h
      obtain ⟨ho, h⟩ := List.cons.inj h
      have stops : ∀ (c : Terminal .rightParen) (w : List Token),
          Stops continuesRegexp ([c.1] ++ w) := fun c w => stops_cons.mpr (by rw [c.2]; rfl)
      obtain ⟨rfl, hrest⟩ := body.eq_of_append body' (stops closing u) (stops closing' v) h
      obtain ⟨hc, huv⟩ := List.cons.inj hrest
      obtain rfl := Subtype.ext ho
      obtain rfl := Subtype.ext hc
      exact ⟨rfl, huv⟩
    | _ => cases hk

theorem Quantified.eq_of_append : ∀ (q q' : Quantified) {u v : List Token},
    Stops continuesQuantified u → Stops continuesQuantified v →
    q.tokens ++ u = q'.tokens ++ v → q = q' ∧ u = v
  | .mk o t, .mk o' t', u, v, hu, hv, h => by
    rw [Quantified.tokens, Quantified.tokens, List.append_assoc, List.append_assoc] at h
    obtain ⟨rfl, hrest⟩ := o.eq_of_append o' h
    obtain ⟨rfl, huv⟩ := quantifier_eq_of_append hu hv hrest
    exact ⟨rfl, huv⟩

theorem Sequence.eq_of_append : ∀ (s s' : Sequence) {u v : List Token},
    Stops continuesSequence u → Stops continuesSequence v →
    s.tokens ++ u = s'.tokens ++ v → s = s' ∧ u = v
  | .last q, .last q', u, v, hu, hv, h => by
    rw [Sequence.tokens, Sequence.tokens] at h
    obtain ⟨rfl, huv⟩ := q.eq_of_append q' hu.quantified hv.quantified h
    exact ⟨rfl, huv⟩
  | .last q, .cons q' rest', u, v, hu, _, h => by
    rw [Sequence.tokens, Sequence.tokens, List.append_assoc] at h
    obtain ⟨-, rfl⟩ := q.eq_of_append q' hu.quantified (stops_sequence_append rest' v) h
    exact absurd hu (not_stops_sequence_append rest' v)
  | .cons q rest, .last q', u, v, _, hv, h => by
    rw [Sequence.tokens, Sequence.tokens, List.append_assoc] at h
    obtain ⟨-, rfl⟩ := q.eq_of_append q' (stops_sequence_append rest u) hv.quantified h
    exact absurd hv (not_stops_sequence_append rest u)
  | .cons q rest, .cons q' rest', u, v, hu, hv, h => by
    rw [Sequence.tokens, Sequence.tokens, List.append_assoc, List.append_assoc] at h
    obtain ⟨rfl, hrest⟩ := q.eq_of_append q' (stops_sequence_append rest u)
      (stops_sequence_append rest' v) h
    obtain ⟨rfl, huv⟩ := rest.eq_of_append rest' hu hv hrest
    exact ⟨rfl, huv⟩

theorem Alternatives.eq_of_append : ∀ (a a' : Alternatives) {u v : List Token},
    Stops continuesRegexp u → Stops continuesRegexp v →
    a.tokens ++ u = a'.tokens ++ v → a = a' ∧ u = v
  | .nil, .nil, u, v, _, _, h => ⟨rfl, h⟩
  | .nil, .cons bar s rest, u, v, hu, _, h => by
    rw [Alternatives.tokens, Alternatives.tokens, List.nil_append, List.cons_append] at h
    exact absurd (h ▸ hu) (not_stops_bar bar _)
  | .cons bar s rest, .nil, u, v, _, hv, h => by
    rw [Alternatives.tokens, Alternatives.tokens, List.nil_append, List.cons_append] at h
    exact absurd (h ▸ hv) (not_stops_bar bar _)
  | .cons bar s rest, .cons bar' s' rest', u, v, hu, hv, h => by
    rw [Alternatives.tokens, Alternatives.tokens, List.cons_append, List.cons_append,
      List.append_assoc, List.append_assoc] at h
    obtain ⟨hb, hs⟩ := List.cons.inj h
    obtain rfl := Subtype.ext hb
    obtain ⟨rfl, hrest⟩ := s.eq_of_append s' (stops_alternatives_append rest hu)
      (stops_alternatives_append rest' hv) hs
    obtain ⟨rfl, huv⟩ := rest.eq_of_append rest' hu hv hrest
    exact ⟨rfl, huv⟩

theorem Regexp.eq_of_append : ∀ (r r' : Regexp) {u v : List Token},
    Stops continuesRegexp u → Stops continuesRegexp v →
    r.tokens ++ u = r'.tokens ++ v → r = r' ∧ u = v
  | .mk s a, .mk s' a', u, v, hu, hv, h => by
    rw [Regexp.tokens, Regexp.tokens, List.append_assoc, List.append_assoc] at h
    obtain ⟨rfl, hrest⟩ := s.eq_of_append s' (stops_alternatives_append a hu)
      (stops_alternatives_append a' hv) h
    obtain ⟨rfl, huv⟩ := a.eq_of_append a' hu hv hrest
    exact ⟨rfl, huv⟩

end

/-- **The grammar is unambiguous**: derivations of the same tokens are the same. -/
theorem Regexp.tokens_inj {r r' : Regexp} (h : r.tokens = r'.tokens) : r = r' := by
  refine (r.eq_of_append r' (u := []) (v := []) stops_nil stops_nil ?_).1
  rw [h]

end Grammar

end PatternAutomata
