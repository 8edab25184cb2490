import PatternAutomata.Proofs.ParserCompleteness
import PatternAutomata.Proofs.Relocation

/-!
# Classes by themselves

About `class` and `class_members` (in `parser`), and the comments that say which member may come
first and that every token up to the bracket is one.

A class reads its body, the text between its brackets, as a list of members: every token is one, or
takes part in a range. How the body is grouped into members depends on its tokens alone, and not on
whether a caret before it negates the class. What does depend on that is which token may come first:
the kind of the token behind the opening bracket is looked at, so a caret shields the body from
being looked at.

Results:
* `ClassBody.exists_members`: a pattern that is a class is derived as that class, with the members
  of its body;
* `ClassBody.exists_parse_iff`: when such a pattern can be read;
* **`Tree.exists_parse_class_iff`**: which bodies a class may have, and which a negated one;
* `Tree.parse_negated_paren`: a body that only a negated class may have.

Out of scope: classes that stand in a longer pattern.
-/

namespace PatternAutomata

open Grammar

/-- The tokens of the text `m` are `ts`, and it can stand between the brackets of a class, negated
or not: no token closes the class, and no caret negates it. -/
structure ClassBody (m : String) (ts : List Token) : Prop where
  tokens_eq : Tokens.ofPattern m.toList = ⟨ts, none⟩
  inside : ∀ t ∈ ts, t.isBare ']' = false
  first : ∀ t ∈ ts.head?, t.isBare '^' = false

/-- What comes before the body of a class. -/
def classOpening (negated : Bool) : List Char := if negated then ['[', '^'] else ['[']

/-- A class as a pattern. -/
def classText (negated : Bool) (m : List Char) : List Char := classOpening negated ++ (m ++ [']'])

theorem toList_class (m : String) : ("[" ++ m ++ "]").toList = classText false m.toList := by
  simp [classText, classOpening]

theorem toList_negated_class (m : String) :
    ("[^" ++ m ++ "]").toList = classText true m.toList := by
  simp [classText, classOpening]

/-- The caret of a class that a pattern begins with. -/
def classCaret (negated : Bool) : Option Token :=
  if negated then some ⟨.character, '^', 1⟩ else none

theorem isBare_classCaret (negated : Bool) : ∀ t ∈ classCaret negated, t.isBare '^' = true := by
  cases negated with
  | false => exact fun t ht => by cases ht
  | true =>
    rintro t ⟨⟩
    rfl

/-! ## Moving there and back -/

theorem Token.move_add_sub (k : Nat) (t : Token) : (t.move (· + k)).move (· - k) = t := by
  simp [move]

theorem Token.map_move_add_sub (k : Nat) (ts : List Token) :
    (ts.map (move (· + k))).map (move (· - k)) = ts := by
  rw [List.map_map]
  exact List.map_id'' (move_add_sub k) ts

/-- The members of moved tokens are moved members. -/
theorem Grammar.exists_members_of_moved {ms : List Member} {ts : List Token} {k : Nat}
    (hg : Greedy ms) (h : memberTokens ms = ts.map (Token.move (· + k))) :
    ∃ ms', Greedy ms' ∧ memberTokens ms' = ts ∧ ms = ms'.map (Member.move (· + k)) := by
  have hback : memberTokens (ms.map (Member.move (· - k))) = ts := by
    rw [memberTokens_move, h, Token.map_move_add_sub]
  have hgreedy := greedy_move (· - k) ms hg
  refine ⟨ms.map (Member.move (· - k)), hgreedy, hback, ?_⟩
  apply memberTokens_inj hg (greedy_move _ _ hgreedy)
  rw [memberTokens_move, hback, h]

/-! ## The derivation of a class -/

namespace Grammar

/-- The derivation of a class and nothing else. -/
def Bracketed.alone (c : Bracketed) : Regexp := .mk (.last (.mk (.charClass c) none)) .nil

theorem Bracketed.tokens_alone (c : Bracketed) : c.alone.tokens = c.tokens := by
  simp [alone, Regexp.tokens, Sequence.tokens, Quantified.tokens, Operand.tokens,
    Alternatives.tokens]

theorem Bracketed.depth_alone (c : Bracketed) : c.alone.depth = 0 := by
  simp [alone, Regexp.depth, Sequence.depth, Quantified.depth, Operand.depth, Alternatives.depth]

theorem Bracketed.expr_alone (c : Bracketed) : c.alone.expr = .chars c.charClass := rfl

/-- A sequence begins with an operand. -/
theorem Sequence.exists_operand (s : Sequence) : ∃ (o : Operand) (u : List Token),
    s.tokens = o.tokens ++ u := by
  cases s with
  | last q =>
    obtain ⟨o, quantifier⟩ := q
    exact ⟨o, _, by rw [tokens, Quantified.tokens]⟩
  | cons q rest =>
    obtain ⟨o, quantifier⟩ := q
    exact ⟨o, _, by rw [tokens, Quantified.tokens, List.append_assoc]⟩

/-- A derivation that begins with a bracket begins with a class. -/
theorem Regexp.exists_bracketed {r : Regexp} {opening : Token} {ts : List Token}
    (h : r.tokens = opening :: ts) (ho : opening.kind = .leftBracket) :
    ∃ (c : Bracketed) (u : List Token), c.tokens ++ u = opening :: ts := by
  obtain ⟨s, rest⟩ := r
  obtain ⟨o, u, hs⟩ := s.exists_operand
  rw [tokens, hs, List.append_assoc] at h
  obtain ⟨t, us, ht, hk⟩ := o.exists_tokens
  rw [ht] at h
  have hkind : o.kind = .leftBracket := by
    rw [← hk, (List.cons.inj h).1, ho]
  rw [← ht] at h
  cases o with
  | charClass c => exact ⟨c, _, h⟩
  | _ => cases hkind

theorem Bracketed.inside_brackets (c : Bracketed) :
    ∀ t ∈ c.caret.toList ++ memberTokens c.members, t.isBare ']' = false := by
  intro t ht
  rcases List.mem_append.mp ht with ht | ht
  · exact Token.isBare_eq_false (c.caret_isBare t (Option.mem_toList.mp ht)) (by decide)
  · exact c.inside t ht

/-- A class that some tokens in brackets begin with is all of them. -/
theorem Bracketed.eq_of_tokens_append {c : Bracketed} {opening closing : Token}
    {us u : List Token} (hus : ∀ t ∈ us, t.isBare ']' = false) (hcl : closing.isBare ']' = true)
    (h : c.tokens ++ u = opening :: (us ++ [closing])) :
    c.caret.toList ++ memberTokens c.members = us ∧ u = [] := by
  rw [tokens_append, ← List.append_assoc] at h
  obtain ⟨hmembers, -, hu⟩ :=
    eq_of_append_closing c.inside_brackets hus c.closing_isBare hcl (List.cons.inj h).2
  exact ⟨hmembers, hu⟩

/-- Tokens in brackets are derived as a class. -/
theorem Regexp.eq_alone_of_tokens {r : Regexp} {opening closing : Token} {us : List Token}
    (ho : opening.kind = .leftBracket) (hus : ∀ t ∈ us, t.isBare ']' = false)
    (hcl : closing.isBare ']' = true) (h : r.tokens = opening :: (us ++ [closing])) :
    ∃ c : Bracketed, r = c.alone ∧ c.caret.toList ++ memberTokens c.members = us := by
  obtain ⟨c, u, hc⟩ := exists_bracketed h ho
  obtain ⟨hmembers, rfl⟩ := Bracketed.eq_of_tokens_append hus hcl hc
  refine ⟨c, Regexp.tokens_inj ?_, hmembers⟩
  rw [c.tokens_alone, ← c.tokens.append_nil, hc, h]

end Grammar

/-! ## The body of a class -/

namespace ClassBody

variable {m : String} {ts : List Token} {r : Regexp} {negated : Bool}

/-- The tokens of a class. -/
theorem tokens_classText (h : ClassBody m ts) (negated : Bool) :
    Tokens.ofPattern (classText negated m.toList) =
      ⟨⟨.leftBracket, '[', 0⟩ :: ((classCaret negated).toList ++
        ts.map (Token.move (· + (classOpening negated).length)) ++
          [⟨.character, ']', (classOpening negated).length + m.toList.length⟩]), none⟩ := by
  cases negated with
  | false =>
    show (Reader.mk ('[' :: (m.toList ++ [']'])) 0).tokens = _
    rw [Reader.tokens_cons (by decide) (by decide) (by decide : _ = some TokenKind.leftBracket),
      Reader.tokens_followed h.tokens_eq,
      Reader.tokens_cons (by decide) (by decide) (by decide : _ = some TokenKind.character),
      Reader.tokens_nil]
    rfl
  | true =>
    show (Reader.mk ('[' :: '^' :: (m.toList ++ [']'])) 0).tokens = _
    rw [Reader.tokens_cons (by decide) (by decide) (by decide : _ = some TokenKind.leftBracket),
      Reader.tokens_cons (by decide) (by decide) (by decide : _ = some TokenKind.character),
      Reader.tokens_followed h.tokens_eq,
      Reader.tokens_cons (by decide) (by decide) (by decide : _ = some TokenKind.character),
      Reader.tokens_nil]
    rfl

theorem inside_classText (h : ClassBody m ts) (negated : Bool) :
    ∀ t ∈ (classCaret negated).toList ++ ts.map (Token.move (· + (classOpening negated).length)),
      t.isBare ']' = false := by
  intro t ht
  rcases List.mem_append.mp ht with ht | ht
  · exact Token.isBare_eq_false (isBare_classCaret negated t (Option.mem_toList.mp ht)) (by decide)
  · obtain ⟨s, hs, rfl⟩ := List.mem_map.mp ht
    exact h.inside s hs

theorem first_move (h : ClassBody m ts) (k : Nat) :
    ∀ t ∈ (ts.map (Token.move (· + k))).head?, t.isBare '^' = false := by
  intro t ht
  rw [List.head?_map] at ht
  obtain ⟨s, hs, rfl⟩ := Option.map_eq_some_iff.mp ht
  exact h.first s hs

/-- A pattern that is a class is derived as that class: its members are those of the body, further
on. -/
theorem exists_bracketed (h : ClassBody m ts)
    (hr : Tokens.ofPattern (classText negated m.toList) = ⟨r.tokens, none⟩) :
    ∃ c : Bracketed, r = c.alone ∧ c.caret = classCaret negated ∧
      memberTokens c.members = ts.map (Token.move (· + (classOpening negated).length)) := by
  have htokens := congrArg Tokens.list (hr.symm.trans (h.tokens_classText negated))
  obtain ⟨c, rfl, hc⟩ := Regexp.eq_alone_of_tokens rfl (h.inside_classText negated) rfl htokens
  have hcaret : c.caret = classCaret negated := by
    refine Bracketed.caret_eq_of_toList_append c.caret_isBare (isBare_classCaret negated)
      (fun hno => ?_) (fun _ => h.first_move _) hc
    simpa using Bracketed.isBare_of_caret_eq_none (u := []) hno
  rw [hcaret, List.append_cancel_left_eq] at hc
  exact ⟨c, rfl, hcaret, hc⟩

/-- What a class reads: the members of its body, or, if it is negated, all but them. -/
theorem exists_members (h : ClassBody m ts)
    (hr : Tokens.ofPattern (classText negated m.toList) = ⟨r.tokens, none⟩) :
    ∃ ms, Greedy ms ∧ memberTokens ms = ts ∧
      r.expr = .chars ⟨negated, ms.map Member.classMember⟩ := by
  obtain ⟨c, rfl, hcaret, hc⟩ := h.exists_bracketed hr
  obtain ⟨ms, hg, hms, hmoved⟩ := exists_members_of_moved c.greedy hc
  have hsome : c.caret.isSome = negated := by
    rw [hcaret]
    cases negated <;> rfl
  have hclass : c.members.map Member.classMember = ms.map Member.classMember := by
    rw [hmoved, List.map_map]
    exact List.map_congr_left fun m _ => m.classMember_move _
  refine ⟨ms, hg, hms, ?_⟩
  rw [c.expr_alone, Bracketed.charClass, hsome, hclass]

/-- Where there is no caret, the kind of the first token is looked at. -/
theorem first_kind (h : ClassBody m ts)
    (hr : Tokens.ofPattern (classText false m.toList) = ⟨r.tokens, none⟩) :
    ∀ t ∈ ts.head?, t.kind = .character ∨ t.kind = .escape := by
  obtain ⟨c, -, hcaret, hc⟩ := h.exists_bracketed hr
  intro t ht
  have hhead : t.move (· + (classOpening false).length) ∈ (memberTokens c.members).head? := by
    rw [hc, List.head?_map, Option.mem_def.mp ht]
    rfl
  exact (c.first hcaret _ hhead).1

/-- The class with the given members of a body. -/
def bracketed (h : ClassBody m ts) (negated : Bool) (ms : List Member) (hg : Greedy ms)
    (hms : memberTokens ms = ts) (hne : ts ≠ [])
    (hfirst : negated = false → ∀ t ∈ ts.head?, t.kind = .character ∨ t.kind = .escape) :
    Bracketed where
  opening := ⟨⟨.leftBracket, '[', 0⟩, rfl⟩
  caret := classCaret negated
  members := ms.map (Member.move (· + (classOpening negated).length))
  closing := ⟨.character, ']', (classOpening negated).length + m.toList.length⟩
  caret_isBare := isBare_classCaret negated
  ne_nil hnil := hne (by rw [← hms, List.map_eq_nil_iff.mp hnil]; rfl)
  first hcaret t ht := by
    rw [memberTokens_move, hms] at ht
    refine ⟨?_, h.first_move _ t ht⟩
    rw [List.head?_map] at ht
    obtain ⟨s, hs, rfl⟩ := Option.map_eq_some_iff.mp ht
    refine hfirst ?_ s hs
    cases negated with
    | false => rfl
    | true => cases hcaret
  inside t ht := by
    rw [memberTokens_move, hms] at ht
    exact h.inside_classText negated t (List.mem_append_right _ ht)
  greedy := greedy_move _ ms hg
  closing_isBare := rfl

/-- **When a class can be read**: its body has tokens, which can be grouped into members, and unless
it is negated, the first of them is a character or an escape. -/
theorem exists_parse_iff (h : ClassBody m ts) (negated : Bool) (limit : Nat) :
    (∃ tree, Tree.parse limit (classText negated m.toList) = .ok tree) ↔
      ts ≠ [] ∧ (∃ ms, Greedy ms ∧ memberTokens ms = ts) ∧
        (negated = false → ∀ t ∈ ts.head?, t.kind = .character ∨ t.kind = .escape) := by
  constructor
  · rintro ⟨tree, htree⟩
    obtain ⟨r, hr, -, -⟩ := exists_regexp_of_parse htree
    obtain ⟨c, -, -, hc⟩ := h.exists_bracketed hr
    obtain ⟨ms, hg, hms, -⟩ := h.exists_members hr
    refine ⟨?_, ⟨ms, hg, hms⟩, ?_⟩
    · rintro rfl
      exact c.ne_nil (memberTokens_eq_nil_iff.mp hc)
    · rintro rfl
      exact h.first_kind hr
  · rintro ⟨hne, ⟨ms, hg, hms⟩, hfirst⟩
    have hr : Tokens.ofPattern (classText negated m.toList) =
        ⟨(h.bracketed negated ms hg hms hne hfirst).alone.tokens, none⟩ := by
      rw [h.tokens_classText, Bracketed.tokens_alone, Bracketed.tokens, bracketed,
        memberTokens_move, hms]
    exact Regexp.exists_tree hr (by rw [Bracketed.depth_alone]; exact Nat.zero_le limit)

end ClassBody

/-! ## Which bodies a class may have -/

namespace Tree

variable {m : String} {ts : List Token}

/-- **The body of a class and of a negated class**: a negated class may have any body whose tokens
can be grouped into members, none a descending range. A class that is not negated may have those of
them that begin with a character or an escape. -/
theorem exists_parse_class_iff (h : ClassBody m ts) (hne : ts ≠ []) (limit : Nat) :
    ((∃ tree, parse limit ("[^" ++ m ++ "]").toList = .ok tree) ↔
      ∃ ms, Greedy ms ∧ memberTokens ms = ts) ∧
    ((∃ tree, parse limit ("[" ++ m ++ "]").toList = .ok tree) ↔
      (∃ tree, parse limit ("[^" ++ m ++ "]").toList = .ok tree) ∧
        ∀ t ∈ ts.head?, t.kind = .character ∨ t.kind = .escape) := by
  rw [toList_class, toList_negated_class, h.exists_parse_iff, h.exists_parse_iff]
  simp [hne]

/-- A body that begins with a range and has a parenthesis in it, which is a member there. -/
theorem exists_parse_class_range :
    ∃ ts, ClassBody "a-c(" ts ∧ ts ≠ [] ∧ (∃ tree, parse 0 "[^a-c(]".toList = .ok tree) ∧
      ∃ tree, parse 0 "[a-c(]".toList = .ok tree := by
  have hbody : ClassBody "a-c(" [⟨.character, 'a', 0⟩, ⟨.character, '-', 1⟩,
      ⟨.character, 'c', 2⟩, ⟨.leftParen, '(', 3⟩] :=
    ⟨by decide +kernel, by decide, by rintro t ⟨⟩; rfl⟩
  obtain ⟨hnegated, hplain⟩ := exists_parse_class_iff hbody (List.cons_ne_nil _ _) 0
  have hparse := hnegated.mpr ⟨[.range ⟨.character, 'a', 0⟩ ⟨.character, '-', 1⟩
    ⟨.character, 'c', 2⟩ rfl (by decide), .single ⟨.leftParen, '(', 3⟩],
    ⟨not_rangeFollows_nil, trivial⟩, rfl⟩
  exact ⟨_, hbody, List.cons_ne_nil _ _, hparse,
    hplain.mpr ⟨hparse, by rintro t ⟨⟩; exact .inl rfl⟩⟩

/-- A body that a negated class may have and that a class may not: the token behind the caret is not
looked at. -/
theorem parse_negated_paren :
    ClassBody "(" [⟨.leftParen, '(', 0⟩] ∧
      (∃ tree, parse 250 ("[^" ++ "(" ++ "]").toList = .ok tree) ∧
      ¬ ∃ tree, parse 250 ("[" ++ "(" ++ "]").toList = .ok tree := by
  refine ⟨⟨by decide +kernel, by decide, by rintro t ⟨⟩; rfl⟩, ?_, ?_⟩
  · rw [exists_eq_ok_iff]
    decide +kernel
  · rw [exists_eq_ok_iff]
    decide +kernel

end Tree

end PatternAutomata
