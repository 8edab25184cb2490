import PatternAutomata.Proofs.Extension
import PatternAutomata.Proofs.OpenBrackets
import PatternAutomata.Proofs.Refusal
import PatternAutomata.Proofs.TokenPlaces

/-!
# Tokens out of place

About `unexpected` (in `parser`) and the kinds that its callers pass to it.

A token that does not fit is reported with the kinds that would, and a closing parenthesis is
reported as such where no group is open. Both reports are made without a look at what came just
before, and each is misleading in one place. Behind a quantifier a further quantifier is refused,
but outside groups the kinds that are named are those behind an operand, with the quantifier among
them. And right behind an opening bracket a closing parenthesis is reported as one that closes no
group, although it stands in a class.

Results:
* `Parsing.Refuses.report`: the states in which errors are found at a token;
* **`Tree.parse_unexpectedToken`**: the token that is reported, and when its own kind is named;
* **`Tree.parse_unbalancedParenthesis`**: the parenthesis that is reported, and what is open there;
* `Tree.parse_star_star`, `Tree.parse_bracket_paren`: the two misleading reports.

Out of scope: the order in which the kinds are listed.
-/

namespace PatternAutomata

namespace Parsing

variable {limit : Nat} {s s' : Parsing} {t : Token} {ts : List Token}

/-! ## States -/

/-- An operand has its quantifier right behind that quantifier only. -/
theorem quantified_iff_of_takes (h : Takes limit t s s') :
    s'.phase = .quantified ↔ t.kind = .quantifier ∧ s'.phase.openClass = none := by
  induction h with
  | character _ hk | escape _ hk | openClass _ hk | openGroup _ hk _ | bar _ hk
  | closeGroup _ hk _ => simp [hk]
  | quantify _ hk => simp [hk, pushed, Phase.openClass]
  | pass _ _ _ ih | settle _ _ _ ih => exact ih
  | negate _ _ | firstMember _ _ _ _ | member _ _ => simp [Phase.openClass]
  | closeClass _ hb => simp [(Token.isBare_iff.mp hb).1]

/-- The same in terms of all tokens taken. -/
theorem quantified_iff_of_run (h : start.run limit ts = .ok s) :
    s.phase = .quantified ↔
      (∃ q ∈ ts.getLast?, q.kind = .quantifier) ∧ s.phase.openClass = none := by
  refine @run_induction_read limit start s (fun ts s => s.phase = .quantified ↔
    (∃ q ∈ ts.getLast?, q.kind = .quantifier) ∧ s.phase.openClass = none) ?_ [] ts ?_ h
  · intro us t s s' ht _
    rw [quantified_iff_of_takes ht, List.getLast?_concat]
    simp
  · simp [start]

/-- A class is at its start right behind its bracket only. -/
theorem opening_of_takes (h : Takes limit t s s') {k : Nat} (hp : s'.phase = .classStart k) :
    t.kind = .leftBracket ∧ t.position = k := by
  induction h with
  | openClass _ hk => exact ⟨hk, Phase.classStart.inj hp⟩
  | pass _ _ _ ih | settle _ _ _ ih => exact ih hp
  | _ => exact Phase.noConfusion hp

/-- The same in terms of all tokens taken. -/
theorem exists_opening_of_run (h : start.run limit ts = .ok s) {k : Nat}
    (hp : s.phase = .classStart k) :
    ∃ us opening, ts = us ++ [opening] ∧ opening.kind = .leftBracket ∧ opening.position = k := by
  refine @run_induction_read limit start s (fun ts s => s.phase = .classStart k →
    ∃ us opening, ts = us ++ [opening] ∧ opening.kind = .leftBracket ∧ opening.position = k)
    ?_ [] ts Phase.noConfusion h hp
  intro us t s s' ht _ hp
  exact ⟨us, t, rfl, opening_of_takes ht hp⟩

/-! ## Refusals -/

/-- Outside groups, a quantifier that cannot be taken is of one of the kinds that are named. -/
theorem mem_branchEnds_iff (hpipe : t.kind ≠ .pipe) (hclose : t.kind = .rightParen → s.outer = [])
    (hend : t.kind ≠ .patternEnd) :
    t.kind ∈ s.branchEnds ↔ t.kind = .quantifier ∧ s.outer = [] := by
  unfold branchEnds
  split
  · rename_i ho
    simp [ho, hpipe, hend]
  · rename_i ho
    have hkind : t.kind ≠ .rightParen := fun hk => ho (hclose hk)
    simp [ho, hkind]

theorem unexpected_eq_unexpectedToken {kinds expected : List TokenKind} {position : Nat}
    {found : TokenKind} (h : s.unexpected t kinds = .unexpectedToken position found expected) :
    t.position = position ∧ t.kind = found ∧ kinds = expected := by
  unfold unexpected at h
  split at h
  · cases h
  · cases h
    exact ⟨rfl, rfl, rfl⟩

theorem unexpected_eq_unbalancedParenthesis {kinds : List TokenKind} {position : Nat}
    (h : s.unexpected t kinds = .unbalancedParenthesis position) :
    t.kind = .rightParen ∧ t.position = position ∧ s.outer = [] := by
  unfold unexpected at h
  split at h
  · rename_i hc
    cases h
    exact ⟨hc.1, rfl, hc.2⟩
  · cases h

/-- The kinds that are named when a token is refused. Its own kind is one of them only where an
operand has its quantifier, outside groups. In a class kinds are named only right behind its
bracket. -/
structure Expects (s : Parsing) (t : Token) (kinds : List TokenKind) : Prop where
  mem_iff : t.kind ≠ .patternEnd →
    (t.kind ∈ kinds ↔ t.kind = .quantifier ∧ s.outer = [] ∧ s.phase = .quantified)
  classStart : ∀ k ∈ s.phase.openClass, s.phase = .classStart k

/-- **What is behind the refusal of a token**, whatever had to be settled first: the token is of no
kind that is expected, it opens a group too many, or a class is not well formed. -/
theorem Refuses.report {e : SyntaxError} (h : Refuses limit t s e) :
    (∃ kinds, e = s.unexpected t kinds ∧ s.Expects t kinds) ∨
    (e = .nestTooDeep t.position limit ∧ t.kind = .leftParen ∧ limit ≤ s.depth ∧
      s.phase.openClass = none) ∨
    (∃ k, s.phase = .classStart k ∧ t.isBare ']' = true ∧ e = .emptyClass k) ∨
    ∃ k negated members, s.phase = .classEnd k negated members ∧
      classTree k negated members = .error e := by
  induction h with
  | noOperand hp hbegins =>
    refine .inl ⟨_, rfl, fun _ => ?_, by simp [hp, Phase.openClass]⟩
    simp [TokenKind.mem_expressionStarts, hbegins, hp]
  | tooDeep hr hk hd => exact .inr (.inl ⟨rfl, hk, hd, hr.openClass_eq_none⟩)
  | noContinuation hp _ hpipe hclose =>
    refine .inl ⟨_, rfl, fun hend => ?_, by simp [hp, Phase.openClass]⟩
    simp [mem_branchEnds_iff hpipe hclose hend, hp]
  | noMember hp hk =>
    refine .inl ⟨_, rfl, fun _ => ?_, by simp [hp, Phase.openClass]⟩
    simp [hk, hp]
  | emptyClass hp hb => exact .inr (.inr (.inl ⟨_, hp, hb, rfl⟩))
  | badClass hp hc => exact .inr (.inr (.inr ⟨_, _, _, hp, hc⟩))
  | pass hp hk _ ih =>
    -- The operand gets no quantifier, so the token is none.
    rcases ih with ⟨kinds, he, hmem, -⟩ | ⟨he, hk, hd, -⟩ | ⟨_, h, _⟩ | ⟨_, _, _, h, _⟩
    · refine .inl ⟨kinds, he, fun hend => ?_, by simp [hp, Phase.openClass]⟩
      simp [hmem hend, hk]
    · exact .inr (.inl ⟨he, hk, hd, by rw [hp]; rfl⟩)
    · exact Phase.noConfusion h
    · exact Phase.noConfusion h
  | settle hp _ _ ih =>
    rcases ih with ⟨kinds, he, hmem, -⟩ | ⟨he, hk, hd, -⟩ | ⟨_, h, _⟩ | ⟨_, _, _, h, _⟩
    · refine .inl ⟨kinds, he, fun hend => ?_, by simp [hp, Phase.openClass]⟩
      simp [hmem hend, hp]
    · exact .inr (.inl ⟨he, hk, hd, by rw [hp]; rfl⟩)
    · exact Phase.noConfusion h
    · exact Phase.noConfusion h

/-- An error about a token that does not fit. -/
theorem Refuses.exists_unexpected {e : SyntaxError} (h : Refuses limit t s e)
    (hdeep : ∀ k, e ≠ .nestTooDeep k limit) (hclass : ¬ e.AboutClass) :
    ∃ kinds, e = s.unexpected t kinds ∧ s.Expects t kinds := by
  rcases h.report with h | ⟨he, _⟩ | ⟨k, _, _, he⟩ | ⟨_, _, _, _, hc⟩
  · exact h
  · exact absurd he (hdeep t.position)
  · exact absurd (.inl ⟨k, he⟩) hclass
  · exact absurd (classTree_error hc) hclass

/-- These reports are never made at the end of a pattern. -/
theorem RefusesEnd.atEnd_or_aboutClass {e : SyntaxError} (h : RefusesEnd s e) :
    e.atEnd = true ∨ e.AboutClass := by
  cases he : e.atEnd with
  | true => exact .inl rfl
  | false =>
    obtain ⟨_, _, _, -, hc⟩ := classTree_of_finish (refusesEnd_iff.mpr h) he
    exact .inr (classTree_error hc)

end Parsing

/-! ## Patterns -/

namespace Tree

variable {limit position : Nat} {p : List Char}

/-- An error about a token that does not fit is found at that token. -/
theorem exists_unexpected_of_parse {e : SyntaxError} (h : parse limit p = .error (.syntactic e))
    (hend : e.atEnd = false) (hdeep : ∀ k, e ≠ .nestTooDeep k limit) (hclass : ¬ e.AboutClass) :
    ∃ before t after s kinds, (Tokens.ofPattern p).list = before ++ t :: after ∧ t.StandsIn p ∧
      Parsing.start.run limit before = .ok s ∧ e = s.unexpected t kinds ∧ s.Expects t kinds := by
  rcases parse_error_cases h with
    ⟨before, t, after, s, e', hts, hrun, hrefuses, he⟩ | ⟨_, _, he⟩ | ⟨_, s, e', _, hrefuses, he⟩
  · cases he
    obtain ⟨kinds, hunexpected⟩ := hrefuses.exists_unexpected hdeep hclass
    refine ⟨before, t, after, s, kinds, hts, Tokens.standsIn_of_mem ?_, hrun, hunexpected⟩
    rw [hts]
    exact List.mem_append_right before List.mem_cons_self
  · cases he
  · cases he
    rcases hrefuses.atEnd_or_aboutClass with h | h
    · exact absurd (hend.symm.trans h) Bool.false_ne_true
    · exact absurd h hclass

/-- **A token that does not fit**: a token of the kind that is reported stands at the position that
is reported. Its kind is among the expected ones in one case only: outside all groups and classes, a
quantifier right behind a quantifier. -/
theorem parse_unexpectedToken {found : TokenKind} {expected : List TokenKind}
    (h : parse limit p = .error (.syntactic (.unexpectedToken position found expected))) :
    ∃ before t after, (Tokens.ofPattern p).list = before ++ t :: after ∧ t.StandsIn p ∧
      t.position = position ∧ t.kind = found ∧
      (found ∈ expected ↔ found = .quantifier ∧ openBrackets before = .empty ∧
        ∃ q ∈ before.getLast?, q.kind = .quantifier) := by
  obtain ⟨before, t, after, s, kinds, hts, hstands, hrun, he, hexpects⟩ :=
    exists_unexpected_of_parse h rfl (fun _ => SyntaxError.noConfusion)
      (by rintro (⟨_, h⟩ | ⟨_, _, _, h⟩) <;> cases h)
  obtain ⟨hposition, rfl, rfl⟩ := Parsing.unexpected_eq_unexpectedToken he.symm
  refine ⟨before, t, after, hts, hstands, hposition, rfl,
    (hexpects.mem_iff hstands.kind_ne_patternEnd).trans (and_congr_right fun _ => ?_)⟩
  rw [Parsing.openBrackets_of_run hrun, Parsing.brackets_eq_empty_iff,
    Parsing.quantified_iff_of_run hrun, and_assoc, and_comm (b := s.phase.openClass = none)]

/-- A bar where an operand has to begin. -/
theorem parse_unexpectedToken_bar :
    parse 250 "a(|".toList = .error (.syntactic
      (.unexpectedToken 2 .pipe [.character, .escape, .leftBracket, .leftParen])) ∧
      ∃ before t after, (Tokens.ofPattern "a(|".toList).list = before ++ t :: after ∧
        t.StandsIn "a(|".toList ∧ t.position = 2 ∧ t.kind = .pipe ∧
        (.pipe ∈ [TokenKind.character, .escape, .leftBracket, .leftParen] ↔
          TokenKind.pipe = .quantifier ∧ openBrackets before = .empty ∧
            ∃ q ∈ before.getLast?, q.kind = .quantifier) := by
  have h : parse 250 "a(|".toList = .error (.syntactic
      (.unexpectedToken 2 .pipe [.character, .escape, .leftBracket, .leftParen])) := by
    cbv
  exact ⟨h, parse_unexpectedToken h⟩

/-- A quantifier behind a quantifier is refused, and a quantifier is what is asked for. -/
theorem parse_star_star : ∃ position found expected,
    parse 250 "a**".toList = .error (.syntactic (.unexpectedToken position found expected)) ∧
      found ∈ expected :=
  ⟨2, .quantifier, [.quantifier, .pipe, .patternEnd], by cbv, by decide⟩

/-- **A closing parenthesis that closes no group**: no group is open there, and no class is, unless
its bracket stands right before the parenthesis. -/
theorem parse_unbalancedParenthesis
    (h : parse limit p = .error (.syntactic (.unbalancedParenthesis position))) :
    ∃ before t after, (Tokens.ofPattern p).list = before ++ t :: after ∧ t.kind = .rightParen ∧
      t.position = position ∧ p[position]? = some ')' ∧ (openBrackets before).groups = [] ∧
      ∀ k ∈ (openBrackets before).charClass, ∃ us opening, before = us ++ [opening] ∧
        opening.kind = .leftBracket ∧ opening.position = k := by
  obtain ⟨before, t, after, s, kinds, hts, hstands, hrun, he, hexpects⟩ :=
    exists_unexpected_of_parse h rfl (fun _ => SyntaxError.noConfusion)
      (by rintro (⟨_, h⟩ | ⟨_, _, _, h⟩) <;> cases h)
  obtain ⟨hkind, rfl, ho⟩ := Parsing.unexpected_eq_unbalancedParenthesis he.symm
  refine ⟨before, t, after, hts, hkind, rfl, hstands.getElem?_eq_sign (by rw [hkind]; rfl), ?_⟩
  rw [Parsing.openBrackets_of_run hrun]
  exact ⟨Parsing.groups_eq_nil_iff.mpr ho, fun k hk =>
    Parsing.exists_opening_of_run hrun (hexpects.classStart k hk)⟩

/-- The parenthesis behind a class and a group. -/
theorem parse_unbalancedParenthesis_group :
    parse 250 "([a(]))".toList = .error (.syntactic (.unbalancedParenthesis 6)) ∧
      ∃ before t after, (Tokens.ofPattern "([a(]))".toList).list = before ++ t :: after ∧
        t.kind = .rightParen ∧ t.position = 6 ∧ "([a(]))".toList[6]? = some ')' ∧
        (openBrackets before).groups = [] ∧
        ∀ k ∈ (openBrackets before).charClass, ∃ us opening, before = us ++ [opening] ∧
          opening.kind = .leftBracket ∧ opening.position = k := by
  have h : parse 250 "([a(]))".toList = .error (.syntactic (.unbalancedParenthesis 6)) := by cbv
  exact ⟨h, parse_unbalancedParenthesis h⟩

/-- A parenthesis in a class that is reported as one that closes no group. -/
theorem parse_bracket_paren :
    parse 250 "[)".toList = .error (.syntactic (.unbalancedParenthesis 1)) ∧
      ∃ before t after, (Tokens.ofPattern "[)".toList).list = before ++ t :: after ∧
        t.position = 1 ∧ (openBrackets before).charClass = some 0 :=
  ⟨by cbv, [⟨.leftBracket, '[', 0⟩], ⟨.rightParen, ')', 1⟩, [], by decide +kernel, rfl, rfl⟩

end Tree

end PatternAutomata
