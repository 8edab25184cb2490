import PatternAutomata.Proofs.ParsingStep

/-!
# What the parser refuses

About the places at which `Parser` (in `parser`) returns an error: `unexpected` with the functions
that call it, `enter`, `regexp`, `group`, `class` and `class_members`.

`Parsing.Refuses` lists the ways in which a `Parsing` can refuse a token, each with the error, and
`Parsing.RefusesEnd` those in which it can refuse the end of a pattern. As with the ways of taking a
token, what came before may have to be settled first: an operand that gets no quantifier is pushed,
and a class that was closed becomes an operand.

Results:
* **`Parsing.refuses_iff`**: a step that fails is one of the listed ways, and each of them fails;
* **`Parsing.refusesEnd_iff`**: the same for the end of a pattern;
* `Parsing.exists_refuses_of_run`: a run that fails takes some tokens and refuses the next one;
* **`Tree.parse_error_cases`**: the three places at which a parse can fail.

Out of scope: what the pattern holds at the position of an error (`Proofs.ErrorPlaces`).
-/

namespace PatternAutomata

namespace Parsing

/-- The ways of refusing a token. -/
inductive Refuses (limit : Nat) (t : Token) : Parsing → SyntaxError → Prop
  | noOperand {s : Parsing} : s.phase = .operand → t.kind.beginsExpression = false →
    Refuses limit t s (s.unexpected t TokenKind.expressionStarts)
  | tooDeep {s : Parsing} : s.Ready → t.kind = .leftParen → limit ≤ s.depth →
    Refuses limit t s (.nestTooDeep t.position limit)
  | noContinuation {s : Parsing} : s.phase = .quantified → t.kind.beginsExpression = false →
    t.kind ≠ .pipe → (t.kind = .rightParen → s.outer = []) →
    Refuses limit t s (s.unexpected t s.branchEnds)
  | pass {s : Parsing} {e : SyntaxError} {operand : Tree} : s.phase = .quantifiable operand →
    t.kind ≠ .quantifier → Refuses limit t (s.pushed none operand) e → Refuses limit t s e
  | emptyClass {s : Parsing} {position : Nat} : s.phase = .classStart position →
    t.isBare ']' = true → Refuses limit t s (.emptyClass position)
  | noMember {s : Parsing} {position : Nat} : s.phase = .classStart position →
    ¬ (t.kind = .character ∨ t.kind = .escape) →
    Refuses limit t s (s.unexpected t [.character, .escape])
  | badClass {s : Parsing} {e : SyntaxError} {position : Nat} {negated : Bool}
    {members : List Token} : s.phase = .classEnd position negated members →
    classTree position negated members = .error e → Refuses limit t s e
  | settle {s : Parsing} {e : SyntaxError} {position : Nat} {negated : Bool}
    {members : List Token} {operand : Tree} : s.phase = .classEnd position negated members →
    classTree position negated members = .ok operand →
    Refuses limit t { s with phase := .quantifiable operand } e → Refuses limit t s e

/-- The ways of refusing the end of a pattern. -/
inductive RefusesEnd : Parsing → SyntaxError → Prop
  | missingAlternative {s : Parsing} : s.phase = .operand → s.level.complete ≠ [] →
    RefusesEnd s (.missingAlternative s.level.current.bar)
  | emptyPattern {s : Parsing} : s.phase = .operand → s.level.complete = [] → s.outer = [] →
    RefusesEnd s .emptyPattern
  | emptyGroup {s : Parsing} : s.phase = .operand → s.level.complete = [] → s.outer ≠ [] →
    RefusesEnd s (.unclosedGroup s.level.opening)
  | unclosedGroup {s : Parsing} : s.phase = .quantified → s.outer ≠ [] →
    RefusesEnd s (.unclosedGroup s.level.opening)
  | pass {s : Parsing} {e : SyntaxError} {operand : Tree} : s.phase = .quantifiable operand →
    RefusesEnd (s.pushed none operand) e → RefusesEnd s e
  | openClass {s : Parsing} {position : Nat} : s.phase = .classStart position →
    RefusesEnd s (.unclosedClass position)
  | unclosedClass {s : Parsing} {position : Nat} {negated : Bool} {members : List Token} :
    s.phase = .classBody position negated members → RefusesEnd s (.unclosedClass position)
  | badClass {s : Parsing} {e : SyntaxError} {position : Nat} {negated : Bool}
    {members : List Token} : s.phase = .classEnd position negated members →
    classTree position negated members = .error e → RefusesEnd s e
  | settle {s : Parsing} {e : SyntaxError} {position : Nat} {negated : Bool}
    {members : List Token} {operand : Tree} : s.phase = .classEnd position negated members →
    classTree position negated members = .ok operand →
    RefusesEnd { s with phase := .quantifiable operand } e → RefusesEnd s e

variable {limit : Nat} {s r : Parsing} {t : Token} {e : SyntaxError}

/-! ## Tokens -/

/-- Which error it is depends on the open groups alone. -/
theorem unexpected_congr (ho : r.outer = s.outer) (t : Token) (expected : List TokenKind) :
    r.unexpected t expected = s.unexpected t expected := by
  unfold unexpected
  rw [ho]

theorem branchEnds_congr (ho : r.outer = s.outer) : r.branchEnds = s.branchEnds := by
  unfold branchEnds
  rw [ho]

/-- Where an operand may begin, a token that begins one is only refused because of the depth. -/
theorem beginOperand_error (ht : t.kind.beginsExpression = true)
    (h : s.beginOperand limit t = .error e) :
    t.kind = .leftParen ∧ limit ≤ s.depth ∧ e = .nestTooDeep t.position limit := by
  unfold beginOperand at h
  split at h
  · cases h
  · cases h
  · cases h
  · rename_i hk
    split at h
    · rename_i hd
      cases h
      exact ⟨hk, hd, rfl⟩
    · cases h
  · rename_i hc he hb hp
    cases hk : t.kind
    case character => exact absurd hk hc
    case escape => exact absurd hk he
    case leftBracket => exact absurd hk hb
    case leftParen => exact absurd hk hp
    all_goals
      rw [hk] at ht
      cases ht

theorem beginOperand_of_not_begins (ht : t.kind.beginsExpression = false) :
    s.beginOperand limit t = .error (s.unexpected t TokenKind.expressionStarts) := by
  unfold beginOperand
  cases hk : t.kind
  case character | escape | leftBracket | leftParen =>
    rw [hk] at ht
    cases ht
  all_goals rfl

/-- What continues a branch does not look at the phase, so any state after a quantified operand with
the same levels will do. -/
theorem refuses_of_continueBranch (hr : r.phase = .quantified) (ho : r.outer = s.outer)
    (h : s.continueBranch limit t = .error e) : Refuses limit t r e := by
  unfold continueBranch at h
  split at h
  · rename_i hbegins
    obtain ⟨hk, hd, rfl⟩ := beginOperand_error hbegins h
    have hdepth : r.depth = s.depth := congrArg List.length ho
    exact .tooDeep (.inr hr) hk (hdepth ▸ hd)
  · rename_i hbegins
    split at h
    · cases h
    · cases h
    · rename_i hpipe hclose
      cases h
      rw [← unexpected_congr ho, ← branchEnds_congr ho]
      refine .noContinuation hr (Bool.eq_false_iff.mpr hbegins) hpipe fun hk => ?_
      rw [ho]
      cases houter : s.outer with
      | nil => rfl
      | cons level rest => exact absurd houter (hclose level rest hk)

theorem refuses_of_afterOperand {operand : Tree} (hr : r.phase = .quantifiable operand)
    (ho : r.outer = s.outer) (h : s.afterOperand limit operand t = .error e) :
    Refuses limit t r e := by
  unfold afterOperand at h
  split at h
  · cases h
  · rename_i hk
    refine .pass hr hk (refuses_of_continueBranch rfl ?_ h)
    exact ho

/-- **Inversion**: a step that fails refuses the token in one of the listed ways. -/
theorem refuses_of_step (h : s.step limit t = .error e) : Refuses limit t s e := by
  unfold step at h
  split at h
  · rename_i hp
    cases hbegins : t.kind.beginsExpression with
    | true =>
      obtain ⟨hk, hd, rfl⟩ := beginOperand_error hbegins h
      exact .tooDeep (.inl hp) hk hd
    | false =>
      rw [beginOperand_of_not_begins hbegins] at h
      cases h
      exact .noOperand hp hbegins
  · rename_i operand hp
    exact refuses_of_afterOperand hp rfl h
  · rename_i hp
    exact refuses_of_continueBranch hp rfl h
  · rename_i position hp
    unfold beginClass at h
    split at h
    · split at h
      · rename_i hb
        cases h
        exact .emptyClass hp hb
      · split at h <;> cases h
    · rename_i hk
      cases h
      exact .noMember hp hk
  · cases h
  · rename_i position negated members hp
    rcases bind_eq_error_iff.mp h with hc | ⟨operand, hc, h⟩
    · exact .badClass hp hc
    · refine .settle hp hc (refuses_of_afterOperand rfl ?_ h)
      rfl

/-- The converse of the inversion: each of the listed ways is a step that fails. -/
theorem step_of_refuses (h : Refuses limit t s e) : s.step limit t = .error e := by
  induction h with
  | noOperand hp hbegins =>
    rw [step, hp]
    exact beginOperand_of_not_begins hbegins
  | tooDeep hr hk hd =>
    rw [step_of_ready hr (by rw [hk]; rfl), beginOperand, hk]
    exact if_pos hd
  | noContinuation hp hbegins hpipe hclose =>
    rw [step, hp]
    show continueBranch limit _ _ = _
    rw [continueBranch, if_neg (by rw [hbegins]; exact Bool.false_ne_true)]
    split
    · rename_i hk
      exact absurd hk hpipe
    · rename_i hk ho
      rw [hclose hk] at ho
      cases ho
    · rfl
  | pass hp hk _ ih =>
    -- What continues a branch does not look at the phase, in which alone the two states differ.
    rw [step, hp]
    exact (if_neg hk).trans ih
  | emptyClass hp hb =>
    have hk := (Token.isBare_iff.mp hb).1
    rw [step, hp]
    simp [beginClass, hk, hb]
  | noMember hp hk =>
    rw [step, hp]
    exact if_neg hk
  | badClass hp hc =>
    rw [step, hp]
    simp only [hc]
    rfl
  | settle hp hc _ ih =>
    rw [step, hp]
    simp only [hc]
    exact ih

theorem refuses_iff : s.step limit t = .error e ↔ Refuses limit t s e :=
  ⟨refuses_of_step, step_of_refuses⟩

/-! ## The end of a pattern -/

theorem refusesEnd_of_close (hr : r.phase = .quantified) (ho : r.outer = s.outer)
    (hl : r.level = s.level) (h : s.close = .error e) : RefusesEnd r e := by
  unfold close at h
  split at h
  · cases h
  · rename_i houter
    cases h
    rw [← hl]
    exact .unclosedGroup hr (ho ▸ houter)

/-- **Inversion**: a pattern that cannot end here is refused in one of the listed ways. -/
theorem refusesEnd_of_finish (h : s.finish = .error e) : RefusesEnd s e := by
  unfold finish at h
  split at h
  · rename_i hp
    split at h
    · rename_i hc
      cases h
      exact .missingAlternative hp hc
    · rename_i hc
      have hc : s.level.complete = [] := Decidable.not_not.mp hc
      split at h
      · rename_i ho
        cases h
        exact .emptyPattern hp hc ho
      · rename_i ho
        cases h
        exact .emptyGroup hp hc ho
  · rename_i operand hp
    exact .pass hp (refusesEnd_of_close rfl rfl rfl h)
  · rename_i hp
    exact refusesEnd_of_close hp rfl rfl h
  · rename_i position hp
    cases h
    exact .openClass hp
  · rename_i position negated members hp
    cases h
    exact .unclosedClass hp
  · rename_i position negated members hp
    rcases bind_eq_error_iff.mp h with hc | ⟨operand, hc, h⟩
    · exact .badClass hp hc
    · exact .settle hp hc (.pass rfl (refusesEnd_of_close rfl rfl rfl h))

/-- The converse of the inversion. -/
theorem finish_of_refusesEnd (h : RefusesEnd s e) : s.finish = .error e := by
  induction h with
  | missingAlternative hp hc =>
    rw [finish, hp]
    exact if_pos hc
  | emptyPattern hp hc ho =>
    rw [finish, hp]
    exact (if_neg (not_not_intro hc)).trans (if_pos ho)
  | emptyGroup hp hc ho =>
    rw [finish, hp]
    exact (if_neg (not_not_intro hc)).trans (if_neg ho)
  | unclosedGroup hp ho =>
    rw [finish, hp]
    exact if_neg ho
  | pass hp _ ih =>
    rw [finish, hp]
    exact ih
  | openClass hp => rw [finish, hp]
  | unclosedClass hp => rw [finish, hp]
  | badClass hp hc =>
    rw [finish, hp]
    simp only [hc]
    rfl
  | settle hp hc _ ih =>
    rw [finish, hp]
    simp only [hc]
    exact ih

theorem refusesEnd_iff : s.finish = .error e ↔ RefusesEnd s e :=
  ⟨refusesEnd_of_finish, finish_of_refusesEnd⟩

/-! ## Runs -/

/-- A run that fails takes some tokens and refuses the next one. -/
theorem exists_refuses_of_run {ts : List Token} (h : s.run limit ts = .error e) :
    ∃ before t after r, ts = before ++ t :: after ∧ s.run limit before = .ok r ∧
      Refuses limit t r e := by
  induction ts generalizing s with
  | nil => cases h
  | cons t ts ih =>
    rw [run_cons] at h
    rcases bind_eq_error_iff.mp h with hstep | ⟨r, hstep, hrun⟩
    · exact ⟨[], t, ts, s, rfl, rfl, refuses_iff.mp hstep⟩
    · obtain ⟨before, u, after, r', rfl, hbefore, hrefuses⟩ := ih hrun
      refine ⟨t :: before, u, after, r', rfl, ?_, hrefuses⟩
      rw [run_cons, hstep]
      exact hbefore

end Parsing

/-- **Where a parse can fail**: some tokens are taken and the next one is refused, or all tokens are
taken and no further token can be read, or the pattern ends too early. -/
theorem Tree.parse_error_cases {limit : Nat} {p : List Char} {e : PatternError}
    (h : parse limit p = .error e) :
    (∃ before t after s e', (Tokens.ofPattern p).list = before ++ t :: after ∧
      Parsing.start.run limit before = .ok s ∧ Parsing.Refuses limit t s e' ∧
        e = .syntactic e') ∨
    (∃ f, (Tokens.ofPattern p).failure = some f ∧ e = .lexical f) ∨
    (Tokens.ofPattern p).failure = none ∧ ∃ s e',
      Parsing.start.run limit (Tokens.ofPattern p).list = .ok s ∧ Parsing.RefusesEnd s e' ∧
        e = .syntactic e' := by
  rcases Tokens.parse_eq_error_iff.mp h with
    ⟨e', hrun, he⟩ | ⟨s, hrun, ⟨f, hf, he⟩ | ⟨hno, e', hfinish, he⟩⟩
  · obtain ⟨before, t, after, s, hts, hbefore, hrefuses⟩ := Parsing.exists_refuses_of_run hrun
    exact .inl ⟨before, t, after, s, e', hts, hbefore, hrefuses, he⟩
  · exact .inr (.inl ⟨f, hf, he⟩)
  · exact .inr (.inr ⟨hno, s, e', hrun, Parsing.refusesEnd_iff.mp hfinish, he⟩)

end PatternAutomata
