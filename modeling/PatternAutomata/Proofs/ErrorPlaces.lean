import PatternAutomata.Proofs.OutOfPlace
import PatternAutomata.Proofs.ParserSoundness
import PatternAutomata.Regex.Basic

/-!
# The place of an error

About `position` of a `CompileError` (at the top level), for every error of `LexError` (in `lexer`)
and of `SyntaxError` (in `parser`).

The position of an error is the offset of the character that is to blame. `OccursIn` says, for each
error, what stands there and what the rest of the pattern has to be for this to be an error: which
brackets are open, which tokens stand around it, or that nothing follows. The only error without a
position is that there is no token.

Results:
* `Parsing.RefusesEnd.report`: the states in which errors are found at the end;
* `SyntaxError.occursIn_of_refuses`, `SyntaxError.occursIn_of_refusesEnd`: an error found at a token
  or at the end is where it says;
* **`Tree.parse_error_occursIn`**: every error of a pattern is where it says, and it says so unless
  the pattern holds nothing but blanks.

Out of scope: the error about too many states, which has no position, and the messages.
-/

namespace PatternAutomata

open Grammar

/-! ## Where an error is -/

/-- What an error of a pattern whose groups may be nested `limit` deep says about the pattern. -/
def SyntaxError.OccursIn (limit : Nat) (p : List Char) : SyntaxError → Prop
  | .emptyPattern => ∀ c ∈ p, Token.isBlank c = true
  | .unexpectedToken k found expected => ∃ before t after s,
      (Tokens.ofPattern p).list = before ++ t :: after ∧ t.StandsIn p ∧ t.position = k ∧
        t.kind = found ∧ Parsing.start.run limit before = .ok s ∧
        s.step limit t = .error (.unexpectedToken k found expected)
  | .unexpectedEnd _ _ => False
  | .unclosedGroup k => p[k]? = some '(' ∧ ∃ ts, Tokens.ofPattern p = ⟨ts, none⟩ ∧
      (openBrackets ts).groups.head? = some k
  | .unbalancedParenthesis k => p[k]? = some ')' ∧ ∃ before t after,
      (Tokens.ofPattern p).list = before ++ t :: after ∧ t.kind = .rightParen ∧ t.position = k ∧
        (openBrackets before).groups = []
  | .emptyClass k => p[k]? = some '[' ∧ ∃ before opening caret closing after,
      (Tokens.ofPattern p).list = before ++ opening :: (Option.toList caret ++ closing :: after) ∧
        opening.kind = .leftBracket ∧ opening.position = k ∧
        (∀ t ∈ caret, t.isBare '^' = true) ∧ closing.isBare ']' = true ∧
        (openBrackets (before ++ opening :: caret.toList)).charClass = some k
  | .unclosedClass k => p[k]? = some '[' ∧ ∃ ts, Tokens.ofPattern p = ⟨ts, none⟩ ∧
      (openBrackets ts).charClass = some k
  | .missingAlternative k => p[k]? = some '|' ∧ (∀ c ∈ p.drop (k + 1), Token.isBlank c = true) ∧
      ∃ before bar, Tokens.ofPattern p = ⟨before ++ [bar], none⟩ ∧ bar.kind = .pipe ∧
        bar.position = k
  | .invalidRange k start stop => ∃ before lo dash hi after,
      (Tokens.ofPattern p).list = before ++ lo :: dash :: hi :: after ∧
        (openBrackets before).charClass.isSome = true ∧ lo.StandsIn p ∧ lo.position = k ∧
        lo.value = start ∧ dash.isBare '-' = true ∧ hi.value = stop ∧ stop < start
  | .nestTooDeep k l => l = limit ∧ p[k]? = some '(' ∧ ∃ before t after,
      (Tokens.ofPattern p).list = before ++ t :: after ∧ t.kind = .leftParen ∧ t.position = k ∧
        (openBrackets before).groups.length = limit ∧ (openBrackets before).charClass = none

/-- What an error says about the pattern. -/
def PatternError.OccursIn (limit : Nat) (p : List Char) : PatternError → Prop
  | .lexical e => e.OccursIn p
  | .syntactic e => e.OccursIn limit p

variable {limit k : Nat} {p : List Char} {before after ts us : List Token} {t : Token}

theorem SyntaxError.OccursIn.position_lt {e : SyntaxError} (h : e.OccursIn limit p) :
    ∀ k ∈ e.position?, k < p.length := by
  intro k hk
  cases e with
  | emptyPattern => cases hk
  | unexpectedEnd => exact h.elim
  | unexpectedToken =>
    obtain ⟨_, t, _, _, _, ht, rfl, _⟩ := h
    cases hk
    exact ht.position_lt
  | invalidRange =>
    obtain ⟨_, lo, _, _, _, _, _, hlo, rfl, _⟩ := h
    cases hk
    exact hlo.position_lt
  | nestTooDeep =>
    cases hk
    exact (List.getElem?_eq_some_iff.mp h.2.1).1
  | _ =>
    cases hk
    exact (List.getElem?_eq_some_iff.mp h.1).1

theorem PatternError.OccursIn.position_lt {e : PatternError} (h : e.OccursIn limit p) :
    ∀ k ∈ e.position?, k < p.length := by
  cases e with
  | lexical e =>
    intro k hk
    cases hk
    exact LexicalError.OccursIn.position_lt h
  | syntactic e => exact SyntaxError.OccursIn.position_lt h

/-! ## The states in which errors are found -/

namespace Parsing

variable {s : Parsing} {e : SyntaxError}

/-- What is behind the refusal of the end. -/
theorem RefusesEnd.report (h : RefusesEnd s e) :
    (s.phase = .operand ∧ s.level.complete ≠ [] ∧ e = .missingAlternative s.level.current.bar) ∨
    (s.phase = .operand ∧ s.level.complete = [] ∧ s.outer = [] ∧ e = .emptyPattern) ∨
    (s.outer ≠ [] ∧ e = .unclosedGroup s.level.opening) ∨
    (∃ k ∈ s.phase.openClass, e = .unclosedClass k) ∨
    ∃ k negated members, s.phase = .classEnd k negated members ∧
      classTree k negated members = .error e := by
  induction h with
  | missingAlternative hp hc => exact .inl ⟨hp, hc, rfl⟩
  | emptyPattern hp hc ho => exact .inr (.inl ⟨hp, hc, ho, rfl⟩)
  | emptyGroup _ _ ho | unclosedGroup _ ho => exact .inr (.inr (.inl ⟨ho, rfl⟩))
  | openClass hp | unclosedClass hp =>
    exact .inr (.inr (.inr (.inl ⟨_, by rw [hp]; rfl, rfl⟩)))
  | badClass hp hc => exact .inr (.inr (.inr (.inr ⟨_, _, _, hp, hc⟩)))
  | pass hp _ ih | settle hp _ _ ih =>
    rcases ih with ⟨h, _⟩ | ⟨h, _⟩ | h | ⟨_, h, _⟩ | ⟨_, _, _, h, _⟩
    · exact Phase.noConfusion h
    · exact Phase.noConfusion h
    · exact .inr (.inr (.inl h))
    · cases h
    · exact Phase.noConfusion h

/-! ## Empty branches -/

/-- Where an operand has to begin, the branch has none. -/
theorem items_eq_nil_of_run (h : start.run limit ts = .ok s) (hp : s.phase = .operand) :
    s.level.current.items = [] := by
  refine @run_induction limit start s (fun _ => True)
    (fun s => s.phase = .operand → s.level.current.items = []) ?_ ts (fun _ _ => trivial)
    (fun _ => rfl) h hp
  intro t s s' _ ht _
  induction ht with
  | openGroup | bar => exact fun _ => rfl
  | pass _ _ _ ih | settle _ _ _ ih => exact ih fun h => Phase.noConfusion h
  | _ => exact fun h => Phase.noConfusion h

end Parsing

theorem Items.eq_nil {d : Nat} (h : Items d [] ts) : ts = [] := by
  cases h
  rfl

/-- Without a bar and an operand there is no token. -/
theorem Parsing.eq_nil_of_run {s : Parsing} (h : start.run limit ts = .ok s)
    (hp : s.phase = .operand) (hc : s.level.complete = []) (ho : s.outer = []) : ts = [] := by
  have hitems := items_eq_nil_of_run h hp
  obtain @⟨d, around, inside, pending, ha, hb, hphase, -, rfl⟩ := reads_of_run h
  obtain rfl := hphase.eq_nil_of_ready (.inl hp)
  rw [ho] at ha
  rw [hc] at hb
  generalize s.level.opening = position at ha
  generalize s.level.current = current at hb hitems
  cases ha
  cases hb with
  | first hi =>
    rw [hitems] at hi
    rw [hi.eq_nil]
    rfl

/-- With a bar and no operand behind it, the bar is the last token. -/
theorem Parsing.exists_bar_of_run {s : Parsing} (h : start.run limit ts = .ok s)
    (hp : s.phase = .operand) (hc : s.level.complete ≠ []) :
    ∃ us, ∃ bar : Terminal .pipe, ts = us ++ [bar.1] ∧ bar.1.position = s.level.current.bar := by
  have hitems := items_eq_nil_of_run h hp
  obtain @⟨d, around, inside, pending, ha, hb, hphase, -, rfl⟩ := reads_of_run h
  obtain rfl := hphase.eq_nil_of_ready (.inl hp)
  generalize s.level.current = current at hb hitems
  generalize s.level.complete = complete at hb hc
  cases hb with
  | first => exact absurd rfl hc
  | @next _ _ _ us _ bar _ _ hbar hi =>
    rw [hitems] at hi
    obtain rfl := hi.eq_nil
    exact ⟨around ++ us, bar, by simp, hbar.symm⟩

/-! ## Classes -/

namespace Parsing

variable {s : Parsing} {e : SyntaxError}

/-- A class is closed from within only. -/
theorem classBody_of_takes {s' : Parsing} (h : Takes limit t s s') {negated : Bool}
    {members : List Token} (hp : s'.phase = .classEnd k negated members) :
    s.phase = .classBody k negated members := by
  induction h with
  | closeClass hp' _ =>
    cases hp
    exact hp'
  | pass _ _ _ ih | settle _ _ _ ih => exact Phase.noConfusion (ih hp)
  | _ => exact Phase.noConfusion hp

/-- Before its closing bracket a class is open. -/
theorem charClass_of_run (h : start.run limit (ts ++ [t]) = .ok s) {negated : Bool}
    {members : List Token} (hp : s.phase = .classEnd k negated members) :
    (openBrackets ts).charClass = some k := by
  rw [run_append] at h
  obtain ⟨r, hrun, h⟩ := bind_eq_ok_iff.mp h
  obtain ⟨s', hstep, h⟩ := bind_eq_ok_iff.mp ((run_cons limit r t []).symm.trans h)
  cases h
  rw [openBrackets_of_run hrun, brackets, classBody_of_takes (takes_of_step hstep) hp]
  rfl

/-- The class that was just closed. -/
theorem exists_class_of_run (h : start.run limit ts = .ok s) {negated : Bool}
    {members : List Token} (hp : s.phase = .classEnd k negated members) :
    ∃ (us : List Token) (c : OpenClass) (closing : Token), ts = us ++ c.tokens ++ [closing] ∧
      c.opening.1.position = k ∧ c.members = members ∧ closing.isBare ']' = true ∧
      (openBrackets (us ++ c.tokens)).charClass = some k := by
  obtain @⟨d, around, inside, pending, -, -, hphase, -, rfl⟩ := reads_of_run h
  rw [hp] at hphase
  cases hphase with
  | @classEnd c closing hb =>
    rw [← List.append_assoc] at h
    exact ⟨around ++ inside, c, closing, (List.append_assoc _ _ _).symm, rfl, rfl, hb,
      charClass_of_run h hp⟩

end Parsing

namespace SyntaxError

variable {s : Parsing} {e : SyntaxError}

/-- An error about a class is where it says. -/
theorem occursIn_of_classTree (hts : (Tokens.ofPattern p).list = ts ++ after)
    (hrun : Parsing.start.run limit ts = .ok s) {negated : Bool} {members : List Token}
    (hp : s.phase = .classEnd k negated members) (hc : classTree k negated members = .error e) :
    e.OccursIn limit p := by
  obtain ⟨us, c, closing, rfl, rfl, rfl, hb, hopen⟩ := Parsing.exists_class_of_run hrun hp
  unfold classTree at hc
  split at hc
  · rename_i hnil
    cases hc
    have htokens : c.tokens = c.opening.1 :: c.caret.toList := by
      rw [OpenClass.tokens, List.isEmpty_iff.mp hnil, List.reverse_nil, List.append_nil]
    rw [htokens] at hts hopen
    refine ⟨Tokens.getElem?_eq_sign ?_ (by rw [c.opening.2]; rfl), us, c.opening.1, c.caret,
      closing, after, ?_, c.opening.2, rfl, c.caret_isBare, hb, hopen⟩
    · simp [hts]
    · simp [hts]
  · rcases bind_eq_error_iff.mp hc with hc | ⟨_, -, hc⟩
    · obtain ⟨vs, lo, dash, hi, ws, hmembers, hd, hlt, rfl⟩ := exists_range_of_classMembers hc
      have htokens : (Tokens.ofPattern p).list =
          us ++ [c.opening.1] ++ (c.caret.toList ++ vs) ++ lo :: dash :: hi ::
            (ws ++ [closing] ++ after) := by
        simp [hts, OpenClass.tokens, hmembers]
      refine ⟨us ++ [c.opening.1] ++ (c.caret.toList ++ vs), lo, dash, hi, _, htokens, ?_,
        Tokens.standsIn_of_mem (by simp [htokens]), rfl, rfl, hd, rfl, hlt⟩
      obtain ⟨j, hj⟩ := exists_charClass us c.opening.2
      rw [openBrackets_append_inside hj, hj]
      · rfl
      · intro t ht
        rcases List.mem_append.mp ht with ht | ht
        · exact Token.isBare_eq_false (c.caret_isBare t (Option.mem_toList.mp ht)) (by decide)
        · exact c.inside t (List.mem_reverse.mp (hmembers ▸ List.mem_append_left _ ht))
    · cases hc

/-- **An error found at a token** is where it says. -/
theorem occursIn_of_refuses (hts : (Tokens.ofPattern p).list = before ++ t :: after)
    (hrun : Parsing.start.run limit before = .ok s) (h : Parsing.Refuses limit t s e) :
    e.OccursIn limit p := by
  have ht : t ∈ (Tokens.ofPattern p).list := by simp [hts]
  have hopen : openBrackets before = s.brackets := Parsing.openBrackets_of_run hrun
  -- a token that does not fit, a group too many, the end of an empty class, a class behind its end
  rcases h.report with
    ⟨kinds, he, -⟩ | ⟨rfl, hk, hd, hclass⟩ | ⟨k, hp, hb, rfl⟩ | ⟨k, negated, members, hp, hc⟩
  · have hstep := Parsing.refuses_iff.mpr h
    unfold Parsing.unexpected at he
    split at he
    · rename_i hc
      subst he
      refine ⟨Tokens.getElem?_eq_sign ht (by rw [hc.1]; rfl), before, t, after, hts, hc.1, rfl, ?_⟩
      rw [hopen]
      exact Parsing.groups_eq_nil_iff.mpr hc.2
    · subst he
      exact ⟨before, t, after, s, hts, Tokens.standsIn_of_mem ht, rfl, rfl, hrun, hstep⟩
  · -- No more groups are open than the limit allows, whatever the parser has taken.
    obtain ⟨ha, -⟩ := Parsing.reads_of_run hrun
    have hdepth := ha.depth_add
    refine ⟨rfl, Tokens.getElem?_eq_sign ht (by rw [hk]; rfl), before, t, after, hts, hk, rfl,
      ?_, ?_⟩
    · rw [hopen, Parsing.length_groups]
      unfold Parsing.depth at hd ⊢
      omega
    · rw [hopen]
      exact hclass
  · obtain ⟨us, opening, rfl, hk, rfl⟩ := Parsing.exists_opening_of_run hrun hp
    refine ⟨Tokens.getElem?_eq_sign (by simp [hts]) (by rw [hk]; rfl), us, opening, none, t, after,
      ?_, hk, rfl, fun _ h => absurd h.symm (Option.some_ne_none _), hb, ?_⟩
    · simp [hts]
    · rw [Option.toList_none, hopen, Parsing.brackets, hp]
      rfl
  · exact occursIn_of_classTree hts hrun hp hc

/-- **An error found at the end** is where it says. -/
theorem occursIn_of_refusesEnd (hts : Tokens.ofPattern p = ⟨ts, none⟩)
    (hrun : Parsing.start.run limit ts = .ok s) (h : Parsing.RefusesEnd s e) :
    e.OccursIn limit p := by
  have hopen : openBrackets ts = s.brackets := Parsing.openBrackets_of_run hrun
  have hmem : ∀ t ∈ ts, t ∈ (Tokens.ofPattern p).list := fun t ht => by rwa [hts]
  -- behind a bar, before any token, in a group, in a class, behind a class
  rcases h.report with ⟨hp, hc, rfl⟩ | ⟨hp, hc, ho, rfl⟩ | ⟨ho, rfl⟩ | ⟨k, hk, rfl⟩ |
    ⟨k, negated, members, hp, hc⟩
  · obtain ⟨us, bar, rfl, hbar⟩ := Parsing.exists_bar_of_run hrun hp hc
    rw [← hbar]
    exact ⟨Tokens.getElem?_eq_sign (hmem _ (by simp)) (by rw [bar.2]; rfl),
      Tokens.isBlank_of_last hts (bar.kind_ne (by decide)), us, bar.1, hts, bar.2, rfl⟩
  · rw [Parsing.eq_nil_of_run hrun hp hc ho] at hts
    exact Tokens.ofPattern_eq_nil_iff.mp hts
  · have hhead := hopen ▸ Parsing.head?_groups ho
    obtain ⟨t, ht, hk, hposition⟩ :=
      (openBrackets_among ts).groups _ (List.mem_of_head? hhead)
    refine ⟨?_, ts, hts, hhead⟩
    rw [← hposition]
    exact Tokens.getElem?_eq_sign (hmem t ht) (by rw [hk]; rfl)
  · have hclass : (openBrackets ts).charClass = some k := hopen ▸ hk
    obtain ⟨t, ht, hkind, rfl⟩ := (openBrackets_among ts).charClass k hclass
    exact ⟨Tokens.getElem?_eq_sign (hmem t ht) (by rw [hkind]; rfl), ts, hts, hclass⟩
  · have hlist : (Tokens.ofPattern p).list = ts ++ [] := by rw [hts, List.append_nil]
    exact occursIn_of_classTree hlist hrun hp hc

end SyntaxError

/-! ## Patterns -/

namespace Tree

theorem occursIn_of_parse {e : PatternError} (h : parse limit p = .error e) :
    e.OccursIn limit p := by
  rcases parse_error_cases h with ⟨before, t, after, s, e', hts, hrun, hrefuses, rfl⟩ |
    ⟨f, hf, rfl⟩ | ⟨hno, s, e', hrun, hrefuses, rfl⟩
  · exact SyntaxError.occursIn_of_refuses hts hrun hrefuses
  · exact Tokens.occursIn_of_failure hf
  · exact SyntaxError.occursIn_of_refusesEnd (congrArg (Tokens.mk _) hno) hrun hrefuses

/-- A pattern of blanks has no token. -/
theorem parse_of_isBlank (limit : Nat) (h : ∀ c ∈ p, Token.isBlank c = true) :
    parse limit p = .error (.syntactic .emptyPattern) := by
  rw [parse, Tokens.ofPattern_eq_nil_iff.mpr h]
  rfl

/-- Only the error about a pattern without tokens has no position. -/
theorem isBlank_of_position?_eq_none {e : PatternError} (h : e.OccursIn limit p)
    (he : e.position? = none) : ∀ c ∈ p, Token.isBlank c = true := by
  cases e with
  | lexical e => cases he
  | syntactic e =>
    cases e with
    | emptyPattern => exact h
    | _ => cases he

/-- **The place of an error**: the position of an error is that of a character of the pattern, and
what the error says is the case there. An error without a position is that of a pattern that holds
nothing but blanks, which is refused. That some kind of token is missing at the end is never an
error. -/
theorem parse_error_occursIn (limit : Nat) (p : List Char) :
    (∀ e, parse limit p = .error e →
      e.OccursIn limit p ∧ ∀ k ∈ (CompileError.pattern e).position?, k < p.length) ∧
    ((∃ e, parse limit p = .error e ∧ (CompileError.pattern e).position? = none) ↔
      ∀ c ∈ p, Token.isBlank c = true) ∧
    ∀ k kinds, parse limit p ≠ .error (.syntactic (.unexpectedEnd k kinds)) := by
  refine ⟨fun e h => ?_, ⟨?_, fun h => ⟨_, parse_of_isBlank limit h, rfl⟩⟩, fun k kinds h => ?_⟩
  · have hoccurs := occursIn_of_parse h
    exact ⟨hoccurs, hoccurs.position_lt⟩
  · rintro ⟨e, h, he⟩
    exact isBlank_of_position?_eq_none (occursIn_of_parse h) he
  · exact occursIn_of_parse h

/-- The group that is open inside another one. -/
theorem parse_error_occursIn_group :
    parse 250 "((a)|(b[c(] ".toList = .error (.syntactic (.unclosedGroup 5)) ∧
      SyntaxError.OccursIn 250 "((a)|(b[c(] ".toList (.unclosedGroup 5) ∧
      5 < "((a)|(b[c(] ".toList.length := by
  have h : parse 250 "((a)|(b[c(] ".toList = .error (.syntactic (.unclosedGroup 5)) := by cbv
  obtain ⟨hoccurs, hlt⟩ := (parse_error_occursIn 250 "((a)|(b[c(] ".toList).1 _ h
  exact ⟨h, hoccurs, hlt 5 rfl⟩

end Tree

end PatternAutomata
