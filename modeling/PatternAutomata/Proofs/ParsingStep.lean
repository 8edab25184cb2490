import PatternAutomata.Pattern.Parsing

/-!
# What a step of the parser can do

About what `Parser` (in `parser`) does from one call of `advance` to the next when it finds no
error.

`Parsing.Takes` lists the ways in which a `Parsing` can take a token, one constructor for each. What
holds along a run follows from it by cases, without unfolding the step function again. Two of the
ways only settle what came before and then take the token: an operand that gets no quantifier is
pushed, and a class that was closed becomes an operand.

Results:
* **`Parsing.takes_of_step`**: a step that succeeds is one of the listed ways;
* `Parsing.step_of_takes`: each of the listed ways is a step;
* `Parsing.run_induction_read`, `Parsing.run_induction`: what every step keeps, a run keeps;
* `Tokens.parse_eq_ok_iff`, `Tokens.parse_eq_error_iff`: when the parse of some tokens succeeds, and
  when it fails.

Out of scope: the errors (`Proofs.Refusal`).
-/

namespace PatternAutomata

/-- A token is written as one character. -/
theorem Token.isBare_eq_false {t : Token} {c d : Char} (h : t.isBare c = true) (hcd : c ≠ d) :
    t.isBare d = false := by
  simp [isBare, (isBare_iff.mp h).2, hcd]

/-- A computation in two parts succeeds when both do. -/
theorem bind_eq_ok_iff {ε α β : Type} {x : Except ε α} {f : α → Except ε β} {b : β} :
    x >>= f = .ok b ↔ ∃ a, x = .ok a ∧ f a = .ok b := by
  cases x with
  | error e => simp [bind, Except.bind]
  | ok a => simp [bind, Except.bind]

/-- A computation in two parts fails when the first part does, or else the second. -/
theorem bind_eq_error_iff {ε α β : Type} {x : Except ε α} {f : α → Except ε β} {e : ε} :
    x >>= f = .error e ↔ x = .error e ∨ ∃ a, x = .ok a ∧ f a = .error e := by
  cases x with
  | error e => simp [bind, Except.bind]
  | ok a => simp [bind, Except.bind]

/-- Whether a computation succeeds can be seen without its result. -/
theorem exists_eq_ok_iff {ε α : Type} {x : Except ε α} :
    (∃ a, x = .ok a) ↔ x.toOption.isSome = true := by
  cases x with
  | error e => exact ⟨fun ⟨a, h⟩ => (by cases h), fun h => (by cases h)⟩
  | ok a => exact ⟨fun _ => rfl, fun _ => ⟨a, rfl⟩⟩

/-- Naming an error otherwise makes none of a success. -/
theorem mapError_eq_ok_iff {ε ε' α : Type} {f : ε → ε'} {x : Except ε α} {a : α} :
    x.mapError f = .ok a ↔ x = .ok a := by
  cases x with
  | error e => exact ⟨fun h => (by cases h), fun h => (by cases h)⟩
  | ok b =>
    constructor
    · intro h
      cases h
      rfl
    · intro h
      cases h
      rfl

/-- An error that is named otherwise is still there. -/
theorem mapError_eq_error_iff {ε ε' α : Type} {f : ε → ε'} {x : Except ε α} {e : ε'} :
    x.mapError f = .error e ↔ ∃ e', x = .error e' ∧ e = f e' := by
  cases x with
  | error e' =>
    constructor
    · intro h
      cases h
      exact ⟨e', rfl, rfl⟩
    · rintro ⟨e'', h, rfl⟩
      cases h
      rfl
  | ok a => exact ⟨fun h => (by cases h), fun ⟨e', h, _⟩ => (by cases h)⟩

namespace Parsing

/-- An operand may begin: at the beginning of a branch, or after a complete operand. -/
def Ready (s : Parsing) : Prop := s.phase = .operand ∨ s.phase = .quantified

/-- The state in which the operand is pushed with its quantifier, if there is one. -/
def pushed (s : Parsing) (quantifier : Option Char) (operand : Tree) : Parsing :=
  { s with level := s.level.push (.quantified quantifier operand), phase := .quantified }

/-- The ways of taking a token. -/
inductive Takes (limit : Nat) (t : Token) : Parsing → Parsing → Prop
  | character {s : Parsing} : s.Ready → t.kind = .character →
    Takes limit t s { s with
      phase := .quantifiable (.selector
        (if t.value = '.' then .any t.position else .literal t.value t.position)) }
  | escape {s : Parsing} : s.Ready → t.kind = .escape →
    Takes limit t s { s with phase := .quantifiable (.selector (.literal t.value t.position)) }
  | openClass {s : Parsing} : s.Ready → t.kind = .leftBracket →
    Takes limit t s { s with phase := .classStart t.position }
  | openGroup {s : Parsing} : s.Ready → t.kind = .leftParen → s.depth < limit →
    Takes limit t s ⟨s.level :: s.outer, .opened t.position, .operand⟩
  | bar {s : Parsing} : s.phase = .quantified → t.kind = .pipe →
    Takes limit t s ⟨s.outer, s.level.split t.position, .operand⟩
  | closeGroup {s : Parsing} {level : Level} {outer : List Level} : s.phase = .quantified →
    t.kind = .rightParen → s.outer = level :: outer →
    Takes limit t s ⟨outer, level, .quantifiable (.group s.level.opening s.level.tree)⟩
  | quantify {s : Parsing} {operand : Tree} : s.phase = .quantifiable operand →
    t.kind = .quantifier → Takes limit t s (s.pushed (some t.value) operand)
  | pass {s s' : Parsing} {operand : Tree} : s.phase = .quantifiable operand →
    t.kind ≠ .quantifier → Takes limit t (s.pushed none operand) s' → Takes limit t s s'
  | negate {s : Parsing} {position : Nat} : s.phase = .classStart position → t.isBare '^' = true →
    Takes limit t s { s with phase := .classBody position true [] }
  | firstMember {s : Parsing} {position : Nat} : s.phase = .classStart position →
    t.kind = .character ∨ t.kind = .escape → t.isBare ']' = false → t.isBare '^' = false →
    Takes limit t s { s with phase := .classBody position false [t] }
  | member {s : Parsing} {position : Nat} {negated : Bool} {members : List Token} :
    s.phase = .classBody position negated members → t.isBare ']' = false →
    Takes limit t s { s with phase := .classBody position negated (t :: members) }
  | closeClass {s : Parsing} {position : Nat} {negated : Bool} {members : List Token} :
    s.phase = .classBody position negated members → t.isBare ']' = true →
    Takes limit t s { s with phase := .classEnd position negated members }
  | settle {s s' : Parsing} {position : Nat} {negated : Bool} {members : List Token}
    {operand : Tree} : s.phase = .classEnd position negated members →
    classTree position negated members = .ok operand →
    Takes limit t { s with phase := .quantifiable operand } s' → Takes limit t s s'

variable {limit : Nat} {s s' r : Parsing} {t : Token}

/-- `beginOperand` does not look at the phase, so any ready state with the same levels will do. -/
theorem takes_of_beginOperand (hr : r.Ready) (ho : r.outer = s.outer) (hl : r.level = s.level)
    (h : s.beginOperand limit t = .ok s') : Takes limit t r s' := by
  obtain ⟨outer, level, phase⟩ := s
  obtain ⟨outer', level', phase'⟩ := r
  obtain rfl : outer' = outer := ho
  obtain rfl : level' = level := hl
  unfold beginOperand at h
  split at h
  · rename_i hk
    cases h
    exact .character hr hk
  · rename_i hk
    cases h
    exact .escape hr hk
  · rename_i hk
    cases h
    exact .openClass hr hk
  · rename_i hk
    split at h
    · cases h
    · rename_i hd
      cases h
      exact .openGroup hr hk (Nat.not_le.mp hd)
  · cases h

theorem takes_of_continueBranch (hr : r.phase = .quantified) (ho : r.outer = s.outer)
    (hl : r.level = s.level) (h : s.continueBranch limit t = .ok s') : Takes limit t r s' := by
  unfold continueBranch at h
  split at h
  · exact takes_of_beginOperand (Or.inr hr) ho hl h
  · split at h
    · rename_i hk
      cases h
      rw [← ho, ← hl]
      exact .bar hr hk
    · rename_i hk hs
      cases h
      rw [← hl]
      exact .closeGroup hr hk (ho.trans hs)
    · cases h

theorem takes_of_afterOperand {operand : Tree} (hr : r.phase = .quantifiable operand)
    (ho : r.outer = s.outer) (hl : r.level = s.level)
    (h : s.afterOperand limit operand t = .ok s') : Takes limit t r s' := by
  unfold afterOperand at h
  split at h
  · rename_i hk
    cases h
    rw [← ho, ← hl]
    exact .quantify hr hk
  · rename_i hk
    refine .pass hr hk (takes_of_continueBranch rfl ?_ ?_ h)
    · exact ho
    · rw [pushed, hl]

/-- **Inversion**: a step that succeeds takes the token in one of the listed ways. -/
theorem takes_of_step (h : s.step limit t = .ok s') : Takes limit t s s' := by
  unfold step at h
  split at h
  · rename_i hp
    exact takes_of_beginOperand (Or.inl hp) rfl rfl h
  · rename_i operand hp
    exact takes_of_afterOperand hp rfl rfl h
  · rename_i hp
    exact takes_of_continueBranch hp rfl rfl h
  · rename_i position hp
    unfold beginClass at h
    split at h
    · rename_i hk
      split at h
      · cases h
      · rename_i hb
        split at h
        · rename_i hn
          cases h
          exact .negate hp hn
        · rename_i hn
          cases h
          exact .firstMember hp hk (Bool.eq_false_iff.mpr hb) (Bool.eq_false_iff.mpr hn)
    · cases h
  · rename_i position negated members hp
    cases h
    unfold continueClass
    split
    · rename_i hb
      exact .closeClass hp hb
    · rename_i hb
      exact .member hp (Bool.eq_false_iff.mpr hb)
  · rename_i position negated members hp
    obtain ⟨operand, hc, h⟩ := bind_eq_ok_iff.mp h
    exact .settle hp hc (takes_of_afterOperand rfl rfl rfl h)

/-! ## A step that is listed succeeds -/

theorem step_of_ready (hr : s.Ready) (ht : t.kind.beginsExpression = true) :
    s.step limit t = s.beginOperand limit t := by
  unfold step
  rcases hr with hp | hp
  · rw [hp]
  · rw [hp]
    exact if_pos ht

/-- The converse of the inversion: each of the listed ways is a step. -/
theorem step_of_takes (h : Takes limit t s s') : s.step limit t = .ok s' := by
  induction h with
  | character hr hk => rw [step_of_ready hr (by rw [hk]; rfl), beginOperand, hk]
  | escape hr hk => rw [step_of_ready hr (by rw [hk]; rfl), beginOperand, hk]
  | openClass hr hk => rw [step_of_ready hr (by rw [hk]; rfl), beginOperand, hk]
  | openGroup hr hk hd =>
    rw [step_of_ready hr (by rw [hk]; rfl), beginOperand, hk]
    exact if_neg (Nat.not_le.mpr hd)
  | bar hp hk =>
    rw [step, hp]
    simp only [continueBranch, hk, TokenKind.beginsExpression]
    rfl
  | closeGroup hp hk ho =>
    rw [step, hp]
    simp only [continueBranch, hk, ho, TokenKind.beginsExpression]
    rfl
  | quantify hp hk =>
    rw [step, hp]
    exact if_pos hk
  | pass hp hk _ ih =>
    -- What continues a branch does not look at the phase, in which alone the two states differ.
    rw [step, hp]
    exact (if_neg hk).trans ih
  | negate hp hn =>
    obtain ⟨hk, -⟩ := Token.isBare_iff.mp hn
    have hb : t.isBare ']' = false := Token.isBare_eq_false hn (by decide)
    rw [step, hp]
    simp [beginClass, hk, hb, hn]
  | firstMember hp hk hb hn =>
    rw [step, hp]
    simp [beginClass, hk, hb, hn]
  | member hp hb =>
    rw [step, hp]
    simp only [continueClass, hb]
    rfl
  | closeClass hp hb =>
    rw [step, hp]
    simp only [continueClass, hb]
    rfl
  | settle hp hc _ ih =>
    rw [step, hp]
    simp only [hc]
    exact ih

/-! ## Runs -/

theorem run_cons (limit : Nat) (s : Parsing) (t : Token) (ts : List Token) :
    s.run limit (t :: ts) = s.step limit t >>= fun s => s.run limit ts :=
  List.foldlM_cons

/-- What holds before any token is taken, and is kept by every token taken, holds of the tokens read
and what is known after them. -/
theorem run_induction_read {Inv : List Token → Parsing → Prop}
    (keep : ∀ {us t s s'}, Takes limit t s s' → Inv us s → Inv (us ++ [t]) s') {us ts : List Token}
    (hs : Inv us s) (h : s.run limit ts = .ok s') : Inv (us ++ ts) s' := by
  induction ts generalizing us s with
  | nil =>
    cases h
    rwa [List.append_nil]
  | cons t ts ih =>
    rw [run_cons] at h
    obtain ⟨r, hstep, h⟩ := bind_eq_ok_iff.mp h
    rw [List.append_cons]
    exact ih (keep (takes_of_step hstep) hs) h

/-- What holds at first and is kept by every good token taken holds after all of them. -/
theorem run_induction (Good : Token → Prop) {Inv : Parsing → Prop}
    (keep : ∀ {t s s'}, Good t → Takes limit t s s' → Inv s → Inv s') {ts : List Token}
    (hts : ∀ t ∈ ts, Good t) (hs : Inv s) (h : s.run limit ts = .ok s') : Inv s' := by
  have keep' : ∀ {us t s s'}, Takes limit t s s' → ((∀ u ∈ us, Good u) → Inv s) →
      (∀ u ∈ us ++ [t], Good u) → Inv s' := by
    intro us t s s' h hi hus
    obtain ⟨hus, ht⟩ := List.forall_mem_append.mp hus
    exact keep (ht t List.mem_cons_self) h (hi hus)
  exact @run_induction_read limit s s' (fun us s => (∀ u ∈ us, Good u) → Inv s) keep' [] ts
    (fun _ => hs) h hts

end Parsing

/-- A parse succeeds when all tokens can be read and taken, and so can the end. -/
theorem Tokens.parse_eq_ok_iff {limit : Nat} {ts : Tokens} {tree : Tree} :
    ts.parse limit = .ok tree ↔ ts.failure = none ∧
      ∃ s, Parsing.start.run limit ts.list = .ok s ∧ s.finish = .ok tree := by
  obtain ⟨list, failure⟩ := ts
  unfold Tokens.parse
  cases Parsing.start.run limit list with
  | error e => simp
  | ok s =>
    cases failure with
    | some e => simp
    | none => simp [mapError_eq_ok_iff]

/-- A parse fails where a token cannot be taken, else where none can be read, else at the end. -/
theorem Tokens.parse_eq_error_iff {limit : Nat} {ts : Tokens} {e : PatternError} :
    ts.parse limit = .error e ↔
      (∃ e', Parsing.start.run limit ts.list = .error e' ∧ e = .syntactic e') ∨
      ∃ s, Parsing.start.run limit ts.list = .ok s ∧
        ((∃ f, ts.failure = some f ∧ e = .lexical f) ∨
          ts.failure = none ∧ ∃ e', s.finish = .error e' ∧ e = .syntactic e') := by
  obtain ⟨list, failure⟩ := ts
  unfold Tokens.parse
  cases Parsing.start.run limit list with
  | error e' => simp [eq_comm]
  | ok s =>
    cases failure with
    | some f => simp [eq_comm]
    | none => simp [mapError_eq_error_iff]

end PatternAutomata
