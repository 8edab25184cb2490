import PatternAutomata.Proofs.Relocation

/-!
# Errors of a pattern that goes on

About `advance` in `class` (in `parser`), which reads on behind the closing bracket before the
members are looked at, and about all other errors when a pattern goes on.

An error that is found at a character or at a token does not depend on what comes after it: the
pattern is refused for the same reason however it goes on. That leaves the errors that are only
found because the pattern ends, and one more case. Whether a class is well formed is asked when
something is known to follow its closing bracket, so where a pattern goes on right behind a class
with what is no token, this is what is reported instead of the class.

Results:
* `Reader.list_tokens_prefix`, `Reader.tokens_append_of_failure`: the tokens of a pattern are the
  first ones of any longer pattern, and so is the place where none can be read;
* `Parsing.classTree_of_finish`: of the errors found at the end of a pattern, those about a class
  alone are not about the end;
* **`Tree.parse_append_of_error`**: what a pattern that is refused is refused for when it goes on;
* `Tree.parse_append_invalid_range`: a class that is not reported any more.
-/

namespace PatternAutomata

/-! ## Errors about the end -/

/-- Whether the pattern is refused because it ends. -/
def LexicalError.atEnd : LexicalError → Bool
  | .unterminatedEscape _ => true
  | _ => false

/-- Whether the pattern is refused because it ends. -/
def SyntaxError.atEnd : SyntaxError → Bool
  | .emptyPattern | .unexpectedEnd _ _ | .unclosedGroup _ | .unclosedClass _
  | .missingAlternative _ => true
  | _ => false

/-- Whether the pattern is refused because it ends. -/
def PatternError.atEnd : PatternError → Bool
  | .lexical e => e.atEnd
  | .syntactic e => e.atEnd

/-! ## Tokens of a longer pattern -/

namespace Reader

variable {start : Nat} {u : List Char} {e : LexicalError} {r : Reader}

/-- What stands after a place where no token can be read makes no difference to it. -/
theorem Fails.append (v : List Char) (h : Fails start u e r) (he : e.atEnd = false) :
    Fails start (u ++ v) e ⟨r.rest ++ v, r.position⟩ := by
  induction h with
  | blank hb _ ih => exact .blank hb (ih he)
  | invalidCharacter start u hb hc hk => exact .invalidCharacter start (u ++ v) hb hc hk
  | invalidEscape start u hc => exact .invalidEscape start (u ++ v) hc
  | unterminatedEscape start => cases he

/-- The tokens of a text are the first ones of every longer text. -/
theorem list_tokens_prefix (v : List Char) (r : Reader) :
    r.tokens.list <+: (Reader.mk (r.rest ++ v) r.position).tokens.list := by
  induction r using Reader.tokens.induct with
  | case1 r e s hr =>
    rw [tokens_of_error hr]
    exact List.nil_prefix
  | case2 r t s hr ht =>
    rw [tokens_of_ok hr, if_pos ht]
    exact List.nil_prefix
  | case3 r t s hr ht hlt ih =>
    have hnext : (Reader.mk (r.rest ++ v) r.position).next = _ :=
      ((reads_of_read hr).append v ht).read_eq
    rw [tokens_of_ok hr, tokens_of_ok hnext, if_neg ht, if_neg ht]
    exact List.cons_prefix_cons.mpr ⟨rfl, ih⟩

/-- A longer text has no tokens behind a place where none can be read. -/
theorem tokens_append_of_failure (v : List Char) (he : e.atEnd = false) (r : Reader)
    (h : r.tokens.failure = some e) :
    (Reader.mk (r.rest ++ v) r.position).tokens = r.tokens := by
  induction r using Reader.tokens.induct with
  | case1 r e' s hr =>
    rw [tokens_of_error hr] at h ⊢
    cases h
    exact tokens_of_error ((fails_of_read hr).append v he).read_eq
  | case2 r t s hr ht =>
    rw [tokens_of_ok hr, if_pos ht] at h
    cases h
  | case3 r t s hr ht hlt ih =>
    have hnext : (Reader.mk (r.rest ++ v) r.position).next = _ :=
      ((reads_of_read hr).append v ht).read_eq
    rw [tokens_of_ok hr, if_neg ht] at h ⊢
    rw [tokens_of_ok hnext, if_neg ht, ih h]

end Reader

/-! ## Errors of the parser -/

/-- The members of a class are refused for a range that descends. -/
theorem exists_range_of_classMembers {ts : List Token} {e : SyntaxError}
    (h : classMembers ts = .error e) :
    ∃ us lo dash hi vs, ts = us ++ lo :: dash :: hi :: vs ∧ dash.isBare '-' = true ∧
      hi.value < lo.value ∧ e = .invalidRange lo.position lo.value hi.value := by
  fun_induction classMembers ts with
  | case1 lo dash hi rest hd hlt =>
    cases h
    exact ⟨[], lo, dash, hi, rest, rfl, hd, hlt, rfl⟩
  | case2 lo dash hi rest hd hlt ih =>
    rcases bind_eq_error_iff.mp h with h | ⟨members, -, h⟩
    · obtain ⟨us, lo', dash', hi', vs, rfl, hrange⟩ := ih h
      exact ⟨lo :: dash :: hi :: us, lo', dash', hi', vs, rfl, hrange⟩
    · cases h
  | case3 lo dash hi rest hd ih =>
    rcases bind_eq_error_iff.mp h with h | ⟨members, -, h⟩
    · obtain ⟨us, lo', dash', hi', vs, hts, hrange⟩ := ih h
      exact ⟨lo :: us, lo', dash', hi', vs, congrArg (lo :: ·) hts, hrange⟩
    · cases h
  | case4 ts hlen => cases h

/-- Whether a class is refused: it has no member, or a range that descends. -/
def SyntaxError.AboutClass (e : SyntaxError) : Prop :=
  (∃ position, e = .emptyClass position) ∨
    ∃ position start stop, e = .invalidRange position start stop

theorem classTree_error {position : Nat} {negated : Bool} {members : List Token} {e : SyntaxError}
    (h : classTree position negated members = .error e) : e.AboutClass := by
  unfold classTree at h
  split at h
  · cases h
    exact .inl ⟨position, rfl⟩
  · rcases bind_eq_error_iff.mp h with h | ⟨ts, -, h⟩
    · obtain ⟨_, lo, _, hi, _, _, _, _, rfl⟩ := exists_range_of_classMembers h
      exact .inr ⟨_, _, _, rfl⟩
    · cases h

namespace Parsing

variable {limit : Nat} {s : Parsing} {e : SyntaxError}

theorem run_append_of_error {ts : List Token} (h : s.run limit ts = .error e) (us : List Token) :
    s.run limit (ts ++ us) = .error e := by
  rw [run_append, h]
  rfl

/-- The whole pattern is complete at its end, or a group is still open. -/
theorem close_error (h : s.close = .error e) : e.atEnd = true := by
  unfold close at h
  split at h
  · cases h
  · cases h
    rfl

/-- An error that is found at the end of a pattern and is not about the end is about a class that
the pattern ends with. -/
theorem classTree_of_finish (h : s.finish = .error e) (he : e.atEnd = false) :
    ∃ position negated members, s.phase = .classEnd position negated members ∧
      classTree position negated members = .error e := by
  have not_close : ∀ {s : Parsing}, s.close ≠ .error e := fun hclose => by
    rw [close_error hclose] at he
    cases he
  unfold finish at h
  split at h
  · -- no operand begins at the end
    split at h
    · cases h
      cases he
    · split at h <;> cases h <;> cases he
  · exact absurd h not_close
  · exact absurd h not_close
  · cases h
    cases he
  · cases h
    cases he
  · rename_i position negated members hp
    rcases bind_eq_error_iff.mp h with hc | ⟨operand, -, hclose⟩
    · exact ⟨position, negated, members, hp, hc⟩
    · exact absurd hclose not_close

/-- A class is asked about when a further token comes. -/
theorem step_of_classTree {position : Nat} {negated : Bool} {members : List Token} {t : Token}
    (hp : s.phase = .classEnd position negated members)
    (h : classTree position negated members = .error e) : s.step limit t = .error e := by
  rw [step, hp]
  simp only [h]
  rfl

end Parsing

/-! ## Patterns that go on -/

/-- All the tokens are taken, and the last of them closes a class. -/
def Tokens.EndInClass (limit : Nat) (ts : Tokens) : Prop :=
  ts.failure = none ∧ ∃ s position negated members, Parsing.start.run limit ts.list = .ok s ∧
    s.phase = .classEnd position negated members

namespace Tree

variable {limit : Nat} {p : List Char} {s : Parsing} {e : SyntaxError} {f : LexicalError}

/-- A token that cannot be taken. -/
theorem parse_append_of_run (h : Parsing.start.run limit (Tokens.ofPattern p).list = .error e)
    (v : List Char) : parse limit (p ++ v) = .error (.syntactic e) := by
  obtain ⟨us, hus⟩ := Reader.list_tokens_prefix v (.ofList p)
  have htokens : (Tokens.ofPattern (p ++ v)).list = (Tokens.ofPattern p).list ++ us := hus.symm
  refine Tokens.parse_eq_error_iff.mpr (.inl ⟨e, ?_, rfl⟩)
  rw [htokens]
  exact Parsing.run_append_of_error h us

/-- A place where no token can be read. -/
theorem parse_append_of_failure (h : (Tokens.ofPattern p).failure = some f)
    (hf : f.atEnd = false) (v : List Char) : parse limit (p ++ v) = parse limit p :=
  congrArg (Tokens.parse limit) (Reader.tokens_append_of_failure v hf (.ofList p) h)

/-- A class that is not well formed: it is asked about unless no token can be read behind it. -/
theorem parse_append_of_classTree {position : Nat} {negated : Bool} {members : List Token}
    (hno : (Tokens.ofPattern p).failure = none)
    (hrun : Parsing.start.run limit (Tokens.ofPattern p).list = .ok s)
    (hp : s.phase = .classEnd position negated members)
    (hc : classTree position negated members = .error e) (v : List Char) :
    parse limit (p ++ v) = .error (match (Reader.mk v p.length).next.1 with
      | .error f => .lexical f
      | .ok _ => .syntactic e) := by
  have hfinish : s.finish = .error e := by
    rw [Parsing.finish, hp]
    simp only [hc]
    rfl
  have htokens : Tokens.ofPattern (p ++ v) = .prepend (Tokens.ofPattern p).list
      (Reader.mk v p.length).tokens := by
    have h := Reader.tokens_append v (.ofList p) hno
    rwa [Reader.ofList, Nat.zero_add] at h
  rw [parse, htokens]
  refine Tokens.parse_eq_error_iff.mpr ?_
  rcases hnext : (Reader.mk v p.length).next with ⟨f | t, r⟩
  · rw [Reader.tokens_of_error hnext]
    refine .inr ⟨s, ?_, .inl ⟨f, rfl, rfl⟩⟩
    rwa [Tokens.prepend, List.append_nil]
  · rw [Reader.tokens_of_ok hnext]
    split
    · refine .inr ⟨s, ?_, .inr ⟨rfl, e, hfinish, rfl⟩⟩
      rwa [Tokens.prepend, List.append_nil]
    · refine .inl ⟨e, ?_, rfl⟩
      show Parsing.start.run limit (_ ++ t :: r.tokens.list) = _
      rw [Parsing.run_append, hrun]
      show s.run limit (t :: r.tokens.list) = _
      rw [Parsing.run_cons, Parsing.step_of_classTree hp hc]
      rfl

/-- **What a refused pattern is refused for when it goes on**: the same, unless the pattern is
refused because it ends. The one exception is a pattern that ends in a class and is refused because
of it: behind the class no token can be read, and this is what the longer pattern is refused for. -/
theorem parse_append_of_error {e : PatternError} (h : parse limit p = .error e)
    (he : e.atEnd = false) (v : List Char) :
    (¬ ((Tokens.ofPattern p).EndInClass limit ∧ ∃ f, (Reader.mk v p.length).next.1 = .error f) →
      parse limit (p ++ v) = .error e) ∧
    ((Tokens.ofPattern p).EndInClass limit →
      (∃ e' : SyntaxError, e'.AboutClass ∧ e = .syntactic e') ∧
        ∀ f, (Reader.mk v p.length).next.1 = .error f →
          parse limit (p ++ v) = .error (.lexical f)) := by
  rcases Tokens.parse_eq_error_iff.mp h with
    ⟨e, hrun, rfl⟩ | ⟨s, hrun, ⟨f, hf, rfl⟩ | ⟨hno, e, hfinish, rfl⟩⟩
  · refine ⟨fun _ => parse_append_of_run hrun v, ?_⟩
    rintro ⟨-, s, -, -, -, hs, -⟩
    rw [hrun] at hs
    cases hs
  · refine ⟨fun _ => (parse_append_of_failure hf he v).trans h, ?_⟩
    rintro ⟨hno, -⟩
    rw [hf] at hno
    cases hno
  · obtain ⟨position, negated, members, hp, hc⟩ := Parsing.classTree_of_finish hfinish he
    have hend : (Tokens.ofPattern p).EndInClass limit :=
      ⟨hno, s, position, negated, members, hrun, hp⟩
    rw [parse_append_of_classTree hno hrun hp hc]
    refine ⟨fun hnot => ?_, fun _ => ⟨⟨e, classTree_error hc, rfl⟩, fun f hf => ?_⟩⟩
    · cases hnext : (Reader.mk v p.length).next.1 with
      | error f => exact absurd ⟨hend, f, hnext⟩ hnot
      | ok t => rfl
    · rw [hf]

/-- The class is refused as soon as a token follows it, here a bar. -/
theorem parse_append_of_error_bar :
    parse 250 "(a|[z-a]".toList = .error (.syntactic (.invalidRange 4 'z' 'a')) ∧
      parse 250 ("(a|[z-a]".toList ++ "|\x01".toList) =
        .error (.syntactic (.invalidRange 4 'z' 'a')) := by
  have h : parse 250 "(a|[z-a]".toList = .error (.syntactic (.invalidRange 4 'z' 'a')) := by
    cbv
  refine ⟨h, (parse_append_of_error h rfl "|\x01".toList).1 ?_⟩
  rintro ⟨-, f, hf⟩
  have hnext : (Reader.mk "|\x01".toList "(a|[z-a]".toList.length).next.1 =
      .ok ⟨.pipe, '|', 8⟩ := by
    decide +kernel
  rw [hnext] at hf
  cases hf

/-- Where a character that begins no token follows, the class is not reported any more. -/
theorem parse_append_invalid_range :
    ∃ e, parse 250 "[z-a]".toList = .error e ∧ e.atEnd = false ∧
      parse 250 ("[z-a]".toList ++ "\x01".toList) ≠ .error e := by
  have h : parse 250 "[z-a]".toList = .error (.syntactic (.invalidRange 1 'z' 'a')) := by cbv
  have happend : parse 250 ("[z-a]".toList ++ "\x01".toList) =
      .error (.lexical (.invalidCharacter 5 '\x01')) := by
    cbv
  refine ⟨_, h, rfl, ?_⟩
  rw [happend]
  intro heq
  cases heq

end Tree

end PatternAutomata
