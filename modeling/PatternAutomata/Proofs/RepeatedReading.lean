import PatternAutomata.Proofs.TokenPlaces

/-!
# Reading on and on

About `next_token` (in `lexer`), called any number of times, also after an error.

A reader that is asked again and again goes through the pattern, also past what is no token. Each
call passes over some blanks and then takes the characters that its result is about: one character,
a backslash with the one after it, or a backslash with nothing after it. So the pattern is what the
calls pass over and take, piece by piece, and then the characters not yet read. A result other than
the end takes a character at least, so there are no more of them than characters.

Results:
* `Reader.exists_passes`: what one call does;
* `Reader.Cut.eq_append`, `Reader.Cut.position_eq`: what any number of calls have read;
* `Reader.position_lt`: the results come in the order of their positions;
* `Reader.exists_isEnd`, `Reader.reading_of_isEnd`: the end comes, and there is nothing after it;
* **`Reader.reading_spec`**: what the calls return on a pattern, and what they read of it.
-/

namespace PatternAutomata

/-! ## Results -/

/-- What a call returns. -/
abbrev Reading := Except LexicalError Token

namespace Reading

/-- The place in the pattern that the result names. -/
def position : Reading → Nat
  | .ok t => t.position
  | .error e => e.position

/-- The result is the end of the pattern. -/
def IsEnd : Reading → Prop
  | .ok t => t.kind = .patternEnd
  | .error _ => False

instance : DecidablePred IsEnd
  | .ok t => inferInstanceAs (Decidable (t.kind = .patternEnd))
  | .error _ => .isFalse id

/-- The result is about the given characters, the first of which is at offset `start`; `rest` is
what stands after them. -/
inductive Spells (start : Nat) : Reading → List Char → List Char → Prop
  /-- The end is about none, and nothing follows. -/
  | patternEnd : Spells start (.ok (.patternEnd start)) [] []
  /-- A token that is one character has that character for its value. -/
  | character {c : Char} {kind : TokenKind} (rest : List Char) : Token.isBlank c = false →
    c ≠ '\\' → Token.kindOf? c = some kind → Spells start (.ok ⟨kind, c, start⟩) [c] rest
  /-- An escape is a backslash and the character that is escaped. -/
  | escape {c value : Char} (rest : List Char) : Token.escaped? c = some value →
    Spells start (.ok ⟨.escape, value, start⟩) ['\\', c] rest
  /-- A character that begins no token. -/
  | invalidCharacter {c : Char} (rest : List Char) : Token.isBlank c = false → c ≠ '\\' →
    Token.kindOf? c = none → Spells start (.error (.invalidCharacter start c)) [c] rest
  /-- A backslash and a character that cannot be escaped; the error names the character's place. -/
  | invalidEscape {c : Char} (rest : List Char) : Token.escaped? c = none →
    Spells start (.error (.invalidEscape (start + 1) c)) ['\\', c] rest
  /-- A backslash, and nothing follows. -/
  | unterminatedEscape : Spells start (.error (.unterminatedEscape start)) ['\\'] []

namespace Spells

variable {start : Nat} {x : Reading} {own rest : List Char}

/-- The end is about no characters, and none are left. -/
theorem eq_of_isEnd (h : x.Spells start own rest) (hx : x.IsEnd) :
    x = .ok (.patternEnd start) ∧ own = [] ∧ rest = [] := by
  cases h with
  | patternEnd => exact ⟨rfl, rfl, rfl⟩
  | @character c kind _ _ _ hkind =>
    have hend : kind = .patternEnd := hx
    exact absurd (hend ▸ hkind) (Token.kindOf?_ne_patternEnd c)
  | escape => cases hx
  | invalidCharacter => exact hx.elim
  | invalidEscape => exact hx.elim
  | unterminatedEscape => exact hx.elim

/-- Any other result names the place of one of the characters that it is about. -/
theorem position_mem (h : x.Spells start own rest) (hx : ¬ x.IsEnd) :
    start ≤ x.position ∧ x.position < start + own.length := by
  cases h with
  | patternEnd => exact absurd rfl hx
  | character => exact ⟨le_refl start, Nat.lt_succ_self start⟩
  | escape => exact ⟨le_refl start, Nat.lt_add_of_pos_right Nat.two_pos⟩
  | invalidCharacter => exact ⟨le_refl start, Nat.lt_succ_self start⟩
  | invalidEscape => exact ⟨Nat.le_succ start, Nat.lt_succ_self (start + 1)⟩
  | unterminatedEscape => exact ⟨le_refl start, Nat.lt_succ_self start⟩

/-- No result names an earlier place. -/
theorem le_position (h : x.Spells start own rest) : start ≤ x.position := by
  by_cases hx : x.IsEnd
  · rw [(h.eq_of_isEnd hx).1]
    exact le_refl start
  · exact (h.position_mem hx).1

end Spells

end Reading

namespace Reader

variable {p : List Char} {r s : Reader} {x : Reading} {i j n : Nat}

/-! ## One call -/

/-- From one place to another there are blanks, and then the characters that the result is about. -/
structure Passes (r s : Reader) (x : Reading) (blanks own : List Char) : Prop where
  rest_eq : r.rest = blanks ++ own ++ s.rest
  position_eq : s.position = r.position + (blanks ++ own).length
  isBlank : ∀ c ∈ blanks, Token.isBlank c = true
  spells : x.Spells (r.position + blanks.length) own s.rest

/-- What is read behind a blank is read from the blank on, too. -/
theorem Passes.blank {c : Char} {u blanks own : List Char} {start : Nat}
    (h : Passes ⟨u, start + 1⟩ s x blanks own) (hc : Token.isBlank c = true) :
    Passes ⟨c :: u, start⟩ s x (c :: blanks) own where
  rest_eq := congrArg (List.cons c) h.rest_eq
  position_eq := by
    rw [h.position_eq]
    exact Nat.add_right_comm start 1 _
  isBlank := List.forall_mem_cons.mpr ⟨hc, h.isBlank⟩
  spells := by
    have hspells := h.spells
    rwa [Nat.add_right_comm] at hspells

/-- Without blanks, what is read begins where the call does. -/
theorem passes_of_spells {u own rest : List Char} {start : Nat} (hu : u = own ++ rest)
    (h : x.Spells start own rest) :
    Passes ⟨u, start⟩ ⟨rest, start + own.length⟩ x [] own :=
  ⟨hu, rfl, fun _ hc => absurd hc List.not_mem_nil, h⟩

theorem Reads.exists_passes {start : Nat} {u : List Char} {t : Token} (h : Reads start u t s) :
    ∃ blanks own, Passes ⟨u, start⟩ s (.ok t) blanks own := by
  induction h with
  | patternEnd start => exact ⟨[], [], passes_of_spells rfl .patternEnd⟩
  | blank hb _ ih =>
    obtain ⟨blanks, own, h⟩ := ih
    exact ⟨_ :: blanks, own, h.blank hb⟩
  | escape start u hv => exact ⟨[], _, passes_of_spells rfl (.escape u hv)⟩
  | character start u hb hc hk => exact ⟨[], _, passes_of_spells rfl (.character u hb hc hk)⟩

theorem Fails.exists_passes {start : Nat} {u : List Char} {e : LexicalError}
    (h : Fails start u e s) : ∃ blanks own, Passes ⟨u, start⟩ s (.error e) blanks own := by
  induction h with
  | blank hb _ ih =>
    obtain ⟨blanks, own, h⟩ := ih
    exact ⟨_ :: blanks, own, h.blank hb⟩
  | invalidCharacter start u hb hc hk =>
    exact ⟨[], _, passes_of_spells rfl (.invalidCharacter u hb hc hk)⟩
  | invalidEscape start u hc => exact ⟨[], _, passes_of_spells rfl (.invalidEscape u hc)⟩
  | unterminatedEscape start => exact ⟨[], _, passes_of_spells rfl .unterminatedEscape⟩

/-- **What one call does**: it passes over blanks and takes what its result is about. -/
theorem exists_passes (r : Reader) : ∃ blanks own, Passes r r.next.2 r.next.1 blanks own := by
  rcases hr : r.next with ⟨e | t, s⟩
  · exact (fails_of_read hr).exists_passes
  · exact (reads_of_read hr).exists_passes

/-! ## Many calls -/

/-- The place after `n` calls. -/
def after (r : Reader) : Nat → Reader
  | 0 => r
  | n + 1 => (r.after n).next.2

/-- What call number `n` returns; the first call has number zero. -/
def reading (r : Reader) (n : Nat) : Reading := (r.after n).next.1

/-- Call number `n` passes over `blanks n` and takes `own n`. -/
def Cut (r : Reader) (blanks own : Nat → List Char) : Prop :=
  ∀ n, Passes (r.after n) (r.after (n + 1)) (r.reading n) (blanks n) (own n)

theorem exists_cut (r : Reader) : ∃ blanks own, r.Cut blanks own := by
  choose blanks own h using fun n => (r.after n).exists_passes
  exact ⟨blanks, own, h⟩

/-- What is read in the first `n` calls, if call number `k` reads `pieces k`. -/
def allRead (pieces : Nat → List Char) (n : Nat) : List Char := (List.range n).flatMap pieces

theorem allRead_succ (pieces : Nat → List Char) (n : Nat) :
    allRead pieces (n + 1) = allRead pieces n ++ pieces n := by
  rw [allRead, List.range_succ, List.flatMap_append, List.flatMap_singleton, allRead]

variable {blanks own : Nat → List Char}

/-- **The pattern is read from left to right**: what is not yet read follows what the calls have
passed over and taken. -/
theorem Cut.eq_append (h : r.Cut blanks own) (n : Nat) :
    r.rest = allRead (fun k => blanks k ++ own k) n ++ (r.after n).rest := by
  induction n with
  | zero => rfl
  | succ n ih => rw [ih, (h n).rest_eq, allRead_succ, List.append_assoc (allRead _ n)]

/-- The position counts the characters that are read. -/
theorem Cut.position_eq (h : r.Cut blanks own) (n : Nat) :
    (r.after n).position = r.position + (allRead (fun k => blanks k ++ own k) n).length := by
  induction n with
  | zero => rfl
  | succ n ih => rw [(h n).position_eq, ih, allRead_succ, Nat.add_assoc, ← List.length_append]

/-- The calls never go back. -/
theorem position_le (r : Reader) (h : i ≤ j) : (r.after i).position ≤ (r.after j).position := by
  induction h with
  | refl => exact le_refl _
  | @step m _ ih =>
    obtain ⟨blanks, own, hpass⟩ := (r.after m).exists_passes
    exact ih.trans (hpass.position_eq ▸ Nat.le_add_right _ _)

/-- A call returns a place that it has come to, and stops behind it unless that is the end. -/
theorem position_reading (r : Reader) (n : Nat) :
    (r.after n).position ≤ (r.reading n).position ∧
      (¬ (r.reading n).IsEnd → (r.reading n).position < (r.after (n + 1)).position) := by
  obtain ⟨blanks, own, h⟩ := (r.after n).exists_passes
  refine ⟨(Nat.le_add_right _ _).trans h.spells.le_position, fun hx => ?_⟩
  have hpos : (r.after (n + 1)).position = _ := h.position_eq
  rw [hpos, List.length_append, ← Nat.add_assoc]
  exact (h.spells.position_mem hx).2

/-- **The results come in the order of their positions**. -/
theorem position_lt (r : Reader) (hij : i < j) (hi : ¬ (r.reading i).IsEnd) :
    (r.reading i).position < (r.reading j).position :=
  calc (r.reading i).position < (r.after (i + 1)).position := (r.position_reading i).2 hi
    _ ≤ (r.after j).position := r.position_le hij
    _ ≤ (r.reading j).position := (r.position_reading j).1

/-! ## The end -/

/-- As long as the end has not come, each call reads a character. -/
theorem le_position_of_forall (r : Reader) (h : ∀ k < n, ¬ (r.reading k).IsEnd) :
    n ≤ (r.after n).position := by
  induction n with
  | zero => exact Nat.zero_le _
  | succ n ih =>
    obtain ⟨hle, hlt⟩ := r.position_reading n
    have hn := ih fun k hk => h k (Nat.lt_succ_of_lt hk)
    exact Nat.succ_le_of_lt ((hn.trans hle).trans_lt (hlt (h n (Nat.lt_succ_self n))))

/-- The characters that are read and those that are not are those of the pattern. -/
theorem position_add_length (p : List Char) (n : Nat) :
    ((ofList p).after n).position + ((ofList p).after n).rest.length = p.length := by
  obtain ⟨blanks, own, h⟩ := (ofList p).exists_cut
  have hall : p = _ := h.eq_append n
  have hpos := h.position_eq n
  rw [show (ofList p).position = 0 from rfl, Nat.zero_add] at hpos
  rw [hpos, ← List.length_append, ← hall]

/-- **The end comes** with one call more than there are characters, or earlier. -/
theorem exists_isEnd (p : List Char) : ∃ n ≤ p.length, ((ofList p).reading n).IsEnd := by
  by_contra hnone
  have hno : ∀ k < p.length + 1, ¬ ((ofList p).reading k).IsEnd := fun k hk hend =>
    hnone ⟨k, Nat.le_of_lt_succ hk, hend⟩
  have hle := (ofList p).le_position_of_forall hno
  have := position_add_length p (p.length + 1)
  omega

/-- Where the end is read, everything is read. -/
theorem after_of_isEnd (h : ((ofList p).reading n).IsEnd) :
    (ofList p).reading n = .ok (.patternEnd p.length) ∧
      (ofList p).after (n + 1) = ⟨[], p.length⟩ := by
  obtain ⟨blanks, own, hpass⟩ := ((ofList p).after n).exists_passes
  obtain ⟨hx, hown, hrest⟩ := hpass.spells.eq_of_isEnd h
  have hpos := hpass.position_eq
  have hall : ((ofList p).after (n + 1)).position = p.length := by
    have := position_add_length p (n + 1)
    rwa [show ((ofList p).after (n + 1)).rest = [] from hrest] at this
  have hplace : ((ofList p).after n).position + blanks.length = p.length := by
    rw [← hall, show ((ofList p).after (n + 1)).position = _ from hpos, hown, List.append_nil]
  rw [hplace] at hx
  exact ⟨hx, congrArg₂ Reader.mk hrest hall⟩

/-- **There is nothing after the end** but the end, at the same place. -/
theorem reading_of_isEnd (h : ((ofList p).reading n).IsEnd) {m : Nat} (hm : n ≤ m) :
    (ofList p).reading m = .ok (.patternEnd p.length) ∧
      (ofList p).after (m + 1) = ⟨[], p.length⟩ := by
  induction hm with
  | refl => exact after_of_isEnd h
  | @step m _ ih =>
    have hnext : ((ofList p).after (m + 1)).next =
        (.ok (.patternEnd p.length), ⟨[], p.length⟩) := by
      rw [ih.2]
      rfl
    exact ⟨congrArg Prod.fst hnext, congrArg Prod.snd hnext⟩

/-- **Reading on and on**: on a pattern, each call passes over blanks and takes the characters that
its result is about, and the position is the number of all characters that are read. The positions
of the results increase up to the end, which comes with one call more than there are characters at
the latest, and then with every call. -/
theorem reading_spec (p : List Char) :
    (∃ blanks own : Nat → List Char, ∀ n,
      p = allRead (fun k => blanks k ++ own k) n ++ ((ofList p).after n).rest ∧
      ((ofList p).after n).position = (allRead (fun k => blanks k ++ own k) n).length ∧
      (∀ c ∈ blanks n, Token.isBlank c = true) ∧
      ((ofList p).reading n).Spells (((ofList p).after n).position + (blanks n).length) (own n)
        ((ofList p).after (n + 1)).rest) ∧
    (∀ i j, i < j → ¬ ((ofList p).reading i).IsEnd →
      ((ofList p).reading i).position < ((ofList p).reading j).position) ∧
    (∃ n ≤ p.length, ((ofList p).reading n).IsEnd) ∧
    ∀ n, ((ofList p).reading n).IsEnd → ∀ m, n ≤ m →
      (ofList p).reading m = .ok (.patternEnd p.length) ∧
      ((ofList p).after (m + 1)).position = p.length := by
  obtain ⟨blanks, own, h⟩ := (ofList p).exists_cut
  refine ⟨⟨blanks, own, fun n => ⟨h.eq_append n, ?_, (h n).isBlank, (h n).spells⟩⟩,
    fun i j hij hi => (ofList p).position_lt hij hi, exists_isEnd p, fun n hn m hm => ?_⟩
  · exact (h.position_eq n).trans (Nat.zero_add _)
  · obtain ⟨hx, hplace⟩ := reading_of_isEnd hn hm
    exact ⟨hx, congrArg Reader.position hplace⟩

/-- Blanks, all three errors, and the end more than once. -/
example : (List.range 6).map ((ofList " a\\q\t\x01\\".toList).reading) =
    [.ok ⟨.character, 'a', 1⟩, .error (.invalidEscape 3 'q'), .error (.invalidCharacter 5 '\x01'),
      .error (.unterminatedEscape 6), .ok (.patternEnd 7), .ok (.patternEnd 7)] := by decide

end Reader

end PatternAutomata
