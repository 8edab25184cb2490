import PatternAutomata.Pattern.Error

/-!
# Reading tokens

Model of `Lexer` (in `lexer`): a `Reader` is its state, `read` is `next_token`, with the blanks that
its own `read` skips, and `readEscape` is `escape`. `tokens` is what a parser gets from it, which
stops at the first error.

A `Reader` is a place in a pattern: the characters not yet read and the number of those that are.
`next` reads one token and moves on, also past what is no token, so that reading can continue after
an error. `tokens` reads up to the end or the first error.

Results:
* `next_length_lt`: every token but the end takes at least one character.
-/

namespace PatternAutomata

/-- A place in a pattern. -/
structure Reader where
  rest : List Char
  position : Nat
deriving DecidableEq

namespace Reader

/-- The beginning of a pattern. -/
def ofList (pattern : List Char) : Reader := ⟨pattern, 0⟩

/-- The escape whose backslash is at `start`; `rest` is what follows the backslash. -/
def readEscape (start : Nat) : List Char → Except LexicalError Token × Reader
  | [] => (.error (.unterminatedEscape start), ⟨[], start + 1⟩)
  | c :: rest =>
    match Token.escaped? c with
    | some value => (.ok ⟨.escape, value, start⟩, ⟨rest, start + 2⟩)
    | none => (.error (.invalidEscape (start + 1) c), ⟨rest, start + 2⟩)

/-- The first token of `rest`, which begins at offset `start`. -/
def read (start : Nat) : List Char → Except LexicalError Token × Reader
  | [] => (.ok (.patternEnd start), ⟨[], start⟩)
  | c :: rest =>
    if Token.isBlank c then read (start + 1) rest
    else if c = '\\' then readEscape start rest
    else
      match Token.kindOf? c with
      | some kind => (.ok ⟨kind, c, start⟩, ⟨rest, start + 1⟩)
      | none => (.error (.invalidCharacter start c), ⟨rest, start + 1⟩)

/-- The next token, and the place after it. At the end of the pattern the token is of kind
`patternEnd`, however often it is read. -/
def next (r : Reader) : Except LexicalError Token × Reader := read r.position r.rest

theorem readEscape_length_le (start : Nat) (rest : List Char) :
    (readEscape start rest).2.rest.length ≤ rest.length := by
  cases rest with
  | nil => exact Nat.le_refl _
  | cons c rest =>
    simp only [readEscape]
    split <;> simp

theorem read_length_lt {start : Nat} {rest : List Char} :
    ∀ {t : Token} {r : Reader}, read start rest = (.ok t, r) → t.kind ≠ .patternEnd →
      r.rest.length < rest.length := by
  induction rest generalizing start with
  | nil =>
    intro t r h ht
    cases h
    exact absurd rfl ht
  | cons c rest ih =>
    intro t r h ht
    simp only [read] at h
    split at h
    · exact Nat.lt_succ_of_lt (ih h ht)
    · split at h
      · have := readEscape_length_le start rest
        rw [h] at this
        exact Nat.lt_succ_of_le this
      · split at h
        · cases h
          exact Nat.lt_succ_self _
        · cases h

/-- Every token but the end takes at least one character. -/
theorem next_length_lt {r s : Reader} {t : Token} (h : r.next = (.ok t, s))
    (ht : t.kind ≠ .patternEnd) : s.rest.length < r.rest.length :=
  read_length_lt h ht

end Reader

/-- The tokens of a pattern up to its end, or up to the first place where none can be read. -/
structure Tokens where
  list : List Token
  failure : Option LexicalError
deriving DecidableEq

/-- `t` before all others. -/
def Tokens.cons (t : Token) (ts : Tokens) : Tokens := ⟨t :: ts.list, ts.failure⟩

/-- All tokens from here on, the end left out. -/
def Reader.tokens (r : Reader) : Tokens :=
  match h : r.next with
  | (.error e, _) => ⟨[], some e⟩
  | (.ok t, s) =>
    if ht : t.kind = .patternEnd then ⟨[], none⟩
    else
      have : s.rest.length < r.rest.length := Reader.next_length_lt h ht
      .cons t s.tokens
termination_by r.rest.length

/-- The tokens of a pattern. -/
def Tokens.ofPattern (pattern : List Char) : Tokens := (Reader.ofList pattern).tokens

end PatternAutomata
