import PatternAutomata.Proofs.Extension
import PatternAutomata.Proofs.MovedTokens
import PatternAutomata.Proofs.TokenPlaces
import PatternAutomata.Regex.Basic

/-!
# Blanks between tokens

About the blanks that `next_token` (in `lexer`) skips, from there through `parse` and `build_nfa` to
`build_dfa`.

A blank that is put into a pattern, anywhere but behind the backslash of an escape, only moves the
tokens behind it. So the pattern with the blank has a tree when the pattern has one, the same up to
positions, and the same automata; otherwise it is refused for the same reason, further on if that is
where the reason stands.

Results:
* **`Tokens.ofPattern_insert_blank`**: the tokens of a pattern with a blank more;
* **`Regex.compile_insert_blank`**: trees, automata and compiled patterns with a blank more.

Out of scope: a blank right behind the backslash of an escape, which is read as the escaped
character.
-/

namespace PatternAutomata

/-! ## Tokens -/

/-- Where a place of a text is when a character more stands at `i`. -/
def moveFrom (i k : Nat) : Nat := if k < i then k else k + 1

theorem moveFrom_of_lt {i k : Nat} (h : k < i) : moveFrom i k = k := if_pos h

theorem moveFrom_of_le {i k : Nat} (h : i ≤ k) : moveFrom i k = k + 1 := if_neg (Nat.not_lt.mpr h)

/-- The text ends in a backslash that begins an escape: read by itself, it lacks the character to be
escaped. -/
def EndsInMarker (u : List Char) : Prop :=
  ∃ k, (Tokens.ofPattern u).failure = some (.unterminatedEscape k)

/-- A backslash that is escaped is no marker. -/
example : EndsInMarker "a\\".toList ∧ ¬ EndsInMarker "a\\\\".toList := by
  refine ⟨⟨1, by decide +kernel⟩, fun ⟨k, hk⟩ => ?_⟩
  rw [show (Tokens.ofPattern "a\\\\".toList).failure = none by decide +kernel] at hk
  cases hk

namespace Tokens

variable {f : Nat → Nat} {u : List Char} {b : Char}

/-- Tokens before a place stay where they are. -/
theorem map_move_eq_self (hf : ∀ k < u.length, f k = k) :
    (ofPattern u).list.map (Token.move f) = (ofPattern u).list := by
  refine (List.map_congr_left fun t ht => ?_).trans (List.map_id _)
  rw [Token.move, hf _ (standsIn_of_mem ht).position_lt]
  rfl

theorem move_eq_self (hf : ∀ k < u.length, f k = k) : (ofPattern u).move f = ofPattern u := by
  have hfailure : (ofPattern u).failure.map (LexicalError.move f) = (ofPattern u).failure := by
    cases he : (ofPattern u).failure with
    | none => rfl
    | some e =>
      rw [Option.map_some, LexicalError.move_eq_self (hf _ (occursIn_of_failure he).position_lt)]
  rw [move, map_move_eq_self hf, hfailure]

/-- What is read from a blank on. -/
theorem tokens_of_blank (hb : Token.isBlank b = true) (v : List Char) (i : Nat) :
    (Reader.mk (b :: v) i).tokens = (Reader.mk v i).tokens.move (moveFrom i) := by
  have hnext : (Reader.mk (b :: v) i).next = (Reader.mk v (i + 1)).next := if_pos hb
  rw [Reader.tokens_congr hnext]
  exact Reader.tokens_move ⟨v, i⟩ fun _ => moveFrom_of_le

/-- **A blank more** only moves the tokens behind it, unless it stands behind the marker of an
escape. -/
theorem ofPattern_insert_blank (hu : ¬ EndsInMarker u) (hb : Token.isBlank b = true)
    (v : List Char) :
    ofPattern (u ++ b :: v) = (ofPattern (u ++ v)).move (moveFrom u.length) := by
  have hf : ∀ k < u.length, moveFrom u.length k = k := fun _ => moveFrom_of_lt
  cases hfailure : (ofPattern u).failure with
  | some e =>
    -- Nothing is read behind the place where no token can be read.
    have he : e.atEnd = false := by
      cases e with
      | unterminatedEscape k => exact absurd ⟨k, hfailure⟩ hu
      | _ => rfl
    have hread (w : List Char) : ofPattern (u ++ w) = ofPattern u :=
      Reader.tokens_append_of_failure w he (.ofList u) hfailure
    rw [hread, hread, move_eq_self hf]
  | none =>
    have hread (w : List Char) :
        ofPattern (u ++ w) = prepend (ofPattern u).list (Reader.mk w u.length).tokens := by
      have happend := Reader.tokens_append w (.ofList u) hfailure
      rwa [Reader.ofList, Nat.zero_add] at happend
    rw [hread, hread, tokens_of_blank hb, move_prepend, map_move_eq_self hf]

end Tokens

/-! ## Compiled patterns -/

/-- The error at another position, if it has one. -/
def CompileError.move (f : Nat → Nat) : CompileError → CompileError
  | .pattern e => .pattern (e.move f)
  | e => e

section Insertion

variable {f : Nat → Nat} {limits : Limits} {p p' : String}

/-- Patterns whose tokens are the same at other positions have trees of the same derivation. -/
theorem Tree.ofPattern_alike
    (h : Tokens.ofPattern p'.toList = (Tokens.ofPattern p.toList).move f) (limits : Limits) :
    EndAlike (CompileError.move f)
      (fun t t' => ∃ r : Grammar.Regexp, t = .root r.tree ∧ t' = .root (r.move f).tree)
      (ofPattern limits p) (ofPattern limits p') :=
  (parse_alike h limits.nesting).mapError fun _ => rfl

/-- They have equal automata. -/
theorem Automaton.ofPattern_alike
    (h : Tokens.ofPattern p'.toList = (Tokens.ofPattern p.toList).move f) (limits : Limits) :
    EndAlike (CompileError.move f) Eq (ofPattern limits p) (ofPattern limits p') := by
  refine (Tree.ofPattern_alike h limits).bind ?_
  rintro t t' ⟨r, rfl, rfl⟩
  simp only [ofTree?, Grammar.Regexp.ofTree?_tree, Grammar.Regexp.expr_move]
  exact .ok rfl

theorem Automaton.determinize_alike (a : Automaton) (limit : Nat) :
    EndAlike (CompileError.move f) Eq (a.determinize limit) (a.determinize limit) := by
  unfold determinize
  split
  · exact .ok rfl
  · exact .error rfl

theorem Automaton.deterministicOfPattern_alike
    (h : Tokens.ofPattern p'.toList = (Tokens.ofPattern p.toList).move f) (limits : Limits) :
    EndAlike (CompileError.move f) Eq (deterministicOfPattern limits p)
      (deterministicOfPattern limits p') := by
  refine (ofPattern_alike h limits).bind ?_
  rintro a _ rfl
  exact a.determinize_alike limits.states

end Insertion

/-- **A blank more between tokens**: whatever the limits are, the pattern with the blank compiles
when the pattern without it does. Their trees are then the same up to positions, and their automata
are equal. If they do not compile, the errors are the same, but positions from the blank on are
further on by one. -/
theorem Regex.compile_insert_blank (limits : Limits) {u : String} (hu : ¬ EndsInMarker u.toList)
    {b : Char} (hb : Token.isBlank b = true) (v : String) :
    EndAlike (CompileError.move (moveFrom u.length)) (fun t t' => t'.unplaced = t.unplaced)
        (Tree.ofPattern limits (u ++ v)) (Tree.ofPattern limits (u.push b ++ v)) ∧
      EndAlike (CompileError.move (moveFrom u.length)) (fun a a' => a' = a)
        (Automaton.ofPattern limits (u ++ v)) (Automaton.ofPattern limits (u.push b ++ v)) ∧
      EndAlike (CompileError.move (moveFrom u.length)) (fun re re' => re'.automaton = re.automaton)
        (compile (u ++ v) limits) (compile (u.push b ++ v) limits) := by
  have htokens : Tokens.ofPattern (u.push b ++ v).toList =
      (Tokens.ofPattern (u ++ v).toList).move (moveFrom u.length) := by
    rw [String.toList_append, String.toList_append, String.toList_push, List.append_assoc,
      ← String.length_toList]
    exact Tokens.ofPattern_insert_blank hu hb v.toList
  refine ⟨(Tree.ofPattern_alike htokens limits).imp ?_,
    (Automaton.ofPattern_alike htokens limits).imp Eq.symm,
    (Automaton.deterministicOfPattern_alike htokens limits).bind ?_⟩
  · rintro t t' ⟨r, rfl, rfl⟩
    exact congrArg (fun t => Tree.node .root none 0 [t]) (r.unplaced_tree_move _)
  · rintro a _ rfl
    exact .ok rfl

/-- A tab inside a range of a class. -/
theorem Regex.compile_insert_blank_range :
    ¬ EndsInMarker "x*[a".toList ∧ Token.isBlank '\t' = true ∧
      EndAlike (CompileError.move (moveFrom 4)) (fun re re' => re'.automaton = re.automaton)
        (compile ("x*[a" ++ "-c]") ⟨1, 10⟩) (compile ("x*[a".push '\t' ++ "-c]") ⟨1, 10⟩) := by
  have hu : ¬ EndsInMarker "x*[a".toList := by
    rintro ⟨k, hk⟩
    rw [show (Tokens.ofPattern "x*[a".toList).failure = none by decide +kernel] at hk
    cases hk
  exact ⟨hu, rfl, (compile_insert_blank ⟨1, 10⟩ hu rfl "-c]").2.2⟩

end PatternAutomata
