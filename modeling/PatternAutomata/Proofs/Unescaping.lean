import Mathlib.Data.Nat.Basic
import PatternAutomata.Text.Escaped

/-!
# Reading escaped characters back

About the escapes in the texts of labels and trees.

An escaped character can be read back from the front of any text: a character other than the
backslash stands for itself, and what follows a backslash says what the two stand for. So the escape
of a character says where it ends, and a text of escapes stands for one sequence of characters only.

Results:
* **`Text.unescape?_escape`**: an escape is read back as the character that it stands for;
* `Text.flatMap_inj`: lists of things whose texts say where they end;
* `Text.escape_append_inj`, `Text.flatMap_escape_inj`: texts of escapes that are equal stand for the
  same characters;
* `Text.newline_notMem_escape`: no line ends within an escape.
-/

namespace PatternAutomata.Text

/-! ## Code points -/

/-- The value of a hexadecimal digit. -/
def digitValue (d : Char) : Nat := if d.toNat < 58 then d.toNat - 48 else d.toNat - 87

/-- The number that is written in hexadecimal digits. -/
def hexValue (ds : List Char) : Nat := ds.foldl (fun n d => 16 * n + digitValue d) 0

theorem digitValue_digitChar : ∀ k < 16, digitValue (Nat.digitChar k) = k := by decide

theorem hexValue_concat (ds : List Char) (d : Char) :
    hexValue (ds ++ [d]) = 16 * hexValue ds + digitValue d := by
  rw [hexValue, List.foldl_append]
  rfl

theorem hexValue_toDigits (n : Nat) : hexValue (Nat.toDigits 16 n) = n := by
  induction n using Nat.strongRecOn with
  | ind n ih =>
    by_cases h : n < 16
    · rw [Nat.toDigits_of_lt_base h]
      exact (Nat.zero_add _).trans (digitValue_digitChar n h)
    · have hlt : n / 16 < n := by omega
      rw [Nat.toDigits_of_base_le (by decide) (not_lt.mp h), hexValue_concat, ih _ hlt,
        digitValue_digitChar _ (Nat.mod_lt n (by decide))]
      exact Nat.div_add_mod n 16

theorem exists_digit_of_mem {n : Nat} {d : Char} (h : d ∈ Nat.toDigits 16 n) :
    ∃ k < 16, d = Nat.digitChar k := by
  induction n using Nat.strongRecOn with
  | ind n ih =>
    by_cases hn : n < 16
    · rw [Nat.toDigits_of_lt_base hn, List.mem_singleton] at h
      exact ⟨n, hn, h⟩
    · have hlt : n / 16 < n := by omega
      rw [Nat.toDigits_of_base_le (by decide) (not_lt.mp hn), List.mem_append,
        List.mem_singleton] at h
      rcases h with h | h
      · exact ih _ hlt h
      · exact ⟨n % 16, Nat.mod_lt n (by decide), h⟩

/-- A character that is no hexadecimal digit does not occur in a code point. -/
theorem notMem_hexDigits {d : Char} (hd : ∀ k < 16, d ≠ Nat.digitChar k) (c : Char) :
    d ∉ hexDigits c := by
  intro h
  obtain ⟨k, hk, rfl⟩ := exists_digit_of_mem h
  exact hd k hk rfl

/-! ## Reading -/

/-- The character whose code point is written up to the next brace, and what follows the brace. -/
def readCodePoint (u : List Char) : Char × List Char :=
  (Char.ofNat (hexValue (u.takeWhile (· ≠ '\x7d'))), (u.dropWhile (· ≠ '\x7d')).tail)

/-- The character that a backslash and the first of the given characters stand for. -/
def readMarked : List Char → Option (Char × List Char)
  | [] => none
  | c :: u =>
    if c = '0' then some ('\x00', u)
    else if c = 't' then some ('\t', u)
    else if c = 'n' then some ('\n', u)
    else if c = 'r' then some ('\r', u)
    else if c = 'u' then some (readCodePoint u.tail)
    else some (c, u)

/-- The first character that a text of escapes stands for, and the rest of the text. -/
def unescape? : List Char → Option (Char × List Char)
  | [] => none
  | c :: u => if c = '\\' then readMarked u else some (c, u)

theorem readCodePoint_hexDigits (c : Char) (u : List Char) :
    readCodePoint (hexDigits c ++ '\x7d' :: u) = (c, u) := by
  have hbrace : '\x7d' ∉ hexDigits c := notMem_hexDigits (by decide) c
  have hdigits : ∀ d ∈ hexDigits c, decide (d ≠ '\x7d') = true := fun d hd =>
    decide_eq_true fun e => hbrace (e ▸ hd)
  rw [readCodePoint, List.takeWhile_append_of_pos hdigits, List.dropWhile_append_of_pos hdigits,
    List.takeWhile_cons_of_neg (by decide), List.dropWhile_cons_of_neg (by decide),
    List.append_nil, hexDigits, hexValue_toDigits, Char.ofNat_toNat]
  rfl

/-- A quotation mark that is escaped is one of the two. -/
theorem eq_mark_of_contains {q : Quoting} {c : Char} (h : q.marks.contains c = true) :
    c = '\'' ∨ c = '"' := by
  cases q <;> simp [Quoting.marks] at h <;> simp [h]

/-- **An escape is read back** as the character that it stands for. -/
theorem unescape?_escape (q : Quoting) (c : Char) (u : List Char) :
    unescape? (escape q c ++ u) = some (c, u) := by
  unfold escape
  split_ifs with hnul htab hline hreturn hmark hprint
  · rw [hnul]
    rfl
  · rw [htab]
    rfl
  · rw [hline]
    rfl
  · rw [hreturn]
    rfl
  · have hc : c = '\\' ∨ c = '\'' ∨ c = '"' := by
      rw [Bool.or_eq_true, decide_eq_true_eq] at hmark
      exact hmark.imp_right eq_mark_of_contains
    rcases hc with rfl | rfl | rfl <;> rfl
  · rw [List.append_assoc, List.append_assoc]
    exact congrArg some (readCodePoint_hexDigits c u)
  · have hc : c ≠ '\\' := by
      rintro rfl
      exact hmark rfl
    exact if_neg hc

/-- The escape of a character says where it ends. -/
theorem escape_append_inj {q : Quoting} {c d : Char} {u v : List Char}
    (h : escape q c ++ u = escape q d ++ v) : c = d ∧ u = v := by
  have hread := congrArg unescape? h
  rw [unescape?_escape, unescape?_escape] at hread
  cases hread
  exact ⟨rfl, rfl⟩

theorem escape_ne_nil (q : Quoting) (c : Char) : escape q c ≠ [] := by
  intro h
  have hread := unescape?_escape q c []
  rw [h] at hread
  cases hread

/-- A list is told from the texts of its members, one behind the other, if each of these texts says
where it ends. -/
theorem flatMap_inj {α β : Type} {f : α → List β} {p : α → Prop} (hne : ∀ x, p x → f x ≠ [])
    (hinj : ∀ x y u v, p x → p y → f x ++ u = f y ++ v → x = y ∧ u = v) :
    ∀ {xs ys : List α}, (∀ x ∈ xs, p x) → (∀ y ∈ ys, p y) → xs.flatMap f = ys.flatMap f → xs = ys
  | [], [], _, _, _ => rfl
  | [], y :: ys, _, hy, h => by
    rw [List.flatMap_cons] at h
    exact absurd (List.append_eq_nil_iff.mp h.symm).1 (hne y (hy y List.mem_cons_self))
  | x :: xs, [], hx, _, h => by
    rw [List.flatMap_cons] at h
    exact absurd (List.append_eq_nil_iff.mp h).1 (hne x (hx x List.mem_cons_self))
  | x :: xs, y :: ys, hx, hy, h => by
    obtain ⟨hx, hxs⟩ := List.forall_mem_cons.mp hx
    obtain ⟨hy, hys⟩ := List.forall_mem_cons.mp hy
    rw [List.flatMap_cons, List.flatMap_cons] at h
    obtain ⟨rfl, hrest⟩ := hinj x y _ _ hx hy h
    rw [flatMap_inj hne hinj hxs hys hrest]

/-- A text of escapes stands for one sequence of characters only. -/
theorem flatMap_escape_inj {q : Quoting} {cs ds : List Char}
    (h : cs.flatMap (escape q) = ds.flatMap (escape q)) : cs = ds :=
  flatMap_inj (p := fun _ => True) (fun c _ => escape_ne_nil q c)
    (fun _ _ _ _ _ _ => escape_append_inj) (fun _ _ => trivial) (fun _ _ => trivial) h

/-! ## What does not occur in an escape -/

/-- No line ends within an escape. -/
theorem newline_notMem_escape (q : Quoting) (c : Char) : '\n' ∉ escape q c := by
  unfold escape
  split_ifs with hnul htab hline hreturn hmark hprint
  · decide
  · decide
  · decide
  · decide
  · simp [Ne.symm hline]
  · simp [notMem_hexDigits (d := '\n') (by decide) c]
  · simp [Ne.symm hline]

/-- Where both marks are escaped, no text of escapes begins with the single one. -/
theorem head?_escape_append_ne (c : Char) (u : List Char) :
    (escape .either c ++ u).head? ≠ some '\'' := by
  unfold escape
  split_ifs with hnul htab hline hreturn hmark hprint
  · simp
  · simp
  · simp
  · simp
  · simp
  · simp
  · intro h
    cases h
    exact hmark rfl

end PatternAutomata.Text
