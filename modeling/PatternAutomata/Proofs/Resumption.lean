import PatternAutomata.Proofs.Iteration

/-!
# Resuming at the end of the last match

About `match_at` with `match_end` (at the top level), as the comment on `Cursor` says to use them,
and about `next` of `Matches`.

There are two ways through the matches of a buffer. `Matches.next` steps over an empty match, so it
comes to an end. A cursor that is set to the end of each match it has found does not: after an empty
match it looks at the same place again and finds the same match. The two agree up to and including
the first empty match, and altogether where no match is empty.

Results:
* `Regex.resumeN_takeWhile`: what a cursor finds that is set to the end of each match;
* **`Regex.resumeN_spec`**: it comes to an end iff no match is empty, and has then found them all.
-/

namespace PatternAutomata

/-- The match that the cursor holds, if there is one. -/
def Cursor.found (c : Cursor) : Option Match := c.start.bind fun s => c.stop.map fun e => ⟨s, e⟩

namespace Regex

/-- What `n` searches record, each of which begins where the match before it ended. A search that
finds nothing records nothing and leaves the position of the cursor. -/
def resumeN (re : Regex) (buffer : List Char) : Nat → Cursor → List (Option Match)
  | 0, _ => []
  | n + 1, c =>
    match re.matchAt buffer c with
    | (true, c) => c.found :: re.resumeN buffer n c.resume
    | (false, c) => none :: re.resumeN buffer n c

variable {a : Automaton} {pattern : String} {limits : Limits} {limit : Nat} {re : Regex}
  {buffer : List Char} {m : Match} {c : Cursor}

/-! ## One search -/

/-- A match is recorded, and the cursor is set to its end. -/
theorem resumeN_succ_some (h : re.findAt buffer c.position = some m) (hle : m.start ≤ m.stop)
    (n : Nat) : re.resumeN buffer (n + 1) c =
      some m :: re.resumeN buffer n ⟨m.stop, some m.start, m.length⟩ := by
  have hstop : m.start + m.length = m.stop := Nat.add_sub_cancel' hle
  rw [resumeN, matchAt, h]
  simp only [Cursor.found, Cursor.resume, Cursor.stop, Option.map_some, Option.bind_some, hstop,
    Option.getD_some]

/-- Where nothing is found, nothing will be. -/
theorem resumeN_of_none (n : Nat) : ∀ {c : Cursor}, re.findAt buffer c.position = none →
    re.resumeN buffer n c = List.replicate n none := by
  induction n with
  | zero => exact fun _ => rfl
  | succ n ih =>
    intro c h
    have hmatch : re.matchAt buffer c = (false, { c with start := none, length := 0 }) := by
      rw [matchAt, h]
    rw [resumeN, hmatch, List.replicate_succ]
    exact congrArg _ (ih (c := { c with start := none, length := 0 }) h)

/-- An empty match at the position of the cursor is found again and again. -/
theorem resumeN_of_empty (n : Nat) : ∀ {c : Cursor},
    re.findAt buffer c.position = some ⟨c.position, c.position⟩ →
      re.resumeN buffer n c = List.replicate n (some ⟨c.position, c.position⟩) := by
  induction n with
  | zero => exact fun _ => rfl
  | succ n ih =>
    intro c h
    rw [resumeN_succ_some h (le_refl _), List.replicate_succ]
    exact congrArg _ (ih (c := ⟨c.position, some c.position, _⟩) h)

/-- What is found from a position on is found from its own beginning on. -/
theorem findAt_start (h : a.determinize limit = .ok re.automaton) {p : Nat}
    (hm : re.findAt buffer p = some m) : re.findAt buffer m.start = some m :=
  (findAt_eq_some_iff h).mpr ((findAt_eq_some_iff h).mp hm).longest.leftmost

/-- Searching on adds to what was recorded before. -/
theorem resumeN_prefix (re : Regex) (buffer : List Char) (k n : Nat) : ∀ c : Cursor,
    re.resumeN buffer n c <+: re.resumeN buffer (n + k) c := by
  induction n with
  | zero => exact fun c => List.nil_prefix
  | succ n ih =>
    intro c
    rw [Nat.add_right_comm, resumeN, resumeN]
    obtain ⟨b, found⟩ := re.matchAt buffer c
    cases b with
    | true => exact List.cons_prefix_cons.mpr ⟨rfl, ih _⟩
    | false => exact List.cons_prefix_cons.mpr ⟨rfl, ih _⟩

/-! ## All searches -/

/-- **A whole run**: the matches up to the first empty one, and then that one again and again, or
nothing if there is none. -/
theorem resumeN_takeWhile (h : a.determinize limit = .ok re.automaton) (k : Nat) :
    ∀ (fuel : Nat) {c : Cursor} {ms : List Match}, buffer.length ≤ c.position + fuel →
      Matches.take ⟨re, buffer, c.position⟩ fuel = ms →
      re.resumeN buffer ((ms.takeWhile fun m => !m.isEmpty).length + k) c =
        (ms.takeWhile fun m => !m.isEmpty).map some ++ List.replicate k (ms.find? Match.isEmpty)
  | 0, c, ms, hfuel, hms => by
    have hno : ∀ s e, c.position ≤ s → ¬ a.Occurs buffer s e := by
      intro s e hs hocc
      have := hocc.start_lt
      omega
    rw [Matches.take] at hms
    subst hms
    rw [List.takeWhile_nil, List.length_nil, Nat.zero_add]
    exact resumeN_of_none k ((findAt_eq_none_iff h).mpr hno)
  | fuel + 1, c, ms, hfuel, hms => by
    cases hf : re.findAt buffer c.position with
    | none =>
      rw [Matches.take, Matches.next_none hf] at hms
      subst hms
      rw [List.takeWhile_nil, List.length_nil, Nat.zero_add]
      exact resumeN_of_none k hf
    | some m =>
      have hleft := (findAt_eq_some_iff h).mp hf
      have hle : m.start ≤ m.stop := hleft.longest.occurs.start_le
      rw [Matches.take, Matches.next_some hf] at hms
      subst hms
      cases hm : m.isEmpty with
      | true =>
        obtain ⟨s, e⟩ := m
        obtain rfl : s = e := of_decide_eq_true hm
        rw [List.takeWhile_cons_of_neg (by simp [hm]), List.find?_cons_of_pos hm, List.length_nil,
          Nat.zero_add]
        cases k with
        | zero => rfl
        | succ k =>
          rw [resumeN_succ_some hf hle, List.replicate_succ]
          exact congrArg _ (resumeN_of_empty k (c := ⟨s, _, _⟩) (findAt_start h hf))
      | false =>
        have hafter : Matches.after m = m.stop := by
          rw [Matches.after, hm]
          rfl
        have hlt := (Automaton.lt_after hleft.longest).1
        have hp := hleft.position_le
        have ih := resumeN_takeWhile h k fuel (c := ⟨m.stop, some m.start, m.length⟩)
          (show buffer.length ≤ m.stop + fuel by omega) rfl
        rw [hafter, List.takeWhile_cons_of_pos (by simp [hm]),
          List.find?_cons_of_neg (by simp [hm]), List.length_cons, Nat.add_right_comm,
          resumeN_succ_some hf hle, List.map_cons, List.cons_append]
        exact congrArg _ ih

/-- **Resuming a cursor** finds the matches of the buffer up to the first empty one, and then that
one for ever. So it comes to an end iff no match is empty, and it has then found them all. -/
theorem resumeN_spec (h : compile pattern limits = .ok re) (buffer : List Char) :
    ∃ ms, (re.findIter buffer).toList = ms ∧
      (∀ k, re.resumeN buffer ((ms.takeWhile fun m => !m.isEmpty).length + k) {} =
        (ms.takeWhile fun m => !m.isEmpty).map some ++
          List.replicate k (ms.find? Match.isEmpty)) ∧
      ((∃ n, none ∈ re.resumeN buffer n {}) ↔ ∀ m ∈ ms, m.isEmpty = false) ∧
      ((∀ m ∈ ms, m.isEmpty = false) → ∀ k,
        re.resumeN buffer (ms.length + k) {} = ms.map some ++ List.replicate k none) := by
  obtain ⟨a, -, hd⟩ := compile_eq_ok h
  generalize hms : (re.findIter buffer).toList = ms
  have hrun := fun k => resumeN_takeWhile hd k buffer.length (c := {})
    (Nat.le_of_eq (Nat.zero_add buffer.length).symm) hms
  have hall : (∀ m ∈ ms, m.isEmpty = false) → ∀ k,
      re.resumeN buffer (ms.length + k) {} = ms.map some ++ List.replicate k none := by
    intro hne k
    have htake : (ms.takeWhile fun m => !m.isEmpty) = ms :=
      List.takeWhile_eq_self_iff.mpr fun m hm => by simp [hne m hm]
    have hfind : ms.find? Match.isEmpty = none :=
      List.find?_eq_none.mpr fun m hm => by simp [hne m hm]
    have h' := hrun k
    rwa [htake, hfind] at h'
  refine ⟨ms, rfl, hrun, ⟨?_, fun hne => ⟨ms.length + 1, ?_⟩⟩, hall⟩
  · rintro ⟨n, hn⟩
    cases hfind : ms.find? Match.isEmpty with
    | none => exact fun m hm => Bool.eq_false_iff.mpr (List.find?_eq_none.mp hfind m hm)
    | some m =>
      -- Among any number of searches none fails: they only find matches up to `m`, and then `m`.
      have hmem := (re.resumeN_prefix buffer (ms.takeWhile fun m => !m.isEmpty).length n
        {}).subset hn
      rw [Nat.add_comm, hrun n, hfind] at hmem
      simp at hmem
  · rw [hall hne 1]
    simp

/-- No match is empty, and the last search finds nothing. -/
theorem resumeN_spec_plus :
    ∃ re ms, compile "a+" = .ok re ∧ ms = [⟨1, 3⟩, ⟨4, 5⟩] ∧
      (re.findIter ['b', 'a', 'a', 'b', 'a']).toList = ms ∧ (∀ m ∈ ms, m.isEmpty = false) ∧
      re.resumeN ['b', 'a', 'a', 'b', 'a'] 3 {} = [some ⟨1, 3⟩, some ⟨4, 5⟩, none] := by
  have h : compile "a+" =
      .ok ⟨"a+", .ofRows [⟨[⟨.single 'a', 1⟩], false⟩, ⟨[⟨.single 'a', 1⟩], true⟩]⟩ :=
    compile_of_toOption (by decide +kernel)
  obtain ⟨ms, hms, -, -, hrun⟩ := resumeN_spec h ['b', 'a', 'a', 'b', 'a']
  have hlist : ms = [⟨1, 3⟩, ⟨4, 5⟩] := by
    rw [← hms]
    decide +kernel
  have hne : ∀ m ∈ ms, m.isEmpty = false := by
    rw [hlist]
    decide
  refine ⟨_, ms, h, hlist, hms, hne, ?_⟩
  have := hrun hne 1
  rwa [hlist] at this

/-- With an empty match at its beginning a buffer is never left: the one match that `Matches.next`
yields is found again and again. -/
theorem resumeN_star_never_ends :
    ∃ re, compile "a*" = .ok re ∧ (re.findIter ['b']).toList = [⟨0, 0⟩] ∧
      ∀ n, re.resumeN ['b'] n {} = List.replicate n (some ⟨0, 0⟩) := by
  have h : compile "a*" =
      .ok ⟨"a*", .ofRows [⟨[⟨.single 'a', 1⟩], true⟩, ⟨[⟨.single 'a', 1⟩], true⟩]⟩ :=
    compile_of_toOption (by decide +kernel)
  refine ⟨_, h, by decide +kernel, fun n => resumeN_of_empty n ?_⟩
  decide +kernel

end Regex

end PatternAutomata
