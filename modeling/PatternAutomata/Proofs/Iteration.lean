import PatternAutomata.Proofs.Search

/-!
# All matches of a buffer

About `find_iter` and `next` of `Matches` (at the top level).

`Matches.next` goes from match to match, and one character further after an empty one. What it
yields from a position on is `Enumerates`: the matches follow each other, each is the longest from
its beginning, and whatever else is accepted begins inside one of them. One step keeps this, put in
front of what the rest yields; the position grows with each match, so there is an end.

Results:
* `Automaton.Enumerates.cons`: one step of the iteration;
* `Matches.enumerates_take`: all matches from a position on, after which there is none, however
  often one asks;
* **`Regex.findIter_spec`**: the matches of a compiled pattern in a buffer.
-/

namespace PatternAutomata

namespace Automaton

/-- The matches in the buffer from `p` on, in order, none of them lost. -/
structure Enumerates (a : Automaton) (buffer : List Char) (p : Nat) (ms : List Match) : Prop where
  ordered : ms.Pairwise fun m m' => m.start < m'.start ∧ m.stop ≤ m'.start
  position_le : ∀ m ∈ ms, p ≤ m.start
  longest : ∀ m ∈ ms, a.Longest buffer m.start m.stop
  complete : ∀ i j, p ≤ i → a.Occurs buffer i j →
    ∃ m ∈ ms, m.start = i ∨ m.start < i ∧ i < m.stop

variable {a : Automaton} {buffer : List Char} {p : Nat} {m : Match} {ms : List Match}

/-- Nothing is accepted from `p` on. -/
theorem enumerates_nil (h : ∀ s e, p ≤ s → ¬ a.Occurs buffer s e) :
    a.Enumerates buffer p [] where
  ordered := .nil
  position_le _ hm := absurd hm List.not_mem_nil
  longest _ hm := absurd hm List.not_mem_nil
  complete i j hi hocc := absurd hocc (h i j hi)

/-- The place after a match is past its beginning and not before its end. -/
theorem lt_after (h : a.Longest buffer m.start m.stop) :
    m.start < Matches.after m ∧ m.stop ≤ Matches.after m := by
  have hle := h.occurs.start_le
  unfold Matches.after Match.isEmpty
  by_cases he : m.start = m.stop
  · rw [if_pos (decide_eq_true he)]
    omega
  · rw [if_neg (by simpa using he)]
    omega

/-- Past its beginning, a match covers what lies before the place after it. -/
theorem lt_stop_of_lt_after {i : Nat} (hs : m.start < i) (hi : i < Matches.after m) :
    i < m.stop := by
  unfold Matches.after Match.isEmpty at hi
  by_cases he : m.start = m.stop
  · rw [if_pos (decide_eq_true he)] at hi
    omega
  · rw [if_neg (by simpa using he)] at hi
    exact hi

/-- **One step**: the leftmost match, and then the matches from the place after it on. -/
theorem Enumerates.cons (h : a.Leftmost buffer p m)
    (hms : a.Enumerates buffer (Matches.after m) ms) : a.Enumerates buffer p (m :: ms) where
  ordered := by
    obtain ⟨hlt, hle⟩ := lt_after h.longest
    refine List.pairwise_cons.mpr ⟨fun m' hm' => ?_, hms.ordered⟩
    have := hms.position_le m' hm'
    omega
  position_le := by
    obtain ⟨hlt, -⟩ := lt_after h.longest
    have hp := h.position_le
    refine List.forall_mem_cons.mpr ⟨hp, fun m' hm' => ?_⟩
    have := hms.position_le m' hm'
    omega
  longest := List.forall_mem_cons.mpr ⟨h.longest, hms.longest⟩
  complete i j hi hocc := by
    by_cases hafter : Matches.after m ≤ i
    · obtain ⟨m', hm', hcov⟩ := hms.complete i j hafter hocc
      exact ⟨m', List.mem_cons_of_mem _ hm', hcov⟩
    · refine ⟨m, List.mem_cons_self, ?_⟩
      rcases Nat.lt_trichotomy i m.start with hlt | heq | hgt
      · exact absurd hocc (h.leftmost i hi hlt j)
      · exact Or.inl heq.symm
      · exact Or.inr ⟨hgt, lt_stop_of_lt_after hgt (Nat.not_le.mp hafter)⟩

/-- A match does not begin inside another one. -/
theorem Enumerates.not_inside (h : a.Enumerates buffer p ms) :
    ∀ ⦃m⦄, m ∈ ms → ∀ ⦃m'⦄, m' ∈ ms → ¬ (m.start < m'.start ∧ m'.start < m.stop) := by
  refine List.Pairwise.forall_of_forall_of_flip ?_ (h.ordered.imp ?_) (h.ordered.imp ?_)
  · rintro m - ⟨hlt, -⟩
    exact Nat.lt_irrefl _ hlt
  · rintro m m' ⟨-, hle⟩ ⟨-, hlt⟩
    exact absurd hlt (Nat.not_lt.mpr hle)
  · rintro m m' ⟨hlt, -⟩ ⟨hgt, -⟩
    exact Nat.lt_asymm hlt hgt

/-- **The beginnings** of the matches are the places where something is accepted and that no match
covers. -/
theorem Enumerates.start_iff (h : a.Enumerates buffer 0 ms) (i : Nat) :
    (∃ m ∈ ms, m.start = i) ↔
      (∃ j, a.Occurs buffer i j) ∧ ∀ m ∈ ms, ¬ (m.start < i ∧ i < m.stop) := by
  constructor
  · rintro ⟨m, hm, rfl⟩
    exact ⟨⟨m.stop, (h.longest m hm).occurs⟩, fun m' hm' => h.not_inside hm' hm⟩
  · rintro ⟨⟨j, hocc⟩, hfree⟩
    obtain ⟨m, hm, heq | hin⟩ := h.complete i j (Nat.zero_le i) hocc
    · exact ⟨m, hm, heq⟩
    · exact absurd hin (hfree m hm)

end Automaton

namespace Matches

open Automaton (Enumerates)

variable {a : Automaton} {re : Regex} {buffer : List Char} {limit : Nat}

/-- Where there is no next match there will be none. -/
theorem nextN_none {ms : Matches} (h : ms.next = (none, ms)) (k : Nat) :
    ms.nextN k = List.replicate k none := by
  induction k with
  | zero => rfl
  | succ k ih =>
    rw [nextN, h, List.replicate_succ]
    exact congrArg _ ih

theorem next_some {p : Nat} {m : Match} (h : re.findAt buffer p = some m) :
    next ⟨re, buffer, p⟩ = (some m, ⟨re, buffer, after m⟩) := by
  unfold next
  rw [h]

theorem next_none {p : Nat} (h : re.findAt buffer p = none) :
    next ⟨re, buffer, p⟩ = (none, ⟨re, buffer, p⟩) := by
  unfold next
  rw [h]

/-- **A whole run** from a position on: with as much fuel as there are characters left, `take` gives
all matches, and asking for more gives none. -/
theorem enumerates_take (h : a.determinize limit = .ok re.automaton) : ∀ (fuel p : Nat),
    buffer.length ≤ p + fuel →
      a.Enumerates buffer p (take ⟨re, buffer, p⟩ fuel) ∧
        ∀ k, nextN ⟨re, buffer, p⟩ ((take ⟨re, buffer, p⟩ fuel).length + k) =
          (take ⟨re, buffer, p⟩ fuel).map some ++ List.replicate k none
  | 0, p, hfuel => by
    have hno : ∀ s e, p ≤ s → ¬ a.Occurs buffer s e := by
      intro s e hs hocc
      have := hocc.start_lt
      omega
    have hnext := next_none ((Regex.findAt_eq_none_iff h).mpr hno)
    refine ⟨Automaton.enumerates_nil hno, fun k => ?_⟩
    rw [take, List.length_nil, Nat.zero_add, nextN_none hnext]
    rfl
  | fuel + 1, p, hfuel => by
    cases hf : re.findAt buffer p with
    | none =>
      have hno := (Regex.findAt_eq_none_iff h).mp hf
      have hnext := next_none hf
      have htake : take ⟨re, buffer, p⟩ (fuel + 1) = [] := by
        rw [take, hnext]
      rw [htake]
      refine ⟨Automaton.enumerates_nil hno, fun k => ?_⟩
      rw [List.length_nil, Nat.zero_add, nextN_none hnext]
      rfl
    | some m =>
      have hleft := (Regex.findAt_eq_some_iff h).mp hf
      have hnext := next_some hf
      have htake : take ⟨re, buffer, p⟩ (fuel + 1) = m :: take ⟨re, buffer, after m⟩ fuel := by
        rw [take, hnext]
      have hp := hleft.position_le
      obtain ⟨hlt, -⟩ := Automaton.lt_after hleft.longest
      obtain ⟨hms, hrun⟩ := enumerates_take h fuel (after m) (by omega)
      rw [htake]
      refine ⟨hms.cons hleft, fun k => ?_⟩
      rw [List.length_cons, Nat.add_right_comm, nextN, hnext, List.map_cons, List.cons_append]
      exact congrArg _ (hrun k)

end Matches

namespace Regex

variable {pattern : String} {limits : Limits} {re : Regex}

/-- **All matches of a compiled pattern in a buffer**: finitely many and then none, each after the
one before, each as long as it can be, and one at every place where something is accepted and that
no other match covers. -/
theorem findIter_spec (h : compile pattern limits = .ok re) :
    ∃ a, Automaton.ofPattern limits pattern = .ok a ∧ ∀ buffer : List Char, ∃ ms,
      (re.findIter buffer).toList = ms ∧
      (∀ k, (re.findIter buffer).nextN (ms.length + k) =
        ms.map some ++ List.replicate k none) ∧
      (ms.Pairwise fun m m' => m.start < m'.start ∧ m.stop ≤ m'.start) ∧
      (∀ m ∈ ms, a.Longest buffer m.start m.stop) ∧
      ∀ i, (∃ m ∈ ms, m.start = i) ↔
        (∃ j, a.Occurs buffer i j) ∧ ∀ m ∈ ms, ¬ (m.start < i ∧ i < m.stop) := by
  obtain ⟨a, ha, hd⟩ := compile_eq_ok h
  refine ⟨a, ha, fun buffer => ?_⟩
  obtain ⟨hms, hrun⟩ :=
    Matches.enumerates_take hd buffer.length 0 (Nat.le_of_eq (Nat.zero_add _).symm)
  exact ⟨_, rfl, hrun, hms.ordered, hms.longest, hms.start_iff⟩

/-- An empty match at the beginning, a longer one, and an empty one right after it. -/
theorem findIter_spec_star :
    ∃ re a ms, compile "a*" = .ok re ∧ Automaton.ofPattern .default "a*" = .ok a ∧
      ms = [⟨0, 0⟩, ⟨1, 3⟩, ⟨3, 3⟩] ∧ (re.findIter ['b', 'a', 'a', 'b']).toList = ms ∧
      ∀ m ∈ ms, a.Longest ['b', 'a', 'a', 'b'] m.start m.stop := by
  have h : compile "a*" =
      .ok ⟨"a*", .ofRows [⟨[⟨.single 'a', 1⟩], true⟩, ⟨[⟨.single 'a', 1⟩], true⟩]⟩ :=
    compile_of_toOption (by decide +kernel)
  obtain ⟨a, ha, hspec⟩ := findIter_spec h
  obtain ⟨ms, hms, -, -, hlongest, -⟩ := hspec ['b', 'a', 'a', 'b']
  refine ⟨_, a, ms, h, ha, ?_, hms, hlongest⟩
  rw [← hms]
  decide +kernel

end Regex

end PatternAutomata
