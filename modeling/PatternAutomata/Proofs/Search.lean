import PatternAutomata.Proofs.Determinization
import PatternAutomata.Proofs.ParsingStep
import PatternAutomata.Regex.Search

/-!
# A search finds the leftmost longest match

About `find_at` and `longest_at` (in `machine`) and `match_at` (at the top level).

A search follows one state of the deterministic automaton through the buffer. What it finds is
stated here about the automaton before it was made deterministic, which accepts a slice if any of
its walks reads it: no accepted slice begins further left, and none that begins at the same place is
longer.

Results:
* `Automaton.longest_spec`: the longest prefix of a text that is accepted;
* `Regex.findAt_eq_some_iff`, `Regex.findAt_eq_none_iff`: what is found from a position on;
* **`Regex.matchAt_spec`**: what a search records in its cursor.

Out of scope: what follows a match (`Proofs.Iteration`, `Proofs.Resumption`).
-/

namespace PatternAutomata

/-! ## Matches -/

namespace Automaton

/-- The slice of the buffer from `s` up to `e`, which begins at a character, is accepted. -/
structure Occurs (a : Automaton) (buffer : List Char) (s e : Nat) : Prop where
  start_lt : s < buffer.length
  start_le : s ≤ e
  stop_le : e ≤ buffer.length
  accepts : a.accepts (Match.slice ⟨s, e⟩ buffer) = true

/-- The longest accepted slice that begins at `s` ends at `e`. -/
structure Longest (a : Automaton) (buffer : List Char) (s e : Nat) : Prop where
  occurs : a.Occurs buffer s e
  longest : ∀ e', e < e' → ¬ a.Occurs buffer s e'

/-- The leftmost longest accepted slice that begins at `position` or later. -/
structure Leftmost (a : Automaton) (buffer : List Char) (position : Nat) (m : Match) : Prop where
  position_le : position ≤ m.start
  longest : a.Longest buffer m.start m.stop
  leftmost : ∀ s, position ≤ s → s < m.start → ∀ e, ¬ a.Occurs buffer s e

variable {a d : Automaton} {buffer : List Char} {p : Nat} {m m' : Match}

/-- There is one longest slice at most. -/
theorem Longest.stop_unique {s e e' : Nat} (h : a.Longest buffer s e)
    (h' : a.Longest buffer s e') : e = e' := by
  by_contra hne
  rcases Nat.lt_or_gt_of_ne hne with hlt | hlt
  · exact h.longest e' hlt h'.occurs
  · exact h'.longest e hlt h.occurs

/-- There is one leftmost longest slice at most. -/
theorem Leftmost.unique (h : a.Leftmost buffer p m) (h' : a.Leftmost buffer p m') : m = m' := by
  obtain ⟨s, e⟩ := m
  obtain ⟨s', e'⟩ := m'
  have hs : s = s' := by
    by_contra hne
    rcases Nat.lt_or_gt_of_ne hne with hlt | hlt
    · exact h'.leftmost s h.position_le hlt e h.longest.occurs
    · exact h.leftmost s' h'.position_le hlt e' h'.longest.occurs
  subst hs
  rw [Match.mk.injEq]
  exact ⟨rfl, h.longest.stop_unique h'.longest⟩

/-! ## The longest accepted prefix -/

theorem longest_none {i n : Nat} {c : Char} {best : Option Nat} {rest : List Char}
    (h : d.step i c = none) :
    d.longest i n best (c :: rest) = if d.accepting i then some n else best := by
  simp only [longest, h]

theorem longest_some {i j n : Nat} {c : Char} {best : Option Nat} {rest : List Char}
    (h : d.step i c = some j) : d.longest i n best (c :: rest) =
      d.longest j (n + 1) (if d.accepting i then some n else best) rest := by
  simp only [longest, h]

/-- What `longest` gives back: the length of the longest accepted prefix, or `best` if there is
none. -/
def IsLongest (d : Automaton) (i n : Nat) (best : Option Nat) (text : List Char)
    (r : Option Nat) : Prop :=
  (∃ k, r = some (n + k) ∧ k ≤ text.length ∧ d.acceptsFrom i (text.take k) = true ∧
    ∀ k', k < k' → k' ≤ text.length → d.acceptsFrom i (text.take k') = false) ∨
  r = best ∧ ∀ k, k ≤ text.length → d.acceptsFrom i (text.take k) = false

/-- No prefix is longer than nothing where all that read a character are rejected. -/
theorem isLongest_stay {i n : Nat} {best : Option Nat} {text : List Char}
    (h : ∀ k, 0 < k → k ≤ text.length → d.acceptsFrom i (text.take k) = false) :
    d.IsLongest i n best text (if d.accepting i then some n else best) := by
  by_cases hi : d.accepting i = true
  · rw [if_pos hi]
    exact Or.inl ⟨0, rfl, Nat.zero_le _, hi, h⟩
  · rw [if_neg hi]
    refine Or.inr ⟨rfl, fun k hk => ?_⟩
    rcases Nat.eq_zero_or_pos k with rfl | hpos
    · exact Bool.eq_false_iff.mpr hi
    · exact h k hpos hk

/-- **The longest accepted prefix**: `longest` goes on past accepting states and falls back to the
last one. -/
theorem longest_spec (d : Automaton) (text : List Char) : ∀ (i n : Nat) (best : Option Nat),
    d.IsLongest i n best text (d.longest i n best text) := by
  induction text with
  | nil =>
    intro i n best
    unfold longest
    exact isLongest_stay fun k hpos hk => absurd hpos (Nat.not_lt.mpr hk)
  | cons c rest ih =>
    intro i n best
    cases hstep : d.step i c with
    | none =>
      rw [longest_none hstep]
      refine isLongest_stay fun k hpos _ => ?_
      obtain ⟨k, rfl⟩ := Nat.exists_eq_succ_of_ne_zero (Nat.pos_iff_ne_zero.mp hpos)
      rw [List.take_succ_cons, acceptsFrom_none hstep]
    | some j =>
      have later : ∀ k, d.acceptsFrom i ((c :: rest).take (k + 1)) =
          d.acceptsFrom j (rest.take k) := fun k => by
        rw [List.take_succ_cons, acceptsFrom_some hstep]
      rw [longest_some hstep]
      rcases ih j (n + 1) (if d.accepting i then some n else best) with
        ⟨k, hr, hk, hacc, hmax⟩ | ⟨hr, hall⟩
      · refine Or.inl ⟨k + 1, ?_, Nat.succ_le_succ hk, ?_, fun k' hlt hle => ?_⟩
        · rw [hr, Nat.add_assoc, Nat.add_comm 1 k]
        · rw [later, hacc]
        · obtain ⟨k', rfl⟩ := Nat.exists_eq_succ_of_ne_zero (Nat.ne_zero_of_lt hlt)
          rw [Nat.succ_eq_add_one, later]
          exact hmax k' (Nat.lt_of_succ_lt_succ hlt) (Nat.le_of_succ_le_succ hle)
      · rw [hr]
        refine isLongest_stay fun k hpos hle => ?_
        obtain ⟨k, rfl⟩ := Nat.exists_eq_succ_of_ne_zero (Nat.pos_iff_ne_zero.mp hpos)
        rw [Nat.succ_eq_add_one, later]
        exact hall k (Nat.le_of_succ_le_succ hle)

/-! ## The leftmost match -/

/-- The slice of `k` characters from `p` on. -/
theorem occurs_iff {k : Nat} (hp : p < buffer.length) :
    a.Occurs buffer p (p + k) ↔
      k ≤ (buffer.drop p).length ∧ a.accepts ((buffer.drop p).take k) = true := by
  have hslice : Match.slice ⟨p, p + k⟩ buffer = (buffer.drop p).take k := by
    unfold Match.slice Match.length
    rw [Nat.add_sub_cancel_left]
  rw [List.length_drop]
  constructor
  · rintro ⟨-, -, hle, hacc⟩
    rw [hslice] at hacc
    exact ⟨by omega, hacc⟩
  · rintro ⟨hk, hacc⟩
    exact ⟨hp, Nat.le_add_right p k, by omega, by rw [hslice, hacc]⟩

/-- From its initial state the deterministic automaton finds the longest slice at a place, or there
is none. -/
theorem longest_drop_spec (h : ∀ w, d.acceptsFrom initial w = a.accepts w)
    (hp : p < buffer.length) :
    (∃ k, d.longest initial 0 none (buffer.drop p) = some k ∧ a.Longest buffer p (p + k)) ∨
      d.longest initial 0 none (buffer.drop p) = none ∧ ∀ e, ¬ a.Occurs buffer p e := by
  have hocc : ∀ {k}, a.Occurs buffer p (p + k) ↔
      k ≤ (buffer.drop p).length ∧ d.acceptsFrom initial ((buffer.drop p).take k) = true := by
    intro k
    rw [occurs_iff hp, h]
  rcases d.longest_spec (buffer.drop p) initial 0 none with ⟨k, hr, hk, hacc, hmax⟩ | ⟨hr, hall⟩
  · refine Or.inl ⟨k, by rw [hr, Nat.zero_add], ⟨hocc.mpr ⟨hk, hacc⟩, fun e hlt ho => ?_⟩⟩
    obtain ⟨k', rfl⟩ := Nat.exists_eq_add_of_le ho.start_le
    obtain ⟨hk', hacc'⟩ := hocc.mp ho
    rw [hmax k' (Nat.lt_of_add_lt_add_left hlt) hk'] at hacc'
    cases hacc'
  · refine Or.inr ⟨hr, fun e ho => ?_⟩
    obtain ⟨k, rfl⟩ := Nat.exists_eq_add_of_le ho.start_le
    obtain ⟨hk, hacc⟩ := hocc.mp ho
    rw [hall k hk] at hacc
    cases hacc

theorem Longest.leftmost {e : Nat} (h : a.Longest buffer p e) : a.Leftmost buffer p ⟨p, e⟩ :=
  ⟨Nat.le_refl p, h, fun _ hps hlt => absurd hlt (Nat.not_lt.mpr hps)⟩

/-- A place where nothing is accepted can be left out. -/
theorem Leftmost.skip (h : a.Leftmost buffer (p + 1) m) (hp : ∀ e, ¬ a.Occurs buffer p e) :
    a.Leftmost buffer p m where
  position_le := Nat.le_of_succ_le h.position_le
  longest := h.longest
  leftmost s hps hlt e := by
    rcases Nat.eq_or_lt_of_le hps with rfl | hps
    · exact hp e
    · exact h.leftmost s hps hlt e

/-- **The leftmost match**: where the deterministic automaton accepts from its initial state what
another one accepts, it finds the leftmost longest slice that the other one accepts, or there is
none. -/
theorem findFrom_spec (h : ∀ w, d.acceptsFrom initial w = a.accepts w) (buffer : List Char) :
    ∀ (text : List Char) (p : Nat), buffer.drop p = text →
      (∃ m, d.findFrom p text = some m ∧ a.Leftmost buffer p m) ∨
        d.findFrom p text = none ∧ ∀ s e, p ≤ s → ¬ a.Occurs buffer s e
  | [], p, htext => by
    refine Or.inr ⟨rfl, fun s e hs hocc => ?_⟩
    have := List.drop_eq_nil_iff.mp htext
    have := hocc.start_lt
    omega
  | c :: rest, p, htext => by
    have hlen := congrArg List.length htext
    rw [List.length_drop, List.length_cons] at hlen
    have hrest : buffer.drop (p + 1) = rest := by
      rw [← List.drop_drop, htext, List.drop_one, List.tail_cons]
    have hlongest := longest_drop_spec h (show p < buffer.length by omega)
    rw [htext] at hlongest
    unfold findFrom
    rcases hlongest with ⟨k, hk, hlong⟩ | ⟨hk, hnone⟩
    · rw [hk]
      exact Or.inl ⟨_, rfl, hlong.leftmost⟩
    · rw [hk]
      rcases findFrom_spec h buffer rest (p + 1) hrest with ⟨m, hm, hleft⟩ | ⟨hn, hno⟩
      · exact Or.inl ⟨m, hm, hleft.skip hnone⟩
      · refine Or.inr ⟨hn, fun s e hps => ?_⟩
        rcases Nat.eq_or_lt_of_le hps with rfl | hps
        · exact hnone e
        · exact hno s e hps

end Automaton

/-! ## Compiled patterns -/

namespace Regex

variable {pattern : String} {limits : Limits} {re : Regex} {buffer : List Char} {p : Nat}
  {m : Match}

/-- A compiled pattern has the deterministic automaton made of the pattern's automaton. -/
theorem compile_eq_ok (h : compile pattern limits = .ok re) :
    ∃ a, Automaton.ofPattern limits pattern = .ok a ∧
      a.determinize limits.states = .ok re.automaton := by
  unfold compile Automaton.deterministicOfPattern at h
  obtain ⟨d, hd, h⟩ := bind_eq_ok_iff.mp h
  cases h
  exact bind_eq_ok_iff.mp hd

theorem compile_of_toOption (h : (compile pattern limits).toOption = some re) :
    compile pattern limits = .ok re := by
  cases hc : compile pattern limits with
  | error e =>
    rw [hc] at h
    cases h
  | ok re' =>
    rw [hc] at h
    cases h
    rfl

/-- What is found from a position on. -/
theorem findAt_spec {a : Automaton} {limit : Nat} (h : a.determinize limit = .ok re.automaton)
    (buffer : List Char) (p : Nat) :
    (∃ m, re.findAt buffer p = some m ∧ a.Leftmost buffer p m) ∨
      re.findAt buffer p = none ∧ ∀ s e, p ≤ s → ¬ a.Occurs buffer s e :=
  Automaton.findFrom_spec (Automaton.acceptsFrom_determinize h) buffer _ p rfl

theorem findAt_eq_some_iff {a : Automaton} {limit : Nat}
    (h : a.determinize limit = .ok re.automaton) :
    re.findAt buffer p = some m ↔ a.Leftmost buffer p m := by
  rcases findAt_spec h buffer p with ⟨m', hm, hleft⟩ | ⟨hn, hno⟩
  · rw [hm, Option.some_inj]
    constructor
    · rintro rfl
      exact hleft
    · exact fun hm' => hleft.unique hm'
  · rw [hn]
    constructor
    · intro hs
      cases hs
    · intro hm
      exact absurd hm.longest.occurs (hno m.start m.stop hm.position_le)

theorem findAt_eq_none_iff {a : Automaton} {limit : Nat}
    (h : a.determinize limit = .ok re.automaton) :
    re.findAt buffer p = none ↔ ∀ s e, p ≤ s → ¬ a.Occurs buffer s e := by
  rcases findAt_spec h buffer p with ⟨m, hm, hleft⟩ | ⟨hn, hno⟩
  · rw [hm]
    constructor
    · intro hs
      cases hs
    · intro hno
      exact absurd hleft.longest.occurs (hno m.start m.stop hleft.position_le)
  · exact ⟨fun _ => hno, fun _ => hn⟩

/-- **What a search records**: the leftmost longest match of the pattern's automaton from the
position on, wherever that is and whatever the cursor held, or that there is none. The position
stays. -/
theorem matchAt_spec (h : compile pattern limits = .ok re) :
    ∃ a, Automaton.ofPattern limits pattern = .ok a ∧ ∀ (buffer : List Char) (c : Cursor),
      (∀ s e, s ≤ e → (re.matchAt buffer c = (true, { c with start := some s, length := e - s }) ↔
        a.Leftmost buffer c.position ⟨s, e⟩)) ∧
      (re.matchAt buffer c = (false, { c with start := none, length := 0 }) ↔
        ∀ s e, c.position ≤ s → ¬ a.Occurs buffer s e) ∧
      (re.matchAt buffer c).2.position = c.position := by
  obtain ⟨a, ha, hd⟩ := compile_eq_ok h
  refine ⟨a, ha, fun buffer c => ⟨fun s e hle => ?_, ?_, ?_⟩⟩
  · rw [← findAt_eq_some_iff hd]
    unfold matchAt
    cases hf : re.findAt buffer c.position with
    | none => simp
    | some m =>
      obtain ⟨s', e'⟩ := m
      have hm := (findAt_eq_some_iff hd).mp hf
      have hle' : s' ≤ e' := hm.longest.occurs.start_le
      simp only [Match.length, Prod.mk.injEq, Cursor.mk.injEq, Option.some.injEq, Match.mk.injEq,
        true_and]
      omega
  · rw [← findAt_eq_none_iff hd]
    unfold matchAt
    cases hf : re.findAt buffer c.position with
    | none => simp
    | some m => simp
  · unfold matchAt
    cases re.findAt buffer c.position with
    | none => rfl
    | some m => rfl

/-- The stale match of the cursor is overwritten. -/
theorem matchAt_spec_plus :
    ∃ re a, compile "a+" = .ok re ∧ Automaton.ofPattern .default "a+" = .ok a ∧
      re.matchAt ['b', 'a', 'a'] ⟨0, some 7, 7⟩ = (true, ⟨0, some 1, 2⟩) ∧
      a.Leftmost ['b', 'a', 'a'] 0 ⟨1, 3⟩ := by
  have h : compile "a+" =
      .ok ⟨"a+", .ofRows [⟨[⟨.single 'a', 1⟩], false⟩, ⟨[⟨.single 'a', 1⟩], true⟩]⟩ :=
    compile_of_toOption (by decide +kernel)
  obtain ⟨a, ha, hm⟩ := matchAt_spec h
  refine ⟨_, a, h, ha, ?found, ((hm _ ⟨0, some 7, 7⟩).1 1 3 (by decide)).mp ?found⟩
  decide +kernel

end Regex

end PatternAutomata
