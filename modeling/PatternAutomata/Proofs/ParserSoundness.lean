import PatternAutomata.Proofs.Grammar
import PatternAutomata.Proofs.Shape

/-!
# A tree that is found belongs to a derivation

About `parse` (in `parser`) when it returns a tree.

What is known after some tokens of a pattern is the trees of finished parts, each with a derivation
behind it. `Parsing.Reads` is that invariant: the tokens read so far are those around the innermost
open group, those of its branches, and those of the operand that is being read. Every way of taking
a token keeps it, and at the end of a pattern it leaves one derivation of all the tokens.

A derivation within a group may be less deep by one than a derivation outside it, so the depth that
is left is one of the things that `Around` counts.

Results:
* `classTree_sound`: a class that is found is a class of the grammar;
* `Parsing.reads_of_takes`, `Parsing.reads_of_run`: taking a token keeps the invariant;
* **`Grammar.exists_regexp_of_parse`**: behind the tree of a pattern there is a derivation of its
  tokens.
-/

namespace PatternAutomata

open Grammar

/-! ## Classes -/

theorem not_rangeFollows_nil : ¬ RangeFollows [] := by simp [RangeFollows]

theorem not_rangeFollows_singleton (t : Token) : ¬ RangeFollows [t] := by simp [RangeFollows]

/-- The members of a class that are found are those of the grammar. -/
theorem classMembers_sound {ts : List Token} : ∀ {trees : List Tree},
    classMembers ts = .ok trees →
      ∃ ms, Greedy ms ∧ memberTokens ms = ts ∧ ms.map Member.tree = trees := by
  fun_induction classMembers ts with
  | case1 lo dash hi rest hd hlt =>
    intro trees h
    cases h
  | case2 lo dash hi rest hd hlt ih =>
    intro trees h
    obtain ⟨members, hm, h⟩ := bind_eq_ok_iff.mp h
    cases h
    obtain ⟨ms, hg, rfl, rfl⟩ := ih hm
    exact ⟨.range lo dash hi hd (not_lt.mp hlt) :: ms, hg, rfl, rfl⟩
  | case3 lo dash hi rest hd ih =>
    intro trees h
    obtain ⟨members, hm, h⟩ := bind_eq_ok_iff.mp h
    cases h
    obtain ⟨ms, hg, hts, rfl⟩ := ih hm
    refine ⟨.single lo :: ms, ⟨?_, hg⟩, congrArg (lo :: ·) hts, rfl⟩
    rintro ⟨dash', hi', rest', h, hd'⟩
    rw [hts] at h
    cases h
    exact hd hd'
  | case4 ts hlen =>
    -- At most two tokens are left, so none of them is the lower bound of a range.
    intro trees h
    cases h
    rcases ts with _ | ⟨t, _ | ⟨u, _ | ⟨v, rest⟩⟩⟩
    · exact ⟨[], trivial, rfl, rfl⟩
    · exact ⟨[.single t], ⟨not_rangeFollows_nil, trivial⟩, rfl, rfl⟩
    · exact ⟨[.single t, .single u],
        ⟨not_rangeFollows_singleton u, not_rangeFollows_nil, trivial⟩, rfl, rfl⟩
    · exact absurd rfl (hlen t u v rest)

namespace Grammar

/-- A class that is not closed yet, with its members as tokens, the newest first. -/
structure OpenClass where
  opening : Terminal .leftBracket
  caret : Option Token
  members : List Token
  caret_isBare : ∀ t ∈ caret, t.isBare '^' = true
  first : caret = none → ∀ t ∈ members.reverse.head?,
    (t.kind = .character ∨ t.kind = .escape) ∧ t.isBare '^' = false
  inside : ∀ t ∈ members, t.isBare ']' = false
  ne_nil : caret = none → members ≠ []

namespace OpenClass

def tokens (c : OpenClass) : List Token :=
  c.opening.1 :: (c.caret.toList ++ c.members.reverse)

/-- The class after the opening bracket and a bare `^`. -/
def negated (opening : Terminal .leftBracket) (t : Token) (h : t.isBare '^' = true) :
    OpenClass where
  opening
  caret := some t
  members := []
  caret_isBare _ hu := Option.mem_some.mp hu ▸ h
  first h := absurd h (Option.some_ne_none t)
  inside _ hu := absurd hu List.not_mem_nil
  ne_nil h := absurd h (Option.some_ne_none t)

/-- The class after the opening bracket and its first member. -/
def plain (opening : Terminal .leftBracket) (t : Token)
    (hk : t.kind = .character ∨ t.kind = .escape) (hb : t.isBare ']' = false)
    (hn : t.isBare '^' = false) : OpenClass where
  opening
  caret := none
  members := [t]
  caret_isBare _ hu := absurd hu.symm (Option.some_ne_none _)
  first _ _ hu := Option.mem_some.mp hu ▸ ⟨hk, hn⟩
  inside _ hu := List.mem_singleton.mp hu ▸ hb
  ne_nil _ := List.cons_ne_nil t []

/-- The class with one member more. -/
def member (c : OpenClass) (t : Token) (hb : t.isBare ']' = false) : OpenClass where
  opening := c.opening
  caret := c.caret
  members := t :: c.members
  caret_isBare := c.caret_isBare
  first h u hu := by
    have hne : c.members.reverse ≠ [] := List.reverse_ne_nil_iff.mpr (c.ne_nil h)
    rw [List.reverse_cons, List.head?_append, Option.or_of_isSome] at hu
    · exact c.first h u hu
    · exact List.isSome_head?.mpr hne
  inside := List.forall_mem_cons.mpr ⟨hb, c.inside⟩
  ne_nil _ := List.cons_ne_nil t c.members

theorem member_tokens (c : OpenClass) (t : Token) (hb : t.isBare ']' = false) :
    (c.member t hb).tokens = c.tokens ++ [t] := by
  simp [tokens, member]

end OpenClass

end Grammar

/-- A class that is found is a class of the grammar. -/
theorem classTree_sound {c : OpenClass} {closing : Token} (hc : closing.isBare ']' = true)
    {operand : Tree}
    (h : classTree c.opening.1.position c.caret.isSome c.members = .ok operand) :
    ∃ c' : Bracketed, c'.tokens = c.tokens ++ [closing] ∧ operand = .selector c'.tree := by
  unfold classTree at h
  split at h
  · cases h
  · rename_i hne
    obtain ⟨trees, hm, h⟩ := bind_eq_ok_iff.mp h
    cases h
    obtain ⟨ms, hg, hts, rfl⟩ := classMembers_sound hm
    have hms : ms ≠ [] := by
      rintro rfl
      exact hne (List.isEmpty_iff.mpr (List.reverse_eq_nil_iff.mp hts.symm))
    refine ⟨⟨c.opening, c.caret, ms, closing, c.caret_isBare, hms, ?_, ?_, hg, hc⟩, ?_, rfl⟩
    · rw [hts]
      exact c.first
    · rw [hts]
      exact fun t ht => c.inside t (List.mem_reverse.mp ht)
    · simp only [Bracketed.tokens, OpenClass.tokens, hts, List.cons_append]

/-! ## Levels -/

/-- Quantified operands, the newest first, and their tokens. -/
inductive Items (d : Nat) : List Tree → List Token → Prop
  | nil : Items d [] []
  | cons {items : List Tree} {ts : List Token} {q : Quantified} :
    Items d items ts → q.depth ≤ d → Items d (q.tree :: items) (ts ++ q.tokens)

/-- Branches, the newest first, and their tokens. All but the newest have operands. -/
inductive Branches (d : Nat) : List Branch → List Token → Prop
  | first {b : Branch} {ts : List Token} : Items d b.items ts → Branches d [b] ts
  | next {b b' : Branch} {bs : List Branch} {ts us : List Token} {bar : Terminal .pipe} :
    Branches d (b :: bs) ts → b.items ≠ [] → b'.bar = bar.1.position → Items d b'.items us →
    Branches d (b' :: b :: bs) (ts ++ bar.1 :: us)

/-- The levels around one that was opened at some offset, and the tokens before the first one inside
it. A derivation inside may be `d` deep. -/
inductive Around (limit : Nat) : Nat → List Level → Nat → List Token → Prop
  | pattern : Around limit limit [] 0 []
  | group {d : Nat} {outer : List Level} {level : Level} {ts us : List Token}
    {opening : Terminal .leftParen} :
    Around limit (d + 1) outer level.opening ts →
    Branches (d + 1) (level.current :: level.complete) us →
    Around limit d (level :: outer) opening.1.position (ts ++ us ++ [opening.1])

/-- The tokens of the operand that is being read. -/
inductive Phase.Reads (d : Nat) : Phase → List Token → Prop
  | operand : Reads d .operand []
  | quantified : Reads d .quantified []
  | quantifiable {o : Operand} : o.depth ≤ d → Reads d (.quantifiable o.tree) o.tokens
  | classStart (opening : Terminal .leftBracket) :
    Reads d (.classStart opening.1.position) [opening.1]
  | classBody {c : OpenClass} :
    Reads d (.classBody c.opening.1.position c.caret.isSome c.members) c.tokens
  | classEnd {c : OpenClass} {closing : Token} : closing.isBare ']' = true →
    Reads d (.classEnd c.opening.1.position c.caret.isSome c.members) (c.tokens ++ [closing])

variable {d limit : Nat} {ts us : List Token}

/-- Operands and a sequence after them are a sequence. -/
theorem Items.exists_sequence {items : List Tree} (h : Items d items ts) :
    ∀ {s : Sequence}, s.depth ≤ d → ∃ s' : Sequence, s'.tokens = ts ++ s.tokens ∧
      s'.trees = items.reverse ++ s.trees ∧ s'.depth ≤ d := by
  induction h with
  | nil => exact fun hs => ⟨_, rfl, rfl, hs⟩
  | @cons items ts q _ hq ih =>
    intro s hs
    obtain ⟨s', hts, htrees, hd⟩ := ih (s := .cons q s) (max_le hq hs)
    refine ⟨s', ?_, ?_, hd⟩
    · rw [hts, Sequence.tokens, List.append_assoc]
    · rw [htrees, Sequence.trees, List.reverse_cons, List.append_assoc]
      rfl

/-- Some operands are a sequence. -/
theorem Items.exists_sequence_of_ne_nil {items : List Tree} (h : Items d items ts)
    (hne : items ≠ []) :
    ∃ s : Sequence, s.tokens = ts ∧ s.trees = items.reverse ∧ s.depth ≤ d := by
  cases h with
  | nil => exact absurd rfl hne
  | @cons items ts q h hq =>
    obtain ⟨s, hts, htrees, hd⟩ := h.exists_sequence (s := .last q) hq
    exact ⟨s, hts, by rw [htrees, Sequence.trees, List.reverse_cons], hd⟩

/-- Branches and alternatives after them are a regular expression. -/
theorem Branches.exists_regexp {bs : List Branch} (h : Branches d bs ts)
    (hne : ∀ b ∈ bs.head?, b.items ≠ []) : ∀ {a : Alternatives}, a.depth ≤ d →
      ∃ r : Regexp, r.tokens = ts ++ a.tokens ∧ r.tree = Level.treeOf bs a.trees ∧ r.depth ≤ d := by
  induction h with
  | @first b ts hi =>
    intro a ha
    obtain ⟨s, rfl, htrees, hd⟩ := hi.exists_sequence_of_ne_nil (hne b rfl)
    exact ⟨.mk s a, rfl, by rw [Regexp.tree, htrees, Level.treeOf], max_le hd ha⟩
  | @next b b' bs ts us bar _ hb hbar hi ih =>
    intro a ha
    obtain ⟨s, rfl, htrees, hd⟩ := hi.exists_sequence_of_ne_nil (hne b' rfl)
    obtain ⟨r, hts, htree, hr⟩ := ih (fun c hc => Option.mem_some.mp hc ▸ hb)
      (a := .cons bar s a) (max_le hd ha)
    refine ⟨r, ?_, ?_, hr⟩
    · rw [hts, Alternatives.tokens, List.append_assoc, List.cons_append]
    · rw [htree, Alternatives.trees, htrees, ← hbar]
      rfl

/-- A level is a regular expression. -/
theorem Branches.exists_regexp_of_level {l : Level} (h : Branches d (l.current :: l.complete) ts)
    (hne : l.current.items ≠ []) :
    ∃ r : Regexp, r.tokens = ts ∧ r.tree = l.tree ∧ r.depth ≤ d := by
  obtain ⟨r, hts, htree, hd⟩ := h.exists_regexp (fun b hb => Option.mem_some.mp hb ▸ hne)
    (a := .nil) (Nat.zero_le d)
  exact ⟨r, by rw [hts, Alternatives.tokens, List.append_nil], htree, hd⟩

theorem Branches.opened (d position : Nat) :
    Branches d ((Level.opened position).current :: (Level.opened position).complete) [] :=
  .first .nil

theorem Branches.push {b : Branch} {bs : List Branch} (h : Branches d (b :: bs) ts) {q : Quantified}
    (hq : q.depth ≤ d) :
    Branches d ({ b with items := q.tree :: b.items } :: bs) (ts ++ q.tokens) := by
  cases h with
  | first hi => exact .first (hi.cons hq)
  | next h hne hbar hi =>
    rw [List.append_assoc, List.cons_append]
    exact h.next hne hbar (hi.cons hq)

theorem Branches.split {b : Branch} {bs : List Branch} (h : Branches d (b :: bs) ts)
    (hne : b.items ≠ []) (bar : Terminal .pipe) :
    Branches d (⟨bar.1.position, []⟩ :: b :: bs) (ts ++ [bar.1]) :=
  h.next hne rfl .nil

/-- The depth is spent on open groups. -/
theorem Around.depth_add {outer : List Level} {opening : Nat}
    (h : Around limit d outer opening ts) : d + outer.length = limit := by
  induction h with
  | pattern => rfl
  | group _ _ ih =>
    rw [← ih, List.length_cons]
    omega

/-! ## Parsings -/

/-- Before an operand nothing is pending. -/
theorem Phase.Reads.eq_nil_of_ready {s : Parsing} {pending : List Token}
    (h : s.phase.Reads d pending) (hr : s.Ready) : pending = [] := by
  rcases hr with hr | hr
  all_goals
    rw [hr] at h
    cases h
    rfl

/-- The tokens read so far. -/
inductive Parsing.Reads (limit : Nat) (s : Parsing) (ts : List Token) : Prop
  | intro {d : Nat} {before inside pending : List Token} :
    Around limit d s.outer s.level.opening before →
    Branches d (s.level.current :: s.level.complete) inside →
    s.phase.Reads d pending →
    (s.phase = .quantified → s.level.current.items ≠ []) →
    before ++ inside ++ pending = ts → s.Reads limit ts

namespace Parsing

variable {s s' : Parsing} {t : Token}

theorem reads_start (limit : Nat) : start.Reads limit [] :=
  .intro .pattern (.opened limit 0) .operand Phase.noConfusion rfl

/-- More is read of the operand, and the levels stay as they are. -/
theorem Reads.withPhase (h : s.Reads limit ts) {phase : Phase}
    (hp : ∀ {d pending}, s.phase.Reads d pending → phase.Reads d (pending ++ us))
    (hq : phase ≠ .quantified) : Reads limit { s with phase } (ts ++ us) := by
  obtain ⟨ha, hb, hphase, -, rfl⟩ := h
  exact .intro ha hb (hp hphase) (absurd · hq) (by simp)

/-- The first token of an operand is read. -/
theorem Reads.begin (h : s.Reads limit ts) (hr : s.Ready) {phase : Phase}
    (hp : ∀ d, phase.Reads d us) (hq : phase ≠ .quantified) :
    Reads limit { s with phase } (ts ++ us) := by
  refine h.withPhase (fun {d pending} hpending => ?_) hq
  rw [hpending.eq_nil_of_ready hr]
  exact hp d

/-- The operand that was read is quantified. -/
theorem Reads.pushed (h : s.Reads limit ts) {operand : Tree} (hp : s.phase = .quantifiable operand)
    (quantifier : Option (Terminal .quantifier)) :
    (s.pushed (quantifier.map fun q => q.1.value) operand).Reads limit
      (ts ++ (quantifier.map Subtype.val).toList) := by
  obtain ⟨ha, hb, hphase, -, rfl⟩ := h
  rw [hp] at hphase
  cases hphase with
  | @quantifiable o ho =>
    refine .intro ha (hb.push (q := .mk o quantifier) ho) .quantified
      (fun _ => List.cons_ne_nil _ _) ?_
    simp [Quantified.tokens]

/-- A group is opened: what is inside it may be less deep by one. -/
theorem Reads.openGroup (h : s.Reads limit ts) (hr : s.Ready) (hd : s.depth < limit)
    (opening : Terminal .leftParen) :
    Reads limit ⟨s.level :: s.outer, .opened opening.1.position, .operand⟩
      (ts ++ [opening.1]) := by
  obtain @⟨d, before, inside, pending, ha, hb, hphase, -, rfl⟩ := h
  obtain rfl := hphase.eq_nil_of_ready hr
  have hlimit := ha.depth_add
  obtain ⟨e, rfl⟩ : ∃ e, d = e + 1 := Nat.exists_eq_add_one.mpr (by unfold depth at hd; omega)
  exact .intro (.group ha hb) (.opened e _) .operand Phase.noConfusion (by simp)

/-- A group is closed: its level is the body of an operand of the level around it. -/
theorem Reads.closeGroup (h : s.Reads limit ts) (hp : s.phase = .quantified) {level : Level}
    {outer : List Level} (ho : s.outer = level :: outer) (closing : Terminal .rightParen) :
    Reads limit ⟨outer, level, .quantifiable (.group s.level.opening s.level.tree)⟩
      (ts ++ [closing.1]) := by
  obtain ⟨ha, hb, hphase, hi, rfl⟩ := h
  obtain rfl := hphase.eq_nil_of_ready (Or.inr hp)
  obtain ⟨r, rfl, htree, hr⟩ := hb.exists_regexp_of_level (hi hp)
  rw [← htree]
  rw [ho] at ha
  generalize s.level.opening = position at ha
  cases ha with
  | @group d outer level before inside opening ha hb' =>
    refine .intro ha hb' (.quantifiable (o := .group opening r closing) (Nat.succ_le_succ hr))
      Phase.noConfusion ?_
    simp [Operand.tokens]

/-- The class that was closed is an operand. -/
theorem Reads.settle (h : s.Reads limit ts) {position : Nat} {negated : Bool}
    {members : List Token} (hp : s.phase = .classEnd position negated members) {operand : Tree}
    (hc : classTree position negated members = .ok operand) :
    Reads limit { s with phase := .quantifiable operand } ts := by
  rw [← ts.append_nil]
  refine h.withPhase (fun {d pending} hpending => ?_) Phase.noConfusion
  rw [hp] at hpending
  cases hpending with
  | @classEnd c closing hclosing =>
    obtain ⟨c', hts, rfl⟩ := classTree_sound hclosing hc
    rw [List.append_nil, ← hts, ← Operand.tokens]
    exact .quantifiable (o := .charClass c') (Nat.zero_le d)

/-- **Step**: taking a token keeps the invariant. -/
theorem reads_of_takes (h : Takes limit t s s') (hs : s.Reads limit ts) :
    s'.Reads limit (ts ++ [t]) := by
  induction h with
  | character hr hk =>
    refine hs.begin hr (fun d => ?_) Phase.noConfusion
    split
    · rename_i hv
      exact .quantifiable (o := .dot ⟨t, hk⟩ hv) (Nat.zero_le d)
    · rename_i hv
      exact .quantifiable (o := .literal ⟨t, hk⟩ hv) (Nat.zero_le d)
  | escape hr hk =>
    exact hs.begin hr (fun d => .quantifiable (o := .escape ⟨t, hk⟩) (Nat.zero_le d))
      Phase.noConfusion
  | openClass hr hk =>
    exact hs.begin hr (fun _ => .classStart ⟨t, hk⟩) Phase.noConfusion
  | openGroup hr hk hd => exact hs.openGroup hr hd ⟨t, hk⟩
  | bar hp hk =>
    obtain ⟨ha, hb, hphase, hi, rfl⟩ := hs
    obtain rfl := hphase.eq_nil_of_ready (Or.inr hp)
    exact .intro ha (hb.split (hi hp) ⟨t, hk⟩) .operand Phase.noConfusion (by simp)
  | closeGroup hp hk ho => exact hs.closeGroup hp ho ⟨t, hk⟩
  | quantify hp hk => exact hs.pushed hp (some ⟨t, hk⟩)
  | pass hp hk _ ih => exact ih (ts.append_nil ▸ hs.pushed hp none)
  | negate hp hb =>
    refine hs.withPhase (fun hpending => ?_) Phase.noConfusion
    rw [hp] at hpending
    cases hpending with
    | classStart opening => exact .classBody (c := .negated opening t hb)
  | firstMember hp hk hb hn =>
    refine hs.withPhase (fun hpending => ?_) Phase.noConfusion
    rw [hp] at hpending
    cases hpending with
    | classStart opening => exact .classBody (c := .plain opening t hk hb hn)
  | member hp hb =>
    refine hs.withPhase (fun {d pending} hpending => ?_) Phase.noConfusion
    rw [hp] at hpending
    cases hpending with
    | @classBody c =>
      rw [← c.member_tokens t hb]
      exact .classBody (c := c.member t hb)
  | closeClass hp hb =>
    refine hs.withPhase (fun hpending => ?_) Phase.noConfusion
    rw [hp] at hpending
    cases hpending with
    | @classBody c => exact .classEnd hb
  | settle hp hc _ ih => exact ih (hs.settle hp hc)

/-- **Run**: what is known after some tokens accounts for each of them. -/
theorem reads_of_run (h : start.run limit ts = .ok s) : s.Reads limit ts :=
  @run_induction_read limit start s (fun ts s => s.Reads limit ts) reads_of_takes [] ts
    (reads_start limit) h

/-- At the end of a pattern all groups are closed, and the branches that were read are a regular
expression. -/
theorem Reads.close (h : s.Reads limit ts) (hp : s.phase = .quantified) {tree : Tree}
    (hc : s.close = .ok tree) :
    ∃ r : Regexp, r.tokens = ts ∧ r.depth ≤ limit ∧ tree = .root r.tree := by
  obtain ⟨ha, hb, hphase, hi, rfl⟩ := h
  obtain rfl := hphase.eq_nil_of_ready (Or.inr hp)
  unfold Parsing.close at hc
  split at hc
  · rename_i ho
    cases hc
    have hlimit := ha.depth_add
    rw [ho] at ha
    generalize s.level.opening = position at ha
    cases ha with
    | pattern =>
      obtain ⟨r, rfl, htree, hr⟩ := hb.exists_regexp_of_level (hi hp)
      exact ⟨r, by simp, hr, by rw [htree]⟩
  · cases hc

theorem Reads.finish (h : s.Reads limit ts) {tree : Tree} (hf : s.finish = .ok tree) :
    ∃ r : Regexp, r.tokens = ts ∧ r.depth ≤ limit ∧ tree = .root r.tree := by
  have pushed : ∀ {s : Parsing} {operand : Tree}, s.Reads limit ts →
      s.phase = .quantifiable operand → (s.pushed none operand).close = .ok tree →
      ∃ r : Regexp, r.tokens = ts ∧ r.depth ≤ limit ∧ tree = .root r.tree := fun hs hp hc =>
    Reads.close (ts.append_nil ▸ hs.pushed hp none) rfl hc
  unfold Parsing.finish at hf
  split at hf
  · split at hf
    · cases hf
    · split at hf <;> cases hf
  · rename_i operand hp
    exact pushed h hp hf
  · rename_i hp
    exact h.close hp hf
  · cases hf
  · cases hf
  · rename_i position negated members hp
    obtain ⟨operand, hc, hf⟩ := bind_eq_ok_iff.mp hf
    exact pushed (h.settle hp hc) rfl hf

end Parsing

/-! ## Patterns -/

/-- **Soundness**: behind the tree of a pattern there is a derivation of its tokens, whose groups
are nested as deep as is allowed, and no token is missing. -/
theorem Grammar.exists_regexp_of_parse {limit : Nat} {pattern : List Char} {tree : Tree}
    (h : Tree.parse limit pattern = .ok tree) : ∃ r : Regexp,
      Tokens.ofPattern pattern = ⟨r.tokens, none⟩ ∧ r.depth ≤ limit ∧ tree = .root r.tree := by
  obtain ⟨hfailure, s, hrun, hf⟩ := Tokens.parse_eq_ok_iff.mp h
  obtain ⟨r, hts, hd, rfl⟩ := (Parsing.reads_of_run hrun).finish hf
  exact ⟨r, by rw [hts, ← hfailure], hd, rfl⟩

end PatternAutomata
