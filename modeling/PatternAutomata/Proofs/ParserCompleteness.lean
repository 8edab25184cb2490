import PatternAutomata.Proofs.ParserSoundness
import PatternAutomata.Proofs.Unambiguity

/-!
# What the grammar derives is parsed

About `parse` (in `parser`): when it returns a tree.

The tokens of a derivation are never refused, as long as its groups are not nested too deep. Which
tree they lead to need not be followed: some derivation is behind that tree, and there is only one.
So all that is shown of the state after some part of a derivation is what it can go on with, and
that the same groups are open.

Results:
* `classMembers_complete`: the members of a class of the grammar are found;
* `Grammar.Regexp.runs`: the tokens of a derivation can be taken;
* **`Tree.parse_spec`**: a pattern has a tree exactly when its tokens have a derivation that is not
  nested too deep, the tree is that of the derivation, and there is no other derivation.

Out of scope: which error it returns when it returns none (`Proofs.ErrorPlaces`).
-/

namespace PatternAutomata

open Grammar

/-! ## Classes -/

/-- A token that is not the lower bound of a range stands for itself. -/
theorem classMembers_single {t : Token} {ts : List Token} (h : ¬ RangeFollows ts)
    {trees : List Tree} (hts : classMembers ts = .ok trees) :
    classMembers (t :: ts) = .ok (Tree.literal t.value t.position :: trees) := by
  match ts with
  | [] =>
    cases hts
    rfl
  | [u] =>
    cases hts
    rfl
  | dash :: hi :: rest =>
    have hd : ¬ dash.isBare '-' = true := fun hd => h ⟨dash, hi, rest, rfl, hd⟩
    rw [classMembers, if_neg hd, hts]
    rfl

theorem classMembers_complete : ∀ {ms : List Member}, Greedy ms →
    classMembers (memberTokens ms) = .ok (ms.map Member.tree)
  | [], _ => rfl
  | .single _ :: _, ⟨hr, hg⟩ => classMembers_single hr (classMembers_complete hg)
  | .range lo dash hi hd hle :: ms, hg => by
    show classMembers (lo :: dash :: hi :: memberTokens ms) = _
    rw [classMembers, if_pos hd, if_neg (not_lt.mpr hle), @classMembers_complete ms hg]
    rfl

/-- The tree of a class of the grammar is found. -/
theorem classTree_complete (c : Bracketed) :
    classTree c.opening.1.position c.caret.isSome (memberTokens c.members).reverse =
      .ok (.selector c.tree) := by
  have hne : (memberTokens c.members).reverse.isEmpty = false := by
    simp [memberTokens_eq_nil_iff, c.ne_nil]
  rw [classTree, hne, List.reverse_reverse, classMembers_complete c.greedy]
  rfl

namespace Parsing

variable {limit : Nat} {s s' : Parsing} {t : Token}

/-! ## What a state can go on with -/

/-- An operand has been read. A class that was closed is one if it is well formed. -/
def HasOperand (s : Parsing) : Prop :=
  (∃ operand, s.phase = .quantifiable operand) ∨ ∃ position negated members operand,
    s.phase = .classEnd position negated members ∧
      classTree position negated members = .ok operand

/-- A quantified operand has been read. -/
def HasItem (s : Parsing) : Prop := s.phase = .quantified ∨ s.HasOperand

/-- An operand may be read next. -/
def MayBegin (s : Parsing) : Prop := s.phase = .operand ∨ s.HasItem

/-- The tokens can be taken, and `After` holds then. -/
def Runs (limit : Nat) (s : Parsing) (ts : List Token) (After : Parsing → Prop) : Prop :=
  ∃ s', s.run limit ts = .ok s' ∧ After s'

/-- After an operand goes on what could go on if nothing but the operand were known. -/
theorem HasOperand.takes (h : s.HasOperand) (limit : Nat) : ∃ operand, ∀ {t s'},
    Takes limit t { s with phase := .quantifiable operand } s' → Takes limit t s s' := by
  rcases h with ⟨operand, hp⟩ | ⟨position, negated, members, operand, hp, hc⟩
  · exact ⟨operand, fun ht => by rwa [← hp] at ht⟩
  · exact ⟨operand, .settle hp hc⟩

/-- What could go on after a quantifier goes on without one, a quantifier apart. -/
theorem HasItem.takes (h : s.HasItem) (limit : Nat) :
    ∃ r : Parsing, r.phase = .quantified ∧ r.outer = s.outer ∧
      ∀ {t s'}, t.kind ≠ .quantifier → Takes limit t r s' → Takes limit t s s' := by
  rcases h with hp | h
  · exact ⟨s, hp, rfl, fun _ ht => ht⟩
  · obtain ⟨operand, htakes⟩ := h.takes limit
    exact ⟨pushed { s with phase := .quantifiable operand } none operand, rfl, rfl,
      fun hk ht => htakes (.pass rfl hk ht)⟩

theorem MayBegin.takes (h : s.MayBegin) (limit : Nat) :
    ∃ r : Parsing, r.Ready ∧ r.outer = s.outer ∧
      ∀ {t s'}, t.kind ≠ .quantifier → Takes limit t r s' → Takes limit t s s' := by
  rcases h with hp | h
  · exact ⟨s, Or.inl hp, rfl, fun _ ht => ht⟩
  · obtain ⟨r, hp, ho, htakes⟩ := h.takes limit
    exact ⟨r, Or.inr hp, ho, htakes⟩

theorem Runs.nil {After : Parsing → Prop} (h : After s) : s.Runs limit [] After :=
  ⟨s, rfl, h⟩

theorem Runs.cons {After : Parsing → Prop} {ts : List Token} (ht : Takes limit t s s')
    (h : s'.Runs limit ts After) : s.Runs limit (t :: ts) After := by
  obtain ⟨r, hrun, hafter⟩ := h
  refine ⟨r, ?_, hafter⟩
  rw [run_cons, step_of_takes ht]
  exact hrun

theorem Runs.append {Between After : Parsing → Prop} {ts us : List Token}
    (h : s.Runs limit ts Between) (h' : ∀ {r}, Between r → r.Runs limit us After) :
    s.Runs limit (ts ++ us) After := by
  obtain ⟨r, hrun, hbetween⟩ := h
  obtain ⟨r', hrun', hafter⟩ := h' hbetween
  refine ⟨r', ?_, hafter⟩
  rw [run_append, hrun]
  exact hrun'

theorem HasOperand.hasItem (h : s.HasOperand) : s.HasItem := Or.inr h

theorem HasItem.mayBegin (h : s.HasItem) : s.MayBegin := Or.inr h

/-- An operand was read, and the given groups are open. -/
def WithOperand (outer : List Level) (s : Parsing) : Prop := s.outer = outer ∧ s.HasOperand

/-- A quantified operand was read, and the given groups are open. -/
def WithItem (outer : List Level) (s : Parsing) : Prop := s.outer = outer ∧ s.HasItem

/-! ## What a derivation leads to -/

/-- A token that is an operand on its own. -/
theorem runs_single {operand : Tree} (h : s.MayBegin) (hk : t.kind ≠ .quantifier)
    (ht : ∀ {r : Parsing}, r.Ready → Takes limit t r { r with phase := .quantifiable operand }) :
    s.Runs limit [t] (WithOperand s.outer) := by
  obtain ⟨r, hr, ho, htakes⟩ := h.takes limit
  exact .cons (htakes hk (ht hr)) (.nil ⟨ho, Or.inl ⟨operand, rfl⟩⟩)

/-- The members of a class are taken up to its closing bracket. -/
theorem runs_members {position : Nat} {negated : Bool} {closing : Token}
    (hc : closing.isBare ']' = true) {ts : List Token} (hts : ∀ t ∈ ts, t.isBare ']' = false) :
    ∀ {s : Parsing} {members : List Token}, s.phase = .classBody position negated members →
      s.Runs limit (ts ++ [closing]) fun r => r.outer = s.outer ∧
        r.phase = .classEnd position negated (ts.reverse ++ members) := by
  induction ts with
  | nil => exact fun hp => .cons (.closeClass hp hc) (.nil ⟨rfl, rfl⟩)
  | cons t ts ih =>
    intro s members hp
    obtain ⟨ht, hts⟩ := List.forall_mem_cons.mp hts
    rw [List.reverse_cons, List.append_assoc]
    exact .cons (.member hp ht) (ih hts rfl)

/-- However a class of the grammar begins, the rest of its members make it well formed. -/
theorem runs_class_rest (c : Bracketed) (members : List Token) {ts : List Token}
    (hp : s.phase = .classBody c.opening.1.position c.caret.isSome members)
    (hts : memberTokens c.members = members.reverse ++ ts) :
    s.Runs limit (ts ++ [c.closing]) (WithOperand s.outer) := by
  have hinside : ∀ t ∈ ts, t.isBare ']' = false := by
    have hinside := c.inside
    rw [hts] at hinside
    exact (List.forall_mem_append.mp hinside).2
  obtain ⟨r, hrun, hr, hp'⟩ := runs_members c.closing_isBare hinside hp
  have hc := classTree_complete c
  rw [hts, List.reverse_append, List.reverse_reverse] at hc
  exact ⟨r, hrun, hr, Or.inr ⟨_, _, _, _, hp', hc⟩⟩

theorem runs_class (c : Bracketed) (h : s.MayBegin) :
    s.Runs limit c.tokens (WithOperand s.outer) := by
  obtain ⟨r, hr, ho, htakes⟩ := h.takes limit
  rw [← ho]
  refine .cons (htakes (c.opening.kind_ne (by decide)) (.openClass hr c.opening.2)) ?_
  cases hcaret : c.caret with
  | some t =>
    refine .cons (.negate rfl (c.caret_isBare t hcaret)) (runs_class_rest c [] ?_ rfl)
    rw [hcaret]
    rfl
  | none =>
    cases hm : memberTokens c.members with
    | nil => exact absurd (memberTokens_eq_nil_iff.mp hm) c.ne_nil
    | cons t ts =>
      have ht : t.isBare ']' = false := c.inside t (by rw [hm]; exact List.mem_cons_self)
      obtain ⟨hk, hn⟩ := c.first hcaret t (by rw [hm]; rfl)
      refine .cons (.firstMember rfl hk ht hn) (runs_class_rest c [t] ?_ hm)
      rw [hcaret]
      rfl

theorem depth_eq {r : Parsing} (h : r.outer = s.outer) : r.depth = s.depth :=
  congrArg List.length h

end Parsing

namespace Grammar

open Parsing

variable {limit : Nat}

mutual

theorem Operand.runs : ∀ (o : Operand) {s : Parsing}, s.MayBegin → s.depth + o.depth ≤ limit →
    s.Runs limit o.tokens (WithOperand s.outer)
  | .literal t _, _, h, _ => runs_single h (t.kind_ne (by decide)) (.character · t.2)
  | .dot t _, _, h, _ => runs_single h (t.kind_ne (by decide)) (.character · t.2)
  | .escape t, _, h, _ => runs_single h (t.kind_ne (by decide)) (.escape · t.2)
  | .charClass c, _, h, _ => runs_class c h
  | .group opening body closing, s, h, hd => by
    obtain ⟨r, hr, ho, htakes⟩ := h.takes limit
    rw [Operand.depth, ← depth_eq ho] at hd
    have hinside : Parsing.depth ⟨r.level :: r.outer, .opened opening.1.position, .operand⟩ =
        r.depth + 1 := rfl
    refine .cons (htakes (opening.kind_ne (by decide)) (.openGroup hr opening.2 (by omega))) ?_
    refine (body.runs (Or.inl rfl) (by omega)).append fun ⟨hr', hitem⟩ => ?_
    obtain ⟨r', hp, ho', htakes'⟩ := hitem.takes limit
    exact .cons (htakes' (closing.kind_ne (by decide)) (.closeGroup hp closing.2 (ho'.trans hr')))
      (.nil ⟨ho, Or.inl ⟨_, rfl⟩⟩)

theorem Quantified.runs : ∀ (q : Quantified) {s : Parsing}, s.MayBegin →
    s.depth + q.depth ≤ limit → s.Runs limit q.tokens (WithItem s.outer)
  | .mk o none, s, h, hd => by
    obtain ⟨r, hrun, ho, hr⟩ := o.runs h hd
    exact ⟨r, by rwa [Quantified.tokens, Option.map_none, Option.toList_none, List.append_nil], ho,
      hr.hasItem⟩
  | .mk o (some t), s, h, hd => by
    refine (o.runs h hd).append fun ⟨ho, hr⟩ => ?_
    obtain ⟨operand, htakes⟩ := hr.takes limit
    exact .cons (htakes (.quantify rfl t.2)) (.nil ⟨ho, Or.inl rfl⟩)

theorem Sequence.runs : ∀ (q : Sequence) {s : Parsing}, s.MayBegin →
    s.depth + q.depth ≤ limit → s.Runs limit q.tokens (WithItem s.outer)
  | .last q, s, h, hd => q.runs h hd
  | .cons q rest, s, h, hd => by
    rw [Sequence.depth] at hd
    refine (q.runs h (by omega)).append fun {r} ⟨ho, hr⟩ => ?_
    rw [← ho]
    exact rest.runs hr.mayBegin (by rw [depth_eq ho]; omega)

theorem Alternatives.runs : ∀ (a : Alternatives) {s : Parsing}, s.HasItem →
    s.depth + a.depth ≤ limit → s.Runs limit a.tokens (WithItem s.outer)
  | .nil, s, h, _ => .nil ⟨rfl, h⟩
  | .cons bar q rest, s, h, hd => by
    rw [Alternatives.depth] at hd
    obtain ⟨r, hp, ho, htakes⟩ := h.takes limit
    refine .cons (htakes (bar.kind_ne (by decide)) (.bar hp bar.2)) ?_
    have hd' : Parsing.depth ⟨r.outer, r.level.split bar.1.position, .operand⟩ = s.depth :=
      depth_eq ho
    refine (q.runs (Or.inl rfl) (by omega)).append fun {r'} ⟨ho', hr'⟩ => ?_
    rw [← ho, ← ho']
    exact rest.runs hr' (by rw [depth_eq ho', hd']; omega)

theorem Regexp.runs : ∀ (r : Regexp) {s : Parsing}, s.MayBegin →
    s.depth + r.depth ≤ limit → s.Runs limit r.tokens (WithItem s.outer)
  | .mk first rest, s, h, hd => by
    rw [Regexp.depth] at hd
    refine (first.runs h (by omega)).append fun {r} ⟨ho, hr⟩ => ?_
    rw [← ho]
    exact rest.runs hr (by rw [depth_eq ho]; omega)

end

end Grammar

namespace Parsing

/-- At the end of a pattern, after a quantified operand and outside all groups, there is a tree. -/
theorem exists_tree_of_withItem {s : Parsing} (h : WithItem [] s) :
    ∃ tree, s.finish = .ok tree := by
  obtain ⟨ho, hp | ⟨operand, hp⟩ | ⟨position, negated, members, operand, hp, hc⟩⟩ := h
  · exact ⟨.root s.level.tree, by rw [finish, hp]; exact if_pos ho⟩
  · refine ⟨.root (s.level.push (.quantified none operand)).tree, ?_⟩
    rw [finish, hp]
    exact if_pos ho
  · refine ⟨.root (s.level.push (.quantified none operand)).tree, ?_⟩
    rw [finish, hp]
    exact bind_eq_ok_iff.mpr ⟨operand, hc, if_pos ho⟩

end Parsing

/-- A pattern whose tokens have a derivation that is not nested too deep is not refused. -/
theorem Grammar.Regexp.exists_tree {limit : Nat} {pattern : List Char} {r : Regexp}
    (hts : Tokens.ofPattern pattern = ⟨r.tokens, none⟩) (hd : r.depth ≤ limit) :
    ∃ tree, Tree.parse limit pattern = .ok tree := by
  have hstart : Parsing.start.depth + r.depth ≤ limit := (Nat.zero_add r.depth).symm ▸ hd
  obtain ⟨s, hrun, hitem⟩ := r.runs (Or.inl rfl) hstart
  obtain ⟨tree, hf⟩ := Parsing.exists_tree_of_withItem hitem
  refine ⟨tree, ?_⟩
  rw [Tree.parse, hts]
  exact Tokens.parse_eq_ok_iff.mpr ⟨rfl, s, hrun, hf⟩

/-- **The parser and the grammar agree**: a pattern has a tree exactly when all its tokens can be
read and have a derivation whose groups are nested as deep as is allowed. The tree is that of the
derivation, and the tokens have no other derivation. -/
theorem Tree.parse_spec (limit : Nat) (pattern : List Char) :
    (∀ tree, Tree.parse limit pattern = .ok tree ↔ ∃ r : Regexp,
      Tokens.ofPattern pattern = ⟨r.tokens, none⟩ ∧ r.depth ≤ limit ∧ tree = .root r.tree) ∧
    ∀ r r' : Regexp, r.tokens = r'.tokens → r = r' := by
  refine ⟨fun tree => ⟨exists_regexp_of_parse, ?_⟩, fun _ _ => Regexp.tokens_inj⟩
  rintro ⟨r, hts, hd, rfl⟩
  obtain ⟨tree, hparse⟩ := Regexp.exists_tree hts hd
  obtain ⟨r', hts', -, rfl⟩ := exists_regexp_of_parse hparse
  -- The derivation behind the tree that was found has the same tokens, so it is the given one.
  have hr : r = r' := Regexp.tokens_inj (congrArg Tokens.list (hts.symm.trans hts'))
  rw [hr, hparse]

/-- A group may be nested as deep as the limit and no deeper. -/
theorem Tree.parse_spec_group :
    (∃ tree r, Tree.parse 1 "(a)".toList = .ok tree ∧
      Tokens.ofPattern "(a)".toList = ⟨Regexp.tokens r, none⟩ ∧ r.depth ≤ 1 ∧
      tree = .root r.tree ∧ ∀ r', r.tokens = r'.tokens → r = r') ∧
    ∀ tree, Tree.parse 0 "(a)".toList ≠ .ok tree := by
  constructor
  · have hsome : (Tree.parse 1 "(a)".toList).toOption.isSome = true := by decide +kernel
    cases h : Tree.parse 1 "(a)".toList with
    | error e =>
      rw [h] at hsome
      cases hsome
    | ok tree =>
      obtain ⟨r, hts, hd, htree⟩ := ((parse_spec 1 "(a)".toList).1 tree).mp h
      exact ⟨tree, r, rfl, hts, hd, htree, (parse_spec 1 "(a)".toList).2 r⟩
  · intro tree h
    have hnone : (Tree.parse 0 "(a)".toList).toOption.isSome = false := by decide +kernel
    rw [h] at hnone
    cases hnone

end PatternAutomata
