import Mathlib.Computability.Language
import PatternAutomata.Expr.OfTree
import PatternAutomata.Proofs.Intervals
import PatternAutomata.Proofs.Shape

/-!
# The regular language of a pattern

The meaning of a tree, against which `build_nfa` (in `nfa`) is measured. Nothing in the program
computes it.

`Tree.language` reads the language off the tree of a pattern, node by node, without the detour over
expressions and automata: it says what the pattern means. `Expr.language` does the same for
expressions.

Results:
* **`Tree.exists_expr`**: the expression of a well shaped tree exists and has the language of the
  tree.
-/

namespace PatternAutomata

open Computability

/-- The words of one character that satisfies `p`. -/
def oneChar (p : Char → Prop) : Language Char := {w | ∃ c, p c ∧ w = [c]}

theorem oneChar_congr {p q : Char → Prop} (h : ∀ c, p c ↔ q c) : oneChar p = oneChar q :=
  congrArg oneChar (funext fun c => propext (h c))

/-- The words of a quantified operand whose own words are `l`. -/
def repeated (l : Language Char) : Option Char → Language Char
  | some '*' => l∗
  | some '+' => l * l∗
  | some '?' => 1 + l
  | _ => l

/-! ## Trees -/

namespace Tree

/-- Whether a member of a class stands for `c`. -/
def standsFor : Tree → Char → Prop
  | .node .literal value _ _, c => value = some c
  | .node .range _ _ [lo, hi], c => ∃ a b, lo.value = some a ∧ hi.value = some b ∧ a ≤ c ∧ c ≤ b
  | _, _ => False

/-- Whether the child of a selector reads `c`. -/
def reads : Tree → Char → Prop
  | .node .any _ _ _, c => ' ' ≤ c
  | .node .charClass value _ members, c =>
    if value = some '^' then ∀ m ∈ members, ¬ m.standsFor c else ∃ m ∈ members, m.standsFor c
  | t, c => t.standsFor c

mutual

/-- The language of a tree. -/
def language : Tree → Language Char
  | .node kind value position ts =>
    match kind with
    | .regexp => inSequence ts + alternatives ts
    | .quantified => repeated (onlyChild ts) value
    | .root | .alternation | .expression | .group | .selector => onlyChild ts
    | .literal | .any | .charClass | .range => oneChar (Tree.node kind value position ts).reads

/-- The words of the quantified operands among the children of a `regexp`, one after the other. -/
def inSequence : List Tree → Language Char
  | [] => 1
  | t :: ts => if t.kind = .quantified then t.language * inSequence ts else inSequence ts

/-- The words of any of the alternations among the children of a `regexp`. -/
def alternatives : List Tree → Language Char
  | [] => 0
  | t :: ts => if t.kind = .alternation then t.language + alternatives ts else alternatives ts

/-- The language of a single child. -/
def onlyChild : List Tree → Language Char
  | [t] => t.language
  | _ => 0

end

theorem inSequence_cons_quantified {t : Tree} (h : t.kind = .quantified) (ts : List Tree) :
    inSequence (t :: ts) = t.language * inSequence ts := by
  rw [inSequence, if_pos h]

theorem inSequence_cons_alternation {t : Tree} (h : t.kind = .alternation) (ts : List Tree) :
    inSequence (t :: ts) = inSequence ts := by
  rw [inSequence, if_neg (by rw [h]; decide)]

theorem alternatives_cons_quantified {t : Tree} (h : t.kind = .quantified) (ts : List Tree) :
    alternatives (t :: ts) = alternatives ts := by
  rw [alternatives, if_neg (by rw [h]; decide)]

theorem alternatives_cons_alternation {t : Tree} (h : t.kind = .alternation) (ts : List Tree) :
    alternatives (t :: ts) = t.language + alternatives ts := by
  rw [alternatives, if_pos h]

end Tree

/-! ## Expressions -/

/-- The words of one character that the class reads. -/
def CharClass.language (cls : CharClass) : Language Char := oneChar fun c => cls.contains c = true

namespace Expr

mutual

/-- The language of an expression. -/
def language : Expr → Language Char
  | .chars cls => cls.language
  | .sequence first rest => first.language * product rest
  | .choice branches => union branches
  | .star body => body.language∗
  | .plus body => body.language * body.language∗
  | .optional body => 1 + body.language

/-- The words of all the expressions, one after the other. -/
def product : List Expr → Language Char
  | [] => 1
  | e :: rest => e.language * product rest

/-- The words of any of the expressions. -/
def union : List Expr → Language Char
  | [] => 0
  | e :: rest => e.language + union rest

end

theorem language_inSequence (e : Expr) (rest : List Expr) :
    (inSequence e rest).language = e.language * product rest := by
  cases rest with
  | nil => rw [product, mul_one, inSequence]
  | cons f rest => rw [inSequence, language]; exact List.cons_ne_nil f rest

theorem language_oneOf (e : Expr) (rest : List Expr) :
    (oneOf e rest).language = e.language + union rest := by
  cases rest with
  | nil => rw [union, add_zero, oneOf]
  | cons f rest => rw [oneOf, language, union]; exact List.cons_ne_nil f rest

theorem language_quantify (e : Expr) (quantifier : Option Char) :
    (e.quantify quantifier).language = repeated e.language quantifier := by
  unfold quantify
  by_cases hs : quantifier = some '*'
  · simp [hs, repeated, language]
  by_cases hp : quantifier = some '+'
  · simp [hp, repeated, language]
  by_cases ho : quantifier = some '?'
  · simp [ho, repeated, language]
  · simp [hs, hp, ho, repeated]

end Expr

/-! ## The expression of a well shaped tree -/

namespace Expr.OfTree

open PatternAutomata.Tree (Fits WellShaped)

/-- What a node of each kind gives to the expression around it: the expression exists and has the
language of the node. -/
def Denoted (t : Tree) : Prop :=
  match t.kind with
  | .root => ∃ e, onlyRegexp t.children = .ok e ∧ e.language = t.language
  | .regexp => ∃ e, regexp t = .ok e ∧ e.language = t.language
  | .alternation => ∃ e, onlyRegexp t.children = .ok e ∧ e.language = t.language
  | .quantified => ∃ e, expression t.children = .ok e ∧ (e.quantify t.value).language = t.language
  | .expression => ∃ e, operand t.children = .ok e ∧ e.language = t.language
  | .group => ∃ e, onlyRegexp t.children = .ok e ∧ e.language = t.language
  | .selector => ∃ e, selected t.children = .ok e ∧ e.language = t.language
  | .literal | .any | .charClass => ∃ cls, charClass t = .ok cls ∧ cls.language = t.language
  | .range => True

theorem Denoted.quantified {t : Tree} (h : Denoted t) (hk : t.kind = .quantified) :
    ∃ e, OfTree.expression t.children = .ok e ∧ (e.quantify t.value).language = t.language := by
  unfold Denoted at h
  rwa [hk] at h

theorem Denoted.alternation {t : Tree} (h : Denoted t) (hk : t.kind = .alternation) :
    ∃ e, OfTree.onlyRegexp t.children = .ok e ∧ e.language = t.language := by
  unfold Denoted at h
  rwa [hk] at h

theorem Denoted.regexp {t : Tree} (h : Denoted t) (hk : t.kind = .regexp) :
    ∃ e, OfTree.regexp t = .ok e ∧ e.language = t.language := by
  unfold Denoted at h
  rwa [hk] at h

theorem Denoted.expression {t : Tree} (h : Denoted t) (hk : t.kind = .expression) :
    ∃ e, OfTree.expression [t] = .ok e ∧ e.language = t.language := by
  obtain ⟨kind, value, position, ts⟩ := t
  obtain rfl : kind = .expression := hk
  exact h

theorem Denoted.operand {t : Tree} (h : Denoted t) (hk : t.kind = .selector ∨ t.kind = .group) :
    ∃ e, OfTree.operand [t] = .ok e ∧ e.language = t.language := by
  obtain ⟨kind, value, position, ts⟩ := t
  rcases hk with rfl | rfl
  · exact h
  · exact h

theorem Denoted.selected {t : Tree} (h : Denoted t)
    (hk : t.kind = .literal ∨ t.kind = .any ∨ t.kind = .charClass) :
    ∃ e, OfTree.selected [t] = .ok e ∧ e.language = t.language := by
  have hc : ∃ cls, charClass t = .ok cls ∧ cls.language = t.language := by
    unfold Denoted at h
    rcases hk with hk | hk | hk
    all_goals
      rw [hk] at h
      exact h
  obtain ⟨cls, hcls, hl⟩ := hc
  refine ⟨.chars cls, ?_, hl⟩
  rw [OfTree.selected, hcls]
  rfl

theorem parts_cons_quantified {t : Tree} (hk : t.kind = .quantified) (ts : List Tree) :
    parts (t :: ts) = (do
      let e ← OfTree.expression t.children
      let (items, branches) ← parts ts
      return (e.quantify t.value :: items, branches)) := by
  obtain ⟨kind, value, position, us⟩ := t
  obtain rfl : kind = .quantified := hk
  rw [parts]
  rfl

theorem parts_cons_alternation {t : Tree} (hk : t.kind = .alternation) (ts : List Tree) :
    parts (t :: ts) = (do
      let e ← OfTree.onlyRegexp t.children
      let (items, branches) ← parts ts
      return (items, e :: branches)) := by
  obtain ⟨kind, value, position, us⟩ := t
  obtain rfl : kind = .alternation := hk
  rw [parts]
  rfl

/-- Members of a class are read as what they stand for. -/
theorem exists_classMember {t : Tree} (h : t.WellShaped)
    (hk : t.kind = .literal ∨ t.kind = .range) :
    ∃ m, classMember t = .ok m ∧ ∀ c, c ∈ m.interval ↔ t.standsFor c := by
  obtain @⟨kind, value, position, ts, fits, -⟩ := h
  rcases hk with rfl | rfl
  · obtain ⟨hv, rfl⟩ := fits
    obtain ⟨a, rfl⟩ := Option.ne_none_iff_exists'.mp hv
    refine ⟨.char a, rfl, fun c => ?_⟩
    show c ∈ Interval.single a ↔ some a = some c
    rw [Interval.mem_single, Option.some_inj, eq_comm]
  · obtain ⟨-, lo, hi, a, b, rfl, -, -, ha, hb, -⟩ := fits
    refine ⟨.range ⟨leafChar lo, leafChar hi⟩, rfl, fun c => ?_⟩
    show c ∈ Interval.mk (lo.value.getD '\x00') (hi.value.getD '\x00') ↔
      ∃ a b, lo.value = some a ∧ hi.value = some b ∧ a ≤ c ∧ c ≤ b
    rw [Interval.mem_iff, ha, hb]
    simp

theorem exists_members {ts : List Tree} (h : ∀ t ∈ ts, t.WellShaped)
    (hk : ∀ t ∈ ts, t.kind = .literal ∨ t.kind = .range) :
    ∃ ms, ts.mapM classMember = .ok ms ∧
      ∀ c, (∃ i ∈ ms.map ClassMember.interval, c ∈ i) ↔ ∃ t ∈ ts, t.standsFor c := by
  induction ts with
  | nil => exact ⟨[], rfl, fun c => by simp⟩
  | cons t ts ih =>
    obtain ⟨ht, hts⟩ := List.forall_mem_cons.mp h
    obtain ⟨hkt, hkts⟩ := List.forall_mem_cons.mp hk
    obtain ⟨m, hm, hmc⟩ := exists_classMember ht hkt
    obtain ⟨ms, hms, hmsc⟩ := ih hts hkts
    refine ⟨m :: ms, ?_, fun c => ?_⟩
    · rw [List.mapM_cons, hm, hms]
      rfl
    · simp only [List.map_cons, List.mem_cons, exists_eq_or_imp, hmc, hmsc]

theorem denoted_charClass {value : Option Char} {position : Nat} {ts : List Tree}
    (fits : Fits value ts .charClass) (h : ∀ t ∈ ts, t.WellShaped) :
    Denoted (.node .charClass value position ts) := by
  obtain ⟨-, -, hk⟩ := fits
  obtain ⟨ms, hms, hc⟩ := exists_members h hk
  refine ⟨⟨value = some '^', ms⟩, ?_, ?_⟩
  · rw [charClass, hms]
    rfl
  · show oneChar _ = oneChar _
    refine oneChar_congr fun c => ?_
    rw [CharClass.contains_iff]
    have hall : (∀ i ∈ ms.map ClassMember.interval, c ∉ i) ↔ ∀ m ∈ ts, ¬ m.standsFor c := by
      have := not_congr (hc c)
      simpa using this
    show (if decide (value = some '^') = true then _ else _) ↔ if value = some '^' then _ else _
    by_cases hv : value = some '^'
    · simp only [hv, decide_true, if_true]
      exact hall
    · simp only [hv, decide_false, Bool.false_eq_true, if_false]
      exact hc c

/-- The children of a `regexp` are split into the operands of its first branch and its other
branches. -/
theorem exists_parts {ts : List Tree} (ih : ∀ t ∈ ts, Denoted t)
    (hk : ∀ t ∈ ts, t.kind = .quantified ∨ t.kind = .alternation) :
    ∃ items branches, parts ts = .ok (items, branches) ∧ product items = Tree.inSequence ts ∧
      union branches = Tree.alternatives ts ∧ (items = [] → ∀ t ∈ ts, t.kind ≠ .quantified) := by
  induction ts with
  | nil => exact ⟨[], [], rfl, rfl, rfl, fun _ _ h => absurd h List.not_mem_nil⟩
  | cons t ts ih' =>
    obtain ⟨iht, ihts⟩ := List.forall_mem_cons.mp ih
    obtain ⟨hkt, hkts⟩ := List.forall_mem_cons.mp hk
    obtain ⟨items, branches, hp, hi, hb, hne⟩ := ih' ihts hkts
    rcases hkt with hkt | hkt
    · obtain ⟨e, he, hl⟩ := iht.quantified hkt
      refine ⟨e.quantify t.value :: items, branches, ?_, ?_, ?_, fun h => absurd h (by simp)⟩
      · rw [parts_cons_quantified hkt, he, hp]
        rfl
      · rw [product, hi, hl, Tree.inSequence_cons_quantified hkt]
      · rw [hb, Tree.alternatives_cons_quantified hkt]
    · obtain ⟨e, he, hl⟩ := iht.alternation hkt
      refine ⟨items, e :: branches, ?_, ?_, ?_, fun h => List.forall_mem_cons.mpr ⟨?_, hne h⟩⟩
      · rw [parts_cons_alternation hkt, he, hp]
        rfl
      · rw [hi, Tree.inSequence_cons_alternation hkt]
      · rw [union, hb, hl, Tree.alternatives_cons_alternation hkt]
      · rw [hkt]
        exact NodeKind.noConfusion

theorem denoted_regexp {value : Option Char} {position : Nat} {ts : List Tree}
    (fits : Fits value ts .regexp) (ih : ∀ t ∈ ts, Denoted t) :
    Denoted (.node .regexp value position ts) := by
  obtain ⟨-, first, later, rfl, hne, hf, hl⟩ := fits
  have hk : ∀ t ∈ first ++ later, t.kind = .quantified ∨ t.kind = .alternation := fun t ht =>
    (List.mem_append.mp ht).imp (hf t) (hl t)
  obtain ⟨items, branches, hp, hi, hb, hq⟩ := exists_parts ih hk
  obtain ⟨t, ht⟩ := List.exists_mem_of_ne_nil first hne
  cases items with
  | nil => exact absurd (hf t ht) (hq rfl t (List.mem_append_left _ ht))
  | cons e items =>
    refine ⟨oneOf (inSequence e items) branches, ?_, ?_⟩
    · rw [regexp, hp]
      rfl
    · rw [language_oneOf, language_inSequence, hb, ← product, hi]
      rfl

/-- **The expression of a well shaped tree** exists, and it has the language of the tree. -/
theorem denoted {t : Tree} (h : t.WellShaped) : Denoted t := by
  induction h with
  | @node kind value position ts fits hts ih =>
    cases kind with
    | literal =>
      obtain ⟨hv, -⟩ := fits
      obtain ⟨a, rfl⟩ := Option.ne_none_iff_exists'.mp hv
      refine ⟨.single a, rfl, oneChar_congr fun c => ?_⟩
      rw [CharClass.contains_iff]
      show (∃ i ∈ [Interval.single a], c ∈ i) ↔ some a = some c
      rw [Option.some_inj, eq_comm]
      simp [Interval.mem_single]
    | any =>
      refine ⟨.any, rfl, oneChar_congr fun c => ?_⟩
      rw [CharClass.contains_iff]
      show (∃ i ∈ [Interval.mk ' ' lastChar], c ∈ i) ↔ ' ' ≤ c
      simp [Interval.mem_iff, le_lastChar]
    | charClass => exact denoted_charClass fits hts
    | range => trivial
    | regexp => exact denoted_regexp fits ih
    | root =>
      obtain ⟨-, t, rfl, hk⟩ := fits
      exact (ih t List.mem_cons_self).regexp hk
    | alternation =>
      obtain ⟨-, t, rfl, hk, -⟩ := fits
      exact (ih t List.mem_cons_self).regexp hk
    | group =>
      obtain ⟨-, t, rfl, hk⟩ := fits
      exact (ih t List.mem_cons_self).regexp hk
    | quantified =>
      obtain ⟨-, t, rfl, hk⟩ := fits
      obtain ⟨e, he, hl⟩ := (ih t List.mem_cons_self).expression hk
      refine ⟨e, he, ?_⟩
      rw [language_quantify, hl]
      rfl
    | expression =>
      obtain ⟨-, t, rfl, hk⟩ := fits
      exact (ih t List.mem_cons_self).operand hk
    | selector =>
      obtain ⟨-, t, rfl, hk⟩ := fits
      exact (ih t List.mem_cons_self).selected hk

end Expr.OfTree

/-- **The expression of a pattern's tree** exists, and it has the language of the tree. -/
theorem Tree.exists_expr {t : Tree} (h : t.Is .root) :
    ∃ e, Expr.ofTree? t = .ok e ∧ e.language = t.language := by
  have hd := Expr.OfTree.denoted h.1
  unfold Expr.OfTree.Denoted at hd
  rwa [h.2] at hd

end PatternAutomata
