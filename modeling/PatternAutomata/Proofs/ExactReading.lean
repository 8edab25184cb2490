import PatternAutomata.Proofs.DeadEnds
import PatternAutomata.Proofs.SubsetOrder

/-!
# Reading a tree with all assertions

About `build_nfa` (in `nfa`) with the assertion in `only_child` (in `parser`), and about `build` (at
the top level) as a whole.

`Expr.ofTree?` looks at the first child of a node that should have one child only. Here is the same
reading with the assertion that there is no other: `Expr.ofExactTree?` goes through the same nodes
and stops where a node that should have one child has none or several. On the tree of a pattern it
never stops, because the parser gives every node the shape on which the reading relies. What comes
after the reading cannot stop either, as all states that are named in it exist.

Results:
* `Expr.OfTree.exactRegexp_eq`: on a well shaped tree no assertion fails;
* **`Regex.compile_total`**: a compilation ends with a compiled pattern, with what is wrong with the
  pattern, or with too many states.

Out of scope: running out of memory or of stack.
-/

namespace PatternAutomata

/-- Why a reading with assertions stops. -/
inductive ReadingError
  /-- The tree is not that of a pattern. -/
  | shape (error : ShapeError)
  /-- A node of this kind has `count` children and should have one. -/
  | notOnly (kind : NodeKind) (count : Nat)
deriving DecidableEq

namespace Expr.OfTree

/-- What the only child of a `selector` node reads. -/
def exactSelected : List Tree → Except ReadingError Expr
  | [t] => (selected [t]).mapError .shape
  | ts => .error (.notOnly .selector ts.length)

mutual

/-- The expression of a `regexp` node. -/
def exactRegexp : Tree → Except ReadingError Expr
  | .node _ _ _ ts => do
    match ← exactParts ts with
    | ([], _) => .error (.shape .noExpression)
    | (e :: items, branches) => .ok (oneOf (inSequence e items) branches)

/-- The operands of the first branch, and the other branches, among the children of a `regexp`
node. -/
def exactParts : List Tree → Except ReadingError (List Expr × List Expr)
  | [] => .ok ([], [])
  | .node .quantified quantifier _ ts :: rest => do
    let e ← exactExpression ts
    let (items, branches) ← exactParts rest
    return (e.quantify quantifier :: items, branches)
  | .node .alternation _ _ ts :: rest => do
    let e ← exactOnlyRegexp .alternation ts
    let (items, branches) ← exactParts rest
    return (items, e :: branches)
  | .node kind _ _ _ :: _ => .error (.shape (.misplaced kind .regexp))

/-- The expression of the only child of a node of the given kind, a `regexp`. -/
def exactOnlyRegexp (kind : NodeKind) : List Tree → Except ReadingError Expr
  | [t] => exactRegexp t
  | ts => .error (.notOnly kind ts.length)

/-- The operand of the only child of a `quantified` node, an `expression`. -/
def exactExpression : List Tree → Except ReadingError Expr
  | [.node kind _ _ ts] => exactOperand kind ts
  | ts => .error (.notOnly .quantified ts.length)

/-- The operand that the only child of a node of the given kind is. -/
def exactOperand (kind : NodeKind) : List Tree → Except ReadingError Expr
  | [.node .group _ _ ts] => exactOnlyRegexp .group ts
  | [.node .selector _ _ ts] => exactSelected ts
  | [.node other _ _ _] => .error (.shape (.misplaced other .expression))
  | ts => .error (.notOnly kind ts.length)

end

end Expr.OfTree

/-- The expression of a whole tree, with all assertions. -/
def Expr.ofExactTree? (t : Tree) : Except ReadingError Expr :=
  OfTree.exactOnlyRegexp t.kind t.children

/-- A second child goes unnoticed without the assertions. -/
example : Expr.ofExactTree?
    (.node .root none 0 [.node .regexp none 0 [], .node .regexp none 1 []]) =
      .error (.notOnly .root 2) := rfl

namespace Expr.OfTree

/-! ## Well shaped trees -/

theorem fits_of_wellShaped {kind : NodeKind} {value : Option Char} {position : Nat}
    {ts : List Tree} (h : (Tree.node kind value position ts).WellShaped) :
    Tree.Fits value ts kind ∧ ∀ t ∈ ts, t.WellShaped := by
  cases h with
  | node fits hts => exact ⟨fits, hts⟩

theorem exactSelected_eq {ts : List Tree} (h : ∃ t, ts = [t]) :
    exactSelected ts = (selected ts).mapError .shape := by
  obtain ⟨t, rfl⟩ := h
  rfl

mutual

/-- **On a well shaped tree no assertion fails.** -/
theorem exactRegexp_eq : ∀ t : Tree, t.WellShaped →
    exactRegexp t = (regexp t).mapError .shape
  | .node kind value position ts, h => by
    rw [exactRegexp, regexp, exactParts_eq ts (fits_of_wellShaped h).2]
    cases parts ts with
    | error e => rfl
    | ok p =>
      obtain ⟨items, branches⟩ := p
      cases items <;> rfl

theorem exactParts_eq : ∀ ts : List Tree, (∀ t ∈ ts, t.WellShaped) →
    exactParts ts = (parts ts).mapError .shape
  | [], _ => rfl
  | .node kind value position us :: rest, h => by
    obtain ⟨ht, hrest⟩ := List.forall_mem_cons.mp h
    obtain ⟨fits, hus⟩ := fits_of_wellShaped ht
    have ih := exactParts_eq rest hrest
    cases kind with
    | quantified =>
      rw [exactParts, parts, exactExpression_eq us hus fits.2, ih]
      cases expression us <;> cases parts rest <;> rfl
    | alternation =>
      obtain ⟨-, t, ht, -⟩ := fits
      rw [exactParts, parts, exactOnlyRegexp_eq .alternation us hus ⟨t, ht⟩, ih]
      cases onlyRegexp us <;> cases parts rest <;> rfl
    | _ => rfl

theorem exactOnlyRegexp_eq (kind : NodeKind) : ∀ ts : List Tree, (∀ t ∈ ts, t.WellShaped) →
    (∃ t, ts = [t]) → exactOnlyRegexp kind ts = (onlyRegexp ts).mapError .shape
  | [], _, h => absurd h (by simp)
  | [t], ht, _ => exactRegexp_eq t (ht t List.mem_cons_self)
  | _ :: _ :: _, _, h => absurd h (by simp)

theorem exactExpression_eq : ∀ ts : List Tree, (∀ t ∈ ts, t.WellShaped) →
    (∃ t, ts = [t] ∧ t.kind = .expression) →
      exactExpression ts = (expression ts).mapError .shape
  | [], _, h => absurd h (by simp)
  | [.node kind value position us], ht, h => by
    obtain ⟨fits, hus⟩ := fits_of_wellShaped (ht _ List.mem_cons_self)
    obtain ⟨t, hts, hk⟩ := h
    obtain rfl := List.singleton_inj.mp hts
    obtain rfl : kind = .expression := hk
    obtain ⟨-, u, hu, -⟩ := fits
    exact exactOperand_eq .expression us hus ⟨u, hu⟩
  | _ :: _ :: _, _, h => absurd h (by simp)

theorem exactOperand_eq (kind : NodeKind) : ∀ ts : List Tree, (∀ t ∈ ts, t.WellShaped) →
    (∃ t, ts = [t]) → exactOperand kind ts = (operand ts).mapError .shape
  | [], _, h => absurd h (by simp)
  | [.node other value position us], ht, _ => by
    obtain ⟨fits, hus⟩ := fits_of_wellShaped (ht _ List.mem_cons_self)
    cases other with
    | group =>
      obtain ⟨-, t, ht, -⟩ := fits
      exact exactOnlyRegexp_eq .group us hus ⟨t, ht⟩
    | selector =>
      obtain ⟨-, t, ht, -⟩ := fits
      exact exactSelected_eq ⟨t, ht⟩
    | _ => rfl
  | _ :: _ :: _, _, h => absurd h (by simp)

end

end Expr.OfTree

/-- A tree with the shape of a pattern's tree is read without a failing assertion, and with the same
result as without the assertions. -/
theorem Expr.exists_ofExactTree? {t : Tree} (h : t.Is .root) :
    ∃ e, ofExactTree? t = .ok e ∧ ofTree? t = .ok e := by
  obtain ⟨e, he, -⟩ := Tree.exists_expr h
  obtain ⟨hw, hk⟩ := h
  cases t with
  | node kind value position ts =>
    obtain rfl : kind = .root := hk
    obtain ⟨⟨-, t, ht, -⟩, hts⟩ := OfTree.fits_of_wellShaped hw
    have heq := OfTree.exactOnlyRegexp_eq .root ts hts ⟨t, ht⟩
    refine ⟨e, heq.trans ?_, he⟩
    rw [show OfTree.onlyRegexp ts = .ok e from he]
    rfl

/-! ## Whole compilations -/

namespace Regex

/-- With a tree, a compilation goes as far as the limit on states lets it. -/
theorem compile_of_tree {pattern : String} {limits : Limits} {t : Tree} {e : Expr}
    (ht : Tree.ofPattern limits pattern = .ok t) (he : Expr.ofTree? t = .ok e) :
    compile pattern limits = (e.toAutomaton.determinize limits.states).map (Regex.mk pattern) := by
  have ha : Automaton.ofTree? t = .ok e.toAutomaton := by
    unfold Automaton.ofTree?
    rw [he]
    rfl
  unfold compile Automaton.deterministicOfPattern Automaton.ofPattern
  rw [ht]
  show (((Automaton.ofTree? t).mapError CompileError.shape >>= fun a =>
    a.determinize limits.states) >>= fun d => pure (Regex.mk pattern d)) = _
  rw [ha]
  show ((e.toAutomaton.determinize limits.states) >>= fun d => pure (Regex.mk pattern d)) = _
  cases e.toAutomaton.determinize limits.states <;> rfl

/-- **A compilation always ends with a result or an error.** Either the parser says what is wrong
with the pattern, or it gives a tree of the documented shape. That tree is read without a failing
assertion, the pieces that the automaton is made of name only states of their own, and so do the
edges of the automaton and the sets that the subset construction numbers. Then there is a compiled
pattern, with every numbered set expanded, or there are more states than the limit allows. -/
theorem compile_total (pattern : String) (limits : Limits) :
    (∃ err, Tree.ofPattern limits pattern = .error (.pattern err) ∧
      compile pattern limits = .error (.pattern err)) ∨
    ∃ t e, Tree.ofPattern limits pattern = .ok t ∧ t.Is .root ∧
      Expr.ofExactTree? t = .ok e ∧ Expr.ofTree? t = .ok e ∧ e.fragment.Valid ∧
      Automaton.initial < e.toAutomaton.size ∧ e.toAutomaton.Closed ∧
      (∀ s ∈ (e.toAutomaton.subsets limits.states).nodes, ∀ i ∈ s, i < e.toAutomaton.size) ∧
      (((e.toAutomaton.subsets limits.states).refused = true ∧
          compile pattern limits = .error (.tooManyStates limits.states)) ∨
        (e.toAutomaton.subsets limits.states).rows.size =
            (e.toAutomaton.subsets limits.states).nodes.size ∧
          ∃ re, compile pattern limits = .ok re ∧ Automaton.initial < re.automaton.size ∧
            re.automaton.Closed) := by
  cases hparse : Tree.parse limits.nesting pattern.toList with
  | error err =>
    have ht : Tree.ofPattern limits pattern = .error (.pattern err) := by
      unfold Tree.ofPattern
      rw [hparse]
      rfl
    refine Or.inl ⟨err, ht, ?_⟩
    unfold compile Automaton.deterministicOfPattern Automaton.ofPattern
    rw [ht]
    rfl
  | ok t =>
    have ht : Tree.ofPattern limits pattern = .ok t := by
      unfold Tree.ofPattern
      rw [hparse]
      rfl
    have hshape := Tree.wellShaped_of_parse hparse
    obtain ⟨e, hexact, he⟩ := Expr.exists_ofExactTree? hshape
    have hvalid := e.fragment_spec.1
    obtain ⟨hsize, hclosed, -⟩ := Automaton.noDeadEnd_toAutomaton hvalid
      (Expr.noDeadEnd_fragment (Expr.live_of_parse hparse he))
    have hend := e.toAutomaton.ended_subsets limits.states
    refine Or.inr ⟨t, e, ht, hshape, hexact, he, hvalid, hsize, hclosed, fun s hs i hi => ?_, ?_⟩
    · exact (Automaton.reachable_iff_met.mp (hend.reachable s hs)).lt hi
    cases hf : (e.toAutomaton.subsets limits.states).refused with
    | true =>
      refine Or.inl ⟨rfl, ?_⟩
      rw [compile_of_tree ht he, Automaton.determinize_of_refused hf]
      rfl
    | false =>
      refine Or.inr ⟨(hend.complete hf).1, ?_⟩
      rw [compile_of_tree ht he, Automaton.determinize_of_not_refused hf]
      exact ⟨_, rfl,
        (Automaton.lt_size_ofTable_iff hend hf).mpr ⟨_, Automaton.nodes_subsets_initial hf⟩,
        Automaton.closed_ofTable hend hf⟩

end Regex

end PatternAutomata
