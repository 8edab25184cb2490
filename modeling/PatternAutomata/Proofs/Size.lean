import PatternAutomata.Proofs.DeadEnds
import PatternAutomata.Proofs.Renumbering

/-!
# The states of a pattern's automaton

About `build_nfa` (in `nfa`): how many states `fragment` allocates, and that `from_graph` (in
`automaton`) keeps all of them.

While a pattern is turned into an automaton, two states are made for each operand that reads a
character, for each star and for each choice, and none for anything else. All of them stay: every
state can be reached from the way in, and from every state the way out can be reached. This is so
because each operation on fragments keeps it.

A choice is begun without branches, and then its way out cannot be reached yet, as its way in leads
nowhere yet. That is why a branch is added to a fragment whose way out may be out of reach.

Results:
* `Grammar.Regexp.pairs_tree`: the nodes of a tree that have states of their own;
* `Expr.size_fragment`: the number of states of a fragment;
* `Expr.accessible_fragment`: every state of the fragment of a live expression can be reached;
* `Automaton.trim_toAutomaton`: an automaton keeps all states of a fragment without idle states;
* **`Automaton.trim_of_parse`**: the number of states of a pattern's automaton, and its shape.

Out of scope: the number of edges.
-/

namespace PatternAutomata

/-! ## Nodes with states of their own -/

namespace Tree

mutual

/-- The nodes of a tree in preorder, each as the tree that hangs from it. -/
def nodes : Tree → List Tree
  | .node kind value position ts => .node kind value position ts :: nodesAll ts

/-- The nodes of all the given trees, one tree after the other. -/
def nodesAll : List Tree → List Tree
  | [] => []
  | t :: ts => t.nodes ++ nodesAll ts

end

/-- Whether the node is an operand that reads a character. -/
def isSelector (t : Tree) : Bool := t.kind == .selector

/-- Whether the node is a starred operand. -/
def isStar (t : Tree) : Bool := t.kind == .quantified && t.value == some '*'

/-- Whether the node is the bar between two branches. -/
def isAlternation (t : Tree) : Bool := t.kind == .alternation

/-- Whether the node is a choice. -/
def isChoice (t : Tree) : Bool := t.kind == .regexp && t.children.any isAlternation

/-- The number of the given nodes that have two states of their own. -/
def pairs (ts : List Tree) : Nat := ts.countP isSelector + ts.countP isStar + ts.countP isChoice

variable {t : Tree} {ts us : List Tree}

theorem pairs_append : pairs (ts ++ us) = pairs ts + pairs us := by
  simp only [pairs, List.countP_append]
  omega

theorem pairs_cons : pairs (t :: ts) = pairs [t] + pairs ts := by
  rw [← pairs_append, List.singleton_append]

theorem nodesAll_append : nodesAll (ts ++ us) = nodesAll ts ++ nodesAll us := by
  induction ts with
  | nil => rfl
  | cons t ts ih => rw [List.cons_append, nodesAll, nodesAll, ih, List.append_assoc]

/-- The nodes of a tree are its root and those below. -/
theorem pairs_nodes (kind : NodeKind) (value : Option Char) (position : Nat) (ts : List Tree) :
    pairs (node kind value position ts).nodes =
      pairs [node kind value position ts] + pairs (nodesAll ts) := by
  rw [nodes, pairs_cons]

theorem pairs_nodesAll_cons : pairs (nodesAll (t :: ts)) = pairs t.nodes + pairs (nodesAll ts) := by
  rw [nodesAll, pairs_append]

theorem pairs_nodesAll_singleton : pairs (nodesAll [t]) = pairs t.nodes := by
  rw [pairs_nodesAll_cons]
  rfl

theorem pairs_quantified (quantifier : Option Char) (position : Nat) (ts : List Tree) :
    pairs [node .quantified quantifier position ts] = if quantifier = some '*' then 1 else 0 := by
  simp [pairs, isSelector, isStar, isChoice, kind, value]

theorem pairs_regexp (position : Nat) (ts : List Tree) :
    pairs [node .regexp none position ts] = if ts.any isAlternation then 1 else 0 := by
  simp [pairs, isSelector, isStar, isChoice, kind, children]

end Tree

/-! ## Expressions -/

namespace Expr

mutual

/-- The number of pairs of states that are made for an expression. -/
def pairs : Expr → Nat
  | .chars _ => 1
  | .sequence first rest => pairs first + pairsAll rest
  | .choice branches => pairsAll branches + 1
  | .star body => pairs body + 1
  | .plus body => pairs body
  | .optional body => pairs body

/-- The number of pairs of states that are made for all the expressions. -/
def pairsAll : List Expr → Nat
  | [] => 0
  | e :: rest => pairs e + pairsAll rest

end

theorem pairs_quantify (e : Expr) (quantifier : Option Char) :
    (e.quantify quantifier).pairs = (if quantifier = some '*' then 1 else 0) + e.pairs := by
  unfold quantify
  by_cases hs : quantifier = some '*'
  · rw [if_pos hs, if_pos hs, pairs, Nat.add_comm]
  rw [if_neg hs, if_neg hs, Nat.zero_add]
  by_cases hp : quantifier = some '+'
  · rw [if_pos hp, pairs]
  rw [if_neg hp]
  by_cases ho : quantifier = some '?'
  · rw [if_pos ho, pairs]
  · rw [if_neg ho]

theorem pairs_oneOf (e : Expr) (branches : List Expr) :
    (oneOf e branches).pairs =
      (if branches = [] then 0 else 1) + (e.pairs + pairsAll branches) := by
  cases branches with
  | nil => simp [oneOf, pairsAll]
  | cons f branches =>
    rw [oneOf, pairs, pairsAll, if_neg (List.cons_ne_nil f branches), Nat.add_comm]
    exact List.cons_ne_nil f branches

mutual

/-- **The number of states of a fragment.** -/
theorem size_fragment : ∀ e : Expr, e.fragment.size = 2 * e.pairs
  | .chars _ => rfl
  | .sequence first rest => by
    rw [fragment, size_appendAll, size_fragment first, pairs, Nat.mul_add]
  | .choice branches => by
    rw [fragment, size_addBranches, pairs, Nat.mul_add, Nat.add_comm]
    rfl
  | .star body => congrArg (· + 2) (size_fragment body)
  | .plus body => size_fragment body
  | .optional body => size_fragment body

theorem size_appendAll : ∀ (f : Fragment) (rest : List Expr),
    (appendAll f rest).size = f.size + 2 * pairsAll rest
  | _, [] => rfl
  | f, e :: rest => by
    have happend : (f.append e.fragment).size = f.size + e.fragment.size := rfl
    rw [appendAll, size_appendAll, happend, size_fragment e, pairsAll, Nat.mul_add, Nat.add_assoc]

theorem size_addBranches : ∀ (f : Fragment) (branches : List Expr),
    (addBranches f branches).size = f.size + 2 * pairsAll branches
  | _, [] => rfl
  | f, e :: branches => by
    have hadd : (f.addBranch e.fragment).size = f.size + e.fragment.size := rfl
    rw [addBranches, size_addBranches, hadd, size_fragment e, pairsAll, Nat.mul_add, Nat.add_assoc]

end

end Expr

namespace Grammar

open PatternAutomata.Tree (isAlternation nodesAll)

theorem Sequence.pairs_expr (s : Sequence) : s.expr.pairs = Expr.pairsAll s.exprs := by
  cases s with
  | last q => rfl
  | cons q rest => rfl

/-- The members of a class have no states of their own. -/
theorem pairs_members (ms : List Member) : Tree.pairs (nodesAll (ms.map Member.tree)) = 0 := by
  induction ms with
  | nil => rfl
  | cons m ms ih =>
    rw [List.map_cons, Tree.pairs_nodesAll_cons, ih]
    cases m <;> rfl

theorem Quantified.isAlternation_tree (q : Quantified) : q.tree.isAlternation = false := by
  cases q
  rfl

theorem Sequence.any_trees (s : Sequence) : s.trees.any isAlternation = false := by
  cases s with
  | last q =>
    rw [Sequence.trees, List.any_cons, q.isAlternation_tree, List.any_nil, Bool.or_self]
  | cons q rest =>
    rw [Sequence.trees, List.any_cons, q.isAlternation_tree, rest.any_trees, Bool.or_self]

theorem Alternatives.any_trees (a : Alternatives) :
    a.trees.any isAlternation = true ↔ a.exprs ≠ [] := by
  cases a with
  | nil => simp [Alternatives.trees, Alternatives.exprs]
  | cons bar s rest =>
    rw [Alternatives.trees, List.any_cons, Alternatives.exprs]
    exact iff_of_true rfl (List.cons_ne_nil _ _)

mutual

theorem Operand.pairs_tree : ∀ o : Operand, Tree.pairs o.tree.nodes = o.expr.pairs
  | .literal _ _ => rfl
  | .dot _ _ => rfl
  | .escape _ => rfl
  | .charClass c => by
    have hclass : Tree.pairs c.tree.nodes = 0 := by
      unfold Bracketed.tree Tree.charClass
      rw [Tree.pairs_nodes, pairs_members]
      rfl
    unfold Operand.tree Tree.selector Tree.spanning
    rw [Tree.pairs_nodes, Tree.pairs_nodesAll_singleton, hclass]
    rfl
  | .group _ body _ => by
    unfold Operand.tree Tree.group
    rw [Tree.pairs_nodes, Tree.pairs_nodesAll_singleton, body.pairs_tree, Operand.expr]
    exact Nat.zero_add _

theorem Quantified.pairs_tree : ∀ q : Quantified, Tree.pairs q.tree.nodes = q.expr.pairs
  | .mk operand quantifier => by
    unfold Quantified.tree Tree.quantified Tree.spanning
    rw [Tree.pairs_nodes, Tree.pairs_quantified, Tree.pairs_nodesAll_singleton, Tree.pairs_nodes,
      Tree.pairs_nodesAll_singleton, operand.pairs_tree, Quantified.expr, Expr.pairs_quantify]
    exact congrArg _ (Nat.zero_add _)

theorem Sequence.pairs_trees (s : Sequence) :
    Tree.pairs (nodesAll s.trees) = Expr.pairsAll s.exprs := by
  cases s with
  | last q =>
    rw [Sequence.trees, Sequence.exprs, Tree.pairs_nodesAll_singleton, q.pairs_tree, Expr.pairsAll]
    rfl
  | cons q rest =>
    rw [Sequence.trees, Sequence.exprs, Tree.pairs_nodesAll_cons, q.pairs_tree, rest.pairs_trees,
      Expr.pairsAll]

theorem Alternatives.pairs_trees : ∀ a : Alternatives,
    Tree.pairs (nodesAll a.trees) = Expr.pairsAll a.exprs
  | .nil => rfl
  | .cons bar s rest => by
    have hbranch : Tree.pairs (Tree.spanning .regexp none s.trees).nodes = s.expr.pairs := by
      unfold Tree.spanning
      rw [Tree.pairs_nodes, Tree.pairs_regexp, s.any_trees, s.pairs_trees, s.pairs_expr]
      exact Nat.zero_add _
    rw [Alternatives.trees, Alternatives.exprs, Tree.pairs_nodesAll_cons, rest.pairs_trees,
      Expr.pairsAll]
    unfold Tree.alternation
    rw [Tree.pairs_nodes, Tree.pairs_nodesAll_singleton, hbranch]
    exact congrArg (· + _) (Nat.zero_add _)

/-- **The nodes with states of their own** are as many as the pairs of states that are made. -/
theorem Regexp.pairs_tree : ∀ r : Regexp, Tree.pairs r.tree.nodes = r.expr.pairs
  | .mk first rest => by
    have hany : (first.trees ++ rest.trees).any isAlternation = true ↔ rest.exprs ≠ [] := by
      rw [List.any_append, first.any_trees, Bool.false_or, rest.any_trees]
    unfold Regexp.tree Tree.spanning
    rw [Tree.pairs_nodes, Tree.pairs_regexp, Tree.nodesAll_append, Tree.pairs_append,
      first.pairs_trees, rest.pairs_trees, Regexp.expr, Expr.pairs_oneOf, first.pairs_expr]
    simp only [hany, ite_not]

end

/-- The root of a pattern's tree has no states of its own. -/
theorem Regexp.pairs_root (r : Regexp) : Tree.pairs (Tree.root r.tree).nodes = r.expr.pairs := by
  unfold Tree.root
  rw [Tree.pairs_nodes, Tree.pairs_nodesAll_singleton, r.pairs_tree]
  exact Nat.zero_add _

end Grammar

/-! ## No state is idle -/

namespace Fragment

variable {f g : Fragment} {i : Nat}

/-- Some walk leads from the way in to every state. -/
def Accessible (f : Fragment) : Prop := ∀ i < f.size, Reaches f.arc f.start i

theorem accessible_parallel {labels : List Label} {c : Char}
    (h : ∃ l ∈ labels, l.accepts c = true) : (parallel labels).Accessible := by
  obtain ⟨l, hl, hc⟩ := h
  intro i hi
  have hi : i < 2 := hi
  obtain rfl | rfl : i = 0 ∨ i = 1 := by omega
  · exact .refl 0
  · exact ⟨[c], .read_arc (arc_parallel.mpr ⟨rfl, hl, rfl⟩) hc⟩

theorem accessible_append (hf : f.Valid) (h : f.Accessible) (h' : g.Accessible) :
    (f.append g).Accessible := by
  intro i hi
  show Reaches (f.append g).arc f.start i
  rw [arc_append]
  rcases lt_or_exists_add hi with hi | ⟨i, hi', rfl⟩
  · exact (reaches_beside_left (h i hi)).old
  · have hleft := reaches_beside_left (g := g) (h f.stop hf.stop_lt)
    exact hleft.old.trans (Reaches.new.trans (reaches_beside_right (h' i hi')).old)

/-- With a branch the way out can be reached, even if it could not. -/
theorem accessible_addBranch (hg : g.Valid)
    (h : ∀ i < f.size, i ≠ f.stop → Reaches f.arc f.start i) (h' : g.Accessible) :
    (f.addBranch g).Accessible := by
  intro i hi
  show Reaches (f.addBranch g).arc f.start i
  rw [arc_addBranch]
  have right : ∀ i < g.size, Reaches (addSilent (addSilent (beside f g) f.start (g.start + f.size))
      (g.stop + f.size) f.stop) f.start (i + f.size) := fun i hi =>
    Reaches.new.old.trans (reaches_beside_right (h' i hi)).old.old
  rcases lt_or_exists_add hi with hi | ⟨i, hi', rfl⟩
  · by_cases hs : i = f.stop
    · rw [hs]
      exact (right g.stop hg.stop_lt).trans .new
    · exact (reaches_beside_left (h i hi hs)).old.old
  · exact right i hi'

theorem accessible_plus (h : f.Accessible) : f.plus.Accessible := by
  intro i hi
  rw [arc_plus]
  exact (h i hi).old

theorem accessible_optional (h : f.Accessible) : f.optional.Accessible := by
  intro i hi
  rw [arc_optional]
  exact (h i hi).old

theorem accessible_star (h : f.Accessible) : f.star.Accessible := by
  intro i hi
  have hi : i < f.size + 2 := hi
  show Reaches f.star.arc f.size i
  rw [arc_star]
  obtain hi | rfl | rfl : i < f.size ∨ i = f.size ∨ i = f.size + 1 := by omega
  · have hin : Reaches f.plus.arc f.start i := accessible_plus h i hi
    exact Reaches.new.old.old.trans hin.old.old.old
  · exact .refl _
  · exact .new

end Fragment

namespace Expr

open Fragment

mutual

/-- **The fragment of a live expression** has no state out of reach. -/
theorem accessible_fragment : ∀ {e : Expr}, e.Live → e.fragment.Accessible
  | .chars cls, ⟨c, hc⟩ => accessible_parallel ((cls.labels_accept c).mpr hc)
  | .sequence first _, h =>
    accessible_appendAll first.fragment_spec.1 (accessible_fragment h.1) h.2
  | .choice [], h => absurd rfl h.1
  | .choice (e :: rest), h => by
    have hhub : ∀ i < hub.size, i ≠ hub.stop → Reaches hub.arc hub.start i := by
      intro i hi hs
      obtain rfl : i = 0 := by
        have hi : i < 2 := hi
        have hs : i ≠ 1 := hs
        omega
      exact .refl 0
    rw [fragment, addBranches]
    exact accessible_addBranches
      (accessible_addBranch e.fragment_spec.1 hhub (accessible_fragment h.2.1)) h.2.2
  | .star _, h => accessible_star (accessible_fragment h)
  | .plus _, h => accessible_plus (accessible_fragment h)
  | .optional _, h => accessible_optional (accessible_fragment h)

theorem accessible_appendAll : ∀ {f : Fragment} {rest : List Expr}, f.Valid → f.Accessible →
    LiveAll rest → (appendAll f rest).Accessible
  | _, [], _, hf, _ => hf
  | _, e :: _, hv, hf, h => by
    rw [appendAll]
    exact accessible_appendAll (valid_append hv e.fragment_spec.1)
      (accessible_append hv hf (accessible_fragment h.1)) h.2

theorem accessible_addBranches : ∀ {f : Fragment} {branches : List Expr}, f.Accessible →
    LiveAll branches → (addBranches f branches).Accessible
  | _, [], hf, _ => hf
  | _, e :: _, hf, h => by
    rw [addBranches]
    exact accessible_addBranches (accessible_addBranch e.fragment_spec.1 (fun i hi _ => hf i hi)
      (accessible_fragment h.1)) h.2

end

end Expr

/-! ## Automata -/

namespace Automaton

variable {f : Fragment}

theorem start_lt_toGraph (hf : f.Valid) : f.start < f.toGraph.size := by
  rw [Fragment.size_toGraph]
  exact hf.start_lt

/-- What has a number is a state of the fragment. -/
theorem lt_size_of_number (hf : f.Valid) {n i : Nat}
    (hn : (numbering f.toGraph f.start).nodes[n]? = some i) : i < f.size := by
  rw [← Fragment.size_toGraph]
  exact Graph.reachable_lt (start_lt_toGraph hf)
    ((ended_numbering f.toGraph f.start).reachable i (Array.mem_of_getElem? hn))

theorem accepting_toAutomaton_iff (hf : f.Valid) {n i : Nat}
    (hn : (numbering f.toGraph f.start).nodes[n]? = some i) :
    f.toAutomaton.accepting n = true ↔ i = f.stop := by
  unfold Fragment.toAutomaton
  rw [accepting_ofGraph (start_lt_toGraph hf) hn]
  exact Fragment.accepting_toGraph_iff hf

/-- What a numbered state reaches has a number too, and the numbers reach each other. -/
theorem exists_number_of_reaches (hf : f.Valid) {n i j : Nat}
    (hn : (numbering f.toGraph f.start).nodes[n]? = some i) (h : Reaches f.arc i j) :
    ∃ m, Reaches f.toAutomaton.arc n m ∧ (numbering f.toGraph f.start).nodes[m]? = some j := by
  obtain ⟨w, hw⟩ := h
  obtain ⟨m, hwm, hm⟩ :=
    exists_walk_ofGraph (start_lt_toGraph hf) hn (hw.mono hf.arc_toGraph_iff.mpr)
  exact ⟨m, ⟨w, hwm⟩, hm⟩

/-- Each state of a fragment without states out of reach has a number. -/
theorem exists_number_of_accessible (hf : f.Valid) (h : f.Accessible) {i : Nat} (hi : i < f.size) :
    ∃ n, Reaches f.toAutomaton.arc initial n ∧
      (numbering f.toGraph f.start).nodes[n]? = some i :=
  exists_number_of_reaches hf (numbering_zero (start_lt_toGraph hf)) (h i hi)

/-- Where no state is out of reach, none is lost. -/
theorem size_toAutomaton (hf : f.Valid) (h : f.Accessible) : f.toAutomaton.size = f.size := by
  have hperm : (numbering f.toGraph f.start).nodes.toList.Perm (List.range f.size) := by
    refine (List.perm_ext_iff_of_nodup (ended_numbering f.toGraph f.start).nodup
      List.nodup_range).mpr fun i => ?_
    rw [Array.mem_toList_iff, List.mem_range]
    refine ⟨fun hi => ?_, fun hi => ?_⟩
    · obtain ⟨n, hn⟩ := Array.mem_iff_getElem?.mp hi
      exact lt_size_of_number hf hn
    · obtain ⟨n, -, hn⟩ := exists_number_of_accessible hf h hi
      exact Array.mem_of_getElem? hn
  calc f.toAutomaton.size
      = (numbering f.toGraph f.start).nodes.size := size_ofGraph (start_lt_toGraph hf)
    _ = (numbering f.toGraph f.start).nodes.toList.length := Array.length_toList.symm
    _ = (List.range f.size).length := hperm.length_eq
    _ = f.size := List.length_range

/-- **An automaton keeps all states** of a fragment without idle states. One of them is accepting,
all can be reached from the initial one, and from all the accepting one can be reached. -/
theorem trim_toAutomaton (hf : f.Valid) (h : f.Accessible) (h' : f.NoDeadEnd) :
    f.toAutomaton.size = f.size ∧
      ∃ m < f.toAutomaton.size, (∀ n, f.toAutomaton.accepting n = true ↔ n = m) ∧
        ∀ n < f.toAutomaton.size,
          Reaches f.toAutomaton.arc initial n ∧ Reaches f.toAutomaton.arc n m := by
  have hend := ended_numbering f.toGraph f.start
  have hlt : ∀ n, n < f.toAutomaton.size ↔
      ∃ i, (numbering f.toGraph f.start).nodes[n]? = some i := fun _ =>
    lt_size_ofGraph_iff (start_lt_toGraph hf)
  obtain ⟨m, -, hm⟩ := exists_number_of_accessible hf h hf.stop_lt
  refine ⟨size_toAutomaton hf h, m, (hlt m).mpr ⟨_, hm⟩, fun n => ⟨fun hacc => ?one, ?stop⟩,
    fun n hn => ?ways⟩
  case one =>
    obtain ⟨i, hi⟩ := (hlt n).mp (accepting_lt hacc)
    obtain rfl := (accepting_toAutomaton_iff hf hi).mp hacc
    exact hend.place_inj hi hm
  case stop =>
    rintro rfl
    exact (accepting_toAutomaton_iff hf hm).mpr rfl
  case ways =>
    obtain ⟨i, hi⟩ := (hlt n).mp hn
    have hsize := lt_size_of_number hf hi
    obtain ⟨n', hway, hn'⟩ := exists_number_of_accessible hf h hsize
    obtain rfl := hend.place_inj hi hn'
    obtain ⟨m', hway', hm'⟩ := exists_number_of_reaches hf hi (h' i hsize)
    obtain rfl := hend.place_inj hm hm'
    exact ⟨hway, hway'⟩

/-- **The automaton of a pattern** has all states that are made for the pattern: two for each
operand that reads a character, for each star and for each choice. One state is initial and one is
accepting, and each state is on some way from the one to the other. -/
theorem trim_of_parse {limit : Nat} {pattern : List Char} {t : Tree}
    (h : Tree.parse limit pattern = .ok t) : ∃ e a, Expr.ofTree? t = .ok e ∧
      Automaton.ofTree? t = .ok a ∧ a.size = e.fragment.toGraph.size ∧
      a.size = 2 * (t.nodes.countP Tree.isSelector + t.nodes.countP Tree.isStar +
        t.nodes.countP Tree.isChoice) ∧
      (∀ (n : Nat) (s : State), a.states[n]? = some s → (s.initial = true ↔ n = 0)) ∧
      ∃ m < a.size, (∀ n < a.size, a.accepting n = true ↔ n = m) ∧
        ∀ n < a.size, Reaches a.arc 0 n ∧ Reaches a.arc n m := by
  obtain ⟨r, -, -, rfl⟩ := Grammar.exists_regexp_of_parse h
  have he := r.ofTree?_tree
  have hlive := Expr.live_of_parse h he
  obtain ⟨hsize, m, hm, haccept, hways⟩ := trim_toAutomaton r.expr.fragment_spec.1
    (Expr.accessible_fragment hlive) (Expr.noDeadEnd_fragment hlive)
  have hcount : r.expr.toAutomaton.size = 2 * Tree.pairs (Tree.root r.tree).nodes := by
    calc r.expr.toAutomaton.size
        = r.expr.fragment.size := hsize
      _ = 2 * r.expr.pairs := r.expr.size_fragment
      _ = 2 * Tree.pairs (Tree.root r.tree).nodes := by rw [r.pairs_root]
  refine ⟨r.expr, r.expr.toAutomaton, he, r.automaton_tree, ?_, hcount,
    fun n s hn => r.expr.toAutomaton.initial_iff hn, m, hm, fun n _ => haccept n, hways⟩
  rw [Fragment.size_toGraph]
  exact hsize

/-- Three operands that read a character, a star and a choice; the plus has no states of its own. -/
theorem trim_of_parse_choice :
    ∃ t a, Tree.parse 1 "(a|[^b-dx])*c+".toList = .ok t ∧ t.nodes.countP Tree.isSelector = 3 ∧
      t.nodes.countP Tree.isStar = 1 ∧ t.nodes.countP Tree.isChoice = 1 ∧
      Automaton.ofTree? t = .ok a ∧ a.size = 10 ∧
      ∃ m < a.size, (∀ n < a.size, a.accepting n = true ↔ n = m) ∧
        ∀ n < a.size, Reaches a.arc 0 n ∧ Reaches a.arc n m := by
  have hcounts : (Tree.parse 1 "(a|[^b-dx])*c+".toList).toOption.map (fun t =>
      (t.nodes.countP Tree.isSelector, t.nodes.countP Tree.isStar,
        t.nodes.countP Tree.isChoice)) = some (3, 1, 1) := by decide +kernel
  cases ht : Tree.parse 1 "(a|[^b-dx])*c+".toList with
  | error e =>
    rw [ht] at hcounts
    cases hcounts
  | ok t =>
    obtain ⟨e, a, -, ha, -, hsize, -, hways⟩ := trim_of_parse ht
    simp only [ht, Except.toOption, Option.map_some, Option.some.injEq, Prod.mk.injEq] at hcounts
    obtain ⟨hselectors, hstars, hchoices⟩ := hcounts
    rw [hselectors, hstars, hchoices] at hsize
    exact ⟨t, a, rfl, hselectors, hstars, hchoices, ha, hsize, hways⟩

end Automaton

end PatternAutomata
