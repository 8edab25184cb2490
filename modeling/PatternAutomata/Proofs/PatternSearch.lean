import PatternAutomata.Proofs.PatternLanguage
import PatternAutomata.Proofs.Search

/-!
# A search misses no word of the pattern

About `compile` and `find` (at the top level), with all that is between the two.

From the tree of a pattern to what is found in a text: a slice that is a word of the pattern is
accepted by its automaton, so the leftmost longest match is the slice itself, a longer one from the
same place, or one that begins further left.

Results:
* `Automaton.ofPattern_eq_ok`: the automaton of a pattern is that of the expression of its tree;
* **`Regex.find_of_mem_language`**: no word of the pattern is missed.
-/

namespace PatternAutomata

/-- The automaton of a pattern is that of the expression of its tree. -/
theorem Automaton.ofPattern_eq_ok {limits : Limits} {pattern : String} {a : Automaton}
    (h : ofPattern limits pattern = .ok a) :
    ∃ t e, Tree.parse limits.nesting pattern.toList = .ok t ∧ Expr.ofTree? t = .ok e ∧
      e.language = t.language ∧ a = e.toAutomaton := by
  unfold ofPattern Tree.ofPattern at h
  obtain ⟨t, ht, ha⟩ := bind_eq_ok_iff.mp h
  have ht := mapError_eq_ok_iff.mp ht
  have ha := mapError_eq_ok_iff.mp ha
  obtain ⟨e, he, hl⟩ := Tree.exists_expr (Tree.wellShaped_of_parse ht)
  unfold ofTree? at ha
  rw [he] at ha
  cases ha
  exact ⟨t, e, ht, he, hl, rfl⟩

/-- The automaton of an expression accepts the words of the expression. -/
theorem Expr.accepts_of_mem_language {e : Expr} {w : List Char} (hw : w ∈ e.language) :
    e.toAutomaton.accepts w = true :=
  (e.accepts_toAutomaton_iff w).mpr (e.language_le_across hw)

namespace Regex

variable {pattern : String} {limits : Limits} {re : Regex}

/-- **No word is missed**: where a slice of a text is a word of the pattern, a match is found that
begins no later, and if it begins at the same place it ends no earlier. -/
theorem find_of_mem_language (h : compile pattern limits = .ok re) :
    ∃ t, Tree.ofPattern limits pattern = .ok t ∧ ∀ (text : String) (i j : Nat),
      i < text.toList.length → i ≤ j → j ≤ text.toList.length →
      Match.slice ⟨i, j⟩ text.toList ∈ t.language →
        ∃ m, re.find text = some m ∧ m.start ≤ i ∧ (m.start = i → j ≤ m.stop) := by
  obtain ⟨a, ha, hd⟩ := compile_eq_ok h
  obtain ⟨t, e, ht, -, hl, rfl⟩ := Automaton.ofPattern_eq_ok ha
  refine ⟨t, by rw [Tree.ofPattern, ht]; rfl, fun text i j hi hij hj hw => ?_⟩
  rw [← hl] at hw
  have hocc : e.toAutomaton.Occurs text.toList i j :=
    ⟨hi, hij, hj, Expr.accepts_of_mem_language hw⟩
  rcases findAt_spec hd text.toList 0 with ⟨m, hm, hleft⟩ | ⟨-, hno⟩
  · refine ⟨m, ?_, Nat.not_lt.mp fun hlt => hleft.leftmost i (Nat.zero_le i) hlt j hocc, ?_⟩
    · unfold find findIter Matches.next
      rw [hm]
    · rintro rfl
      exact Nat.not_lt.mp fun hlt => hleft.longest.longest j hlt hocc
  · exact absurd hocc (hno i j (Nat.zero_le i))

/-- The last `a` of the text is a word of `a+`, and lies inside the match that is found. -/
theorem find_of_mem_language_plus :
    ∃ re t m, compile "a+" = .ok re ∧ Tree.ofPattern .default "a+" = .ok t ∧
      Match.slice ⟨2, 3⟩ "baa".toList ∈ t.language ∧ re.find "baa" = some m ∧ m.start ≤ 2 ∧
      (m.start = 2 → 3 ≤ m.stop) := by
  have h : compile "a+" =
      .ok ⟨"a+", .ofRows [⟨[⟨.single 'a', 1⟩], false⟩, ⟨[⟨.single 'a', 1⟩], true⟩]⟩ :=
    compile_of_toOption (by decide +kernel)
  have hp : (Tree.parse 250 "a+".toList).toOption.map Expr.ofTree? =
      some (.ok (.plus (.chars (.single 'a')))) := by
    cbv
  obtain ⟨t, ht, he⟩ := Automaton.exists_tree hp
  have htree : Tree.ofPattern .default "a+" = .ok t := by
    rw [Tree.ofPattern]
    exact congrArg _ ht
  obtain ⟨t', ht', hfind⟩ := find_of_mem_language h
  cases htree.symm.trans ht'
  have hword : Match.slice ⟨2, 3⟩ "baa".toList ∈ t.language := by
    obtain ⟨e, he', hl⟩ := Tree.exists_expr (Tree.wellShaped_of_parse ht)
    cases he.symm.trans he'
    rw [← hl]
    exact Language.mem_mul.mpr ⟨['a'], ⟨'a', by decide, rfl⟩, [], Language.nil_mem_kstar _, rfl⟩
  obtain ⟨m, hm, hle, hlong⟩ := hfind "baa" 2 3 (by decide) (by decide) (by decide) hword
  exact ⟨_, t, m, h, htree, hword, hm, hle, hlong⟩

end Regex

end PatternAutomata
