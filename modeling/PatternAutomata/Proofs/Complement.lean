import PatternAutomata.Proofs.ClassBody
import PatternAutomata.Proofs.Composition
import PatternAutomata.Proofs.ExactReading

/-!
# A class and its negation

About `class_transitions` (in `nfa`): its cases against each other.

A class has an edge for each member, and a negated class is built in three different ways, so
nothing in the automata shows that one accepts what the other does not. Behind both there is the
same list of members, and a class reads a character exactly when the negated class does not.

Results:
* `Expr.accepts_chars`: a class accepts the characters that it reads, each by itself;
* **`Regex.complementary_of_compile`**: the automata of a class and of the negated class share out
  the characters between them.

Out of scope: classes that stand in a longer pattern.
-/

namespace PatternAutomata

/-! ## Classes -/

theorem CharClass.contains_negated (members : List ClassMember) (c : Char) :
    contains ⟨true, members⟩ c = !contains ⟨false, members⟩ c := by
  simp [contains, intervals]

namespace Expr

variable (cls : CharClass) {w : List Char}

theorem accepts_chars_iff :
    (chars cls).toAutomaton.accepts w = true ↔ ∃ c, cls.contains c = true ∧ w = [c] :=
  (chars cls).accepts_toAutomaton_iff w

/-- A class accepts the characters that it reads. -/
theorem accepts_chars (c : Char) : (chars cls).toAutomaton.accepts [c] = cls.contains c := by
  rw [Bool.eq_iff_iff, accepts_chars_iff]
  constructor
  · rintro ⟨d, hd, hcd⟩
    rwa [List.cons.inj hcd |>.1]
  · intro hc
    exact ⟨c, hc, rfl⟩

/-- A class accepts nothing but single characters. -/
theorem accepts_chars_eq_false (hw : w.length ≠ 1) :
    (chars cls).toAutomaton.accepts w = false := by
  rw [Bool.eq_false_iff]
  intro h
  obtain ⟨c, -, rfl⟩ := (accepts_chars_iff cls).mp h
  exact hw rfl

end Expr

/-! ## Automata that share out the characters -/

namespace Automaton

/-- Of each character exactly one of the two automata accepts the text that it is by itself, and
neither accepts a text of another length. -/
structure Complementary (a b : Automaton) : Prop where
  accepts_char : ∀ c, a.accepts [c] = !b.accepts [c]
  length_eq_one : ∀ w, w.length ≠ 1 → a.accepts w = false ∧ b.accepts w = false

/-- A class and its negation. -/
theorem complementary_chars (members : List ClassMember) :
    (Expr.chars ⟨false, members⟩).toAutomaton.Complementary
      (Expr.chars ⟨true, members⟩).toAutomaton where
  accepts_char c := by
    rw [Expr.accepts_chars, Expr.accepts_chars, CharClass.contains_negated, Bool.not_not]
  length_eq_one w hw := ⟨Expr.accepts_chars_eq_false _ hw, Expr.accepts_chars_eq_false _ hw⟩

/-- Automata that are made deterministic still share out the characters. -/
theorem Complementary.determinize {a b d e : Automaton} {limit limit' : Nat}
    (h : a.Complementary b) (hd : a.determinize limit = .ok d)
    (he : b.determinize limit' = .ok e) : d.Complementary e := by
  have haccepts : ∀ w, d.accepts w = a.accepts w := fun w => by
    rw [(deterministic_determinize hd).accepts_eq, acceptsFrom_determinize hd]
  have haccepts' : ∀ w, e.accepts w = b.accepts w := fun w => by
    rw [(deterministic_determinize he).accepts_eq, acceptsFrom_determinize he]
  constructor
  · intro c
    rw [haccepts, haccepts', h.accepts_char]
  · intro w hw
    rw [haccepts, haccepts']
    exact h.length_eq_one w hw

/-- The automaton of a class is that of the members of its body. -/
theorem exists_members_of_ofPattern {m pattern : String} {ts : List Token} {negated : Bool}
    {limits : Limits} {a : Automaton} (h : ClassBody m ts)
    (hp : pattern.toList = classText negated m.toList) (ha : ofPattern limits pattern = .ok a) :
    ∃ ms, Grammar.Greedy ms ∧ Grammar.memberTokens ms = ts ∧
      a = (Expr.chars ⟨negated, ms.map Grammar.Member.classMember⟩).toAutomaton := by
  obtain ⟨r, hr, -, rfl⟩ := Grammar.exists_regexp_of_ofPattern ha
  rw [hp] at hr
  obtain ⟨ms, hg, hms, he⟩ := h.exists_members hr
  exact ⟨ms, hg, hms, by rw [he]⟩

/-- The automata of a class and of the negated class, before they are made deterministic. -/
theorem complementary_of_ofPattern {m : String} {ts : List Token} {limits limits' : Limits}
    {a a' : Automaton} (h : ClassBody m ts) (ha : ofPattern limits ("[" ++ m ++ "]") = .ok a)
    (ha' : ofPattern limits' ("[^" ++ m ++ "]") = .ok a') : a.Complementary a' := by
  obtain ⟨ms, hg, hms, rfl⟩ := exists_members_of_ofPattern h (toList_class m) ha
  obtain ⟨ms', hg', hms', rfl⟩ := exists_members_of_ofPattern h (toList_negated_class m) ha'
  -- the body is grouped into the same members both times
  rw [Grammar.memberTokens_inj hg' hg (hms'.trans hms.symm)]
  exact complementary_chars _

end Automaton

namespace Regex

variable {m : String} {ts : List Token} {limits limits' : Limits} {re re' : Regex}

/-- **A class and the negated class are complements**: whatever members the body of the class
has, of each character exactly one of the two patterns accepts the text that it is by itself, and
neither accepts a text of another length. This goes for the automata that the compiled patterns
hold and for those that they are made of. -/
theorem complementary_of_compile (h : ClassBody m ts)
    (hre : compile ("[" ++ m ++ "]") limits = .ok re)
    (hre' : compile ("[^" ++ m ++ "]") limits' = .ok re') :
    (∃ a a', Automaton.ofPattern limits ("[" ++ m ++ "]") = .ok a ∧
      Automaton.ofPattern limits' ("[^" ++ m ++ "]") = .ok a' ∧ a.Complementary a') ∧
    re.automaton.Complementary re'.automaton := by
  obtain ⟨a, ha, hd⟩ := compile_eq_ok hre
  obtain ⟨a', ha', hd'⟩ := compile_eq_ok hre'
  have hcompl := Automaton.complementary_of_ofPattern h ha ha'
  exact ⟨⟨a, a', ha, ha', hcompl⟩, hcompl.determinize hd hd'⟩

/-- Overlapping ranges, out of order, and the last character before the surrogates. -/
theorem complementary_of_compile_overlapping :
    ∃ ts re re', ClassBody "\uD7FFb-da-c" ts ∧
      re.automaton =
        .ofRows [⟨[⟨.within ⟨'a', 'd'⟩, 1⟩, ⟨.single '\uD7FF', 1⟩], false⟩, ⟨[], true⟩] ∧
      re'.automaton = .ofRows [⟨[⟨.within ⟨'\x00', '\x60'⟩, 1⟩, ⟨.within ⟨'e', '\uD7FE'⟩, 1⟩,
        ⟨.within ⟨'\uE000', lastChar⟩, 1⟩], false⟩, ⟨[], true⟩] ∧
      compile "[\uD7FFb-da-c]" = .ok re ∧ compile "[^\uD7FFb-da-c]" = .ok re' ∧
      re.automaton.Complementary re'.automaton := by
  have hbody : ClassBody "\uD7FFb-da-c" [⟨.character, '\uD7FF', 0⟩, ⟨.character, 'b', 1⟩,
      ⟨.character, '-', 2⟩, ⟨.character, 'd', 3⟩, ⟨.character, 'a', 4⟩, ⟨.character, '-', 5⟩,
      ⟨.character, 'c', 6⟩] :=
    ⟨by decide +kernel, by decide, by rintro t ⟨⟩; rfl⟩
  have hre : compile "[\uD7FFb-da-c]" = .ok ⟨"[\uD7FFb-da-c]",
      .ofRows [⟨[⟨.within ⟨'a', 'd'⟩, 1⟩, ⟨.single '\uD7FF', 1⟩], false⟩, ⟨[], true⟩]⟩ :=
    compile_of_toOption (by decide +kernel)
  -- the negated class is the intervals that the members leave free
  have hparse : (Tree.parse 250 "[^\uD7FFb-da-c]".toList).toOption.map Expr.ofTree? =
      some (.ok (.chars ⟨true, [.char '\uD7FF', .range ⟨'b', 'd'⟩, .range ⟨'a', 'c'⟩]⟩)) := by
    cbv
  have hlabels : CharClass.labels ⟨true, [.char '\uD7FF', .range ⟨'b', 'd'⟩, .range ⟨'a', 'c'⟩]⟩ =
      [.within ⟨'\x00', '\x60'⟩, .within ⟨'e', '\uD7FE'⟩, .within ⟨'\uE000', lastChar⟩] := by
    cbv
  have hd : (Fragment.parallel [.within ⟨'\x00', '\x60'⟩, .within ⟨'e', '\uD7FE'⟩,
      .within ⟨'\uE000', lastChar⟩]).toAutomaton.determinize? 10000 =
        some (.ofRows [⟨[⟨.within ⟨'\x00', '\x60'⟩, 1⟩, ⟨.within ⟨'e', '\uD7FE'⟩, 1⟩,
          ⟨.within ⟨'\uE000', lastChar⟩, 1⟩], false⟩, ⟨[], true⟩]) := by
    decide +kernel
  rw [← hlabels] at hd
  obtain ⟨t, ht, he⟩ := Automaton.exists_tree hparse
  have htree : Tree.ofPattern .default "[^\uD7FFb-da-c]" = .ok t := by
    rw [Tree.ofPattern]
    exact congrArg _ ht
  have hre' := (compile_of_tree htree he).trans
    (congrArg (Except.map _) (Automaton.determinize_of_some hd))
  exact ⟨_, _, _, hbody, rfl, rfl, hre, hre', (complementary_of_compile hbody hre hre').2⟩

end Regex

end PatternAutomata
