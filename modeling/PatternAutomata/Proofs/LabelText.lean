import PatternAutomata.Proofs.Intervals
import PatternAutomata.Proofs.Unescaping

/-!
# Which labels are written alike

About the canonical text of a `Transition` (in `automaton`), which is meant to identify it.

Apart from the quotation marks around a single character, the text of a label is a sequence of
escapes, so it can be read back as a sequence of characters. These do not always say what the label
is: a hyphen may stand between the bounds of an interval or be one of the excluded characters, and
a `^` may be the sign of an exclusion or the lower bound of an interval.

Results:
* `Label.text_eq_iff_spelled`: labels are written alike when they spell the same characters;
* **`Label.text_eq_iff`**: labels that are written alike are the same, or one excludes the
  characters that the other has for its bounds, and a hyphen;
* **`Label.accepts_iff_of_text_eq`**: of the latter, only those accept the same characters whose
  bounds are the neighbours of the hyphen;
* `Label.confusable_iff`: the labels that are written alike and do not accept the same characters;
* `Label.within_text_inj`: labels that read an interval are told apart by their texts.
-/

namespace PatternAutomata.Label

variable {l m : Label} {i j : Interval} {c d : Char}

/-! ## What a text spells -/

/-- Whether the label is written in quotation marks. -/
def IsSingle : Label → Prop
  | .within i => i.lo = i.hi
  | _ => False

instance : DecidablePred IsSingle
  | .within i => inferInstanceAs (Decidable (i.lo = i.hi))
  | .epsilon => .isFalse id
  | .noneOf _ => .isFalse id
  | .outside _ => .isFalse id

/-- The characters whose escapes make up the text of a label that is not written in quotation
marks. -/
def spelled : Label → List Char
  | .epsilon => ['e', 'm', 'p', 't', 'y']
  | .within i => [i.lo, '-', i.hi]
  | .noneOf cs => '^' :: cs.toList
  | .outside i => ['^', i.lo, '-', i.hi]

theorem toList_escaped (c : Char) : (Text.escaped c).toList = Text.escape .either c :=
  String.toList_ofList

theorem toList_boundsText (i : Interval) :
    (boundsText i).toList = [i.lo, '-', i.hi].flatMap (Text.escape .either) := by
  have hyphen : "-".toList = Text.escape .either '-' := by decide
  rw [boundsText, String.toList_append, String.toList_append, toList_escaped, toList_escaped,
    hyphen]
  simp only [List.flatMap_cons, List.flatMap_nil, List.append_nil, List.append_assoc]

theorem toList_text_single (c : Char) :
    (single c).text.toList = '\'' :: (Text.escape .either c ++ ['\'']) := by
  have htext : (single c).text = "'" ++ Text.escaped c ++ "'" := if_pos rfl
  rw [htext, String.toList_append, String.toList_append, toList_escaped]
  rfl

theorem toList_text (h : ¬ l.IsSingle) :
    l.text.toList = l.spelled.flatMap (Text.escape .either) := by
  have caret : "^".toList = Text.escape .either '^' := by decide
  cases l with
  | epsilon => decide
  | within i =>
    have htext : (within i).text = boundsText i := if_neg h
    rw [htext, toList_boundsText]
    rfl
  | noneOf cs =>
    have hflat : (cs.toList.map Text.escaped).flatMap String.toList =
        cs.toList.flatMap (Text.escape .either) := by
      rw [List.flatMap_map]
      exact congrArg (List.flatMap · cs.toList) (funext toList_escaped)
    rw [text, String.toList_join, List.flatMap_cons, hflat, caret]
    rfl
  | outside i =>
    rw [text, String.toList_append, toList_boundsText, caret]
    rfl

theorem IsSingle.exists_eq (h : l.IsSingle) : ∃ c, l = single c := by
  cases l with
  | within i =>
    obtain ⟨lo, hi⟩ := i
    cases (h : lo = hi)
    exact ⟨lo, rfl⟩
  | epsilon => exact h.elim
  | noneOf cs => exact h.elim
  | outside i => exact h.elim

/-- No line ends within the text of a label. -/
theorem newline_notMem_text (l : Label) : '\n' ∉ l.text.toList := by
  by_cases h : l.IsSingle
  · obtain ⟨c, rfl⟩ := h.exists_eq
    rw [toList_text_single]
    simp [Text.newline_notMem_escape]
  · rw [toList_text h]
    simp [Text.newline_notMem_escape]

/-- Quotation marks only stand around single characters. -/
theorem head?_text_ne (h : ¬ l.IsSingle) : l.text.toList.head? ≠ some '\'' := by
  obtain ⟨c, cs, hcs⟩ : ∃ c cs, l.spelled = c :: cs := by
    cases l <;> exact ⟨_, _, rfl⟩
  rw [toList_text h, hcs, List.flatMap_cons]
  exact Text.head?_escape_append_ne c _

theorem single_of_text_eq (hl : l.IsSingle) (h : l.text = m.text) : m.IsSingle := by
  obtain ⟨c, rfl⟩ := hl.exists_eq
  by_contra hm
  refine head?_text_ne hm ?_
  rw [← h, toList_text_single]
  rfl

/-- Labels are written alike when they spell the same characters, single characters apart. -/
theorem text_eq_iff_spelled :
    l.text = m.text ↔ (l.IsSingle ↔ m.IsSingle) ∧ l.spelled = m.spelled := by
  by_cases hl : l.IsSingle
  · constructor
    · intro h
      have hm := single_of_text_eq hl h
      obtain ⟨c, rfl⟩ := hl.exists_eq
      obtain ⟨d, rfl⟩ := hm.exists_eq
      rw [← String.toList_inj, toList_text_single, toList_text_single] at h
      obtain ⟨rfl, -⟩ := Text.escape_append_inj (List.cons.inj h).2
      exact ⟨Iff.rfl, rfl⟩
    · rintro ⟨hsingle, hspelled⟩
      obtain ⟨c, rfl⟩ := hl.exists_eq
      obtain ⟨d, rfl⟩ := (hsingle.mp hl).exists_eq
      cases hspelled
      rfl
  · constructor
    · intro h
      have hm : ¬ m.IsSingle := fun hm => hl (single_of_text_eq hm h.symm)
      refine ⟨iff_of_false hl hm, ?_⟩
      rw [← String.toList_inj, toList_text hl, toList_text hm] at h
      exact Text.flatMap_escape_inj h
    · rintro ⟨hsingle, hspelled⟩
      have hm : ¬ m.IsSingle := fun hm => hl (hsingle.mpr hm)
      rw [← String.toList_inj, toList_text hl, toList_text hm, hspelled]

/-! ## Labels that are not the same -/

/-- Two labels that spell the same characters: the first excludes them, the second has some of them
for its bounds. -/
inductive SpelledAs : Label → Label → Prop
  /-- The characters from `^` on, against a hyphen and the upper bound excluded. -/
  | range {cs : Ascending Char} {hi : Char} : cs.toList = ['-', hi] → hi ≠ '^' →
    SpelledAs (.noneOf cs) (.within ⟨'^', hi⟩)
  /-- All outside an interval, against its bounds and a hyphen excluded. -/
  | gap {cs : Ascending Char} {i : Interval} : cs.toList = [i.lo, '-', i.hi] →
    SpelledAs (.noneOf cs) (.outside i)

theorem SpelledAs.text_eq (h : l.SpelledAs m) : l.text = m.text := by
  rw [text_eq_iff_spelled]
  cases h with
  | range hcs hhi =>
    exact ⟨iff_of_false id fun h => hhi h.symm, congrArg ('^' :: ·) hcs⟩
  | gap hcs =>
    exact ⟨iff_of_false id id, congrArg ('^' :: ·) hcs⟩

/-- **Labels that are written alike** are the same, or one of them excludes a hyphen that belongs to
the notation of the other. -/
theorem text_eq_iff : l.text = m.text ↔ l = m ∨ l.SpelledAs m ∨ m.SpelledAs l := by
  constructor
  · rw [text_eq_iff_spelled]
    rintro ⟨hsingle, hspelled⟩
    cases l with
    | epsilon =>
      cases m with
      | epsilon => exact Or.inl rfl
      | within j => simp [spelled] at hspelled
      | noneOf ds => simp [spelled] at hspelled
      | outside j => simp [spelled] at hspelled
    | within i =>
      obtain ⟨lo, hi⟩ := i
      cases m with
      | epsilon => simp [spelled] at hspelled
      | within j =>
        cases hspelled
        exact Or.inl rfl
      | noneOf ds =>
        have hne : lo ≠ hi := fun e => hsingle.mp e
        obtain ⟨rfl, hds⟩ := List.cons.inj hspelled
        exact Or.inr (Or.inr (.range hds.symm hne.symm))
      | outside j => simp [spelled] at hspelled
    | noneOf cs =>
      cases m with
      | epsilon => simp [spelled] at hspelled
      | within j =>
        obtain ⟨lo, hi⟩ := j
        have hne : lo ≠ hi := fun e => hsingle.mpr e
        obtain ⟨rfl, hcs⟩ := List.cons.inj hspelled
        exact Or.inr (Or.inl (.range hcs hne.symm))
      | noneOf ds =>
        have hcs : cs.toList = ds.toList := (List.cons.inj hspelled).2
        refine Or.inl (congrArg noneOf (Ascending.ext_mem fun c => ?_))
        rw [Ascending.mem_iff, hcs, Ascending.mem_iff]
      | outside j => exact Or.inr (Or.inl (.gap (List.cons.inj hspelled).2))
    | outside i =>
      obtain ⟨lo, hi⟩ := i
      cases m with
      | epsilon => simp [spelled] at hspelled
      | within j => simp [spelled] at hspelled
      | noneOf ds => exact Or.inr (Or.inr (.gap (List.cons.inj hspelled).2.symm))
      | outside j =>
        cases hspelled
        exact Or.inl rfl
  · rintro (rfl | h | h)
    · rfl
    · exact h.text_eq
    · exact h.text_eq.symm

theorem isEpsilon_eq_of_text_eq (h : l.text = m.text) : l.isEpsilon = m.isEpsilon := by
  rcases text_eq_iff.mp h with rfl | h | h
  · rfl
  · cases h <;> rfl
  · cases h <;> rfl

/-- Labels that read an interval are told apart by their texts. -/
theorem within_text_inj (h : (within i).text = (within j).text) : i = j := by
  rcases text_eq_iff.mp h with he | he | he
  · exact within.inj he
  · cases he
  · cases he

/-! ## What labels that are written alike accept -/

/-- The label for all characters but the hyphen and its neighbours, which are `,` and `.`. -/
def aroundHyphen : Label := .outside ⟨',', '.'⟩

/-- One of the labels excludes the characters that the other spells, and the other is not
`aroundHyphen`. -/
def Confusable (l m : Label) : Prop :=
  l.SpelledAs m ∧ m ≠ aroundHyphen ∨ m.SpelledAs l ∧ l ≠ aroundHyphen

theorem Confusable.text_eq (h : l.Confusable m) : l.text = m.text := by
  rcases h with ⟨h, -⟩ | ⟨h, -⟩
  · exact h.text_eq
  · exact h.text_eq.symm

theorem accepts_noneOf {cs : Ascending Char} :
    (noneOf cs).accepts c = true ↔ c ∉ cs.toList := by
  simp [accepts]

theorem accepts_outside : (outside i).accepts c = true ↔ c < i.lo ∨ i.hi < c := by
  simp [accepts]

theorem ordinal_comma : ','.ordinal.val = 44 := by decide

theorem ordinal_hyphen : '-'.ordinal.val = 45 := by decide

theorem ordinal_stop : '.'.ordinal.val = 46 := by decide

/-- Excluding a hyphen and its neighbours leaves what lies outside the interval of the three. -/
theorem accepts_aroundHyphen {cs : Ascending Char} (hcs : cs.toList = [',', '-', '.']) (c : Char) :
    (noneOf cs).accepts c = aroundHyphen.accepts c := by
  rw [Bool.eq_iff_iff, accepts_noneOf, aroundHyphen, accepts_outside, hcs]
  simp only [List.mem_cons, List.not_mem_nil, or_false, char_eq_iff, char_lt_iff,
    ordinal_comma, ordinal_hyphen, ordinal_stop]
  omega

/-- If excluding a hyphen and the bounds of an interval around it leaves what lies outside the
interval, then the bounds are the neighbours of the hyphen. -/
theorem eq_aroundHyphen {cs : Ascending Char} (hcs : cs.toList = [i.lo, '-', i.hi])
    (h : ∀ c, (noneOf cs).accepts c = (outside i).accepts c) : outside i = aroundHyphen := by
  obtain ⟨lo, hi⟩ := i
  have hasc := cs.ascending
  simp only [hcs, List.pairwise_cons, List.mem_cons, forall_eq_or_imp, compare_lt_iff_lt] at hasc
  have hlo : lo < '-' := hasc.1.1
  have hhi : '-' < hi := hasc.2.1.1
  -- the neighbours lie in the interval, so they are excluded, which only the bounds are
  have hmem : ∀ c, ¬ (c < lo ∨ hi < c) → c = lo ∨ c = '-' ∨ c = hi := by
    intro c hc
    have hnot : ¬ (noneOf cs).accepts c = true := by rwa [h c, accepts_outside]
    rw [accepts_noneOf, hcs, not_not] at hnot
    simpa using hnot
  have hcomma := hmem ','
  have hstop := hmem '.'
  simp only [char_eq_iff, char_lt_iff, ordinal_comma, ordinal_hyphen, ordinal_stop]
    at hlo hhi hcomma hstop
  have hl : lo = ',' := char_eq_iff.mpr (by rw [ordinal_comma]; omega)
  have hr : hi = '.' := char_eq_iff.mpr (by rw [ordinal_stop]; omega)
  rw [hl, hr, aroundHyphen]

/-- Excluding a hyphen and another character leaves NUL, which is not among the characters from `^`
on. -/
theorem accepts_nul_ne {cs : Ascending Char} {hi : Char} (hcs : cs.toList = ['-', hi]) :
    (noneOf cs).accepts '\x00' ≠ (within ⟨'^', hi⟩).accepts '\x00' := by
  have hasc := cs.ascending
  rw [hcs] at hasc
  have hhi : '-' < hi :=
    compare_lt_iff_lt.mp ((List.pairwise_cons.mp hasc).1 _ List.mem_cons_self)
  have hnul : (noneOf cs).accepts '\x00' = true := by
    rw [accepts_noneOf, hcs]
    intro hmem
    rcases List.mem_cons.mp hmem with e | hmem
    · exact absurd e (by decide)
    · rw [← List.mem_singleton.mp hmem] at hhi
      exact absurd hhi (by decide)
  rw [hnul]
  intro h
  have hmem : '\x00' ∈ Interval.mk '^' hi := h.symm
  have hcaret : '^' ≤ '\x00' := (Interval.mem_iff.mp hmem).1
  exact absurd hcaret (by decide)

/-- Labels that spell the same characters accept the same ones only around the hyphen. -/
theorem SpelledAs.accepts_iff (h : l.SpelledAs m) :
    (∀ c, l.accepts c = m.accepts c) ↔ m = aroundHyphen := by
  cases h with
  | range hcs hhi =>
    exact iff_of_false (fun h => accepts_nul_ne hcs (h _)) Label.noConfusion
  | gap hcs =>
    constructor
    · exact eq_aroundHyphen hcs
    · intro hm
      rw [hm]
      cases hm
      exact accepts_aroundHyphen hcs

theorem confusable_comm : l.Confusable m ↔ m.Confusable l := or_comm

theorem SpelledAs.confusable_iff (h : l.SpelledAs m) : l.Confusable m ↔ m ≠ aroundHyphen := by
  constructor
  · rintro (⟨-, hne⟩ | ⟨h', -⟩)
    · exact hne
    · -- the label that excludes characters is the first one
      cases h <;> cases h'
  · exact fun hne => Or.inl ⟨h, hne⟩

/-- **Labels that are written alike** accept the same characters unless they are confusable. -/
theorem accepts_iff_of_text_eq (h : l.text = m.text) :
    (∀ c, l.accepts c = m.accepts c) ↔ ¬ l.Confusable m := by
  rcases text_eq_iff.mp h with rfl | hs | hs
  · refine iff_of_true (fun _ => rfl) ?_
    rintro (⟨hs, -⟩ | ⟨hs, -⟩) <;> cases hs
  · rw [hs.accepts_iff, hs.confusable_iff, not_not]
  · rw [confusable_comm, hs.confusable_iff, not_not, ← hs.accepts_iff]
    exact forall_congr' fun c => eq_comm

/-- **Confusable labels** are those that are written alike and do not accept the same
characters. -/
theorem confusable_iff :
    l.Confusable m ↔ l.text = m.text ∧ ∃ c, l.accepts c ≠ m.accepts c := by
  constructor
  · intro h
    refine ⟨h.text_eq, not_forall.mp fun hacc => ?_⟩
    exact (accepts_iff_of_text_eq h.text_eq).mp hacc h
  · rintro ⟨htext, c, hc⟩
    by_contra h
    exact hc ((accepts_iff_of_text_eq htext).mpr h c)

end PatternAutomata.Label
