import Mathlib.Data.Char
import Mathlib.Order.Compare
import PatternAutomata.Expr

/-!
# Which characters intervals and labels hold

About `next_char`, `prev_char`, `complement`, `matches` and `intervals` (in `automaton`) and about
`class_transitions` (in `nfa`): which characters they are about.

Characters are compared by their ordinals, which have no gap: the next character is the one whose
ordinal is greater by one, also across the surrogates. So membership in intervals is linear
arithmetic on ordinals.

Results:
* **`mem_complement`**: the complement of a list of intervals holds the characters in none of them,
  whatever the order of the list and whether or not its intervals overlap or are empty;
* `Label.accepts_iff_intervals`: a label accepts the characters in its intervals;
* `CharClass.labels_accept`: the labels of a class accept the characters that the class reads.

Out of scope: the form of the intervals (`Proofs.SpacedIntervals`).
-/

namespace PatternAutomata

/-! ## The order of characters -/

theorem char_le_iff {c d : Char} : c ≤ d ↔ c.ordinal.val ≤ d.ordinal.val :=
  Char.le_iff_ordinal_le

theorem char_lt_iff {c d : Char} : c < d ↔ c.ordinal.val < d.ordinal.val :=
  Char.lt_iff_ordinal_lt

theorem char_eq_iff {c d : Char} : c = d ↔ c.ordinal.val = d.ordinal.val :=
  Char.ordinal_inj.symm.trans Fin.ext_iff

theorem le_lastChar (c : Char) : c ≤ lastChar := by
  have h : lastChar.ordinal.val = Char.numCodePoints - 1 := by decide
  rw [char_le_iff, h]
  have := c.ordinal.isLt
  omega

theorem nul_le (c : Char) : '\x00' ≤ c := by
  rw [char_le_iff, Char.ordinal_zero]
  exact Nat.zero_le _

theorem succ?_eq_some {c d : Char} : c.succ? = some d ↔ d.ordinal.val = c.ordinal.val + 1 := by
  rw [Char.succ?_eq, Fin.addNat?]
  constructor
  · intro h
    split at h
    · cases h
      rw [Char.ordinal_ofOrdinal]
    · cases h
  · intro h
    rw [dif_pos (h ▸ d.ordinal.isLt)]
    exact congrArg some ((congrArg Char.ofOrdinal (Fin.ext h.symm)).trans Char.ofOrdinal_ordinal)

/-- There is a next character below every greater one. -/
theorem exists_succ? {c d : Char} (h : c < d) : ∃ e, c.succ? = some e := by
  rw [char_lt_iff] at h
  have := d.ordinal.isLt
  refine ⟨Char.ofOrdinal ⟨c.ordinal.val + 1, by omega⟩, succ?_eq_some.mpr ?_⟩
  rw [Char.ordinal_ofOrdinal]

theorem succ?_le_iff {c d e : Char} (h : c.succ? = some e) : e ≤ d ↔ c < d := by
  rw [succ?_eq_some] at h
  rw [char_le_iff, char_lt_iff]
  omega

theorem lt_of_succ? {c d : Char} (h : c.succ? = some d) : c < d :=
  (succ?_le_iff h).mp (le_refl d)

theorem pred?_eq_some {c d : Char} : pred? c = some d ↔ c.ordinal.val = d.ordinal.val + 1 := by
  unfold pred?
  constructor
  · intro h
    split at h
    · cases h
    · cases h
      rw [Char.ordinal_ofOrdinal]
      show c.ordinal.val = c.ordinal.val - 1 + 1
      omega
  · intro h
    rw [dif_neg (by omega)]
    exact congrArg some ((congrArg Char.ofOrdinal
      (Fin.ext (show c.ordinal.val - 1 = d.ordinal.val by omega))).trans Char.ofOrdinal_ordinal)

/-! ## Intervals -/

namespace Interval

theorem mem_single {c d : Char} : c ∈ single d ↔ c = d := by
  rw [mem_iff]
  exact ⟨fun h => le_antisymm h.2 h.1, fun h => h ▸ ⟨le_refl _, le_refl _⟩⟩

/-- `below? start stop` begins at `start`, is not empty, and ends before `stop`. -/
theorem below?_eq_some {start stop : Char} {i : Interval} (h : below? start stop = some i) :
    i.lo = start ∧ i.lo ≤ i.hi ∧ i.hi < stop := by
  unfold below? at h
  by_cases hlt : start < stop
  · rw [if_pos hlt] at h
    obtain ⟨p, hp, rfl⟩ := Option.map_eq_some_iff.mp h
    rw [pred?_eq_some] at hp
    have hlt := char_lt_iff.mp hlt
    refine ⟨rfl, char_le_iff.mpr ?_, char_lt_iff.mpr ?_⟩
    · show start.ordinal.val ≤ p.ordinal.val
      omega
    · show p.ordinal.val < stop.ordinal.val
      omega
  · rw [if_neg hlt] at h
    cases h

/-- `below? start stop` holds the characters from `start` up to `stop`, `stop` excluded. -/
theorem mem_below? {start stop c : Char} :
    (∃ g ∈ below? start stop, c ∈ g) ↔ start ≤ c ∧ c < stop := by
  constructor
  · rintro ⟨g, hg, hc⟩
    obtain ⟨rfl, -, hstop⟩ := below?_eq_some hg
    obtain ⟨hlo, hhi⟩ := mem_iff.mp hc
    exact ⟨hlo, lt_of_le_of_lt hhi hstop⟩
  · rintro ⟨hs, hc⟩
    rw [below?, if_pos (lt_of_le_of_lt hs hc)]
    have hc' := char_lt_iff.mp hc
    have := stop.ordinal.isLt
    have hp : pred? stop = some (Char.ofOrdinal ⟨stop.ordinal.val - 1, by omega⟩) := by
      rw [pred?_eq_some, Char.ordinal_ofOrdinal]
      show stop.ordinal.val = stop.ordinal.val - 1 + 1
      omega
    refine ⟨⟨start, Char.ofOrdinal ⟨stop.ordinal.val - 1, by omega⟩⟩, by rw [hp]; rfl,
      mem_iff.mpr ⟨hs, char_le_iff.mpr ?_⟩⟩
    rw [Char.ordinal_ofOrdinal]
    show c.ordinal.val ≤ stop.ordinal.val - 1
    omega

/-! ### The sweep -/

/-- What is still in front of a sweep that has come to the given place. -/
def Ahead (start : Option Char) (c : Char) : Prop := ∃ s ∈ start, s ≤ c

theorem ahead_some {s c : Char} : Ahead (some s) c ↔ s ≤ c := by
  unfold Ahead
  simp

/-- The sweep moves past the end of an interval, and never back. -/
theorem ahead_next {s hi c : Char} :
    Ahead (if s ≤ hi then hi.succ? else some s) c ↔ s ≤ c ∧ hi < c := by
  by_cases hs : s ≤ hi
  · rw [if_pos hs]
    unfold Ahead
    constructor
    · rintro ⟨e, he, hec⟩
      have hlt := (succ?_le_iff he).mp hec
      exact ⟨hs.trans hlt.le, hlt⟩
    · rintro ⟨-, hlt⟩
      obtain ⟨e, he⟩ := exists_succ? hlt
      exact ⟨e, he, (succ?_le_iff he).mpr hlt⟩
  · rw [if_neg hs, ahead_some]
    exact ⟨fun h => ⟨h, lt_of_lt_of_le (not_le.mp hs) h⟩, fun h => h.1⟩

/-- The gaps hold what is ahead and in no interval. Only the lower bounds need to be in order: an
interval that is empty leaves a gap up to its lower bound and one from its upper bound on. -/
theorem mem_gapsFrom {is : List Interval} (hs : is.Pairwise fun i j => i.lo ≤ j.lo) {c : Char} :
    ∀ {start : Option Char},
      (∃ g ∈ gapsFrom start is, c ∈ g) ↔ Ahead start c ∧ ∀ i ∈ is, c ∉ i := by
  induction is with
  | nil =>
    intro start
    cases start with
    | none => simp [gapsFrom, Ahead]
    | some s =>
      simp only [gapsFrom, List.mem_singleton, exists_eq_left, ahead_some, mem_iff]
      exact ⟨fun h => ⟨h.1, fun i hi => absurd hi List.not_mem_nil⟩,
        fun h => ⟨h.1, le_lastChar c⟩⟩
  | cons i is ih =>
    obtain ⟨hlo, hs⟩ := List.pairwise_cons.mp hs
    intro start
    cases start with
    | none => simp [gapsFrom, Ahead]
    | some s =>
      have hrest : (∃ g ∈ gapsFrom (if s ≤ i.hi then i.hi.succ? else some s) is, c ∈ g) ↔
          (s ≤ c ∧ i.hi < c) ∧ ∀ j ∈ is, c ∉ j := by
        rw [ih hs, ahead_next]
      have hsplit : (∃ g ∈ gapsFrom (some s) (i :: is), c ∈ g) ↔
          (s ≤ c ∧ c < i.lo) ∨ (s ≤ c ∧ i.hi < c) ∧ ∀ j ∈ is, c ∉ j := by
        rw [← hrest, ← mem_below?]
        simp only [gapsFrom, List.mem_append, Option.mem_toList, Option.mem_def, or_and_right,
          exists_or]
      rw [hsplit, ahead_some, List.forall_mem_cons, mem_iff, not_and_or, not_le, not_le]
      constructor
      · rintro (⟨hsc, hci⟩ | ⟨⟨hsc, hic⟩, hall⟩)
        · exact ⟨hsc, Or.inl hci, fun j hj hcj =>
            absurd (lt_of_lt_of_le hci (hlo j hj)) (not_lt.mpr (mem_iff.mp hcj).1)⟩
        · exact ⟨hsc, Or.inr hic, hall⟩
      · rintro ⟨hsc, hci | hic, hall⟩
        · exact Or.inl ⟨hsc, hci⟩
        · exact Or.inr ⟨⟨hsc, hic⟩, hall⟩

theorem compare_isLE {i j : Interval} :
    (compare i j).isLE = true ↔ i.lo < j.lo ∨ i.lo = j.lo ∧ i.hi ≤ j.hi := by
  have h : compare i j =
      (compare i.lo j.lo).then ((compare i.hi j.hi).then .eq) := rfl
  rw [h, Ordering.isLE_then_iff_or, compare_lt_iff_lt, compare_eq_iff_eq,
    Ordering.isLE_then_iff_or, compare_lt_iff_lt, compare_eq_iff_eq, le_iff_lt_or_eq]
  simp

/-- **The complement** of a list of intervals holds the characters that are in none of them. -/
theorem mem_complement {is : List Interval} {c : Char} :
    (∃ g ∈ complement is, c ∈ g) ↔ ∀ i ∈ is, c ∉ i := by
  have sorted : (is.mergeSort fun i j => (compare i j).isLE).Pairwise fun i j =>
      (compare i j).isLE = true :=
    List.pairwise_mergeSort (fun a b d hab hbd => by
      rw [compare_isLE] at hab hbd ⊢
      rcases hab with hab | ⟨hab, hab'⟩ <;> rcases hbd with hbd | ⟨hbd, hbd'⟩
      · exact Or.inl (hab.trans hbd)
      · exact Or.inl (hbd ▸ hab)
      · exact Or.inl (hab ▸ hbd)
      · exact Or.inr ⟨hab.trans hbd, hab'.trans hbd'⟩)
    (fun a b => by
      rw [Bool.or_eq_true, compare_isLE, compare_isLE]
      rcases lt_trichotomy a.lo b.lo with h | h | h
      · exact Or.inl (Or.inl h)
      · exact (le_total a.hi b.hi).imp (fun h' => Or.inr ⟨h, h'⟩) fun h' => Or.inr ⟨h.symm, h'⟩
      · exact Or.inr (Or.inl h)) is
  have lows : (is.mergeSort fun i j => (compare i j).isLE).Pairwise fun i j => i.lo ≤ j.lo :=
    sorted.imp fun h => (compare_isLE.mp h).elim le_of_lt fun h => h.1.le
  unfold complement
  rw [mem_gapsFrom lows, ahead_some]
  simp only [List.mem_mergeSort]
  exact ⟨fun h => h.2, fun h => ⟨nul_le c, h⟩⟩

end Interval

/-! ## Labels -/

namespace Label

/-- A label accepts the characters in its intervals. -/
theorem accepts_iff_intervals (l : Label) (c : Char) :
    l.accepts c = true ↔ ∃ i ∈ l.intervals, c ∈ i := by
  cases l with
  | epsilon => simp [accepts, intervals]
  | within i =>
    simp only [accepts, intervals, List.mem_singleton, exists_eq_left]
    rfl
  | noneOf cs =>
    simp only [accepts, intervals, Interval.mem_complement, List.mem_map, forall_exists_index,
      and_imp, forall_apply_eq_imp_iff₂, Interval.mem_single, Bool.not_eq_true',
      List.contains_eq_mem, decide_eq_false_iff_not]
    exact ⟨fun h d hd e => h (e ▸ hd), fun h hc => h c hc rfl⟩
  | outside i =>
    rw [intervals, Interval.mem_complement]
    simp only [accepts, List.mem_singleton, forall_eq, Interval.mem_iff, Bool.or_eq_true,
      decide_eq_true_eq, not_and_or, not_le]

end Label

/-! ## Character classes -/

namespace CharClass

theorem contains_iff {cls : CharClass} {c : Char} :
    cls.contains c = true ↔
      if cls.negated then ∀ i ∈ cls.intervals, c ∉ i else ∃ i ∈ cls.intervals, c ∈ i := by
  have hany : (cls.intervals.any fun i => i.contains c) = true ↔ ∃ i ∈ cls.intervals, c ∈ i :=
    List.any_eq_true
  unfold contains
  cases hn : cls.negated
  · rw [if_neg Bool.false_ne_true, ← hany]
    simp
  · rw [if_pos rfl]
    simp only [bne_iff_ne, ne_eq, Bool.true_eq, hany, not_exists, not_and]

/-- The labels of a class accept the characters that it reads. -/
theorem labels_accept (cls : CharClass) (c : Char) :
    (∃ l ∈ cls.labels, l.accepts c = true) ↔ cls.contains c = true := by
  have within : ∀ is : List Interval,
      (∃ l ∈ is.map Label.within, l.accepts c = true) ↔ ∃ i ∈ is, c ∈ i := by
    intro is
    simp only [List.mem_map, exists_exists_and_eq_and]
    rfl
  rw [contains_iff]
  unfold labels
  cases hn : cls.negated
  · rw [if_neg Bool.false_ne_true, if_neg Bool.false_ne_true, within]
  rw [if_pos rfl, if_pos rfl]
  split
  · rename_i i hm
    simp only [List.mem_singleton, exists_eq_left, Label.accepts_iff_intervals, Label.intervals,
      Interval.mem_complement, intervals, hm, List.map_cons, List.map_nil, ClassMember.interval]
  split
  · -- All members are single characters, so the lower bounds of the intervals are the members.
    rename_i hall
    rw [List.all_eq_true] at hall
    have hlo : ∀ i ∈ cls.intervals, ∀ d, d ∈ i ↔ d = i.lo := by
      intro i hi d
      obtain ⟨m, hm, rfl⟩ := List.mem_map.mp hi
      cases m with
      | char e => exact Interval.mem_single
      | range r => exact absurd (hall _ hm) Bool.false_ne_true
    simp only [List.mem_singleton, exists_eq_left, Label.excluding, Label.accepts,
      Bool.not_eq_true', List.contains_eq_mem, decide_eq_false_iff_not]
    rw [← Ascending.mem_iff, Ascending.mem_ofList, List.mem_map]
    constructor
    · intro h i hi hc
      exact h ⟨i, hi, ((hlo i hi c).mp hc).symm⟩
    · rintro h ⟨i, hi, rfl⟩
      exact h i hi ((hlo i hi _).mpr rfl)
  · rw [within, Interval.mem_complement]

/-- Each label of a class reads something. -/
theorem labels_ne_epsilon (cls : CharClass) : ∀ l ∈ cls.labels, l ≠ .epsilon := by
  intro l hl
  unfold labels at hl
  split at hl
  · split at hl
    · rw [List.mem_singleton.mp hl]
      exact Label.noConfusion
    split at hl
    · rw [List.mem_singleton.mp hl]
      exact Label.noConfusion
    · obtain ⟨i, -, rfl⟩ := List.mem_map.mp hl
      exact Label.noConfusion
  · obtain ⟨i, -, rfl⟩ := List.mem_map.mp hl
    exact Label.noConfusion

end CharClass

end PatternAutomata
