import PatternAutomata.Proofs.JoinedRows
import PatternAutomata.Proofs.SpacedIntervals

/-!
# Spaced intervals as a canonical form

About `complement` and `intervals` against `matches` (in `automaton`).

A set of characters that is made of intervals at all is made of spaced ones in one way only. So the
complement of a list of intervals is settled by which characters the intervals hold, and so are the
intervals of a label by which characters the label accepts, although the two are computed apart.

Results:
* **`Interval.Spaced.ext`**: spaced intervals that hold the same characters are the same;
* `Interval.eq_complement_iff`, `Label.eq_intervals_iff`: what a complement is, and what the
  intervals of a label are;
* **`Interval.complement_spec`**: the form of complements and of the intervals of a label, the
  characters that they hold, and that no other intervals are of this form and hold them.

Out of scope: ranges whose bounds are in the wrong order, which neither the parser nor the subset
construction makes.
-/

namespace PatternAutomata

namespace Interval

variable {is js gs : List Interval} {c : Char}

/-! ## Extensionality -/

/-- Intervals as a row that leads all their characters to the same place. -/
def row (is : List Interval) : List (Interval × Unit) := is.map fun i => (i, ())

theorem leadsTo_row : LeadsTo (row is) c () ↔ ∃ i ∈ is, c ∈ i := by
  simp only [LeadsTo, row, List.mem_map, Prod.mk.injEq, and_true, exists_eq_right]

theorem LeavesGap.not_adjoins {i j : Interval} (h : i.LeavesGap j) : ¬ i.adjoins j = true := by
  obtain ⟨c, hic, hcj⟩ := h
  intro hadj
  have hsucc : i.hi.succ? = some j.lo := beq_iff_eq.mp hadj
  exact absurd hcj (not_lt.mpr ((succ?_le_iff hsucc).mpr hic))

/-- Nothing can be joined in a row of spaced intervals. -/
theorem Spaced.joined_row (h : Spaced is) : Joined (row is) where
  nonempty p hp := by
    obtain ⟨i, hi, rfl⟩ := List.mem_map.mp hp
    exact h.nonempty i hi
  apart := List.pairwise_map.mpr
    (h.gaps.imp fun hij => ⟨hij.lt, fun hadj => absurd hadj hij.not_adjoins⟩)

/-- **Extensionality**: spaced intervals that hold the same characters are the same. -/
theorem Spaced.ext (h : Spaced is) (h' : Spaced js)
    (heq : ∀ c, (∃ i ∈ is, c ∈ i) ↔ ∃ j ∈ js, c ∈ j) : is = js := by
  have hrow : row is = row js := h.joined_row.ext h'.joined_row fun c _ => by
    rw [leadsTo_row, leadsTo_row, heq c]
  exact List.map_injective_iff.mpr (fun _ _ hij => (Prod.mk.inj hij).1) hrow

/-- Spaced intervals for the characters with some property are the only ones. -/
theorem Spaced.eq_iff {p : Char → Prop} (h : Spaced is) (hp : ∀ c, (∃ i ∈ is, c ∈ i) ↔ p c) :
    gs = is ↔ Spaced gs ∧ ∀ c, (∃ g ∈ gs, c ∈ g) ↔ p c := by
  constructor
  · rintro rfl
    exact ⟨h, hp⟩
  · rintro ⟨hgs, hmem⟩
    exact hgs.ext h fun c => (hmem c).trans (hp c).symm

/-! ## Complements -/

/-- The complement is the one list of spaced intervals for the characters in none of the given ones.
-/
theorem eq_complement_iff (hne : ∀ i ∈ is, i.lo ≤ i.hi) :
    gs = complement is ↔ Spaced gs ∧ ∀ c, (∃ g ∈ gs, c ∈ g) ↔ ∀ i ∈ is, c ∉ i :=
  (spaced_complement hne).eq_iff fun _ => mem_complement

end Interval

/-! ## Labels -/

/-- The intervals of a label are the one list of spaced intervals for the characters that it
accepts, however the label is written. -/
theorem Label.eq_intervals_iff {l : Label} {gs : List Interval} (hl : l.WellFormed) :
    gs = l.intervals ↔ Interval.Spaced gs ∧ ∀ c, (∃ g ∈ gs, c ∈ g) ↔ l.accepts c = true :=
  (spaced_intervals hl).eq_iff fun c => (l.accepts_iff_intervals c).symm

/-- **Complements and the intervals of labels**: whatever the order of a list of intervals and
whether or not they overlap, repeat or adjoin, its complement is spaced and holds the characters in
none of them. The intervals of a label are spaced and hold the characters that it accepts. No other
spaced intervals hold these characters. -/
theorem Interval.complement_spec :
    (∀ is : List Interval, (∀ i ∈ is, i.lo ≤ i.hi) →
      (Spaced (complement is) ∧ ∀ c, (∃ g ∈ complement is, c ∈ g) ↔ ∀ i ∈ is, c ∉ i) ∧
      ∀ gs, Spaced gs → (∀ c, (∃ g ∈ gs, c ∈ g) ↔ ∀ i ∈ is, c ∉ i) → gs = complement is) ∧
    ∀ l : Label, l.WellFormed →
      (Spaced l.intervals ∧ ∀ c, (∃ i ∈ l.intervals, c ∈ i) ↔ l.accepts c = true) ∧
      ∀ gs, Spaced gs → (∀ c, (∃ g ∈ gs, c ∈ g) ↔ l.accepts c = true) → gs = l.intervals :=
  ⟨fun _ hne => ⟨(eq_complement_iff hne).mp rfl,
      fun _ hgs hmem => (eq_complement_iff hne).mpr ⟨hgs, hmem⟩⟩,
    fun _ hl => ⟨(Label.eq_intervals_iff hl).mp rfl,
      fun _ hgs hmem => (Label.eq_intervals_iff hl).mpr ⟨hgs, hmem⟩⟩⟩

/-- Intervals that are out of order, overlap, adjoin and come twice, among them NUL, the last
character and the first one after the surrogates. -/
theorem Interval.complement_spec_surrogates :
    ∃ is : List Interval, ∃ l : Label,
      is = [⟨'x', 'x'⟩, ⟨'\uE000', lastChar⟩, ⟨'b', 'e'⟩, ⟨'a', 'c'⟩, ⟨'f', 'f'⟩, ⟨'x', 'x'⟩,
        ⟨'\x00', '\x00'⟩] ∧
      complement is = [⟨'\x01', '`'⟩, ⟨'g', 'w'⟩, ⟨'y', '\uD7FF'⟩] ∧
      l = .outside ⟨'\x00', '\uD7FF'⟩ ∧ l.intervals = [⟨'\uE000', lastChar⟩] ∧
      (∀ i ∈ is, i.lo ≤ i.hi) ∧ l.WellFormed ∧
      ((Spaced (complement is) ∧ ∀ c, (∃ g ∈ complement is, c ∈ g) ↔ ∀ i ∈ is, c ∉ i) ∧
        ∀ gs, Spaced gs → (∀ c, (∃ g ∈ gs, c ∈ g) ↔ ∀ i ∈ is, c ∉ i) → gs = complement is) ∧
      (Spaced l.intervals ∧ ∀ c, (∃ i ∈ l.intervals, c ∈ i) ↔ l.accepts c = true) ∧
        ∀ gs, Spaced gs → (∀ c, (∃ g ∈ gs, c ∈ g) ↔ l.accepts c = true) → gs = l.intervals := by
  refine ⟨_, _, rfl, by cbv, rfl, by cbv, ?is, ?l, complement_spec.1 _ ?is, complement_spec.2 _ ?l⟩
  · decide +kernel
  · decide +kernel

end PatternAutomata
