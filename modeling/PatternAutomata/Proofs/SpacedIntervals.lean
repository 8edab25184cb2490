import Mathlib.Data.List.Pairwise
import PatternAutomata.Proofs.Intervals

/-!
# Spaced intervals

About the form of what `complement` and `intervals` (in `automaton`) return.

Ascending intervals are spaced when none of them is empty and some character lies between any two
of them. They are then the longest intervals within the characters that they hold: of two characters
that follow each other, an interval that holds both of them holds one. Complements come in this
form, and so do the intervals of a label.

Results:
* `Interval.Spaced.eq_of_succ`: characters that follow each other lie in the same interval;
* **`Interval.spaced_complement`**: the intervals of a complement are spaced, whatever the order of
  the list and whether or not its intervals overlap;
* `Label.spaced_intervals`: the intervals of a label are spaced.
-/

namespace PatternAutomata

/-- Two members of a list of which each is related to those behind it. -/
theorem related_of_ne {α : Type} {R : α → α → Prop} {xs : List α} {x y : α} (h : xs.Pairwise R)
    (hx : x ∈ xs) (hy : y ∈ xs) (hxy : x ≠ y) : R x y ∨ R y x := by
  have : Std.Symm fun x y => R x y ∨ R y x := ⟨fun _ _ => Or.symm⟩
  have heither : xs.Pairwise fun x y => R x y ∨ R y x := h.imp Or.inl
  exact heither.forall hx hy hxy

namespace Interval

/-- Some character lies after the first interval and before the second. -/
def LeavesGap (i j : Interval) : Prop := ∃ c, i.hi < c ∧ c < j.lo

theorem LeavesGap.lt {i j : Interval} (h : i.LeavesGap j) : i.hi < j.lo :=
  let ⟨_, hi, hj⟩ := h
  lt_trans hi hj

/-- No interval is empty, and some character lies between any two of them. -/
structure Spaced (is : List Interval) : Prop where
  nonempty : ∀ i ∈ is, i.lo ≤ i.hi
  gaps : is.Pairwise LeavesGap

variable {is : List Interval} {i j : Interval} {c d : Char}

theorem lo_mem (h : i.lo ≤ i.hi) : i.lo ∈ i := mem_iff.mpr ⟨le_refl _, h⟩

theorem hi_mem (h : i.lo ≤ i.hi) : i.hi ∈ i := mem_iff.mpr ⟨h, le_refl _⟩

theorem spaced_nil : Spaced [] := ⟨fun _ hi => absurd hi List.not_mem_nil, .nil⟩

theorem spaced_singleton (h : i.lo ≤ i.hi) : Spaced [i] :=
  ⟨List.forall_mem_singleton.mpr h, List.pairwise_singleton _ i⟩

/-- **Characters that follow each other** lie in the same interval, if both lie in one. -/
theorem Spaced.eq_of_succ (h : Spaced is) (hi : i ∈ is) (hj : j ∈ is) (hc : c ∈ i) (hd : d ∈ j)
    (hcd : c.succ? = some d) : i = j := by
  have hlt : c < d := lt_of_succ? hcd
  rw [mem_iff] at hc hd
  by_contra hij
  rcases related_of_ne h.gaps hi hj hij with ⟨e, hie, hej⟩ | ⟨e, hje, hei⟩
  · -- nothing lies between the two characters
    have hce : c < e := lt_of_le_of_lt hc.2 hie
    have hed : e < d := lt_of_lt_of_le hej hd.1
    exact absurd hed (not_lt.mpr ((succ?_le_iff hcd).mpr hce))
  · have hde : d < e := lt_of_le_of_lt hd.2 hje
    have hec : e < c := lt_of_lt_of_le hei hc.1
    exact absurd (hde.trans hec) hlt.asymm

/-! ## Complements -/

/-- The gaps lie ahead of the sweep. -/
theorem ahead_of_mem_gapsFrom (hne : ∀ i ∈ is, i.lo ≤ i.hi) : ∀ {start : Option Char},
    ∀ g ∈ gapsFrom start is, Ahead start g.lo := by
  induction is with
  | nil =>
    intro start g hg
    cases start with
    | none => exact absurd hg List.not_mem_nil
    | some s =>
      rw [List.mem_singleton.mp hg]
      exact ahead_some.mpr (le_refl s)
  | cons i is ih =>
    intro start g hg
    cases start with
    | none => exact absurd hg List.not_mem_nil
    | some s =>
      rcases List.mem_append.mp hg with hg | hg
      · rw [(below?_eq_some (Option.mem_toList.mp hg)).1]
        exact ahead_some.mpr (le_refl s)
      · have hnext := ih (List.forall_mem_cons.mp hne).2 g hg
        exact ahead_some.mpr (ahead_next.mp hnext).1

/-- The gaps that a sweep finds are spaced: the first character of an interval lies between the gap
before it and those after it. -/
theorem spaced_gapsFrom (hne : ∀ i ∈ is, i.lo ≤ i.hi) : ∀ start, Spaced (gapsFrom start is) := by
  induction is with
  | nil =>
    intro start
    cases start with
    | none => exact spaced_nil
    | some s => exact spaced_singleton (le_lastChar s)
  | cons i is ih =>
    obtain ⟨hi, hne⟩ := List.forall_mem_cons.mp hne
    intro start
    cases start with
    | none => exact spaced_nil
    | some s =>
      have hrest := ih hne (if s ≤ i.hi then i.hi.succ? else some s)
      refine ⟨fun g hg => ?_, List.pairwise_append.mpr ⟨?_, hrest.gaps, fun g hg k hk => ?_⟩⟩
      · rcases List.mem_append.mp hg with hg | hg
        · exact (below?_eq_some (Option.mem_toList.mp hg)).2.1
        · exact hrest.nonempty g hg
      · cases below? s i.lo with
        | none => exact .nil
        | some g => exact List.pairwise_singleton _ g
      · have hstop := (below?_eq_some (Option.mem_toList.mp hg)).2.2
        have hahead := (ahead_next.mp (ahead_of_mem_gapsFrom hne k hk)).2
        exact ⟨i.lo, hstop, lt_of_le_of_lt hi hahead⟩

/-- **The intervals of a complement** are spaced. -/
theorem spaced_complement (hne : ∀ i ∈ is, i.lo ≤ i.hi) : Spaced (complement is) :=
  spaced_gapsFrom (fun i hi => hne i (List.mem_mergeSort.mp hi)) _

end Interval

/-! ## Labels -/

namespace Label

/-- The bounds of the label's interval, if it has one, are in order. -/
def WellFormed : Label → Prop
  | .epsilon => True
  | .within i => i.lo ≤ i.hi
  | .noneOf _ => True
  | .outside i => i.lo ≤ i.hi

instance : DecidablePred WellFormed
  | .epsilon => .isTrue trivial
  | .within i => inferInstanceAs (Decidable (i.lo ≤ i.hi))
  | .noneOf _ => .isTrue trivial
  | .outside i => inferInstanceAs (Decidable (i.lo ≤ i.hi))

/-- **The intervals of a label** are spaced. -/
theorem spaced_intervals {l : Label} (h : l.WellFormed) : Interval.Spaced l.intervals := by
  cases l with
  | epsilon => exact Interval.spaced_nil
  | within i => exact Interval.spaced_singleton h
  | noneOf cs =>
    refine Interval.spaced_complement fun i hi => ?_
    obtain ⟨c, -, rfl⟩ := List.mem_map.mp hi
    exact le_refl c
  | outside i => exact Interval.spaced_complement (List.forall_mem_singleton.mpr h)

end Label

end PatternAutomata
