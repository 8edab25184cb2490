import PatternAutomata.Automaton.Partition
import PatternAutomata.Proofs.Intervals

/-!
# One character stands for its whole interval

About `partition` (in `dfa`).

`Label.partition` cuts the characters at every place where a label can change its mind. A cell goes
from one cut up to the next, so no label tells two characters of a cell apart.

Results:
* `Label.accepts_cell_iff`: a label accepts a character of a cell iff it accepts the first;
* `Label.partition_pairwise`: the intervals of the partition are disjoint and ascend;
* **`Label.partition_alike`**, **`Label.exists_mem_partition`**: the partition splits the accepted
  characters into intervals that no label tells apart.

Out of scope: that no coarser split would do (`Proofs.CoarsestSplit`).
-/

namespace PatternAutomata.Label

variable {labels : List Label} {l : Label} {c : Char} {i : Interval}

/-! ## Cells -/

/-- A cell begins with a cut, is not empty, and ends before the next cut. -/
theorem cells_spec : ∀ {cuts : List Char}, cuts.Pairwise (· < ·) → ∀ i ∈ cells cuts,
    i.lo ∈ cuts ∧ i.lo ≤ i.hi ∧ ∀ k ∈ cuts, i.lo < k → i.hi < k
  | [], _, i, hi => absurd hi List.not_mem_nil
  | [lo], _, i, hi => by
    obtain rfl := List.mem_singleton.mp hi
    refine ⟨List.mem_cons_self, le_lastChar lo, fun k hk hlt => ?_⟩
    rw [List.mem_singleton.mp hk] at hlt
    exact absurd hlt (lt_irrefl lo)
  | lo :: next :: rest, h, i, hi => by
    obtain ⟨hlo, htail⟩ := List.pairwise_cons.mp h
    have hnext : ∀ k ∈ next :: rest, next ≤ k := by
      intro k hk
      rcases List.mem_cons.mp hk with rfl | hk
      · exact le_refl _
      · exact le_of_lt ((List.pairwise_cons.mp htail).1 k hk)
    unfold cells at hi
    rcases List.mem_append.mp hi with hi | hi
    · obtain ⟨heq, hle, hstop⟩ := Interval.below?_eq_some (Option.mem_toList.mp hi)
      refine ⟨List.mem_cons.mpr (Or.inl heq), hle, fun k hk hk' => ?_⟩
      rcases List.mem_cons.mp hk with rfl | hk
      · exact absurd hk' (not_lt.mpr heq.ge)
      · exact lt_of_lt_of_le hstop (hnext k hk)
    · obtain ⟨hmem, hle, hgap⟩ := cells_spec htail i hi
      refine ⟨List.mem_cons_of_mem _ hmem, hle, fun k hk hk' => ?_⟩
      rcases List.mem_cons.mp hk with rfl | hk
      · exact absurd (lt_trans (hlo i.lo hmem) hk') (lt_irrefl _)
      · exact hgap k hk hk'

/-- The cells hold every character from some cut on. -/
theorem exists_mem_cells : ∀ {cuts : List Char}, (∃ k ∈ cuts, k ≤ c) → cuts.Pairwise (· < ·) →
    ∃ i ∈ cells cuts, c ∈ i
  | [], ⟨k, hk, _⟩, _ => absurd hk List.not_mem_nil
  | [lo], ⟨k, hk, hc⟩, _ => by
    rw [List.mem_singleton.mp hk] at hc
    exact ⟨⟨lo, lastChar⟩, List.mem_cons_self, Interval.mem_iff.mpr ⟨hc, le_lastChar c⟩⟩
  | lo :: next :: rest, ⟨k, hk, hc⟩, h => by
    obtain ⟨hlo, htail⟩ := List.pairwise_cons.mp h
    unfold cells
    by_cases hn : next ≤ c
    · obtain ⟨i, hi, hci⟩ := exists_mem_cells ⟨next, List.mem_cons_self, hn⟩ htail
      exact ⟨i, List.mem_append_right _ hi, hci⟩
    · have hlc : lo ≤ c := by
        rcases List.mem_cons.mp hk with rfl | hk
        · exact hc
        · exact le_trans (le_of_lt (hlo k hk)) hc
      obtain ⟨i, hi, hci⟩ := Interval.mem_below?.mpr ⟨hlc, not_le.mp hn⟩
      exact ⟨i, List.mem_append_left _ (Option.mem_toList.mpr hi), hci⟩

/-- Each cell ends before the next one begins. -/
theorem cells_pairwise : ∀ {cuts : List Char}, cuts.Pairwise (· < ·) →
    (cells cuts).Pairwise fun i j => i.hi < j.lo
  | [], _ => .nil
  | [_], _ => List.pairwise_singleton _ _
  | lo :: next :: rest, h => by
    obtain ⟨-, htail⟩ := List.pairwise_cons.mp h
    unfold cells
    refine List.pairwise_append.mpr ⟨?_, cells_pairwise htail, fun i hi j hj => ?_⟩
    · cases Interval.below? lo next with
      | none => exact .nil
      | some i => exact List.pairwise_singleton _ i
    · obtain ⟨-, -, hstop⟩ := Interval.below?_eq_some (Option.mem_toList.mp hi)
      rcases List.mem_cons.mp (cells_spec htail j hj).1 with hj | hj
      · rwa [hj]
      · exact lt_trans hstop ((List.pairwise_cons.mp htail).1 _ hj)

/-! ## The cuts of some labels -/

theorem cuts_pairwise (labels : List Label) : (cuts labels).toList.Pairwise (· < ·) :=
  (cuts labels).ascending.imp fun h => compare_lt_iff_lt.mp h

theorem mem_cuts : c ∈ (cuts labels).toList ↔
    ∃ l ∈ labels, ∃ j ∈ l.intervals, c = j.lo ∨ j.hi.succ? = some c := by
  unfold cuts
  rw [← Ascending.mem_iff, Ascending.mem_ofList]
  simp only [List.mem_flatMap, List.mem_cons, Option.mem_toList]

/-- No interval of a label begins or ends within a cell. -/
theorem mem_cell_iff (hl : l ∈ labels) {j : Interval} (hj : j ∈ l.intervals)
    (hi : i ∈ cells (cuts labels).toList) (hc : c ∈ i) : c ∈ j ↔ i.lo ∈ j := by
  obtain ⟨-, hle, hgap⟩ := cells_spec (cuts_pairwise labels) i hi
  rw [Interval.mem_iff] at hc
  rw [Interval.mem_iff, Interval.mem_iff]
  constructor
  · rintro ⟨hlo, hhi⟩
    refine ⟨not_lt.mp fun hlt => ?_, le_trans hc.1 hhi⟩
    have := hgap j.lo (mem_cuts.mpr ⟨l, hl, j, hj, Or.inl rfl⟩) hlt
    exact absurd (lt_of_le_of_lt hc.2 this) (not_lt.mpr hlo)
  · rintro ⟨hlo, hhi⟩
    refine ⟨le_trans hlo hc.1, not_lt.mp fun hlt => ?_⟩
    obtain ⟨e, he⟩ := exists_succ? hlt
    have hcut := mem_cuts.mpr ⟨l, hl, j, hj, Or.inr he⟩
    have := hgap e hcut (lt_of_le_of_lt hhi ((succ?_le_iff he).mp (le_refl e)))
    exact absurd (lt_of_le_of_lt hc.2 this) (not_lt.mpr ((succ?_le_iff he).mpr hlt))

/-- **A label accepts all of a cell or none of it.** -/
theorem accepts_cell_iff (hl : l ∈ labels) (hi : i ∈ cells (cuts labels).toList) (hc : c ∈ i) :
    l.accepts c = true ↔ l.accepts i.lo = true := by
  rw [accepts_iff_intervals, accepts_iff_intervals]
  constructor
  · rintro ⟨j, hj, h⟩
    exact ⟨j, hj, (mem_cell_iff hl hj hi hc).mp h⟩
  · rintro ⟨j, hj, h⟩
    exact ⟨j, hj, (mem_cell_iff hl hj hi hc).mpr h⟩

/-! ## The partition -/

/-- An interval of the partition is not empty. -/
theorem partition_nonempty (hi : i ∈ partition labels) : i.lo ≤ i.hi := by
  obtain ⟨hi, -⟩ := List.mem_filter.mp hi
  exact (cells_spec (cuts_pairwise labels) i hi).2.1

/-- The intervals of the partition are disjoint and ascend. -/
theorem partition_pairwise (labels : List Label) :
    (partition labels).Pairwise fun i j => i.hi < j.lo :=
  (cells_pairwise (cuts_pairwise labels)).filter _

/-- **Alike**: each label accepts all characters of an interval of the partition or none. -/
theorem partition_alike (hi : i ∈ partition labels) (hc : c ∈ i) (hl : l ∈ labels) :
    l.accepts c = l.accepts i.lo := by
  obtain ⟨hi, -⟩ := List.mem_filter.mp hi
  rw [Bool.eq_iff_iff]
  exact accepts_cell_iff hl hi hc

/-- **Cover**: each accepted character is in an interval of the partition. -/
theorem exists_mem_partition (hl : l ∈ labels) (hc : l.accepts c = true) :
    ∃ i ∈ partition labels, c ∈ i := by
  obtain ⟨j, hj, hcj⟩ := (accepts_iff_intervals l c).mp hc
  have hcut : j.lo ∈ (cuts labels).toList := mem_cuts.mpr ⟨l, hl, j, hj, Or.inl rfl⟩
  obtain ⟨i, hi, hci⟩ :=
    exists_mem_cells ⟨j.lo, hcut, (Interval.mem_iff.mp hcj).1⟩ (cuts_pairwise labels)
  refine ⟨i, List.mem_filter.mpr ⟨hi, List.any_eq_true.mpr ⟨l, hl, ?_⟩⟩, hci⟩
  exact (accepts_cell_iff hl hi hci).mp hc

end PatternAutomata.Label
