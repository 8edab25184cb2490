import Mathlib
import PatternAutomata.Proofs.Partition
import PatternAutomata.Proofs.SpacedIntervals

/-!
# The coarsest split of the accepted characters

About `partition` (in `dfa`), for any list of transitions and not only for the alphabet of an
automaton.

A split of the characters that some labels accept is a list of disjoint intervals, ascending and not
empty, such that each label accepts all of an interval or none of it. `Label.partition` is one, and
where one of its intervals begins right after another, a label accepts one of the two and not the
other: a cut is only made at the end of an interval of a label, and the intervals of a label do not
touch. So every interval of any split lies within one of the partition.

Results:
* `Label.splits_partition`: the partition is a split;
* `Label.toldApart_of_adjoins`: some label tells adjoining intervals of the partition apart;
* `Label.Splits.within`: no split is coarser than one whose adjoining intervals are told apart;
* **`Label.partition_coarsest`**: the partition is the coarsest split.
-/

namespace PatternAutomata.Label

/-- The intervals ascend, none of them is empty, they hold what some label accepts, and no label
tells two characters of an interval apart. -/
structure Splits (labels : List Label) (is : List Interval) : Prop where
  nonempty : ∀ i ∈ is, i.lo ≤ i.hi
  ascending : is.Pairwise fun i j => i.hi < j.lo
  holds_iff : ∀ c, (∃ i ∈ is, c ∈ i) ↔ ∃ l ∈ labels, l.accepts c = true
  alike : ∀ l ∈ labels, ∀ i ∈ is, ∀ c ∈ i, ∀ d ∈ i, l.accepts c = l.accepts d

/-- Some label accepts all of one interval and none of the other. -/
def ToldApart (labels : List Label) (i j : Interval) : Prop :=
  ∃ l ∈ labels, ∀ c ∈ i, ∀ d ∈ j, l.accepts c ≠ l.accepts d

variable {labels : List Label} {is js : List Interval} {i j k : Interval} {c d : Char}

/-- The partition is a split. -/
theorem splits_partition (labels : List Label) : Splits labels (partition labels) where
  nonempty _ hi := partition_nonempty hi
  ascending := partition_pairwise labels
  holds_iff c := by
    constructor
    · rintro ⟨i, hi, hc⟩
      obtain ⟨l, hl, hlo⟩ := List.any_eq_true.mp (List.mem_filter.mp hi).2
      exact ⟨l, hl, (partition_alike hi hc hl).trans hlo⟩
    · rintro ⟨l, hl, hc⟩
      exact exists_mem_partition hl hc
  alike l hl i hi c hc d hd := by
    rw [partition_alike hi hc hl, partition_alike hi hd hl]

/-! ## Adjoining intervals -/

/-- Where the next interval of the partition begins, an interval of a label begins or has just
ended. -/
theorem exists_interval_of_adjoins (hj : j ∈ partition labels) (hij : i.hi.succ? = some j.lo) :
    ∃ l ∈ labels, ∃ k ∈ l.intervals, k.lo = j.lo ∨ k.hi = i.hi := by
  have hcut := (cells_spec (cuts_pairwise labels) j (List.mem_filter.mp hj).1).1
  obtain ⟨l, hl, k, hk, hlo | hhi⟩ := mem_cuts.mp hcut
  · exact ⟨l, hl, k, hk, Or.inl hlo.symm⟩
  · refine ⟨l, hl, k, hk, Or.inr ?_⟩
    rw [succ?_eq_some] at hhi hij
    exact char_eq_iff.mpr (by omega)

/-- A label with an interval that begins or ends between two characters that follow each other
accepts one of them only. -/
theorem accepts_ne_of_bound {l : Label} (h : l.WellFormed) (hk : k ∈ l.intervals)
    (hcd : c.succ? = some d) (hbound : k.lo = d ∨ k.hi = c) : l.accepts c ≠ l.accepts d := by
  have hspaced := spaced_intervals h
  have hne := hspaced.nonempty k hk
  have hlt : c < d := lt_of_succ? hcd
  intro heq
  rw [Bool.eq_iff_iff, accepts_iff_intervals, accepts_iff_intervals] at heq
  rcases hbound with rfl | rfl
  · -- if `c` is accepted, then by the interval that begins with the next character
    have hd : k.lo ∈ k := Interval.lo_mem hne
    obtain ⟨m, hm, hc⟩ := heq.mpr ⟨k, hk, hd⟩
    obtain rfl := hspaced.eq_of_succ hm hk hc hd hcd
    exact absurd (Interval.mem_iff.mp hc).1 (not_le.mpr hlt)
  · have hc : k.hi ∈ k := Interval.hi_mem hne
    obtain ⟨m, hm, hd⟩ := heq.mp ⟨k, hk, hc⟩
    obtain rfl := hspaced.eq_of_succ hk hm hc hd hcd
    exact absurd (Interval.mem_iff.mp hd).2 (not_le.mpr hlt)

/-- Some label tells adjoining intervals of the partition apart. -/
theorem toldApart_of_adjoins (h : ∀ l ∈ labels, l.WellFormed) (hi : i ∈ partition labels)
    (hj : j ∈ partition labels) (hij : i.hi.succ? = some j.lo) : ToldApart labels i j := by
  obtain ⟨l, hl, k, hk, hbound⟩ := exists_interval_of_adjoins hj hij
  have hne := accepts_ne_of_bound (h l hl) hk hij hbound
  have hhi : i.hi ∈ i := Interval.hi_mem (partition_nonempty hi)
  refine ⟨l, hl, fun c hc d hd => ?_⟩
  rwa [(splits_partition labels).alike l hl i hi c hc _ hhi, partition_alike hj hd hl]

/-! ## Coarseness -/

/-- The interval that holds the character right after another interval begins with it. -/
theorem Splits.lo_eq_of_succ (h : Splits labels is) (hi : i ∈ is) (hj : j ∈ is) (hd : d ∈ j)
    (hid : i.hi.succ? = some d) : j.lo = d := by
  have hlt : i.hi < d := lt_of_succ? hid
  rw [Interval.mem_iff] at hd
  have hij : i ≠ j := by
    rintro rfl
    exact absurd hd.2 (not_le.mpr hlt)
  rcases related_of_ne h.ascending hi hj hij with hafter | hbefore
  · exact le_antisymm hd.1 ((succ?_le_iff hid).mpr hafter)
  · have hdi : d < i.hi := (hd.2.trans_lt hbefore).trans_le (h.nonempty i hi)
    exact absurd hdi hlt.asymm

/-- **No split is coarser** than one whose adjoining intervals are told apart. -/
theorem Splits.within (h : Splits labels is)
    (hapart : ∀ i ∈ is, ∀ j ∈ is, i.hi.succ? = some j.lo → ToldApart labels i j)
    (h' : Splits labels js) (hk : k ∈ js) : ∃ i ∈ is, ∀ c ∈ k, c ∈ i := by
  have hlo : k.lo ∈ k := Interval.lo_mem (h'.nonempty k hk)
  obtain ⟨i, hi, hki⟩ := (h.holds_iff _).mpr ((h'.holds_iff _).mp ⟨k, hk, hlo⟩)
  refine ⟨i, hi, fun c hc => ?_⟩
  rw [Interval.mem_iff] at hki hc ⊢
  refine ⟨hki.1.trans hc.1, ?_⟩
  by_contra hgt
  -- otherwise the interval goes on behind the end of `i`, where a label changes its mind
  obtain ⟨e, he⟩ := exists_succ? (not_le.mp hgt)
  have hek : e ∈ k := Interval.mem_iff.mpr
    ⟨hki.2.trans (lt_of_succ? he).le, ((succ?_le_iff he).mpr (not_le.mp hgt)).trans hc.2⟩
  have hik : i.hi ∈ k := Interval.mem_iff.mpr ⟨hki.2, (le_of_not_ge hgt).trans hc.2⟩
  obtain ⟨j, hj, hej⟩ := (h.holds_iff e).mpr ((h'.holds_iff e).mp ⟨k, hk, hek⟩)
  obtain ⟨l, hl, hne⟩ := hapart i hi j hj (h.lo_eq_of_succ hi hj hej he ▸ he)
  have hii : i.hi ∈ i := Interval.hi_mem (h.nonempty i hi)
  exact hne _ hii _ hej (h'.alike l hl k hk _ hik _ hek)

/-- **The partition is the coarsest split** of what the labels accept: some label tells any two of
its intervals apart that adjoin, and each interval of any split lies within one of them. -/
theorem partition_coarsest (h : ∀ l ∈ labels, l.WellFormed) :
    Splits labels (partition labels) ∧
      (∀ i ∈ partition labels, ∀ j ∈ partition labels, i.hi.succ? = some j.lo →
        ToldApart labels i j) ∧
      ∀ is, Splits labels is → ∀ k ∈ is, ∃ i ∈ partition labels, ∀ c ∈ k, c ∈ i := by
  have hapart : ∀ i ∈ partition labels, ∀ j ∈ partition labels, i.hi.succ? = some j.lo →
      ToldApart labels i j := fun i hi j hj => toldApart_of_adjoins h hi hj
  refine ⟨splits_partition labels, hapart, fun is his k hk => ?_⟩
  exact (splits_partition labels).within hapart his hk

/-- Labels of all kinds, one of them twice. Nothing is missing between U+D7FF and U+E000, so the
last two intervals adjoin: the label that ends at U+D7FF tells them apart. -/
theorem partition_coarsest_surrogates :
    ∃ labels : List Label,
      labels = [.epsilon, .within ⟨'k', '\uD7FF'⟩, .outside ⟨'\x00', 'f'⟩, .excluding ['m', '\x00'],
        .outside ⟨'\x00', 'f'⟩] ∧
      partition labels = [⟨'\x01', 'f'⟩, ⟨'g', 'j'⟩, ⟨'k', 'l'⟩, ⟨'m', 'm'⟩, ⟨'n', '\uD7FF'⟩,
        ⟨'\uE000', lastChar⟩] ∧
      (∀ l ∈ labels, l.WellFormed) ∧ '\uD7FF'.succ? = some '\uE000' ∧
      Splits labels (partition labels) ∧
      (∀ i ∈ partition labels, ∀ j ∈ partition labels, i.hi.succ? = some j.lo →
        ToldApart labels i j) ∧
      ∀ is, Splits labels is → ∀ k ∈ is, ∃ i ∈ partition labels, ∀ c ∈ k, c ∈ i := by
  refine ⟨_, rfl, by cbv, ?wf, by decide, partition_coarsest ?wf⟩
  decide +kernel

end PatternAutomata.Label
