import PatternAutomata.Proofs.Determinization

/-!
# Joined rows

About the edge that `build_dfa` (in `dfa`) holds back while the ranges go on.

A row says where each character leads, interval by interval. When its intervals ascend, none of them
is empty and no two of them that adjoin lead to the same place, nothing else says the same: the
row can be read off from where the characters lead. Joining adjacent intervals gives such a row, and
so do the moves of a set of states.

Results:
* **`Joined.ext`**: joined rows in which all characters lead to the same places are equal;
* `joined_joinAdjacent`: joining the adjacent intervals of an ascending row gives a joined row;
* `Automaton.joined_moveAll`: the moves of a set are a joined row.
-/

namespace PatternAutomata

variable {σ τ : Type} {row row' : List (Interval × σ)} {i j : Interval} {x y z : σ} {c : Char}

/-- The second entry comes after the first, and is another one even where they adjoin. -/
def Apart (p q : Interval × σ) : Prop :=
  p.1.hi < q.1.lo ∧ (p.1.adjoins q.1 = true → p.2 ≠ q.2)

/-- The entries of the row are not empty and ascend, and none can be joined with another. -/
structure Joined (row : List (Interval × σ)) : Prop where
  nonempty : ∀ p ∈ row, p.1.lo ≤ p.1.hi
  apart : row.Pairwise Apart

theorem Joined.tail (h : Joined ((i, x) :: row)) : Joined row :=
  ⟨fun p hp => h.nonempty p (List.mem_cons_of_mem _ hp), (List.pairwise_cons.mp h.apart).2⟩

/-- Characters that lead somewhere after the first entry come after it. -/
theorem Joined.lt_of_leadsTo (h : Joined ((i, x) :: row)) (hc : LeadsTo row c y) : i.hi < c := by
  obtain ⟨k, hk, hck⟩ := hc
  have hlt := ((List.pairwise_cons.mp h.apart).1 _ hk).1
  exact lt_of_lt_of_le hlt (Interval.mem_iff.mp hck).1

/-- After the first entry the row leads to where it leads after the end of this entry. -/
theorem Joined.leadsTo_tail_iff (h : Joined ((i, x) :: row)) :
    LeadsTo row c y ↔ LeadsTo ((i, x) :: row) c y ∧ i.hi < c := by
  rw [leadsTo_cons]
  constructor
  · intro hc
    exact ⟨Or.inr hc, h.lt_of_leadsTo hc⟩
  · rintro ⟨⟨-, hc⟩ | hc, hlt⟩
    · exact absurd (Interval.mem_iff.mp hc).2 (not_le.mpr hlt)
    · exact hc

theorem Joined.lo_mem (h : Joined ((i, x) :: row)) : i.lo ∈ i :=
  Interval.mem_iff.mpr ⟨le_refl _, h.nonempty _ List.mem_cons_self⟩

/-- The first entry begins with the first character that leads anywhere. -/
theorem Joined.lo_le_of_leadsTo (h : Joined ((i, x) :: row))
    (hc : LeadsTo ((i, x) :: row) c y) : i.lo ≤ c := by
  rcases leadsTo_cons.mp hc with ⟨-, hc⟩ | hc
  · exact (Interval.mem_iff.mp hc).1
  · exact le_of_lt (lt_of_le_of_lt (h.nonempty _ List.mem_cons_self) (h.lt_of_leadsTo hc))

/-- The characters of the first entry lead nowhere else. -/
theorem Joined.eq_of_leadsTo (h : Joined ((i, x) :: row)) (hi : c ∈ i)
    (hc : LeadsTo ((i, x) :: row) c y) : y = x := by
  rcases leadsTo_cons.mp hc with ⟨rfl, -⟩ | hc
  · rfl
  · exact absurd (Interval.mem_iff.mp hi).2 (not_le.mpr (h.lt_of_leadsTo hc))

/-- The character right after the first entry does not lead to the same place. -/
theorem Joined.not_leadsTo_succ (h : Joined ((i, x) :: row)) (hc : i.hi.succ? = some c) :
    ¬ LeadsTo row c x := by
  rintro ⟨k, hk, hck⟩
  obtain ⟨hlt, hne⟩ := (List.pairwise_cons.mp h.apart).1 _ hk
  have hlo : k.lo = c :=
    le_antisymm (Interval.mem_iff.mp hck).1 ((succ?_le_iff hc).mpr hlt)
  refine hne ?_ rfl
  show (i.hi.succ? == some k.lo) = true
  rw [hc, hlo]
  exact beq_self_eq_true _

/-- The first entry reaches as far as its characters lead to its target. -/
theorem Joined.hi_le (h : Joined ((i, x) :: row)) (hlo : i.lo = j.lo)
    (heq : ∀ c y, LeadsTo ((i, x) :: row) c y ↔ LeadsTo ((j, x) :: row') c y) : j.hi ≤ i.hi := by
  by_contra hlt
  rw [not_le] at hlt
  obtain ⟨e, he⟩ := exists_succ? hlt
  have hie : i.hi < e := (succ?_le_iff he).mp (le_refl e)
  have hj : e ∈ j := by
    refine Interval.mem_iff.mpr ⟨?_, (succ?_le_iff he).mpr hlt⟩
    rw [← hlo]
    exact le_of_lt (lt_of_le_of_lt (h.nonempty _ List.mem_cons_self) hie)
  have hx := (heq e x).mpr (leadsTo_cons.mpr (Or.inl ⟨rfl, hj⟩))
  exact h.not_leadsTo_succ he (h.leadsTo_tail_iff.mpr ⟨hx, hie⟩)

/-- **Extensionality**: joined rows in which all characters lead to the same places are equal. -/
theorem Joined.ext : ∀ {row row' : List (Interval × σ)}, Joined row → Joined row' →
    (∀ c y, LeadsTo row c y ↔ LeadsTo row' c y) → row = row'
  | [], [], _, _, _ => rfl
  | [], (j, y) :: row', _, h', heq => by
    obtain ⟨k, hk, -⟩ := (heq j.lo y).mpr (leadsTo_cons.mpr (Or.inl ⟨rfl, h'.lo_mem⟩))
    exact absurd hk List.not_mem_nil
  | (i, x) :: row, [], h, _, heq => by
    obtain ⟨k, hk, -⟩ := (heq i.lo x).mp (leadsTo_cons.mpr (Or.inl ⟨rfl, h.lo_mem⟩))
    exact absurd hk List.not_mem_nil
  | (i, x) :: row, (j, y) :: row', h, h', heq => by
    have hi := (heq i.lo x).mp (leadsTo_cons.mpr (Or.inl ⟨rfl, h.lo_mem⟩))
    have hj := (heq j.lo y).mpr (leadsTo_cons.mpr (Or.inl ⟨rfl, h'.lo_mem⟩))
    have hlo : i.lo = j.lo := le_antisymm (h.lo_le_of_leadsTo hj) (h'.lo_le_of_leadsTo hi)
    obtain rfl : x = y := h'.eq_of_leadsTo (hlo ▸ h'.lo_mem) hi
    have hhi : i.hi = j.hi := le_antisymm
      (h'.hi_le hlo.symm fun c y => (heq c y).symm) (h.hi_le hlo heq)
    obtain rfl : i = j := by
      cases i
      cases j
      congr
    -- the rest of a row is what it says of the characters after the first entry
    have hrow : row = row' := by
      refine h.tail.ext h'.tail fun c y => ?_
      rw [h.leadsTo_tail_iff, h'.leadsTo_tail_iff, heq]
    rw [hrow]

/-! ## Renaming the targets -/

theorem leadsTo_map {φ : σ → τ} {t : τ} :
    LeadsTo (row.map fun p => (p.1, φ p.2)) c t ↔ ∃ y, t = φ y ∧ LeadsTo row c y := by
  unfold LeadsTo
  simp only [List.mem_map, Prod.mk.injEq, Prod.exists]
  constructor
  · rintro ⟨i, ⟨k, y, hy, rfl, rfl⟩, hc⟩
    exact ⟨y, rfl, k, hy, hc⟩
  · rintro ⟨y, rfl, i, hy, hc⟩
    exact ⟨i, ⟨i, y, hy, rfl, rfl⟩, hc⟩

/-- Targets that are told apart stay apart. -/
theorem Joined.map (h : Joined row) {φ : σ → τ}
    (hφ : ∀ p ∈ row, ∀ q ∈ row, φ p.2 = φ q.2 → p.2 = q.2) :
    Joined (row.map fun p => (p.1, φ p.2)) where
  nonempty p hp := by
    obtain ⟨q, hq, rfl⟩ := List.mem_map.mp hp
    exact h.nonempty q hq
  apart := by
    refine List.pairwise_map.mpr (h.apart.imp_of_mem fun {p q} hp hq hpq => ?_)
    exact ⟨hpq.1, fun hadj heq => hpq.2 hadj (hφ p hp q hq heq)⟩

/-! ## Joining gives joined rows -/

variable [DecidableEq σ]

/-- The first entry after joining begins where it began before. -/
theorem joinFrom_eq_cons (rest : List (Interval × σ)) : ∀ (i : Interval) (x : σ),
    ∃ k more, joinFrom i x rest = (k, x) :: more ∧ k.lo = i.lo := by
  induction rest with
  | nil => exact fun i x => ⟨i, [], rfl, rfl⟩
  | cons p rest ih =>
    obtain ⟨j, y⟩ := p
    intro i x
    unfold joinFrom
    by_cases hjoin : x = y ∧ i.adjoins j = true
    · rw [if_pos hjoin]
      obtain ⟨k, more, hk, hlo⟩ := ih ⟨i.lo, j.hi⟩ x
      exact ⟨k, more, hk, hlo⟩
    · rw [if_neg hjoin]
      exact ⟨i, _, rfl, rfl⟩

theorem joined_joinFrom {rest : List (Interval × σ)} : ∀ {i : Interval} {x : σ},
    (∀ p ∈ (i, x) :: rest, p.1.lo ≤ p.1.hi) →
    ((i, x) :: rest).Pairwise (fun p q => p.1.hi < q.1.lo) → Joined (joinFrom i x rest) := by
  induction rest with
  | nil => exact fun hne _ => ⟨hne, List.pairwise_singleton _ _⟩
  | cons p rest ih =>
    obtain ⟨j, y⟩ := p
    intro i x hne hlt
    obtain ⟨hi, hne⟩ := List.forall_mem_cons.mp hne
    obtain ⟨hj, hrest⟩ := List.forall_mem_cons.mp hne
    obtain ⟨hi', hlt⟩ := List.pairwise_cons.mp hlt
    obtain ⟨hj', hlt'⟩ := List.pairwise_cons.mp hlt
    have hij : i.hi < j.lo := hi' _ List.mem_cons_self
    unfold joinFrom
    by_cases hjoin : x = y ∧ i.adjoins j = true
    · rw [if_pos hjoin]
      refine ih (List.forall_mem_cons.mpr ⟨?_, hrest⟩) (List.pairwise_cons.mpr ⟨hj', hlt'⟩)
      exact le_trans hi (le_trans (le_of_lt hij) hj)
    · rw [if_neg hjoin]
      obtain ⟨k, more, hk, hlo⟩ := joinFrom_eq_cons rest j y
      have hjoined : Joined (joinFrom j y rest) := ih hne hlt
      rw [hk] at hjoined ⊢
      refine ⟨List.forall_mem_cons.mpr ⟨hi, hjoined.nonempty⟩,
        List.pairwise_cons.mpr ⟨fun q hq => ?_, hjoined.apart⟩⟩
      rcases List.mem_cons.mp hq with rfl | hq
      · refine ⟨lt_of_lt_of_eq hij hlo.symm, fun hadj hxy => hjoin ⟨hxy, ?_⟩⟩
        unfold Interval.adjoins at hadj ⊢
        rwa [← hlo]
      · -- an entry further on begins after `j`, so it does not adjoin `i`
        have hkq : k.hi < q.1.lo := ((List.pairwise_cons.mp hjoined.apart).1 _ hq).1
        have hjq : j.lo < q.1.lo :=
          hlo ▸ lt_of_le_of_lt (hjoined.nonempty _ List.mem_cons_self) hkq
        refine ⟨lt_trans hij hjq, fun hadj => absurd hjq (not_lt.mpr ?_)⟩
        exact (succ?_le_iff (beq_iff_eq.mp hadj)).mpr hij

/-- Joining the adjacent intervals of an ascending row gives a joined row. -/
theorem joined_joinAdjacent (hne : ∀ p ∈ row, p.1.lo ≤ p.1.hi)
    (hlt : row.Pairwise fun p q => p.1.hi < q.1.lo) : Joined (joinAdjacent row) := by
  cases row with
  | nil => exact ⟨hne, .nil⟩
  | cons p row => exact joined_joinFrom hne hlt

namespace Automaton

variable {a : Automaton} {s : StateSet}

/-- **The moves of a set** are a joined row. -/
theorem joined_moveAll (a : Automaton) (s : StateSet) : Joined (a.moveAll a.symbols s) := by
  refine joined_joinAdjacent (fun p hp => ?_) ?_
  · obtain ⟨i, hi, hp⟩ := List.mem_filterMap.mp hp
    rw [(moveOn_eq_some.mp hp).2]
    exact Label.partition_nonempty hi
  · refine List.pairwise_filterMap.mpr ((Label.partition_pairwise a.alphabet).imp ?_)
    intro i j hij p hp q hq
    rw [(moveOn_eq_some.mp hp).2, (moveOn_eq_some.mp hq).2]
    exact hij

end Automaton

end PatternAutomata
