import Mathlib.Data.List.Forall2
import Mathlib.Data.List.Nodup
import Mathlib.Data.Set.Card
import Mathlib.Logic.Relation
import PatternAutomata.Exploration

/-!
# What an exploration numbers

About the worklists of `from_graph`, `epsilon_closure` and `build_dfa`, whatever the successors are.

The invariant of an exploration is `Explored`: the numbers are the places of the nodes, every node
can be reached from a root, and the row of a node that was expanded lists its successors. Expanding
the nodes one by one keeps it, and ends when every node has its row or a node is refused.

Results:
* `Exploration.ended_explore`: the invariant holds in the end, and all nodes have their rows or one
  is refused;
* **`Exploration.mem_explore_iff`**: an exploration that refuses no node numbers exactly the nodes
  that can be reached;
* `Exploration.refused_explore_of_lt`: no node is refused where all that can be reached are numbers
  below `cap`;
* **`Exploration.refused_explore_iff`**: a node is refused exactly when more than `cap` of them can
  be reached.

Out of scope: the order of the nodes (`Proofs.Correspondence`, `Proofs.BreadthFirst`).
-/

namespace PatternAutomata

namespace Exploration

section

variable {α σ : Type}

/-- A node that can be reached from one of the roots. -/
def Reachable (successors : σ → List (α × σ)) (roots : List σ) (x : σ) : Prop :=
  ∃ r ∈ roots, Relation.ReflTransGen (fun y z => ∃ a, (a, z) ∈ successors y) r x

theorem Reachable.root {successors : σ → List (α × σ)} {roots : List σ} {r : σ} (h : r ∈ roots) :
    Reachable successors roots r :=
  ⟨r, h, .refl⟩

theorem Reachable.step {successors : σ → List (α × σ)} {roots : List σ} {x y : σ} {a : α}
    (h : Reachable successors roots x) (hy : (a, y) ∈ successors x) :
    Reachable successors roots y := by
  obtain ⟨r, hr, hx⟩ := h
  exact ⟨r, hr, hx.tail ⟨a, hy⟩⟩

/-- Nodes keep their places when one more is added. -/
theorem getElem?_push_of_some {nodes : Array σ} {i : Nat} {x y : σ}
    (h : nodes[i]? = some y) :
    (nodes.push x)[i]? = some y := by
  rw [Array.getElem?_push, if_neg]
  · exact h
  · rintro rfl
    rw [Array.getElem?_eq_none (Nat.le_refl _)] at h
    cases h

theorem size_le_of_getElem? {nodes nodes' : Array σ}
    (h : ∀ (i : Nat) (x : σ), nodes[i]? = some x → nodes'[i]? = some x) :
    nodes.size ≤ nodes'.size := by
  by_contra hlt
  rw [Nat.not_le] at hlt
  have := h _ _ (Array.getElem?_eq_getElem hlt)
  rw [Array.getElem?_eq_none (Nat.le_refl _)] at this
  cases this

end

variable {α σ : Type} [Ord σ]

/-- An entry of a row names a successor. -/
def Names (e : Exploration α σ) (entry : α × Nat) (successor : α × σ) : Prop :=
  entry.1 = successor.1 ∧ e.nodes[entry.2]? = some successor.2

/-- The numbers are the places of the nodes, and they are what was reported of them; at most `cap`
are given. -/
structure Numbered (cap : Nat) (e : Exploration α σ) : Prop where
  index_iff : ∀ (x : σ) (i : Nat), e.index[x]? = some i ↔ e.nodes[i]? = some x
  size_le : e.nodes.size ≤ cap
  reports_eq : e.reports = e.nodes.mapIdx fun i x => (i, x)

/-- The invariant. -/
structure Explored (successors : σ → List (α × σ)) (cap : Nat) (roots : List σ)
    (e : Exploration α σ) : Prop extends Numbered cap e where
  rows_le : e.rows.size ≤ e.nodes.size
  row : ∀ (i : Nat) (x : σ) (row : List (α × Nat)), e.nodes[i]? = some x → e.rows[i]? = some row →
    List.Forall₂ e.Names row (successors x)
  reachable : ∀ x ∈ e.nodes, Reachable successors roots x

/-- Nodes keep their numbers, and rows and refusals are as before. -/
structure Grows (e e' : Exploration α σ) : Prop where
  nodes : ∀ (i : Nat) (x : σ), e.nodes[i]? = some x → e'.nodes[i]? = some x
  rows : e'.rows = e.rows

variable {successors : σ → List (α × σ)} {cap : Nat} {roots : List σ} {e e' f : Exploration α σ}
  {x y : σ}

theorem Grows.refl (e : Exploration α σ) : e.Grows e := ⟨fun _ _ h => h, rfl⟩

theorem Grows.trans (h : e.Grows e') (h' : e'.Grows f) : e.Grows f :=
  ⟨fun i x hx => h'.nodes i x (h.nodes i x hx), h'.rows.trans h.rows⟩

theorem Grows.mem (h : e.Grows e') (hx : x ∈ e.nodes) : x ∈ e'.nodes := by
  obtain ⟨i, hi⟩ := Array.mem_iff_getElem?.mp hx
  exact Array.mem_of_getElem? (h.nodes i x hi)

theorem Grows.size_le (h : e.Grows e') : e.nodes.size ≤ e'.nodes.size :=
  size_le_of_getElem? h.nodes

theorem Grows.names (h : e.Grows e') {row : List (α × Nat)} {ys : List (α × σ)}
    (hr : List.Forall₂ e.Names row ys) : List.Forall₂ e'.Names row ys :=
  hr.imp fun _ _ hn => ⟨hn.1, h.nodes _ _ hn.2⟩

theorem Grows.size_rows_addRow (h : e.Grows e') (row : List (α × Nat)) :
    (e'.addRow row).rows.size = e.rows.size + 1 := by
  show (e'.rows.push row).size = _
  rw [Array.size_push, h.rows]

/-- A row changes no numbers. -/
theorem Numbered.addRow (h : e.Numbered cap) (row : List (α × Nat)) : (e.addRow row).Numbered cap :=
  ⟨h.index_iff, h.size_le, h.reports_eq⟩

/-- Two places with one node are one place. -/
theorem Numbered.place_inj (h : e.Numbered cap) {i j : Nat} (hi : e.nodes[i]? = some x)
    (hj : e.nodes[j]? = some x) : i = j := by
  rw [← h.index_iff] at hi hj
  exact Option.some.inj (hi.symm.trans hj)

theorem Numbered.nodup (h : e.Numbered cap) : e.nodes.toList.Nodup := by
  rw [List.nodup_iff_injective_getElem]
  intro i j hij
  have hi : e.nodes[i.val]? = some e.nodes.toList[i.val] := by simp
  have hj : e.nodes[j.val]? = some e.nodes.toList[j.val] := by simp
  have hij : e.nodes.toList[i.val] = e.nodes.toList[j.val] := hij
  exact Fin.ext (h.place_inj hi (hij ▸ hj))

/-- Nodes that are new in `e'` can be reached, so the invariant is kept while rows stay as they
are. -/
theorem Explored.grow (h : Explored successors cap roots e) (hn : e'.Numbered cap)
    (hg : e.Grows e') (hm : ∀ y ∈ e'.nodes, y ∈ e.nodes ∨ Reachable successors roots y) :
    Explored successors cap roots e' where
  toNumbered := hn
  rows_le := by
    rw [hg.rows]
    exact Nat.le_trans h.rows_le hg.size_le
  row i x row hx hrow := by
    rw [hg.rows] at hrow
    have hi : i < e.nodes.size :=
      Nat.lt_of_lt_of_le (Array.getElem?_eq_some_iff.mp hrow).1 h.rows_le
    have he := Array.getElem?_eq_getElem hi
    have : e.nodes[i] = x := Option.some.inj ((hg.nodes i _ he).symm.trans hx)
    rw [this] at he
    exact hg.names (h.row i x row he hrow)
  reachable y hy := (hm y hy).elim (h.reachable y) id

/-- The row of the node that is expanded next. -/
theorem Explored.addRow (h : Explored successors cap roots e) {row : List (α × Nat)}
    (hx : e.nodes[e.rows.size]? = some x) (hr : List.Forall₂ e.Names row (successors x)) :
    Explored successors cap roots (e.addRow row) where
  toNumbered := h.toNumbered.addRow row
  rows_le := by
    show (e.rows.push row).size ≤ e.nodes.size
    rw [Array.size_push]
    exact (Array.getElem?_eq_some_iff.mp hx).1
  row i y row' hy hrow := by
    have hrow : (e.rows.push row)[i]? = some row' := hrow
    have hy : e.nodes[i]? = some y := hy
    show List.Forall₂ e.Names row' (successors y)
    rw [Array.getElem?_push] at hrow
    by_cases hi : i = e.rows.size
    · rw [if_pos hi] at hrow
      rw [hi, hx] at hy
      cases hy
      cases hrow
      exact hr
    · rw [if_neg hi] at hrow
      exact h.row i y row' hy hrow
  reachable := h.reachable

/-- How an exploration ends: with a row for each node, or with a node that can be reached and has no
number although all numbers are given. -/
structure Ended (successors : σ → List (α × σ)) (cap : Nat) (roots : List σ)
    (e : Exploration α σ) : Prop extends Explored successors cap roots e where
  complete : e.refused = false → e.rows.size = e.nodes.size ∧ ∀ r ∈ roots, r ∈ e.nodes
  short : e.refused = true → cap ≤ e.nodes.size ∧ ∃ x, Reachable successors roots x ∧ x ∉ e.nodes

/-! ## Rows -/

/-- Each successor stands in the row. -/
theorem exists_number {row : List (α × Nat)} {ys : List (α × σ)} (h : List.Forall₂ e.Names row ys)
    {a : α} (hy : (a, y) ∈ ys) : ∃ i, (a, i) ∈ row ∧ e.nodes[i]? = some y := by
  induction h with
  | nil => cases hy
  | cons hn _ ih =>
    rcases List.mem_cons.mp hy with rfl | hy
    · obtain ⟨ha, hi⟩ := hn
      exact ⟨_, List.mem_cons.mpr (Or.inl (Prod.ext ha.symm rfl)), hi⟩
    · obtain ⟨i, hi, hx⟩ := ih hy
      exact ⟨i, List.mem_cons_of_mem _ hi, hx⟩

/-- Only successors stand in the row. -/
theorem exists_successor {row : List (α × Nat)} {ys : List (α × σ)}
    (h : List.Forall₂ e.Names row ys) {a : α} {i : Nat} (hi : (a, i) ∈ row) :
    ∃ y, (a, y) ∈ ys ∧ e.nodes[i]? = some y := by
  induction h with
  | nil => cases hi
  | cons hn _ ih =>
    rcases List.mem_cons.mp hi with rfl | hi
    · obtain ⟨ha, hx⟩ := hn
      exact ⟨_, List.mem_cons.mpr (Or.inl (Prod.ext ha rfl)), hx⟩
    · obtain ⟨y, hy, hx⟩ := ih hi
      exact ⟨y, List.mem_cons_of_mem _ hy, hx⟩

/-- Each node has its row, in which its successors stand with their numbers. -/
theorem Ended.exists_row (h : Ended successors cap roots e) (hf : e.refused = false) {i : Nat}
    (hx : e.nodes[i]? = some x) :
    ∃ row, e.rows[i]? = some row ∧ List.Forall₂ e.Names row (successors x) := by
  have hi : i < e.rows.size := by
    rw [(h.complete hf).1]
    exact (Array.getElem?_eq_some_iff.mp hx).1
  exact ⟨_, Array.getElem?_eq_getElem hi, h.row i x _ hx (Array.getElem?_eq_getElem hi)⟩

theorem getElem?_table {i : Nat} {row : List (α × Nat)} :
    e.table[i]? = some (x, row) ↔ e.nodes[i]? = some x ∧ e.rows[i]? = some row := by
  unfold table
  rw [List.getElem?_zip_eq_some, Array.getElem?_toList, Array.getElem?_toList]

/-- An exploration that refuses no node numbers exactly the nodes that can be reached. -/
theorem Ended.mem_iff (h : Ended successors cap roots e) (hf : e.refused = false) :
    x ∈ e.nodes ↔ Reachable successors roots x := by
  refine ⟨h.reachable x, fun hx => ?_⟩
  obtain ⟨r, hr, hrx⟩ := hx
  induction hrx with
  | refl => exact (h.complete hf).2 r hr
  | tail hyz hs ih =>
    obtain ⟨a, ha⟩ := hs
    obtain ⟨i, hi⟩ := Array.mem_iff_getElem?.mp ih
    obtain ⟨row, -, hrow⟩ := h.exists_row hf hi
    obtain ⟨j, -, hj⟩ := exists_number hrow ha
    exact Array.mem_of_getElem? hj

/-! ## Numbering -/

/-- A node that is refused a number has none, and all numbers are given. -/
theorem number_none (h : e.Numbered cap) (hn : e.number cap x = (e', none)) :
    e'.Numbered cap ∧ e.Grows e' ∧ e'.nodes = e.nodes ∧ e'.refused = true ∧ x ∉ e'.nodes ∧
      cap ≤ e'.nodes.size := by
  obtain ⟨nodes, index, reports, rows, refused⟩ := e
  simp only [number] at hn
  split at hn
  · cases hn
  · rename_i hnone
    split at hn
    · cases hn
    · rename_i hlt
      cases hn
      refine ⟨⟨h.index_iff, h.size_le, h.reports_eq⟩, ⟨fun _ _ h => h, rfl⟩, rfl, rfl, fun hx => ?_,
        Nat.not_lt.mp hlt⟩
      obtain ⟨i, hi⟩ := Array.mem_iff_getElem?.mp hx
      have := (h.index_iff x i).mpr hi
      rw [hnone] at this
      cases this

variable [Std.TransOrd σ] [Std.LawfulEqOrd σ]

/-- The next free number goes to a node that has none. -/
theorem Numbered.push (h : e.Numbered cap) (hx : e.index[x]? = none) (hlt : e.nodes.size < cap) :
    (e.push x).Numbered cap where
  index_iff y j := by
    have hy := h.index_iff y j
    show (e.index.insert x e.nodes.size)[y]? = some j ↔ _
    rw [nodes_push, Std.TreeMap.getElem?_insert, Array.getElem?_push]
    by_cases hxy : x = y
    · subst hxy
      rw [if_pos Std.ReflOrd.compare_self]
      constructor
      · intro hj
        rw [if_pos (Option.some.inj hj).symm]
      · intro hj
        by_cases hlast : j = e.nodes.size
        · rw [hlast]
        · rw [if_neg hlast, ← hy, hx] at hj
          cases hj
    · rw [if_neg fun hc => hxy (Std.LawfulEqOrd.eq_of_compare hc), hy]
      by_cases hj : j = e.nodes.size
      · subst hj
        rw [if_pos rfl, Array.getElem?_eq_none (Nat.le_refl _)]
        constructor
        · intro hj
          cases hj
        · intro hj
          exact absurd (Option.some.inj hj) hxy
      · rw [if_neg hj]
  size_le := by
    rw [nodes_push, Array.size_push]
    exact hlt
  reports_eq := by
    show e.reports.push (e.nodes.size, x) = _
    rw [nodes_push, Array.mapIdx_push, h.reports_eq]

/-- A node that gets a number. -/
theorem number_some (h : e.Numbered cap) {i : Nat} (hn : e.number cap x = (e', some i)) :
    e'.Numbered cap ∧ e.Grows e' ∧ e'.refused = e.refused ∧ e'.nodes[i]? = some x ∧
      ∀ y ∈ e'.nodes, y ∈ e.nodes ∨ y = x := by
  obtain ⟨nodes, index, reports, rows, refused⟩ := e
  simp only [number] at hn
  split at hn
  · rename_i j hj
    cases hn
    exact ⟨h, .refl _, rfl, (h.index_iff x i).mp hj, fun y hy => Or.inl hy⟩
  · rename_i hnone
    split at hn
    · rename_i hlt
      cases hn
      refine ⟨h.push hnone hlt, ⟨fun _ _ => getElem?_push_of_some, rfl⟩, rfl, ?_,
        fun y hy => Array.mem_push.mp hy⟩
      rw [nodes_push, Array.getElem?_push, if_pos rfl]
    · cases hn

/-- Successors that all get numbers. -/
theorem numberAll_some {ys : List (α × σ)} : ∀ {e e' : Exploration α σ} {row : List (α × Nat)},
    e.Numbered cap → numberAll cap ys e = (e', some row) →
    e'.Numbered cap ∧ e.Grows e' ∧ e'.refused = e.refused ∧ List.Forall₂ e'.Names row ys ∧
      ∀ y ∈ e'.nodes, y ∈ e.nodes ∨ ∃ a, (a, y) ∈ ys := by
  induction ys with
  | nil =>
    intro e e' row h hn
    cases hn
    exact ⟨h, .refl _, rfl, .nil, fun y hy => Or.inl hy⟩
  | cons ax ys ih =>
    obtain ⟨a, x⟩ := ax
    intro e e' row h hn
    simp only [numberAll] at hn
    split at hn
    · cases hn
    · rename_i e₁ i h₁
      obtain ⟨hn₁, hg₁, hr₁, hi₁, hm₁⟩ := number_some h h₁
      split at hn
      · cases hn
      · rename_i e₂ row' h₂
        cases hn
        obtain ⟨hn₂, hg₂, hr₂, hrow, hm₂⟩ := ih hn₁ h₂
        refine ⟨hn₂, hg₁.trans hg₂, hr₂.trans hr₁, .cons ⟨rfl, hg₂.nodes i x hi₁⟩ hrow,
          fun y hy => ?_⟩
        rcases hm₂ y hy with hy | ⟨b, hb⟩
        · rcases hm₁ y hy with hy | rfl
          · exact Or.inl hy
          · exact Or.inr ⟨a, List.mem_cons_self⟩
        · exact Or.inr ⟨b, List.mem_cons_of_mem _ hb⟩

/-- Successors one of which is refused a number. -/
theorem numberAll_none {ys : List (α × σ)} : ∀ {e e' : Exploration α σ},
    e.Numbered cap → numberAll cap ys e = (e', none) →
    e'.Numbered cap ∧ e.Grows e' ∧ e'.refused = true ∧ cap ≤ e'.nodes.size ∧
      (∃ a y, (a, y) ∈ ys ∧ y ∉ e'.nodes) ∧ ∀ y ∈ e'.nodes, y ∈ e.nodes ∨ ∃ a, (a, y) ∈ ys := by
  induction ys with
  | nil =>
    intro e e' h hn
    cases hn
  | cons ax ys ih =>
    obtain ⟨a, x⟩ := ax
    intro e e' h hn
    simp only [numberAll] at hn
    split at hn
    · rename_i e₁ h₁
      cases hn
      obtain ⟨hn₁, hg₁, hnodes, href, hx, hcap⟩ := number_none h h₁
      exact ⟨hn₁, hg₁, href, hcap, ⟨a, x, List.mem_cons_self, hx⟩,
        fun y hy => Or.inl (hnodes ▸ hy)⟩
    · rename_i e₁ i h₁
      obtain ⟨hn₁, hg₁, hr₁, hi₁, hm₁⟩ := number_some h h₁
      split at hn
      · rename_i e₂ h₂
        cases hn
        obtain ⟨hn₂, hg₂, href, hcap, ⟨b, y, hb, hy⟩, hm₂⟩ := ih hn₁ h₂
        refine ⟨hn₂, hg₁.trans hg₂, href, hcap, ⟨b, y, List.mem_cons_of_mem _ hb, hy⟩,
          fun y hy => ?_⟩
        rcases hm₂ y hy with hy | ⟨c, hc⟩
        · rcases hm₁ y hy with hy | rfl
          · exact Or.inl hy
          · exact Or.inr ⟨a, List.mem_cons_self⟩
        · exact Or.inr ⟨c, List.mem_cons_of_mem _ hc⟩
      · cases hn

/-! ## Expanding -/

/-- Expanding the next node keeps the invariant. -/
theorem Explored.expanded (h : Explored successors cap roots e)
    (hx : e.nodes[e.rows.size]? = some x) {row : List (α × Nat)}
    (hn : numberAll cap (successors x) e = (e', some row)) :
    Explored successors cap roots (e'.addRow row) := by
  have hxr := h.reachable x (Array.mem_of_getElem? hx)
  obtain ⟨hn', hg, -, hrow, hm⟩ := numberAll_some h.toNumbered hn
  have h' := h.grow hn' hg fun z hz => (hm z hz).imp_right fun ⟨b, hb⟩ => hxr.step hb
  have hx' : e'.nodes[e'.rows.size]? = some x := by
    rw [hg.rows]
    exact hg.nodes _ _ hx
  exact h'.addRow hx' hrow

theorem ended_expand : ∀ (fuel : Nat) {e : Exploration α σ}, Explored successors cap roots e →
    (∀ r ∈ roots, r ∈ e.nodes) → e.refused = false → cap ≤ e.rows.size + fuel →
    Ended successors cap roots (expand successors cap fuel e)
  | 0, e, h, hroots, href, hfuel =>
    { h with
      complete := fun _ => ⟨Nat.le_antisymm h.rows_le (Nat.le_trans h.size_le hfuel), hroots⟩
      short := fun ht => absurd (ht.symm.trans href) Bool.noConfusion }
  | fuel + 1, e, h, hroots, href, hfuel => by
    simp only [expand]
    split
    · rename_i hnone
      exact { h with
        complete := fun _ =>
          ⟨Nat.le_antisymm h.rows_le (Array.getElem?_eq_none_iff.mp hnone), hroots⟩
        short := fun ht => absurd (ht.symm.trans href) Bool.noConfusion }
    · rename_i x hx
      have hxr := h.reachable x (Array.mem_of_getElem? hx)
      split
      · rename_i e' hn
        obtain ⟨hn', hg, href', hcap, ⟨a, y, hay, hy⟩, hm⟩ := numberAll_none h.toNumbered hn
        have h' := h.grow hn' hg fun z hz => (hm z hz).imp_right fun ⟨b, hb⟩ => hxr.step hb
        exact { h' with
          complete := fun hf => absurd (hf.symm.trans href') Bool.noConfusion
          short := fun _ => ⟨hcap, y, hxr.step hay, hy⟩ }
      · rename_i e' row hn
        obtain ⟨-, hg, href', -, -⟩ := numberAll_some h.toNumbered hn
        have hsize := hg.size_rows_addRow row
        exact ended_expand fuel (h.expanded hx hn) (fun r hr => hg.mem (hroots r hr))
          (href'.trans href) (by omega)

theorem ended_go : ∀ (rs : List σ) {e : Exploration α σ},
    (∀ r ∈ rs, r ∈ roots) → Explored successors cap roots e →
    (∀ r ∈ roots, r ∈ rs ∨ r ∈ e.nodes) → e.refused = false → e.rows.size = 0 →
    Ended successors cap roots (explore.go successors cap rs e)
  | [], e, _, h, hall, href, hrows =>
    ended_expand cap h (fun r hr => (hall r hr).resolve_left List.not_mem_nil) href (by omega)
  | x :: rs, e, hrs, h, hall, href, hrows => by
    have hx : x ∈ roots := hrs x List.mem_cons_self
    simp only [explore.go]
    split
    · rename_i e' hn
      obtain ⟨hn', hg, hnodes, href', hxn, hcap'⟩ := number_none h.toNumbered hn
      have h' := h.grow hn' hg fun z hz => Or.inl (hnodes ▸ hz)
      exact { h' with
        complete := fun hf => absurd (hf.symm.trans href') Bool.noConfusion
        short := fun _ => ⟨hcap', x, .root hx, hxn⟩ }
    · rename_i e' i hn
      obtain ⟨hn', hg, href', hi, hm⟩ := number_some h.toNumbered hn
      have h' := h.grow hn' hg fun z hz => (hm z hz).imp_right fun hzx => by
        rw [hzx]
        exact .root hx
      refine ended_go rs (fun r hr => hrs r (List.mem_cons_of_mem x hr)) h' (fun r hr => ?_)
        (href'.trans href) (by rw [hg.rows, hrows])
      rcases hall r hr with hr | hr
      · rcases List.mem_cons.mp hr with rfl | hr
        · exact Or.inr (Array.mem_of_getElem? hi)
        · exact Or.inl hr
      · exact Or.inr (hg.mem hr)

/-- Expanding leaves every node the number it has. -/
theorem nodes_expand : ∀ (fuel : Nat) {e : Exploration α σ}, e.Numbered cap →
    ∀ (i : Nat) (x : σ), e.nodes[i]? = some x →
      (expand successors cap fuel e).nodes[i]? = some x
  | 0, _, _, _, _, hx => hx
  | fuel + 1, e, h, i, x, hx => by
    simp only [expand]
    split
    · exact hx
    · split
      · rename_i e' hn
        obtain ⟨-, hg, -⟩ := numberAll_none h hn
        exact hg.nodes i x hx
      · rename_i e' row hn
        obtain ⟨hn', hg, -⟩ := numberAll_some h hn
        have h' := hn'.addRow row
        exact nodes_expand fuel h' i x (hg.nodes i x hx)

theorem nodes_go : ∀ (rs : List σ) {e : Exploration α σ}, e.Numbered cap →
    ∀ (i : Nat) (x : σ), e.nodes[i]? = some x →
      (explore.go successors cap rs e).nodes[i]? = some x
  | [], _, h, i, x, hx => nodes_expand cap h i x hx
  | r :: rs, e, h, i, x, hx => by
    simp only [explore.go]
    split
    · rename_i e' hn
      obtain ⟨-, hg, -⟩ := number_none h hn
      exact hg.nodes i x hx
    · rename_i e' j hn
      obtain ⟨hn', hg, -⟩ := number_some h hn
      exact nodes_go rs hn' i x (hg.nodes i x hx)

/-! ## The whole exploration -/

omit [Std.LawfulEqOrd σ] in
theorem numbered_empty : (empty : Exploration α σ).Numbered cap where
  index_iff x i := by
    unfold empty
    simp
  size_le := Nat.zero_le cap
  reports_eq := Array.mapIdx_empty.symm

omit [Std.LawfulEqOrd σ] in
theorem explored_empty : Explored successors cap roots (empty : Exploration α σ) :=
  { numbered_empty with
    rows_le := Nat.le_refl 0
    row := fun i x row hx => by simp [empty] at hx
    reachable := fun x hx => by simp [empty] at hx }

/-- An exploration ends as `Ended` says. -/
theorem ended_explore (successors : σ → List (α × σ)) (cap : Nat) (roots : List σ) :
    Ended successors cap roots (explore successors cap roots) :=
  ended_go roots (fun _ hr => hr) explored_empty (fun _ hr => Or.inl hr) rfl rfl

/-- The first root has the first number. -/
theorem nodes_explore_zero (successors : σ → List (α × σ)) (hcap : 0 < cap) (r : σ)
    (rs : List σ) : (explore successors cap (r :: rs)).nodes[0]? = some r := by
  unfold explore
  simp only [explore.go]
  have h : (empty : Exploration α σ).index[r]? = none := by simp [empty]
  split
  · rename_i e' hn
    obtain ⟨-, -, hnodes, -, -, hsize⟩ := number_none numbered_empty hn
    rw [hnodes] at hsize
    exact absurd hcap (Nat.not_lt.mpr hsize)
  · rename_i e' i hn
    obtain ⟨hn', -, -, hi, hm⟩ := number_some numbered_empty hn
    have hlt : 0 < e'.nodes.size :=
      Nat.lt_of_le_of_lt (Nat.zero_le i) (Array.getElem?_eq_some_iff.mp hi).1
    have hr : e'.nodes[0] = r :=
      (hm _ (Array.getElem_mem hlt)).resolve_left (by simp [empty])
    exact nodes_go rs hn' 0 r (by rw [Array.getElem?_eq_getElem hlt, hr])

/-- **Exactly the nodes that can be reached get numbers**, unless one is refused. -/
theorem mem_explore_iff (hf : (explore successors cap roots).refused = false) :
    x ∈ (explore successors cap roots).nodes ↔ Reachable successors roots x :=
  (ended_explore successors cap roots).mem_iff hf

/-- No number is refused where all that can be reached are numbers below `cap`. -/
theorem refused_explore_of_lt {successors : Nat → List (α × Nat)} {roots : List Nat}
    (h : ∀ i, Reachable successors roots i → i < cap) :
    (explore successors cap roots).refused = false := by
  have hend := ended_explore successors cap roots
  by_contra href
  rw [Bool.not_eq_false] at href
  obtain ⟨hcap, i, hi, hnot⟩ := hend.short href
  have hnodup : (i :: (explore successors cap roots).nodes.toList).Nodup :=
    List.nodup_cons.mpr ⟨fun hm => hnot (Array.mem_toList_iff.mp hm), hend.nodup⟩
  have hsub : i :: (explore successors cap roots).nodes.toList ⊆ List.range cap := by
    intro j hj
    rw [List.mem_range]
    rcases List.mem_cons.mp hj with rfl | hj
    · exact h j hi
    · exact h j (hend.reachable j (Array.mem_toList_iff.mp hj))
  have := hnodup.length_le_of_subset hsub
  rw [List.length_cons, List.length_range, Array.length_toList] at this
  omega

/-! ## Counting -/

/-- Without a refusal the nodes are as many as can be reached. -/
theorem size_explore (hf : (explore successors cap roots).refused = false) :
    (explore successors cap roots).nodes.size = {x | Reachable successors roots x}.ncard := by
  have hend := ended_explore successors cap roots
  have hset : {x | Reachable successors roots x} =
      ↑(⟨↑(explore successors cap roots).nodes.toList, hend.nodup⟩ : Finset σ) := by
    ext x
    show Reachable successors roots x ↔ x ∈ (explore successors cap roots).nodes.toList
    rw [Array.mem_toList_iff, hend.mem_iff hf]
  rw [hset, Set.ncard_coe_finset]
  rfl

/-- **A node is refused** exactly when more than `cap` nodes can be reached. -/
theorem refused_explore_iff (hfin : {x | Reachable successors roots x}.Finite) :
    (explore successors cap roots).refused = true ↔
      cap < {x | Reachable successors roots x}.ncard := by
  have hend := ended_explore successors cap roots
  constructor
  · intro href
    obtain ⟨hcap, x, hx, hnot⟩ := hend.short href
    have hnodup : (x :: (explore successors cap roots).nodes.toList).Nodup :=
      List.nodup_cons.mpr ⟨fun hm => hnot (Array.mem_toList_iff.mp hm), hend.nodup⟩
    have hsub : ↑(⟨↑(x :: (explore successors cap roots).nodes.toList), hnodup⟩ : Finset σ) ⊆
        {x | Reachable successors roots x} := by
      intro y hy
      rcases List.mem_cons.mp (show y ∈ x :: _ from hy) with rfl | hy
      · exact hx
      · exact hend.reachable y (Array.mem_toList_iff.mp hy)
    have hle := Set.ncard_le_ncard hsub hfin
    rw [Set.ncard_coe_finset] at hle
    have hcard : (x :: (explore successors cap roots).nodes.toList).length ≤
        {x | Reachable successors roots x}.ncard := hle
    rw [List.length_cons, Array.length_toList] at hcard
    omega
  · intro hlt
    by_contra hf
    rw [Bool.not_eq_true] at hf
    have := size_explore hf
    have := hend.size_le
    omega

end Exploration

end PatternAutomata
