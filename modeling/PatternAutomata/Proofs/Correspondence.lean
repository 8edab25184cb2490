import PatternAutomata.Proofs.Exploration

/-!
# Explorations in step

About two runs of one worklist: that of `from_graph` (in `automaton`) on renumbered graphs, that of
`build_dfa` (in `dfa`) on its own result or with another limit.

When the nodes of one exploration correspond to those of another, and so do the successors of nodes
that correspond, the two number their nodes in the same order. It does not matter how the edges are
labelled, whether a successor that was just met is listed again, or how large the caps are, as long
as no node is refused.

Results:
* `Exploration.expandNext_inStep`: one expansion keeps two explorations in step;
* **`Exploration.explore_inStep`**: explorations of corresponding nodes number them in the same
  order;
* `Exploration.explore_inStep_cap`: a larger cap changes nothing where no node is refused.
-/

namespace PatternAutomata

namespace Exploration

/-- The second list has the images of the members of the first, in order; a member that is repeated
right away may have one image for all its repeats. -/
inductive Follows {σ τ : Type} (φ : σ → τ) : List σ → List τ → Prop
  | nil : Follows φ [] []
  | cons {x : σ} {xs : List σ} {ys : List τ} : Follows φ xs ys → Follows φ (x :: xs) (φ x :: ys)
  | again {x : σ} {xs : List σ} {ys : List τ} :
    Follows φ (x :: xs) ys → Follows φ (x :: x :: xs) ys

theorem follows_map {σ τ : Type} (φ : σ → τ) : ∀ xs : List σ, Follows φ xs (xs.map φ)
  | [] => .nil
  | _ :: xs => .cons (follows_map φ xs)

/-- Successors with new labels, each replaced by its image. -/
theorem follows_relabel {α β σ τ : Type} (φ : σ → τ) (label : α → β) (ps : List (α × σ)) :
    Follows φ (ps.map Prod.snd) ((ps.map fun p => (label p.1, φ p.2)).map Prod.snd) := by
  have h := follows_map φ (ps.map Prod.snd)
  rw [List.map_map] at h ⊢
  exact h

theorem follows_self {σ : Type} (xs : List σ) : Follows id xs xs := by
  have h := follows_map id xs
  rwa [List.map_id] at h

theorem Follows.mem_iff {σ : Type} {xs ys : List σ} {y : σ} (h : Follows id xs ys) :
    y ∈ xs ↔ y ∈ ys := by
  induction h with
  | nil => exact Iff.rfl
  | cons _ ih => rw [List.mem_cons, List.mem_cons, ih, id]
  | again _ ih =>
    rw [List.mem_cons, ih, or_iff_right_of_imp]
    rintro rfl
    exact ih.mp List.mem_cons_self

/-- What can be reached does not depend on labels and repeats. -/
theorem reachable_iff_of_follows {α β σ : Type} {successors : σ → List (α × σ)}
    {successors' : σ → List (β × σ)} {roots : List σ} {x : σ}
    (h : ∀ y, Follows id ((successors y).map Prod.snd) ((successors' y).map Prod.snd)) :
    Reachable successors roots x ↔ Reachable successors' roots x := by
  have hsteps : (fun y z => ∃ a, (a, z) ∈ successors y) =
      fun y z => ∃ b, (b, z) ∈ successors' y := by
    funext y z
    have hmem := (h y).mem_iff (y := z)
    simp only [List.mem_map, Prod.exists, exists_eq_right] at hmem
    exact propext hmem
  unfold Reachable
  rw [hsteps]

variable {α β σ τ : Type} [Ord σ] [Ord τ]

/-- The second exploration has numbered the images of the nodes of the first, and expanded as
many. -/
structure InStep (φ : σ → τ) (e : Exploration α σ) (f : Exploration β τ) : Prop where
  nodes : f.nodes = e.nodes.map φ
  rows : f.rows.size = e.rows.size
  refused : f.refused = e.refused

variable {φ : σ → τ} {successors : σ → List (α × σ)} {successors' : τ → List (β × τ)}
  {cap cap' : Nat} {roots : List σ} {e e' : Exploration α σ} {f : Exploration β τ} {x : σ}

theorem InStep.getElem? (h : InStep φ e f) (i : Nat) : f.nodes[i]? = e.nodes[i]?.map φ := by
  rw [h.nodes, Array.getElem?_map]

theorem InStep.size_eq (h : InStep φ e f) : f.nodes.size = e.nodes.size := by
  rw [h.nodes, Array.size_map]

theorem InStep.addRow (h : InStep φ e f) (row : List (α × Nat)) (row' : List (β × Nat)) :
    InStep φ (e.addRow row) (f.addRow row') where
  nodes := h.nodes
  rows := by
    show (f.rows.push row').size = (e.rows.push row).size
    rw [Array.size_push, Array.size_push, h.rows]
  refused := h.refused

/-- A node that has its number keeps it. -/
theorem number_of_getElem? (h : e.Numbered cap) {i : Nat} (hx : e.nodes[i]? = some x) :
    e.number cap x = (e, some i) := by
  obtain ⟨nodes, index, reports, rows, refused⟩ := e
  have hi : index[x]? = some i := (h.index_iff x i).mpr hx
  simp only [number, hi]

/-- A node without a number gets the next one while there is one left. -/
theorem number_of_notMem (h : e.Numbered cap) (hx : x ∉ e.nodes) (hlt : e.nodes.size < cap) :
    e.number cap x =
      (e.push x, some e.nodes.size) := by
  obtain ⟨nodes, index, reports, rows, refused⟩ := e
  have hi : index[x]? = none := by
    rw [Option.eq_none_iff_forall_ne_some]
    intro i hi
    exact hx (Array.mem_of_getElem? ((h.index_iff x i).mp hi))
  simp only [number, hi]
  exact if_pos hlt

/-- A node that gets a number has it already, or it is the next free one. -/
theorem number_some_cases (h : e.Numbered cap) {i : Nat} (hn : e.number cap x = (e', some i)) :
    e.nodes[i]? = some x ∧ e' = e ∨
      x ∉ e.nodes ∧ i = e.nodes.size ∧
        e' = e.push x := by
  by_cases hx : x ∈ e.nodes
  · obtain ⟨j, hj⟩ := Array.mem_iff_getElem?.mp hx
    rw [number_of_getElem? h hj] at hn
    cases hn
    exact Or.inl ⟨hj, rfl⟩
  · obtain ⟨nodes, index, reports, rows, refused⟩ := e
    simp only [number] at hn
    split at hn
    · rename_i j hj
      exact absurd (Array.mem_of_getElem? ((h.index_iff x j).mp hj)) hx
    · split at hn
      · cases hn
        exact Or.inr ⟨hx, rfl, rfl⟩
      · cases hn

/-- A node and its image get the same number. -/
theorem number_inStep (he : e.Numbered cap) (hf : f.Numbered cap') (h : InStep φ e f)
    (hinj : ∀ y ∈ e.nodes, φ y = φ x → y = x) {i : Nat} (hn : e.number cap x = (e', some i))
    (hcap : e'.nodes.size ≤ cap') :
    ∃ f', f.number cap' (φ x) = (f', some i) ∧ InStep φ e' f' := by
  rcases number_some_cases he hn with ⟨hx, rfl⟩ | ⟨hx, rfl, rfl⟩
  · refine ⟨f, number_of_getElem? hf ?_, h⟩
    rw [h.getElem?, hx]
    rfl
  · have hφ : φ x ∉ f.nodes := by
      rw [h.nodes, Array.mem_map]
      rintro ⟨y, hy, hyx⟩
      exact hx (hinj y hy hyx ▸ hy)
    rw [nodes_push, Array.size_push, ← h.size_eq] at hcap
    rw [← h.size_eq]
    refine ⟨_, number_of_notMem hf hφ hcap, ?_, h.rows, h.refused⟩
    show f.nodes.push (φ x) = (e.nodes.push x).map φ
    rw [h.nodes, Array.map_push]

variable [Std.TransOrd σ] [Std.LawfulEqOrd σ] [Std.TransOrd τ] [Std.LawfulEqOrd τ]

omit [Std.TransOrd τ] [Std.LawfulEqOrd τ] in
/-- A successor that is listed again right away makes no difference. -/
theorem numberAll_again (h : e.Numbered cap) {a b : α} {as : List (α × σ)} {row : List (α × Nat)}
    (hn : numberAll cap ((a, x) :: (b, x) :: as) e = (e', some row)) :
    ∃ row', numberAll cap ((b, x) :: as) e = (e', some row') := by
  cases h₁ : e.number cap x with
  | mk e₁ i =>
    cases i with
    | none =>
      simp only [numberAll, h₁] at hn
      cases hn
    | some i =>
      obtain ⟨he₁, -, -, hi, -⟩ := number_some h h₁
      simp only [numberAll, h₁, number_of_getElem? he₁ hi] at hn ⊢
      cases h₂ : numberAll cap as e₁ with
      | mk e₂ row₂ =>
        rw [h₂] at hn
        cases row₂ with
        | none => cases hn
        | some row₂ =>
          cases hn
          exact ⟨_, rfl⟩

/-- Successors that correspond are numbered in step. -/
theorem numberAll_inStep {xs : List σ} {ys : List τ} (hv : Follows φ xs ys) :
    ∀ {as : List (α × σ)} {bs : List (β × τ)} {e e' : Exploration α σ} {f : Exploration β τ}
      {row : List (α × Nat)}, as.map Prod.snd = xs → bs.map Prod.snd = ys →
      e.Numbered cap → f.Numbered cap' → InStep φ e f →
      (∀ y, y ∈ e.nodes ∨ y ∈ xs → ∀ x ∈ xs, φ y = φ x → y = x) →
      numberAll cap as e = (e', some row) → e'.nodes.size ≤ cap' →
        ∃ f' row', numberAll cap' bs f = (f', some row') ∧ InStep φ e' f' := by
  induction hv with
  | nil =>
    intro as bs e e' f row has hbs he hf h hinj hn hcap
    rw [List.map_eq_nil_iff] at has hbs
    subst has hbs
    cases hn
    exact ⟨f, [], rfl, h⟩
  | @cons x xs ys hv ih =>
    intro as bs e e' f row has hbs he hf h hinj hn hcap
    obtain ⟨⟨a, _⟩, as, rfl, rfl, rfl⟩ := List.map_eq_cons_iff.mp has
    obtain ⟨⟨b, _⟩, bs, rfl, hb, rfl⟩ := List.map_eq_cons_iff.mp hbs
    obtain rfl := hb
    simp only [numberAll] at hn
    split at hn
    · cases hn
    · rename_i e₁ i h₁
      obtain ⟨he₁, -, -, -, hm⟩ := number_some he h₁
      split at hn
      · cases hn
      · rename_i e₂ row' h₂
        cases hn
        obtain ⟨-, hg, -⟩ := numberAll_some he₁ h₂
        obtain ⟨f₁, hf₁, hs₁⟩ := number_inStep he hf h
          (fun y hy hyx => hinj y (Or.inl hy) _ List.mem_cons_self hyx) h₁
          (Nat.le_trans hg.size_le hcap)
        obtain ⟨hf₁', -⟩ := number_some hf hf₁
        -- the node just numbered is a successor as well, so it is still told apart from the others
        obtain ⟨f₂, row₂, hf₂, hs₂⟩ := ih rfl rfl he₁ hf₁' hs₁ (fun y hy z hz hyz => by
          refine hinj y ?_ z (List.mem_cons_of_mem _ hz) hyz
          rcases hy with hy | hy
          · refine (hm y hy).imp_right fun hyx => ?_
            rw [hyx]
            exact List.mem_cons_self
          · exact Or.inr (List.mem_cons_of_mem _ hy)) h₂ hcap
        refine ⟨f₂, (b, i) :: row₂, ?_, hs₂⟩
        simp only [numberAll, hf₁, hf₂]
  | @again x xs ys hv ih =>
    intro as bs e e' f row has hbs he hf h hinj hn hcap
    obtain ⟨⟨a, _⟩, as, rfl, rfl, has⟩ := List.map_eq_cons_iff.mp has
    obtain ⟨⟨b, _⟩, as, rfl, hb, rfl⟩ := List.map_eq_cons_iff.mp has
    obtain rfl := hb
    obtain ⟨row', hn'⟩ := numberAll_again he hn
    refine ih rfl hbs he hf h (fun y hy z hz => ?_) hn' hcap
    exact hinj y (hy.imp_right (List.mem_cons_of_mem _)) z (List.mem_cons_of_mem _ hz)

/-! ## Whole explorations -/

omit [Std.TransOrd σ] [Std.LawfulEqOrd σ] in
/-- When every node has its row, nothing is left to expand. -/
theorem expand_of_size_eq (h : e.rows.size = e.nodes.size) (fuel : Nat) :
    expand successors cap fuel e = e := by
  cases fuel with
  | zero => rfl
  | succ fuel =>
    have hnone : e.nodes[e.rows.size]? = none := Array.getElem?_eq_none (Nat.le_of_eq h.symm)
    simp only [expand, hnone]

theorem size_le_expand (successors : σ → List (α × σ)) (h : e.Numbered cap) (fuel : Nat) :
    e.nodes.size ≤ (expand successors cap fuel e).nodes.size :=
  size_le_of_getElem? (nodes_expand fuel h)

/-- One expansion: the successors of the next node and of its image are numbered in step. -/
theorem expandNext_inStep
    (hinj : ∀ x y, Reachable successors roots x → Reachable successors roots y →
      φ x = φ y → x = y)
    (hsucc : ∀ x, Reachable successors roots x →
      Follows φ ((successors x).map Prod.snd) ((successors' (φ x)).map Prod.snd))
    (he : Explored successors cap roots e) (hf : f.Numbered cap') (h : InStep φ e f)
    (hx : e.nodes[e.rows.size]? = some x) {row : List (α × Nat)}
    (hn : numberAll cap (successors x) e = (e', some row)) (hcap : e'.nodes.size ≤ cap') :
    ∃ f' row', f.nodes[f.rows.size]? = some (φ x) ∧
      numberAll cap' (successors' (φ x)) f = (f', some row') ∧
      (f'.addRow row').Numbered cap' ∧ InStep φ (e'.addRow row) (f'.addRow row') := by
  have hxr := he.reachable x (Array.mem_of_getElem? hx)
  have reach : ∀ y ∈ (successors x).map Prod.snd, Reachable successors roots y := by
    intro y hy
    obtain ⟨⟨a, z⟩, hz, rfl⟩ := List.mem_map.mp hy
    exact hxr.step hz
  obtain ⟨f', row', hn', h'⟩ := numberAll_inStep (hsucc x hxr) rfl rfl he.toNumbered hf h
    (fun y hy z hz => hinj y z (hy.elim (he.reachable y) (reach y)) (reach z hz)) hn hcap
  obtain ⟨hf', -⟩ := numberAll_some hf hn'
  refine ⟨f', row', ?_, hn', hf'.addRow row', h'.addRow row row'⟩
  rw [h.rows, h.getElem?, hx]
  rfl

/-- Corresponding nodes are expanded in step, as long as the fuel and the cap of the second
exploration suffice for what the first one numbers in the end. -/
theorem expand_inStep
    (hinj : ∀ x y, Reachable successors roots x → Reachable successors roots y →
      φ x = φ y → x = y)
    (hsucc : ∀ x, Reachable successors roots x →
      Follows φ ((successors x).map Prod.snd) ((successors' (φ x)).map Prod.snd)) :
    ∀ (fuel fuel' : Nat) {e : Exploration α σ} {f : Exploration β τ},
      Explored successors cap roots e → f.Numbered cap' → InStep φ e f →
      (expand successors cap fuel e).refused = false →
      (expand successors cap fuel e).rows.size = (expand successors cap fuel e).nodes.size →
      (expand successors cap fuel e).nodes.size ≤ cap' →
      (expand successors cap fuel e).nodes.size ≤ e.rows.size + fuel' →
        InStep φ (expand successors cap fuel e) (expand successors' cap' fuel' f)
  | 0, fuel', e, f, _, _, h, _, hdone, _, _ => by
    have hdone' : f.rows.size = f.nodes.size := by rw [h.rows, h.size_eq]; exact hdone
    rw [expand_of_size_eq hdone']
    exact h
  | fuel + 1, fuel', e, f, he, hf, h, href, hdone, hcap, hfuel => by
    have hle := size_le_expand successors he.toNumbered (fuel + 1)
    cases hx : e.nodes[e.rows.size]? with
    | none =>
      have hsize := Nat.le_antisymm he.rows_le (Array.getElem?_eq_none_iff.mp hx)
      have hsize' : f.rows.size = f.nodes.size := by rw [h.rows, h.size_eq, hsize]
      rw [expand_of_size_eq hsize, expand_of_size_eq hsize']
      exact h
    | some x =>
      -- the next node is numbered and has no row, so the second exploration has fuel for it
      have hlt := (Array.getElem?_eq_some_iff.mp hx).1
      cases fuel' with
      | zero => omega
      | succ fuel' =>
        simp only [expand, hx] at href hdone hcap hfuel ⊢
        cases hn : numberAll cap (successors x) e with
        | mk e₁ row =>
          cases row with
          | none =>
            obtain ⟨-, -, href₁, -⟩ := numberAll_none he.toNumbered hn
            simp only [hn] at href
            exact absurd (href.symm.trans href₁) Bool.noConfusion
          | some row =>
            simp only [hn] at href hdone hcap hfuel ⊢
            obtain ⟨-, hg, -⟩ := numberAll_some he.toNumbered hn
            have he₁ := he.expanded hx hn
            have hsize := hg.size_rows_addRow row
            have hcap₁ : e₁.nodes.size ≤ cap' :=
              Nat.le_trans (size_le_expand successors he₁.toNumbered fuel) hcap
            obtain ⟨f₁, row', hx', hn', hf₁, h₁⟩ :=
              expandNext_inStep hinj hsucc he hf h hx hn hcap₁
            simp only [hx', hn']
            exact expand_inStep hinj hsucc fuel fuel' he₁ hf₁ h₁ href hdone hcap (by omega)

theorem go_inStep
    (hinj : ∀ x y, Reachable successors roots x → Reachable successors roots y →
      φ x = φ y → x = y)
    (hsucc : ∀ x, Reachable successors roots x →
      Follows φ ((successors x).map Prod.snd) ((successors' (φ x)).map Prod.snd)) :
    ∀ (rs : List σ) {e : Exploration α σ} {f : Exploration β τ}, (∀ r ∈ rs, r ∈ roots) →
      Explored successors cap roots e → f.Numbered cap' → InStep φ e f →
      (explore.go successors cap rs e).refused = false →
      (explore.go successors cap rs e).rows.size = (explore.go successors cap rs e).nodes.size →
      (explore.go successors cap rs e).nodes.size ≤ cap' →
        InStep φ (explore.go successors cap rs e) (explore.go successors' cap' (rs.map φ) f)
  | [], e, f, _, he, hf, h, href, hdone, hcap =>
    expand_inStep hinj hsucc cap cap' he hf h href hdone hcap (Nat.le_add_left_of_le hcap)
  | x :: rs, e, f, hrs, he, hf, h, href, hdone, hcap => by
    have hx : x ∈ roots := hrs x List.mem_cons_self
    simp only [explore.go, List.map_cons] at href hdone hcap ⊢
    cases hn : e.number cap x with
    | mk e₁ i =>
      cases i with
      | none =>
        obtain ⟨-, -, -, href₁, -⟩ := number_none he.toNumbered hn
        simp only [hn] at href
        exact absurd (href.symm.trans href₁) Bool.noConfusion
      | some i =>
        simp only [hn] at href hdone hcap ⊢
        obtain ⟨he₁, hg, -, -, hm⟩ := number_some he.toNumbered hn
        have he₁' := he.grow he₁ hg fun z hz => (hm z hz).imp_right fun hzx => by
          rw [hzx]
          exact .root hx
        have hcap₁ : e₁.nodes.size ≤ cap' :=
          Nat.le_trans (size_le_of_getElem? (nodes_go rs he₁)) hcap
        obtain ⟨f₁, hn', h₁⟩ := number_inStep he.toNumbered hf h
          (fun y hy => hinj y x (he.reachable y hy) (.root hx)) hn hcap₁
        obtain ⟨hf₁, -⟩ := number_some hf hn'
        simp only [hn']
        exact go_inStep hinj hsucc rs (fun r hr => hrs r (List.mem_cons_of_mem x hr)) he₁' hf₁ h₁
          href hdone hcap

/-- **Explorations in step**: when corresponding nodes have corresponding successors, a second
exploration numbers the images of the nodes of the first in the same order, whatever the caps, as
long as they leave room for all nodes. -/
theorem explore_inStep
    (hinj : ∀ x y, Reachable successors roots x → Reachable successors roots y →
      φ x = φ y → x = y)
    (hsucc : ∀ x, Reachable successors roots x →
      Follows φ ((successors x).map Prod.snd) ((successors' (φ x)).map Prod.snd))
    (href : (explore successors cap roots).refused = false)
    (hcap : (explore successors cap roots).nodes.size ≤ cap') :
    InStep φ (explore successors cap roots) (explore successors' cap' (roots.map φ)) := by
  have hend := ended_explore successors cap roots
  have hstart : InStep φ (empty : Exploration α σ) (empty : Exploration β τ) :=
    ⟨Array.map_empty.symm, rfl, rfl⟩
  exact go_inStep hinj hsucc roots (fun _ hr => hr) explored_empty numbered_empty hstart href
    (hend.complete href).1 hcap

/-- A larger cap makes no difference. -/
theorem explore_inStep_cap (href : (explore successors cap roots).refused = false)
    (hcap : (explore successors cap roots).nodes.size ≤ cap') :
    InStep id (explore successors cap roots) (explore successors cap' roots) := by
  have h : InStep id (explore successors cap roots) (explore successors cap' (roots.map id)) :=
    explore_inStep (fun _ _ _ _ h => h) (fun x _ => follows_self _) href hcap
  rwa [List.map_id] at h

end Exploration

end PatternAutomata
