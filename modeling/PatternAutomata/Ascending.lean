import Std.Data.TreeSet

/-!
# Strictly ascending lists

Model of the ordered sets of the program: the characters that `exclude_set` keeps and the states
that `epsilon_closure` returns (in `automaton`), and the sets by which the subset construction knows
its states (in `dfa`).

`Ascending α` is a finite set of `α` kept as the list of its members in strictly ascending order.
Sets of characters excluded by an edge and sets of automaton states are kept this way: the list is
canonical, so equality of sets is equality of lists, and the order of the members is the order in
which they are written out.

Results:
* `Ascending.mem_ofList`: `ofList` keeps exactly the members of the list it is given;
* **`Ascending.ext_mem`**: two sets with the same members are equal.

Out of scope: how such a set is stored, and taking members out.
-/

namespace PatternAutomata

/-- A finite set, as the list of its members in strictly ascending order. -/
structure Ascending (α : Type) [Ord α] where
  toList : List α
  ascending : toList.Pairwise fun a b => compare a b = .lt
deriving DecidableEq

namespace Ascending

variable {α : Type} [Ord α]

instance : Ord (Ascending α) := ⟨fun s t => compare s.toList t.toList⟩

instance : Membership α (Ascending α) := ⟨fun s x => x ∈ s.toList⟩

theorem mem_iff {s : Ascending α} {x : α} : x ∈ s ↔ x ∈ s.toList := Iff.rfl

variable [Std.TransOrd α]

/-- The set of the members of `xs`: sorted, repeats dropped. -/
def ofList (xs : List α) : Ascending α :=
  ⟨(Std.TreeSet.ofList xs compare).toList, Std.TreeSet.ordered_toList⟩

instance : Inhabited (Ascending α) := ⟨ofList []⟩

variable [DecidableEq α] [Std.LawfulEqOrd α]

theorem mem_ofList {xs : List α} {x : α} : x ∈ ofList xs ↔ x ∈ xs := by
  simp [mem_iff, ofList, Std.TreeSet.mem_toList, Std.TreeSet.mem_ofList]

omit [DecidableEq α] in
theorem toList_eq_of_mem_iff :
    ∀ {xs ys : List α}, xs.Pairwise (fun a b => compare a b = .lt) →
      ys.Pairwise (fun a b => compare a b = .lt) → (∀ x, x ∈ xs ↔ x ∈ ys) → xs = ys
  | [], [], _, _, _ => rfl
  | [], y :: _, _, _, h => absurd ((h y).mpr List.mem_cons_self) List.not_mem_nil
  | x :: _, [], _, _, h => absurd ((h x).mp List.mem_cons_self) List.not_mem_nil
  | x :: xs, y :: ys, hx, hy, h => by
    obtain ⟨hx, hxs⟩ := List.pairwise_cons.mp hx
    obtain ⟨hy, hys⟩ := List.pairwise_cons.mp hy
    have hxy : x = y := by
      rcases List.mem_cons.mp ((h x).mp List.mem_cons_self) with e | m
      · exact e
      rcases List.mem_cons.mp ((h y).mpr List.mem_cons_self) with e | m'
      · exact e.symm
      have := Std.OrientedCmp.gt_of_lt (hy x m)
      rw [hx y m'] at this
      cases this
    subst hxy
    refine congrArg (x :: ·) (toList_eq_of_mem_iff hxs hys fun z => ⟨fun m => ?_, fun m => ?_⟩)
    · rcases List.mem_cons.mp ((h z).mp (List.mem_cons_of_mem _ m)) with rfl | m'
      · exact absurd (hx z m) (by simp)
      · exact m'
    · rcases List.mem_cons.mp ((h z).mpr (List.mem_cons_of_mem _ m)) with rfl | m'
      · exact absurd (hy z m) (by simp)
      · exact m'

omit [DecidableEq α] in
/-- **Extensionality**: two sets with the same members are equal. -/
theorem ext_mem {s t : Ascending α} (h : ∀ x, x ∈ s ↔ x ∈ t) : s = t := by
  cases s with
  | mk xs hx =>
    cases t with
    | mk ys hy =>
      have : xs = ys := toList_eq_of_mem_iff hx hy h
      subst this
      rfl

instance : Std.TransOrd (Ascending α) where
  eq_swap := Std.OrientedCmp.eq_swap (α := List α)
  isLE_trans := Std.TransCmp.isLE_trans (α := List α)

instance : Std.LawfulEqOrd (Ascending α) where
  compare_self := Std.ReflCmp.compare_self (α := List α)
  eq_of_compare {s t} h := by
    have : s.toList = t.toList := Std.LawfulEqCmp.eq_of_compare (α := List α) h
    cases s
    cases t
    congr

end Ascending

end PatternAutomata
