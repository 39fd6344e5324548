import Mathlib.Logic.Function.Iterate
import Mathlib.Data.Fintype.Lattice
import Mathlib.Data.Nat.Find
import Mathlib.Data.Fintype.EquivFin
/-!
# RootedTree — trees given by their parents

A rooted tree is a map to parents under which the root is its own parent and every node comes to the root.  Two rules of
induction: from the root down, along each node's way to it, and, in a finite tree, from the leaves up.
-/
namespace OsLab

structure RootedTree (V : Type*) where
  parent : V → V
  root : V
  parent_root : parent root = root
  reaches : ∀ v, ∃ k, parent^[k] v = root

namespace RootedTree

variable {V : Type*} (T : RootedTree V) {P : V → Prop} {v : V}

/-- Only the root is its own parent. -/
theorem eq_root_of_fixed (h : T.parent v = v) : v = T.root := by
  obtain ⟨k, hk⟩ := T.reaches v
  rw [Function.iterate_fixed h] at hk
  exact hk

theorem ne_parent (h : v ≠ T.root) : T.parent v ≠ v := fun hv => h (T.eq_root_of_fixed hv)

open Classical in
/-- The number of steps to the root. -/
noncomputable def depth (v : V) : ℕ := Nat.find (T.reaches v)

theorem depth_parent (h : v ≠ T.root) : T.depth (T.parent v) < T.depth v := by
  classical
  have hv := Nat.find_spec (T.reaches v)
  obtain ⟨k, hk⟩ : ∃ k, Nat.find (T.reaches v) = k + 1 := by
    refine Nat.exists_eq_succ_of_ne_zero (fun h0 => h ?_)
    rw [h0] at hv
    exact hv
  rw [hk, Function.iterate_succ_apply] at hv
  show Nat.find (T.reaches (T.parent v)) < Nat.find (T.reaches v)
  rw [hk]
  exact Nat.lt_succ_of_le (Nat.find_min' _ hv)

/-- **Induction from the root down.** -/
theorem down (hroot : P T.root) (hstep : ∀ v, v ≠ T.root → P (T.parent v) → P v) (v : V) : P v := by
  obtain ⟨k, hk⟩ := T.reaches v
  induction k generalizing v with
  | zero => exact (show v = T.root from hk) ▸ hroot
  | succ k ih =>
    by_cases hv : v = T.root
    · rw [hv]; exact hroot
    · exact hstep v hv (ih (T.parent v) hk)

/-- **Induction from the leaves up.** -/
theorem up [Finite V] (hstep : ∀ v, (∀ c, c ≠ T.root → T.parent c = v → P c) → P v) (v : V) : P v := by
  by_contra hv
  have : Nonempty { u : V // ¬ P u } := ⟨v, hv⟩
  -- a deepest node without the property
  obtain ⟨⟨u, hu⟩, hmax⟩ := Finite.exists_max (fun u : { u : V // ¬ P u } => T.depth u.1)
  refine hu (hstep u (fun c hc hcu => ?_))
  by_contra hPc
  have hle := hmax ⟨c, hPc⟩
  have hlt := T.depth_parent hc
  rw [hcu] at hlt
  exact absurd hlt (Nat.not_lt.2 hle)

end RootedTree

/-- **Parents of a smaller rank make a tree.** -/
def RootedTree.ofRank {V : Type*} (parent : V → V) (root : V) (rank : V → ℕ) (hroot : parent root = root)
    (hrank : ∀ v, v ≠ root → rank (parent v) < rank v) : RootedTree V where
  parent := parent
  root := root
  parent_root := hroot
  reaches v := by
    induction hk : rank v using Nat.strong_induction_on generalizing v with
    | _ k ih =>
      by_cases hv : v = root
      · exact ⟨0, hv⟩
      · obtain ⟨m, hm⟩ := ih (rank (parent v)) (hk ▸ hrank v hv) (parent v) rfl
        exact ⟨m + 1, hm⟩

end OsLab
