import Mathlib.Order.WellFounded
import Mathlib.Data.Fintype.Card
import Mathlib.Data.Fintype.EquivFin
import Mathlib.Logic.Relation
/-!
# TopoOrder — topological orders, built one place at a time

`Ordered E T m`: the first `m` places of `T` hold different vertices, each after its predecessors.  One more vertex may
be placed when its predecessors are (`Ordered.snoc`).  Where no cycle is, a first vertex without a property exists; what a
cycle leads to always has a predecessor of the kind (`Doomed`), so it is never placed.
-/
namespace OsLab

open Relation

variable {V : Type*} {E : V → V → Prop}

def Acyclic (E : V → V → Prop) : Prop := ∀ v, ¬ TransGen E v v

/-- Edges that all go forward make no cycle. -/
theorem acyclic_of_rank (rank : V → ℕ) (h : ∀ u v, E u v → rank u < rank v) : Acyclic E := fun v hv => by
  have hlt : TransGen (· < ·) (rank v) (rank v) := hv.lift rank h
  rw [transGen_eq_self] at hlt
  exact Nat.lt_irrefl _ hlt

/-- The vertex lies on a cycle or is reachable from one. -/
def Doomed (E : V → V → Prop) (v : V) : Prop := ∃ c, TransGen E c c ∧ ReflTransGen E c v

theorem Doomed.pred {v : V} (h : Doomed E v) : ∃ u, E u v ∧ Doomed E u := by
  obtain ⟨c, hcycle, hcv⟩ := h
  rcases ReflTransGen.cases_tail hcv with rfl | ⟨u, hcu, huv⟩
  · obtain ⟨u, hcu, huv⟩ := TransGen.tail'_iff.1 hcycle
    exact ⟨u, huv, v, hcycle, hcu⟩
  · exact ⟨u, huv, c, hcycle, hcu⟩

/-- **Where no cycle is**, one of the vertices with a property comes before the others. -/
theorem Acyclic.exists_first [Finite V] (h : Acyclic E) {P : V → Prop} (hP : ∃ v, P v) :
    ∃ v, P v ∧ ∀ u, E u v → ¬ P u := by
  have : Std.Irrefl (TransGen E) := ⟨h⟩
  have hwf : WellFounded (TransGen E) := Finite.wellFounded_of_trans_of_irrefl _
  obtain ⟨v, hv, hmin⟩ := hwf.has_min { v | P v } hP
  exact ⟨v, hv, fun u hu hPu => hmin u hPu (TransGen.single hu)⟩

/-- The first `m` places of `T` are a topological order of the vertices they hold. -/
structure Ordered (E : V → V → Prop) (T : ℕ → Option V) (m : ℕ) : Prop where
  filled : ∀ k < m, ∃ v, T k = some v
  distinct : ∀ k < m, ∀ l < m, T k = T l → k = l
  preds : ∀ k < m, ∀ v, T k = some v → ∀ u, E u v → ∃ j < k, T j = some u

namespace Ordered

variable {T T' : ℕ → Option V} {m : ℕ}

theorem nil (T : ℕ → Option V) : Ordered E T 0 where
  filled _ h := absurd h (Nat.not_lt_zero _)
  distinct _ h := absurd h (Nat.not_lt_zero _)
  preds _ h := absurd h (Nat.not_lt_zero _)

theorem congr (h : Ordered E T m) (hT : ∀ k < m, T' k = T k) : Ordered E T' m where
  filled k hk := by
    rw [hT k hk]
    exact h.filled k hk
  distinct k hk l hl := by
    rw [hT k hk, hT l hl]
    exact h.distinct k hk l hl
  preds k hk v hv u hu := by
    rw [hT k hk] at hv
    obtain ⟨j, hj, hju⟩ := h.preds k hk v hv u hu
    exact ⟨j, hj, (hT j (Nat.lt_trans hj hk)).trans hju⟩

/-- **One more place**: the next vertex is new, and its predecessors have places. -/
theorem snoc (h : Ordered E T m) {v : V} (hv : T m = some v) (hnew : ∀ k < m, T k ≠ some v)
    (hpreds : ∀ u, E u v → ∃ j < m, T j = some u) : Ordered E T (m + 1) where
  filled k hk := by
    rcases Nat.lt_succ_iff_lt_or_eq.1 hk with hk | rfl
    · exact h.filled k hk
    · exact ⟨v, hv⟩
  distinct k hk l hl heq := by
    rcases Nat.lt_succ_iff_lt_or_eq.1 hk with hk | rfl
    · rcases Nat.lt_succ_iff_lt_or_eq.1 hl with hl | rfl
      · exact h.distinct k hk l hl heq
      · exact absurd (heq.trans hv) (hnew k hk)
    · rcases Nat.lt_succ_iff_lt_or_eq.1 hl with hl | rfl
      · exact absurd (heq.symm.trans hv) (hnew l hl)
      · rfl
  preds k hk w hw u hu := by
    rcases Nat.lt_succ_iff_lt_or_eq.1 hk with hk | rfl
    · exact h.preds k hk w hw u hu
    · rw [hv] at hw
      cases hw
      exact hpreds u hu

end Ordered

end OsLab
