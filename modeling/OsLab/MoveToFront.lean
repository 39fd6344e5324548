import Mathlib.Data.List.Nodup
import Mathlib.Data.List.Induction
import Mathlib.Tactic.Common
/-!
# MoveToFront — the order of last use and the caches it describes

`recency xs` lists the values of `xs`, the one used last first: a use moves its value to the front.  A cache of `F`
places that replaces the value not used the longest holds the first `F` of them, so a larger cache holds what a smaller
one does and misses no more often.
-/
namespace OsLab
namespace MoveToFront

variable {α : Type*} [DecidableEq α]

/-- A value is used. -/
def touch (a : α) (l : List α) : List α := a :: l.erase a

/-- The values of a list, the one used last first. -/
def recency (xs : List α) : List α := xs.foldl (fun l a => touch a l) []

/-- How many uses miss in a cache of `F` places. -/
def misses (F : ℕ) (xs : List α) : ℕ :=
  (xs.foldl (fun s a => (touch a s.1, if a ∈ s.1.take F then s.2 else s.2 + 1)) (([] : List α), 0)).2

section Touch

variable {a b : α} {l : List α} {F : ℕ}

theorem touch_touch (a : α) (l : List α) : touch a (touch a l) = touch a l := by simp [touch]

theorem nodup_touch (h : l.Nodup) : (touch a l).Nodup :=
  List.nodup_cons.2 ⟨fun hm => (h.mem_erase_iff.1 hm).1 rfl, h.erase a⟩

theorem mem_touch : b ∈ touch a l ↔ b = a ∨ b ∈ l := by
  unfold touch
  by_cases h : b = a
  · simp [h]
  · simp [h, List.mem_erase_of_ne h]

/-- **A hit**: the value moves to the front of the cache. -/
theorem take_touch_of_mem (h : a ∈ l.take F) : (touch a l).take F = touch a (l.take F) := by
  induction l generalizing F with
  | nil => simp at h
  | cons b l ih =>
    cases F with
    | zero => simp at h
    | succ F =>
      unfold touch at ih ⊢
      rw [List.take_succ_cons] at h ⊢
      rw [List.take_succ_cons]
      by_cases hb : b = a
      · subst hb
        simp
      · have hmem : a ∈ l.take F := (List.mem_cons.1 h).resolve_left (Ne.symm hb)
        rw [List.erase_cons_tail (by simpa using hb), List.erase_cons_tail (by simpa using hb)]
        cases F with
        | zero => simp at hmem
        | succ F =>
          have ih' := ih hmem
          rw [List.take_succ_cons, List.cons.injEq] at ih'
          rw [List.take_succ_cons, ih'.2]

/-- **A miss**: the value takes the front place, the others keep their order and the last one goes if the cache is full. -/
theorem take_touch_of_not_mem (h : a ∉ l.take F) : (touch a l).take (F + 1) = a :: l.take F := by
  unfold touch
  rw [List.take_succ_cons]
  congr 1
  conv => lhs; rw [← List.take_append_drop F l, List.erase_append_right _ h]
  rw [List.take_append]
  by_cases hF : F ≤ l.length
  · simp [hF, List.take_take]
  · rw [List.drop_eq_nil_of_le (by omega)]
    simp [List.take_take]

end Touch

section Uses

variable {xs : List α} {a : α} {F F' : ℕ}

theorem recency_concat (xs : List α) (a : α) : recency (xs ++ [a]) = touch a (recency xs) := by
  unfold recency
  rw [List.foldl_append]
  rfl

theorem misses_concat (F : ℕ) (xs : List α) (a : α) :
    misses F (xs ++ [a]) = if a ∈ (recency xs).take F then misses F xs else misses F xs + 1 := by
  have hfst : ∀ (s : List α × ℕ) (xs : List α), (xs.foldl (fun s a => (touch a s.1, if a ∈ s.1.take F then s.2 else
      s.2 + 1)) s).1 = xs.foldl (fun l a => touch a l) s.1 := by
    intro s xs
    induction xs generalizing s with
    | nil => rfl
    | cons x xs ih => exact ih _
  unfold misses recency
  rw [List.foldl_append, List.foldl_cons, List.foldl_nil, hfst]

/-- **A larger cache holds what a smaller one does.** -/
theorem take_subset_take (h : F ≤ F') (xs : List α) : (recency xs).take F ⊆ (recency xs).take F' :=
  List.take_subset_take_left _ h

/-- **A larger cache misses no more often.** -/
theorem misses_anti (h : F ≤ F') (xs : List α) : misses F' xs ≤ misses F xs := by
  induction xs using List.reverseRecOn with
  | nil => exact Nat.le_refl 0
  | append_singleton xs a ih =>
    rw [misses_concat, misses_concat]
    have hsub := take_subset_take h xs
    split
    · split
      · exact ih
      · exact Nat.le_succ_of_le ih
    · rename_i hno
      rw [if_neg fun hm => hno (hsub hm)]
      exact Nat.succ_le_succ ih

end Uses

example : recency [3, 1, 3, 2, 1] = [1, 2, 3] := by decide

end MoveToFront
end OsLab
