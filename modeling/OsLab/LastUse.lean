import Mathlib.Data.List.Induction
import Mathlib.Tactic.Common
/-!
# LastUse — when a list last uses a value

The places of a list are numbered from 1, and `lastUse xs a` is the number of the last place where `a` stands, 0 if it
stands nowhere.  A list that grows at its end moves one value to its new length and leaves the others where they were.
-/
namespace OsLab

variable {α : Type*} [DecidableEq α] {xs : List α} {a b : α}

/-- The number of the last place of `a`. -/
def lastUse : List α → α → ℕ
  | [], _ => 0
  | x :: xs, a => if a ∈ xs then lastUse xs a + 1 else if x = a then 1 else 0

theorem lastUse_concat (xs : List α) (b a : α) :
    lastUse (xs ++ [b]) a = if b = a then xs.length + 1 else lastUse xs a := by
  induction xs with
  | nil => simp [lastUse]
  | cons x xs ih =>
    rw [List.cons_append, lastUse, lastUse, ih]
    by_cases h : b = a
    · simp [h]
    · have h' : a ≠ b := Ne.symm h
      simp [h, h']

theorem lastUse_le_length (xs : List α) (a : α) : lastUse xs a ≤ xs.length := by
  induction xs using List.reverseRecOn with
  | nil => exact Nat.le_refl 0
  | append_singleton xs b ih =>
    rw [lastUse_concat, List.length_append, List.length_singleton]
    split
    · exact Nat.le_refl _
    · exact Nat.le_succ_of_le ih

/-- **No two values are last used at one place.** -/
theorem lastUse_inj (h : lastUse xs a = lastUse xs b) (hpos : 0 < lastUse xs a) : a = b := by
  induction xs using List.reverseRecOn with
  | nil => cases hpos
  | append_singleton xs x ih =>
    have ha := lastUse_le_length xs a
    have hb := lastUse_le_length xs b
    rw [lastUse_concat, lastUse_concat] at h
    rw [lastUse_concat] at hpos
    split at h
    · rename_i hxa
      split at h
      · rename_i hxb
        exact hxa.symm.trans hxb
      · omega
    · rename_i hxa
      rw [if_neg hxa] at hpos
      split at h
      · omega
      · exact ih h hpos

example : lastUse [4, 7, 4, 9] 4 = 3 := by decide

end OsLab
