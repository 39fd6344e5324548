import Mathlib.Logic.Function.Basic
import Mathlib.Data.Nat.Basic
/-!
# FdTable — tables of open files

A descriptor is an index into a table; `dup` takes the lowest index that is free, `close` frees one.  The −1 of a failed call
is `none`.  What a table says about each index is the function `get`, and on it both calls are an update at one point.
-/
namespace OsLab

/-- The open file of each descriptor. -/
abbrev FdTable (F : Type*) := List (Option F)

namespace FdTable

variable {F : Type*} {t : FdTable F} {i : ℕ} {f : F}

def get (t : FdTable F) (i : ℕ) : Option F := t.getD i none

def close (t : FdTable F) : Option ℕ → FdTable F
  | some i => t.set i none
  | none => t

/-- The lowest index that is free. -/
def lowest (t : FdTable F) : ℕ := t.findIdx Option.isNone

def put (t : FdTable F) (i : ℕ) (f : F) : FdTable F := if i < t.length then t.set i (some f) else t ++ [some f]

/-- The new descriptor and the table. -/
def dup (t : FdTable F) (i : Option ℕ) : Option ℕ × FdTable F :=
  match i.bind t.get with
  | some f => (some t.lowest, t.put t.lowest f)
  | none => (none, t)

theorem get_of_lt (h : i < t.length) : t.get i = t[i] := by
  unfold get
  rw [List.getD_eq_getElem?_getD, List.getElem?_eq_getElem h]
  rfl

theorem get_of_le (h : t.length ≤ i) : t.get i = none := by
  unfold get
  rw [List.getD_eq_getElem?_getD, List.getElem?_eq_none h]
  rfl

theorem get_close (t : FdTable F) (i : ℕ) : (t.close (some i)).get = Function.update t.get i none := by
  funext j
  by_cases hj : j < t.length
  · rw [get_of_lt (by simpa [close] using hj)]
    by_cases hji : j = i
    · subst hji
      simp [close]
    · rw [Function.update_of_ne hji, get_of_lt hj]
      simp [close, Ne.symm hji]
  · rw [get_of_le (by simpa [close] using hj)]
    by_cases hji : j = i
    · rw [hji, Function.update_self]
    · rw [Function.update_of_ne hji, get_of_le (by simpa using hj)]

theorem get_lowest (t : FdTable F) : t.get t.lowest = none := by
  by_cases h : t.lowest < t.length
  · rw [get_of_lt h]
    have hfree : t[t.lowest].isNone = true := List.findIdx_getElem (w := h)
    simpa using hfree
  · exact get_of_le (not_lt.1 h)

theorem get_of_lt_lowest (h : i < t.lowest) : t.get i ≠ none := by
  have hlt : i < t.length := lt_of_lt_of_le h List.findIdx_le_length
  have hused := List.not_of_lt_findIdx h
  rw [get_of_lt hlt]
  intro hnone
  rw [hnone] at hused
  cases hused

/-- **The lowest free index**: it is free, and all below it are in use. -/
theorem lowest_eq (hfree : t.get i = none) (hused : ∀ j < i, t.get j ≠ none) : t.lowest = i := by
  rcases lt_trichotomy t.lowest i with h | h | h
  · exact absurd t.get_lowest (hused _ h)
  · exact h
  · exact absurd hfree (get_of_lt_lowest h)

theorem get_put_lowest (t : FdTable F) (f : F) : (t.put t.lowest f).get = Function.update t.get t.lowest (some f) := by
  funext j
  have hle : t.lowest ≤ t.length := List.findIdx_le_length
  unfold put
  split
  · rename_i hlt
    by_cases hj : j = t.lowest
    · subst hj
      rw [Function.update_self, get_of_lt (by simpa using hlt)]
      simp
    · rw [Function.update_of_ne hj]
      unfold get
      rw [List.getD_eq_getElem?_getD, List.getD_eq_getElem?_getD, List.getElem?_set_ne (Ne.symm hj)]
  · rename_i hge
    have heq : t.lowest = t.length := le_antisymm hle (not_lt.1 hge)
    unfold get
    rw [List.getD_eq_getElem?_getD]
    by_cases hj : j = t.lowest
    · subst hj
      rw [Function.update_self, heq, List.getElem?_concat_length]
      rfl
    · rw [Function.update_of_ne hj, List.getD_eq_getElem?_getD]
      by_cases hlt : j < t.length
      · rw [List.getElem?_append_left hlt]
      · rw [List.getElem?_eq_none (by simp; omega), List.getElem?_eq_none (by omega)]

theorem dup_open (h : t.get i = some f) : t.dup (some i) = (some t.lowest, t.put t.lowest f) := by
  unfold dup
  rw [Option.bind_some, h]

/-- **`dup` of an open file** takes the index `j`, when that is the lowest free one. -/
theorem dup_at {j : ℕ} (h : t.get i = some f) (hfree : t.get j = none) (hused : ∀ k < j, t.get k ≠ none) :
    (t.dup (some i)).1 = some j ∧ (t.dup (some i)).2.get = Function.update t.get j (some f) := by
  rw [dup_open h, ← lowest_eq hfree hused]
  exact ⟨rfl, get_put_lowest t f⟩

end FdTable
end OsLab
