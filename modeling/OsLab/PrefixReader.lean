import Mathlib.Data.List.Infix
/-!
# PrefixReader — readers that take a prefix of their input

A reader returns a value and what it leaves of the input.  One that takes a prefix (`TakesPrefix`) looks at nothing behind the
place where it stops, so that more input behind that place changes nothing: where it stops can be told from the part before
(`split_iff`).  Taking letters while a test holds is such a reader, and so is one reader after another (`bind`).
-/
namespace OsLab

variable {α β γ : Type*} {f : List α → β × List α}

/-- The reader may come to the end of the input: then it goes on in what is appended.  Else what is appended stays. -/
structure TakesPrefix (f : List α → β × List α) : Prop where
  nil : (f []).2 = []
  append : ∀ a y, (f a).2 ≠ [] → f (a ++ y) = ((f a).1, (f a).2 ++ y)
  suffix_append : ∀ a y, (f a).2 = [] → (f (a ++ y)).2 <:+ y

namespace TakesPrefix

theorem suffix (hf : TakesPrefix f) (a : List α) : (f a).2 <:+ a := hf.suffix_append [] a hf.nil

theorem append_iff (hf : TakesPrefix f) {a y w : List α} (hw : w ≠ []) : (f (a ++ y)).2 = w ++ y ↔ (f a).2 = w := by
  constructor
  · intro h
    by_cases ha : (f a).2 = []
    · -- the reader went on in `y`, so it leaves no more than `y`
      have hle := (hf.suffix_append a y ha).length_le
      rw [h, List.length_append] at hle
      exact absurd (List.length_eq_zero_iff.1 (by omega)) hw
    · rw [hf.append a y ha] at h
      exact List.append_cancel_right h
  · rintro rfl
    rw [hf.append a y hw]

/-- **What a reader has taken can be cut out of the input**, with a part of what it left. -/
theorem split_iff (hf : TakesPrefix f) {t y w : List α} (hw : w ≠ []) :
    (f t).2 = w ++ y ↔ ∃ a, t = a ++ y ∧ (f a).2 = w := by
  constructor
  · intro h
    obtain ⟨taken, htaken⟩ := hf.suffix t
    have ht : t = (taken ++ w) ++ y := by rw [← htaken, h, List.append_assoc]
    rw [ht] at h
    exact ⟨taken ++ w, ht, (hf.append_iff hw).1 h⟩
  · rintro ⟨a, rfl, ha⟩
    exact (hf.append_iff hw).2 ha

protected theorem pure (x : β) : TakesPrefix fun cs : List α => (x, cs) where
  nil := rfl
  append _ _ _ := rfl
  suffix_append a y h := by
    simp only at h
    simp [h]

theorem map (hf : TakesPrefix f) (g : β → γ) : TakesPrefix fun cs => (g (f cs).1, (f cs).2) where
  nil := hf.nil
  append a y h := by simp only [hf.append a y h]
  suffix_append := hf.suffix_append

/-- One reader after another; the second may depend on what the first returned. -/
protected theorem bind {g : β → List α → γ × List α} (hf : TakesPrefix f) (hg : ∀ x, TakesPrefix (g x)) :
    TakesPrefix fun cs => g (f cs).1 (f cs).2 where
  nil := by
    rw [hf.nil]
    exact (hg _).nil
  append a y h := by
    have ha : (f a).2 ≠ [] := fun hnil => h (by rw [hnil]; exact (hg _).nil)
    simp only [hf.append a y ha]
    exact (hg _).append _ y h
  suffix_append a y h := by
    by_cases ha : (f a).2 = []
    · exact ((hg _).suffix _).trans (hf.suffix_append a y ha)
    · simp only [hf.append a y ha]
      exact (hg _).suffix_append _ y h

/-- The letters at the front for which the test holds. -/
theorem span (p : α → Bool) : TakesPrefix fun cs : List α => (cs.takeWhile p, cs.dropWhile p) where
  nil := rfl
  append a y h := by
    have hlen := congrArg List.length (List.takeWhile_append_dropWhile (p := p) (l := a))
    have hpos := List.length_pos_iff.2 h
    rw [List.length_append] at hlen
    simp only at hpos
    simp only [List.takeWhile_append, List.dropWhile_append, List.isEmpty_iff]
    rw [if_neg (by omega), if_neg h]
  suffix_append a y h := by
    simp only at h
    simp only [List.dropWhile_append, h, List.isEmpty_nil, if_true]
    exact List.dropWhile_suffix p

end TakesPrefix

end OsLab
