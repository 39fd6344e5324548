import Mathlib.Data.List.TakeWhile
import Mathlib.Data.List.Flatten
/-!
# LineStream — lines in a stream of symbols

`encode sep ls` ends each line with the separator; `takeLine` is the first line that has come in whole and what follows it.
However a reader's buffer cuts the encoded lines, the lines it takes are those that were encoded.
-/
namespace OsLab
namespace LineStream

variable {α : Type*} {sep : α}

/-- The lines, each with the separator after it. -/
def encode (sep : α) (ls : List (List α)) : List α := ls.flatMap (· ++ [sep])

@[simp] theorem encode_nil : encode sep [] = [] := rfl

theorem encode_cons (l : List α) (ls : List (List α)) : encode sep (l :: ls) = l ++ sep :: encode sep ls := by
  unfold encode
  rw [List.flatMap_cons, List.append_assoc]
  rfl

theorem encode_concat (ls : List (List α)) (l : List α) : encode sep (ls ++ [l]) = encode sep ls ++ (l ++ [sep]) := by
  unfold encode
  rw [List.flatMap_append, List.flatMap_singleton]

theorem encode_eq_nil {ls : List (List α)} (h : encode sep ls = []) : ls = [] := by
  cases ls with
  | nil => rfl
  | cons l ls =>
    rw [encode_cons] at h
    simp at h

section

variable [DecidableEq α]

/-- The first line of the symbols and what stands after its separator; none while it has not come in whole. -/
def takeLine (sep : α) : List α → Option (List α × List α)
  | [] => none
  | a :: as => if a = sep then some ([], as) else (takeLine sep as).map fun r => (a :: r.1, r.2)

theorem takeLine_eq_some {as l rest : List α} : takeLine sep as = some (l, rest) ↔ as = l ++ sep :: rest ∧ sep ∉ l := by
  induction as generalizing l with
  | nil => simp [takeLine]
  | cons a as ih =>
    unfold takeLine
    split
    · rename_i ha
      subst ha
      cases l with
      | nil => simp
      | cons b l => simp +contextual
    · rename_i ha
      cases l with
      | nil => simp [ha]
      | cons b l =>
        rw [Option.map_eq_some_iff]
        constructor
        · rintro ⟨⟨l', rest'⟩, hr, heq⟩
          cases heq
          obtain ⟨rfl, hl⟩ := ih.1 hr
          exact ⟨rfl, fun h => (List.mem_cons.1 h).elim (fun e => ha e.symm) hl⟩
        · rintro ⟨heq, hl⟩
          cases heq
          exact ⟨(l, rest), ih.2 ⟨rfl, List.not_mem_of_not_mem_cons hl⟩, rfl⟩

theorem takeLine_eq_none {as : List α} : takeLine sep as = none ↔ sep ∉ as := by
  induction as with
  | nil => simp [takeLine]
  | cons a as ih =>
    unfold takeLine
    split
    · rename_i ha
      simp [ha]
    · rename_i ha
      rw [Option.map_eq_none_iff, ih, List.mem_cons, not_or]
      exact ⟨fun h => ⟨fun e => ha e.symm, h⟩, And.right⟩

/-- **A line that is taken** from a part of the stream is the first of the lines encoded in it. -/
theorem takeLine_encode {as bs l rest : List α} {ls : List (List α)} (hclean : ∀ l ∈ ls, sep ∉ l)
    (h : as ++ bs = encode sep ls) (htake : takeLine sep as = some (l, rest)) :
    ∃ ls', ls = l :: ls' ∧ rest ++ bs = encode sep ls' := by
  obtain ⟨rfl, hl⟩ := takeLine_eq_some.1 htake
  cases ls with
  | nil => simp at h
  | cons l' ls' =>
    rw [encode_cons, List.append_assoc, List.cons_append] at h
    have hfirst : some (l, rest ++ bs) = some (l', encode sep ls') := by
      rw [← takeLine_eq_some.2 ⟨rfl, hl⟩, h]
      exact takeLine_eq_some.2 ⟨rfl, hclean l' List.mem_cons_self⟩
    obtain ⟨rfl, hrest⟩ := Prod.mk.inj (Option.some.inj hfirst)
    exact ⟨ls', rfl, hrest⟩

/-- When no line can be taken from the whole stream, none is left. -/
theorem encode_of_takeLine_none {as : List α} {ls : List (List α)} (h : as = encode sep ls)
    (htake : takeLine sep as = none) : ls = [] := by
  cases ls with
  | nil => rfl
  | cons l ls =>
    rw [takeLine_eq_none, h, encode_cons] at htake
    simp at htake

end

end LineStream
end OsLab
