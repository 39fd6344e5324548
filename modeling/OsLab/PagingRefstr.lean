import Mathlib.Algebra.Group.Nat.Defs
import Mathlib.Data.List.Basic
import Mathlib.Order.Basic
import Mathlib.Tactic.Common
/-!
# PagingRefstr — reference strings

master writes a list of pages as one string, each with `%d.`; process reads it back page by page with a cursor.  Where
the cursor stands at the start of a page, the loop reads that page and leaves it at the start of the next
(`readPage_offset`), so the cursor is a position in the list.
-/
namespace OsLab
namespace Paging

/-- `int` arithmetic on 32 bits. -/
def toInt32 (x : Int) : Int := x.bmod (2 ^ 32)

theorem toInt32_of_lt {n : ℕ} (h : n < 2 ^ 31) : toInt32 n = n := by
  unfold toInt32
  rw [Int.bmod_eq_of_le] <;> omega

/-- `sprintf(temp_buff, "%d.", page)`. -/
def pageStr (page : ℕ) : List Char := Nat.toDigits 10 page ++ ['.']

/-- The reference string master builds. -/
def referenceStr (pages : List ℕ) : List Char := pages.flatMap pageStr

/-- The inner loop of process.c (line 95) from the cursor on: the page and the characters read, up to a '.' or the end. -/
def scanPage : List Char → Int → ℕ → Int × ℕ
  | [], page, n => (page, n)
  | ch :: cs, page, n =>
    if ch = '.' then (page, n) else scanPage cs (toInt32 (page * 10 + ((ch.toNat : Int) - ('0'.toNat : Int)))) (n + 1)

/-- Lines 92 to 101: the page at the cursor, and the cursor past the character that ends it. -/
def readPage (refstr : List Char) (i : ℕ) : Int × ℕ :=
  let r := scanPage (refstr.drop i) 0 0
  (r.1, i + r.2 + 1)

theorem le_ofDigitChars : ∀ (cs : List Char) (n : ℕ), n ≤ Nat.ofDigitChars 10 cs n
  | [], n => by simp
  | ch :: cs, n => by
    rw [Nat.ofDigitChars_cons]
    have := le_ofDigitChars cs (10 * n + (ch.toNat - '0'.toNat))
    omega

theorem scanPage_digits : ∀ (cs rest : List Char) (n m : ℕ), (∀ ch ∈ cs, ch.isDigit) →
    Nat.ofDigitChars 10 cs n < 2 ^ 31 →
    scanPage (cs ++ '.' :: rest) n m = ((Nat.ofDigitChars 10 cs n : Int), m + cs.length)
  | [], rest, n, m, _, _ => by simp [scanPage]
  | ch :: cs, rest, n, m, hd, hlt => by
    have hch : ch.isDigit := hd ch List.mem_cons_self
    have hne : ch ≠ '.' := by rintro rfl; exact absurd hch (by decide)
    have h48 : '0'.toNat ≤ ch.toNat := by
      simp only [Char.isDigit, Bool.and_eq_true, decide_eq_true_eq, ge_iff_le] at hch
      exact hch.1
    rw [Nat.ofDigitChars_cons] at hlt ⊢
    have hval : toInt32 ((n : Int) * 10 + ((ch.toNat : Int) - ('0'.toNat : Int))) =
        ((10 * n + (ch.toNat - '0'.toNat) : ℕ) : Int) := by
      rw [← toInt32_of_lt (Nat.lt_of_le_of_lt (le_ofDigitChars cs _) hlt)]
      congr 1
      omega
    rw [List.cons_append, scanPage, if_neg hne, hval,
      scanPage_digits cs rest _ (m + 1) (fun c hc => hd c (List.mem_cons_of_mem _ hc)) hlt, List.length_cons]
    congr 1
    omega

/-- Where the page with number `n` of the list starts. -/
def offset (pages : List ℕ) (n : ℕ) : ℕ := (referenceStr (pages.take n)).length

theorem referenceStr_append (l l' : List ℕ) : referenceStr (l ++ l') = referenceStr l ++ referenceStr l' := by
  unfold referenceStr
  rw [List.flatMap_append]

theorem drop_offset (pages : List ℕ) (n : ℕ) : (referenceStr pages).drop (offset pages n) = referenceStr (pages.drop n) := by
  conv => lhs; rw [← List.take_append_drop n pages, referenceStr_append]
  unfold offset
  rw [List.take_append_drop, List.drop_left]

theorem offset_succ {pages : List ℕ} {n page : ℕ} (h : pages[n]? = some page) :
    offset pages (n + 1) = offset pages n + (Nat.toDigits 10 page).length + 1 := by
  unfold offset
  rw [List.take_add_one, h, referenceStr_append, List.length_append]
  simp [referenceStr, pageStr]
  omega

/-- The cursor is at the end exactly when no page is left. -/
theorem offset_lt_iff (pages : List ℕ) (n : ℕ) : offset pages n < (referenceStr pages).length ↔ n < pages.length := by
  have hlen : (referenceStr pages).length = offset pages n + (referenceStr (pages.drop n)).length := by
    rw [← drop_offset, List.length_drop]
    have : offset pages n ≤ (referenceStr pages).length := by
      conv => rhs; rw [← List.take_append_drop n pages, referenceStr_append]
      rw [List.length_append]
      exact Nat.le_add_right _ _
    omega
  constructor
  · intro h
    by_contra hn
    rw [List.drop_eq_nil_of_le (by omega)] at hlen
    simp only [referenceStr, List.flatMap_nil, List.length_nil] at hlen h
    omega
  · intro h
    rw [List.drop_eq_getElem_cons h] at hlen
    simp only [referenceStr, List.flatMap_cons, pageStr, List.length_append, List.length_singleton] at hlen ⊢
    omega

/-- **The loop reads the page at the cursor** and leaves the cursor at the next one. -/
theorem readPage_offset {pages : List ℕ} {n page : ℕ} (h : pages[n]? = some page) (hpage : page < 2 ^ 31) :
    readPage (referenceStr pages) (offset pages n) = ((page : Int), offset pages (n + 1)) := by
  obtain ⟨hn, he⟩ := List.getElem?_eq_some_iff.1 h
  have hrest : referenceStr (pages.drop n) = Nat.toDigits 10 page ++ '.' :: referenceStr (pages.drop (n + 1)) := by
    rw [List.drop_eq_getElem_cons hn, he]
    simp [referenceStr, pageStr]
  have hs := scanPage_digits (Nat.toDigits 10 page) (referenceStr (pages.drop (n + 1))) 0 0
    (fun ch hch => Nat.isDigit_of_mem_toDigits (by decide) (by decide) hch) (by rw [Nat.ofDigitChars_ten_toDigits]; exact hpage)
  rw [Nat.ofDigitChars_ten_toDigits, Int.natCast_zero] at hs
  unfold readPage
  rw [drop_offset, hrest, hs, offset_succ h]
  simp

/-- A page takes at least two characters. -/
theorem two_mul_length_le : ∀ pages : List ℕ, 2 * pages.length ≤ (referenceStr pages).length
  | [] => by simp
  | page :: pages => by
    have h := two_mul_length_le pages
    have h1 : 0 < (Nat.toDigits 10 page).length := Nat.length_toDigits_pos
    simp only [referenceStr, List.flatMap_cons, pageStr, List.length_append, List.length_cons] at h ⊢
    omega

example : readPage (referenceStr [7, 13, 0]) 2 = (13, 5) := by decide

end Paging
end OsLab
