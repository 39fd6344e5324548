import OsLab.PrefixReader
import Mathlib.Data.Int.Order.Basic
import Mathlib.Data.List.Basic
import Mathlib.Tactic.FinCases
import Mathlib.Tactic.IntervalCases
/-!
# DecimalText — C's `int` as decimal text

What `%d` and `%02d` print and what `%d` reads.  Reading the text of a number that fits in an `int` gives the number and
leaves the rest of the input (`scan_text`), as long as no digit follows it.  Of any input, well formed or not, `%d` takes a
prefix (`scan_takesPrefix`).
-/
namespace OsLab
namespace DecimalText

/-- Arithmetic on a 32-bit `int`. -/
def int32 (x : ℤ) : ℤ := x.bmod (2 ^ 32)

/-- What an `int` holds. -/
def IsInt (x : ℤ) : Prop := -2 ^ 31 ≤ x ∧ x < 2 ^ 31

instance (x : ℤ) : Decidable (IsInt x) := inferInstanceAs (Decidable (_ ∧ _))

theorem int32_of_isInt {x : ℤ} (h : IsInt x) : int32 x = x := by
  obtain ⟨hlo, hhi⟩ := h
  unfold int32
  rw [Int.bmod_eq_of_le] <;> omega

theorem isInt_int32 (x : ℤ) : IsInt (int32 x) := by
  unfold int32 IsInt
  have hlo := Int.le_bmod (x := x) (m := 2 ^ 32) (by decide)
  have hhi := Int.bmod_lt (x := x) (m := 2 ^ 32) (by decide)
  omega

/-- `%d`. -/
def text (n : ℤ) : List Char := if n < 0 then '-' :: Nat.toDigits 10 n.natAbs else Nat.toDigits 10 n.natAbs

/-- `%02d`; a negative number fills the two places anyway. -/
def text2 (n : ℤ) : List Char := (text n).leftpad 2 '0'

/-- **Two digits, if the number has no more.** -/
theorem text2_of_lt {n : ℕ} (h : n < 100) : text2 n = [Nat.digitChar (n / 10), Nat.digitChar (n % 10)] := by
  interval_cases n <;> rfl

theorem digitChar_inj {m n : ℕ} (hm : m < 10) (hn : n < 10) (h : Nat.digitChar m = Nat.digitChar n) : m = n := by
  have htoNat := congrArg Char.toNat h
  rw [Nat.toNat_digitChar_of_lt_ten hm, Nat.toNat_digitChar_of_lt_ten hn] at htoNat
  omega

/-! ### Reading -/

/-- `isspace`. -/
def isSpace (c : Char) : Bool := [' ', '\t', '\n', '\x0b', '\x0c', '\r'].contains c

/-- The digits at the front: `none` if there are none, which is a failed match. -/
def scanDigits (cs : List Char) : Option ℕ × List Char :=
  (if cs.takeWhile Char.isDigit = [] then none else some (Nat.ofDigitChars 10 (cs.takeWhile Char.isDigit) 0),
    cs.dropWhile Char.isDigit)

/-- `%d`: blanks, then perhaps a sign, then digits.  What is not read stays in the input. -/
def scan (cs : List Char) : Option ℤ × List Char :=
  match cs.dropWhile isSpace with
  | '-' :: rest => let r := scanDigits rest; (r.1.map fun n : ℕ => int32 (-(n : ℤ)), r.2)
  | '+' :: rest => let r := scanDigits rest; (r.1.map fun n : ℕ => int32 (n : ℤ), r.2)
  | rest => let r := scanDigits rest; (r.1.map fun n : ℕ => int32 (n : ℤ), r.2)

/-- No digit comes next. -/
def Stops (rest : List Char) : Prop := ∀ c ∈ rest.head?, ¬ c.isDigit

theorem blank_isSpace : ∀ c ∈ [' '], isSpace c = true := fun c hc => by rw [List.mem_singleton.1 hc]; rfl

theorem stops_blank (rest : List Char) : Stops (' ' :: rest) := by
  intro c hc
  obtain rfl : ' ' = c := by simpa using hc
  decide

theorem stops_newline (rest : List Char) : Stops ('\n' :: rest) := by
  intro c hc
  obtain rfl : '\n' = c := by simpa using hc
  decide

theorem isDigit_of_mem_toDigits {n : ℕ} {c : Char} (h : c ∈ Nat.toDigits 10 n) : c.isDigit :=
  Nat.isDigit_of_mem_toDigits (by decide) (by decide) h

theorem scanDigits_toDigits (n : ℕ) {rest : List Char} (hstop : Stops rest) :
    scanDigits (Nat.toDigits 10 n ++ rest) = (some n, rest) := by
  have hdigits : ∀ c ∈ Nat.toDigits 10 n, c.isDigit = true := fun c => isDigit_of_mem_toDigits
  have htake : rest.takeWhile Char.isDigit = [] := by
    cases rest with
    | nil => rfl
    | cons c cs => exact List.takeWhile_cons_of_neg (hstop c rfl)
  have hdrop : rest.dropWhile Char.isDigit = rest := by
    cases rest with
    | nil => rfl
    | cons c cs => exact List.dropWhile_cons_of_neg (hstop c rfl)
  unfold scanDigits
  rw [List.takeWhile_append_of_pos hdigits, List.dropWhile_append_of_pos hdigits, htake, hdrop, List.append_nil,
    if_neg Nat.toDigits_ne_nil, Nat.ofDigitChars_ten_toDigits]

theorem dropWhile_blanks {blanks cs : List Char} (hblanks : ∀ c ∈ blanks, isSpace c = true)
    (hcs : ∀ c ∈ cs.head?, isSpace c = false) : (blanks ++ cs).dropWhile isSpace = cs := by
  rw [List.dropWhile_append_of_pos hblanks]
  cases cs with
  | nil => rfl
  | cons c cs => exact List.dropWhile_cons_of_neg (by rw [hcs c rfl]; decide)

theorem not_isSpace_of_isDigit {c : Char} (h : c.isDigit) : isSpace c = false := by
  by_contra hspace
  rw [Bool.not_eq_false] at hspace
  have hmem : c ∈ [' ', '\t', '\n', '\x0b', '\x0c', '\r'] := List.contains_iff_mem.1 hspace
  fin_cases hmem <;> exact absurd h (by decide)

theorem toDigits_head (n : ℕ) : ∃ c cs, Nat.toDigits 10 n = c :: cs ∧ c.isDigit := by
  obtain ⟨c, cs, hcs⟩ := List.exists_cons_of_ne_nil (Nat.toDigits_ne_nil (n := n) (b := 10))
  exact ⟨c, cs, hcs, isDigit_of_mem_toDigits (hcs ▸ List.mem_cons_self)⟩

/-- **`%d` reads back what `%d` printed**, whatever blanks stand before it, and leaves what follows. -/
theorem scan_text {n : ℤ} (hn : IsInt n) {blanks rest : List Char} (hblanks : ∀ c ∈ blanks, isSpace c = true)
    (hstop : Stops rest) : scan (blanks ++ (text n ++ rest)) = (some n, rest) := by
  have hread := scanDigits_toDigits n.natAbs hstop
  by_cases hneg : n < 0
  · have hvalue : -(n.natAbs : ℤ) = n := by omega
    unfold scan text
    rw [if_pos hneg, dropWhile_blanks hblanks (by simp [isSpace]), List.cons_append]
    simp only [hread, Option.map_some, hvalue, int32_of_isInt hn]
  · have hvalue : (n.natAbs : ℤ) = n := by omega
    obtain ⟨c, cs, hcs, hc⟩ := toDigits_head n.natAbs
    have hminus : c ≠ '-' := by rintro rfl; exact absurd hc (by decide)
    have hplus : c ≠ '+' := by rintro rfl; exact absurd hc (by decide)
    unfold scan text
    rw [if_neg hneg, dropWhile_blanks hblanks (by rw [hcs]; simpa using not_isSpace_of_isDigit hc)]
    rw [hcs, List.cons_append] at hread ⊢
    split
    · rename_i rest' heq
      exact absurd (List.cons.inj heq).1 hminus
    · rename_i rest' heq
      exact absurd (List.cons.inj heq).1 hplus
    · simp only [hread, Option.map_some, hvalue, int32_of_isInt hn]

/-! ### `%d` takes a prefix -/

/-- The sign that `%d` takes; true is minus. -/
def scanSign : List Char → Bool × List Char
  | [] => (false, [])
  | c :: cs => if c = '-' then (true, cs) else if c = '+' then (false, cs) else (false, c :: cs)

theorem scan_eq (cs : List Char) : scan cs =
    ((scanDigits (scanSign (cs.dropWhile isSpace)).2).1.map fun n : ℕ =>
        int32 (if (scanSign (cs.dropWhile isSpace)).1 then -(n : ℤ) else n),
      (scanDigits (scanSign (cs.dropWhile isSpace)).2).2) := by
  unfold scan
  split
  · rename_i rest heq
    rw [heq]
    rfl
  · rename_i rest heq
    rw [heq]
    rfl
  · rename_i hminus hplus
    generalize cs.dropWhile isSpace = ds at hminus hplus ⊢
    cases ds with
    | nil => rfl
    | cons c ds =>
      have hc : c ≠ '-' ∧ c ≠ '+' := ⟨fun h => hminus ds (by rw [h]), fun h => hplus ds (by rw [h])⟩
      simp only [scanSign, if_neg hc.1, if_neg hc.2, Bool.false_eq_true, if_false]

theorem scanSign_cons_snd (c : Char) (cs : List Char) :
    (scanSign (c :: cs)).2 = if c = '-' ∨ c = '+' then cs else c :: cs := by
  by_cases hminus : c = '-'
  · simp [scanSign, hminus]
  · by_cases hplus : c = '+' <;> simp [scanSign, hminus, hplus]

theorem scanSign_takesPrefix : TakesPrefix scanSign where
  nil := rfl
  append a y h := by
    cases a with
    | nil => exact absurd rfl h
    | cons c a =>
      simp only [scanSign, List.cons_append]
      split
      · rfl
      · split <;> rfl
  suffix_append a y h := by
    cases a with
    | nil =>
      cases y with
      | nil => exact List.suffix_refl []
      | cons c y =>
        rw [List.nil_append, scanSign_cons_snd]
        split
        · exact List.suffix_cons c y
        · exact List.suffix_refl (c :: y)
    | cons c a =>
      -- all that was there is the sign
      rw [scanSign_cons_snd] at h
      rw [List.cons_append, scanSign_cons_snd]
      split at h
      · rename_i hsign
        rw [if_pos hsign, h, List.nil_append]
      · exact absurd h (List.cons_ne_nil c a)

theorem scanDigits_takesPrefix : TakesPrefix scanDigits :=
  (TakesPrefix.span Char.isDigit).map fun digits => if digits = [] then none else some (Nat.ofDigitChars 10 digits 0)

/-- **What `%d` takes is a prefix.** -/
theorem scan_takesPrefix : TakesPrefix scan := by
  have h := (TakesPrefix.span isSpace).bind fun _ => scanSign_takesPrefix.bind fun neg =>
    scanDigits_takesPrefix.map fun d : Option ℕ => d.map fun n : ℕ => int32 (if neg then -(n : ℤ) else n)
  rw [show scan = _ from funext scan_eq]
  exact h

end DecimalText
end OsLab
