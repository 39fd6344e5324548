import OsLab.PagingSys
/-!
# PagingRoundTrip — from master's references to the requests

master draws a process's pages and writes them into fixed rows (`genRefs`, `refPagesRow`, `referenceRow`); the process
copies the string and asks the MMU for one page after the other, going back to `prev_i` on a fault (`requests`).  What it
asks for depends on the list and the replies only (`asked`): a page again after each fault, the next after each frame.
-/
namespace OsLab
namespace Paging

/-! ## master.c -/

/-- `MAX_VIRTUAL_ADDR_SPACE * 11`, the length of `ref_pages[i]`. -/
def refPagesSize : ℕ := 25 * 11

/-- `MAX_VIRTUAL_ADDR_SPACE * 110`, the size of `reference_str[i]`. -/
def referenceStrSize : ℕ := 25 * 110

/-- The size of `temp_buff`. -/
def tempBuffSize : ℕ := 15

/-- A process's number of pages and its references. -/
structure Refs where
  mi : ℕ
  pages : List ℕ

/-- Lines 222 to 225, with the outcome of the comparison of the first `rand()` and the value of the second. -/
def genPage (m mi : ℕ) (illegal : Bool) (r : ℕ) : ℕ := if illegal && m > mi then mi + r % (m - mi) else r % mi

/-- Lines 216 to 227.  `illegal` says for which values of `rand()` the floating-point comparison holds. -/
def genRefs (m : ℕ) (rand : ℕ → ℕ) (illegal : ℕ → Bool) : Refs :=
  let mi := rand 0 % m + 1
  let refStrNumPages := 2 * mi + rand 1 % (8 * mi + 1)
  ⟨mi, (List.range refStrNumPages).map fun j => genPage m mi (illegal (rand (2 + 2 * j))) (rand (3 + 2 * j))⟩

/-- What master's choices can come to. -/
structure IsRefs (m : ℕ) (r : Refs) : Prop where
  one_le : 1 ≤ r.mi
  le : r.mi ≤ m
  length_le : r.pages.length ≤ 10 * r.mi
  lt : ∀ page ∈ r.pages, page < m

/-- The pages, stored one by one in a row of `size` places: `none` is a write past the row. -/
def refPagesRow (size : ℕ) : List ℕ → List ℕ → Option (List ℕ)
  | [], row => some row
  | page :: pages, row => if row.length < size then refPagesRow size pages (row ++ [page]) else none

/-- A text of a buffer with its terminator: `none` is a write past the buffer. -/
def buffer (size : ℕ) (cs : List Char) : Option (List Char) := if cs.length < size then some cs else none

/-- Lines 229 to 234: `sprintf` into `temp_buff`, `strcat` to the row. -/
def referenceRow : List ℕ → List Char → Option (List Char)
  | [], str => some str
  | page :: pages, str =>
    (buffer tempBuffSize (pageStr page)).bind fun temp =>
    (buffer referenceStrSize (str ++ temp)).bind (referenceRow pages)

/-- **Every outcome of master's choices** has few enough pages, each below `m`. -/
theorem genRefs_isRefs {m : ℕ} (hm : 1 ≤ m) (rand : ℕ → ℕ) (illegal : ℕ → Bool) : IsRefs m (genRefs m rand illegal) := by
  have hmi : rand 0 % m < m := Nat.mod_lt _ hm
  refine ⟨Nat.succ_pos _, hmi, ?_, fun page hpage => ?_⟩
  · have hmod : rand 1 % (8 * (rand 0 % m + 1) + 1) < 8 * (rand 0 % m + 1) + 1 := Nat.mod_lt _ (Nat.succ_pos _)
    simp only [genRefs, List.length_map, List.length_range]
    omega
  · obtain ⟨j, -, rfl⟩ := List.mem_map.1 hpage
    unfold genPage
    split
    · rename_i hillegal
      have hgt : rand 0 % m + 1 < m := by simpa using (Bool.and_eq_true_iff.1 hillegal).2
      have hmod := Nat.mod_lt (rand (3 + 2 * j)) (Nat.sub_pos_of_lt hgt)
      omega
    · have hmod := Nat.mod_lt (rand (3 + 2 * j)) (show 0 < rand 0 % m + 1 by omega)
      omega

theorem refPagesRow_fits {size : ℕ} : ∀ (pages row : List ℕ), row.length + pages.length ≤ size →
    refPagesRow size pages row = some (row ++ pages)
  | [], row, _ => by simp [refPagesRow]
  | page :: pages, row, h => by
    rw [List.length_cons] at h
    rw [refPagesRow, if_pos (by omega), refPagesRow_fits pages (row ++ [page]) (by simp; omega)]
    simp

theorem length_pageStr_le {page : ℕ} (h : page < 100) : (pageStr page).length ≤ 3 := by
  have hlen : (Nat.toDigits 10 page).length ≤ 2 := (Nat.length_toDigits_le_iff (by decide) (by decide)).2 h
  unfold pageStr
  rw [List.length_append, List.length_singleton]
  omega

theorem length_referenceStr_le : ∀ pages : List ℕ, (∀ page ∈ pages, page < 100) →
    (referenceStr pages).length ≤ 3 * pages.length
  | [], _ => Nat.le_refl 0
  | page :: pages, h => by
    have hpage := length_pageStr_le (h page List.mem_cons_self)
    have hpages := length_referenceStr_le pages (fun p hp => h p (List.mem_cons_of_mem _ hp))
    have hsplit : referenceStr (page :: pages) = pageStr page ++ referenceStr pages := by simp [referenceStr]
    rw [hsplit, List.length_append, List.length_cons]
    omega

/-- The row is the reference string, if that fits. -/
theorem referenceRow_fits : ∀ (pages : List ℕ) (str : List Char), (∀ page ∈ pages, page < 100) →
    str.length + 3 * pages.length < referenceStrSize → referenceRow pages str = some (str ++ referenceStr pages)
  | [], str, _, _ => by simp [referenceRow, referenceStr]
  | page :: pages, str, h, hfit => by
    have hpage := length_pageStr_le (h page List.mem_cons_self)
    rw [List.length_cons] at hfit
    have htemp : (pageStr page).length < tempBuffSize := by
      unfold tempBuffSize
      omega
    have hstr : (str ++ pageStr page).length < referenceStrSize := by
      rw [List.length_append]
      omega
    have hrest := referenceRow_fits pages (str ++ pageStr page) (fun p hp => h p (List.mem_cons_of_mem _ hp))
      (by rw [List.length_append]; omega)
    rw [referenceRow, buffer, if_pos htemp, Option.bind_some, buffer, if_pos hstr, Option.bind_some, hrest]
    simp [referenceStr]

/-! ## process.c -/

/-- After a fault the process waits for the page to be loaded. -/
def procWait (s : Proc) : Proc := if s.pc = .recvLoaded then procLoaded s else s

/-- What the process sends to the MMU when its requests are answered one by one, up to the first without an answer. -/
def requests (refstr : List Char) (pid : Int) : List Int → Proc → List Int
  | [], s => if s.pc = .loop then [(procLoop refstr pid s).1.2] else []
  | r :: rs, s =>
    if s.pc = .loop then
      let q := procLoop refstr pid s
      q.1.2 :: if q.2.pc = .recvReply then requests refstr pid rs (procWait (procReply r q.2)) else []
    else []

/-- The process at the head of its loop for the first time. -/
def procStart : Proc := { procInit with pc := .loop }

/-! ### What it should send -/

/-- The pages of a list, each again after a fault (-1), and `-9` after the last; an illegal page (-2) is the end. -/
def asked : List ℕ → List Int → List Int
  | [], _ => [-9]
  | page :: _, [] => [(page : Int)]
  | page :: pages, r :: rs =>
    (page : Int) :: if r = -2 then [] else if r = -1 then asked (page :: pages) rs else asked pages rs

/-- The answers that come to `faults n` faults on the page with number `n`, then a frame. -/
def answers (faults : ℕ → ℕ) (frame : ℕ → ℕ) : ℕ → ℕ → List Int
  | 0, _ => []
  | left + 1, n => List.replicate (faults n) (-1) ++ (frame n : Int) :: answers faults frame left (n + 1)

/-- Each page once and once more for each fault. -/
def withFaults (faults : ℕ → ℕ) : List ℕ → ℕ → List Int
  | [], _ => []
  | page :: pages, n => List.replicate (faults n + 1) (page : Int) ++ withFaults faults pages (n + 1)

theorem procLoop_offset {pages : List ℕ} (hint : ∀ page ∈ pages, page < 2 ^ 31) (pid : Int) {s : Proc} {n : ℕ}
    (hi : s.i = offset pages n) (hn : n < pages.length) :
    procLoop (referenceStr pages) pid s = ((pid, (pages[n] : Int)),
      { s with prevI := offset pages n, page := pages[n], i := offset pages (n + 1), pc := .recvReply }) := by
  have hread := readPage_offset (List.getElem?_eq_getElem hn) (hint _ (List.getElem_mem hn))
  unfold procLoop
  rw [hi, if_pos ((offset_lt_iff pages n).2 hn), hread]

theorem procLoop_end {pages : List ℕ} (pid : Int) {s : Proc} {n : ℕ} (hi : s.i = offset pages n) (hn : pages.length ≤ n) :
    procLoop (referenceStr pages) pid s = ((pid, -9), { s with out := s.out ++ [.gotAll, .terminating], pc := .exited }) := by
  unfold procLoop
  rw [hi, if_neg (fun hlt => absurd ((offset_lt_iff pages n).1 hlt) (Nat.not_lt.2 hn))]

/-- **The process asks for what is left of the list**, whatever it is answered. -/
theorem requests_eq {pages : List ℕ} (hint : ∀ page ∈ pages, page < 2 ^ 31) (pid : Int) : ∀ (rs : List Int) {s : Proc} {n : ℕ},
    s.pc = .loop → s.i = offset pages n → requests (referenceStr pages) pid rs s = asked (pages.drop n) rs
  | [], s, n, hpc, hi => by
    unfold requests
    rw [if_pos hpc]
    rcases Nat.lt_or_ge n pages.length with hn | hn
    · rw [procLoop_offset hint pid hi hn, List.drop_eq_getElem_cons hn]
      rfl
    · rw [procLoop_end pid hi hn, List.drop_eq_nil_of_le hn]
      rfl
  | r :: rs, s, n, hpc, hi => by
    unfold requests
    rw [if_pos hpc]
    rcases Nat.lt_or_ge n pages.length with hn | hn
    · simp only [procLoop_offset hint pid hi hn, if_true]
      rw [List.drop_eq_getElem_cons hn, asked]
      congr 1
      unfold procReply
      split
      · -- an illegal page ends the process
        cases rs <;> simp [requests, procWait]
      split
      · -- a fault takes the cursor back to the page
        rw [← List.drop_eq_getElem_cons hn]
        exact requests_eq hint pid rs rfl (Int.toNat_natCast _)
      · exact requests_eq hint pid rs rfl rfl
    · rw [procLoop_end pid hi hn, List.drop_eq_nil_of_le hn]
      rfl

theorem asked_faults (page : ℕ) (pages : List ℕ) (rs : List Int) : ∀ k : ℕ,
    asked (page :: pages) (List.replicate k (-1) ++ rs) = List.replicate k (page : Int) ++ asked (page :: pages) rs
  | 0 => rfl
  | k + 1 => by
    rw [List.replicate_succ, List.cons_append, asked, if_neg (by decide), if_pos rfl, asked_faults page pages rs k]
    rfl

theorem asked_answers (faults frame : ℕ → ℕ) : ∀ (pages : List ℕ) (n : ℕ),
    asked pages (answers faults frame pages.length n) = withFaults faults pages n ++ [-9]
  | [], _ => rfl
  | page :: pages, n => by
    rw [List.length_cons, answers, asked_faults, asked, if_neg (by omega), if_neg (by omega),
      asked_answers faults frame pages (n + 1), withFaults, List.replicate_succ']
    simp

/-- **Reference strings survive the trip from master to process.**  master's choices are lists of at most `10 * mi` pages
below `m`; such a list fits into its rows and, as a string, into the process's `refstr`; and whatever the process is
answered, it asks for the pages of the list in order, a page again after each fault and nothing else. -/
theorem refstr_roundTrip (m : ℕ) (hm : 1 ≤ m) (hm25 : m ≤ 25) :
    (∀ rand illegal, IsRefs m (genRefs m rand illegal)) ∧
    ∀ r, IsRefs m r →
      refPagesRow refPagesSize r.pages [] = some r.pages ∧
      ∃ str, referenceRow r.pages [] = some str ∧ buffer refstrSize str = some str ∧
        (∀ pid replies, requests str pid replies procStart = asked r.pages replies) ∧
        ∀ pid faults frame, requests str pid (answers faults frame r.pages.length 0) procStart =
          withFaults faults r.pages 0 ++ [-9] := by
  refine ⟨genRefs_isRefs hm, fun r hr => ?_⟩
  have hlen := hr.length_le
  have hle := hr.le
  have hsmall : ∀ page ∈ r.pages, page < 100 := fun page hpage => Nat.lt_trans (hr.lt page hpage) (by omega)
  have hstr := length_referenceStr_le r.pages hsmall
  have hrequests : ∀ pid replies, requests (referenceStr r.pages) pid replies procStart = asked r.pages replies :=
    fun pid replies => requests_eq (fun page hpage => Nat.lt_trans (hsmall page hpage) (by decide)) pid replies
      (s := procStart) (n := 0) rfl rfl
  refine ⟨refPagesRow_fits r.pages [] ?_, referenceStr r.pages, referenceRow_fits r.pages [] hsmall ?_, if_pos ?_, hrequests,
    fun pid faults frame => ?_⟩
  · unfold refPagesSize
    rw [List.length_nil]
    omega
  · unfold referenceStrSize
    rw [List.length_nil]
    omega
  · unfold refstrSize
    omega
  · rw [hrequests, asked_answers]

theorem refstr_roundTrip_two : referenceRow [1, 12, 0] [] = some ['1', '.', '1', '2', '.', '0', '.'] ∧
    requests ['1', '.', '1', '2', '.', '0', '.'] 7 (answers (fun n => n % 2) (fun _ => 3) 3 0) procStart =
      [1, 12, 12, 0, -9] := by
  obtain ⟨-, str, hrow, -, -, hrequests⟩ := (refstr_roundTrip 13 (by decide) (by decide)).2 ⟨2, [1, 12, 0]⟩
    ⟨by decide, by decide, by decide, by decide⟩
  obtain rfl : ['1', '.', '1', '2', '.', '0', '.'] = str := Option.some.inj hrow
  exact ⟨hrow, hrequests 7 (fun n => n % 2) (fun _ => 3)⟩

end Paging
end OsLab
