import OsLab.CountedLoop
import OsLab.DecimalText
/-!
# GraphFile — graph.txt, written by gengraph.c and read by boss.c

The number of vertices, then a line of the adjacency matrix for each vertex with a blank after every entry.  What the loops of
gengraph.c print is the text of the matrix (`printGraph_eq`), and those of boss.c read the matrix back from it
(`readGraph_graphText`).
-/
namespace OsLab
namespace TopSort

open DecimalText

/-! ### gengraph.c -/

/-- What stands in the matrix; `none` has not been assigned. -/
abbrev Entries := ℕ → ℕ → Option ℤ

def printEntry (A : Entries) (i j : ℕ) (out : List Char) : Option (List Char) :=
  (A i j).map fun x => out ++ (text x ++ [' '])

def printRow (n : ℕ) (A : Entries) (i : ℕ) (out : List Char) : Option (List Char) :=
  (forRange (printEntry A i) 0 n out).map (· ++ ['\n'])

/-- Lines 29 to 33. -/
def printGraph (n : ℕ) (A : Entries) : Option (List Char) := forRange (printRow n A) 0 n (text n ++ ['\n'])

/-! ### boss.c -/

structure Reading where
  /-- The shared memory. -/
  A : ℕ → ℕ → ℤ
  /-- The file from its position on. -/
  rest : List Char

/-- `fscanf(file, "%d", &A[i][j])`: `none` is the `exit(1)` when nothing was read. -/
def readEntry (i j : ℕ) (s : Reading) : Option Reading :=
  match scan s.rest with
  | (some x, rest) => some ⟨Function.update s.A i (Function.update (s.A i) j x), rest⟩
  | (none, _) => none

/-- The reads of `main`: the number of vertices and the matrix. -/
def readGraph (A : ℕ → ℕ → ℤ) (file : List Char) : Option (ℤ × (ℕ → ℕ → ℤ)) :=
  match scan file with
  | (some n, rest) =>
    (forRange (fun i => forRange (readEntry i) 0 n.toNat) 0 n.toNat ⟨A, rest⟩).map fun s => (n, s.A)
  | (none, _) => none

/-! ### The text of a matrix -/

variable {n : ℕ} {M : ℕ → ℕ → ℤ}

def rowText (n : ℕ) (M : ℕ → ℕ → ℤ) (i : ℕ) : List Char :=
  (List.range' 0 n).flatMap (fun j => text (M i j) ++ [' ']) ++ ['\n']

def graphText (n : ℕ) (M : ℕ → ℕ → ℤ) : List Char := text n ++ ['\n'] ++ (List.range' 0 n).flatMap (rowText n M)

/-- **gengraph.c prints the text of the matrix**, once every entry has been assigned. -/
theorem printGraph_eq {A : Entries} (hA : ∀ i < n, ∀ j < n, A i j = some (M i j)) :
    printGraph n A = some (graphText n M) := by
  refine forRange_append _ (rowText n M) (Nat.zero_le n) _ (fun i out _ hi => ?_)
  have hrow := forRange_append (printEntry A i) (fun j => text (M i j) ++ [' ']) (Nat.zero_le n) out
    (fun j out _ hj => by rw [printEntry, hA i hi j hj, Option.map_some])
  rw [printRow, hrow, Option.map_some, List.append_assoc]
  rfl

/-- Nothing but blanks stands before the text. -/
def Before (cs rest : List Char) : Prop := ∃ blanks, rest = blanks ++ cs ∧ ∀ c ∈ blanks, isSpace c = true

theorem Before.newline {cs rest : List Char} (h : Before ('\n' :: cs) rest) : Before cs rest := by
  obtain ⟨blanks, hrest, hblanks⟩ := h
  refine ⟨blanks ++ ['\n'], by simp [hrest], fun c hc => ?_⟩
  rcases List.mem_append.1 hc with hc | hc
  · exact hblanks c hc
  · rw [List.mem_singleton.1 hc]
    rfl

theorem readEntry_text {x : ℤ} (hx : IsInt x) {cs : List Char} (i j : ℕ) {s : Reading}
    (h : Before (text x ++ ' ' :: cs) s.rest) :
    ∃ rest, readEntry i j s = some ⟨Function.update s.A i (Function.update (s.A i) j x), rest⟩ ∧ Before cs rest := by
  obtain ⟨blanks, hrest, hblanks⟩ := h
  have hscan := scan_text hx hblanks (stops_blank cs)
  refine ⟨' ' :: cs, ?_, [' '], by simp, blank_isSpace⟩
  rw [readEntry, hrest, hscan]

/-- A row is read into its place. -/
theorem readRow_text (hM : ∀ i < n, ∀ j < n, IsInt (M i j)) {i : ℕ} (hi : i < n) {cs : List Char} {s : Reading}
    (h : Before (rowText n M i ++ cs) s.rest) :
    ∃ s', forRange (readEntry i) 0 n s = some s' ∧ Before cs s'.rest ∧ (∀ j < n, s'.A i j = M i j) ∧
      ∀ a, a ≠ i → s'.A a = s.A a := by
  obtain ⟨s', hs', hbefore, hread, hsame⟩ := forRange_inv (readEntry i) (s := s) (fun j t =>
      Before ((List.range' j (n - j)).flatMap (fun j => text (M i j) ++ [' ']) ++ '\n' :: cs) t.rest ∧
      (∀ b < j, t.A i b = M i b) ∧ ∀ a, a ≠ i → t.A a = s.A a) (Nat.zero_le n)
    (fun j t _ hj ⟨hbefore, hread, hsame⟩ => by
      rw [show n - j = n - (j + 1) + 1 by omega, List.range'_succ, List.flatMap_cons] at hbefore
      have hentry' : Before (text (M i j) ++ ' ' ::
          ((List.range' (j + 1) (n - (j + 1))).flatMap (fun j => text (M i j) ++ [' ']) ++ '\n' :: cs)) t.rest := by
        simpa using hbefore
      obtain ⟨rest, hentry, hrest⟩ := readEntry_text (hM i hi j hj) i j hentry'
      refine ⟨_, hentry, hrest, fun b hb => ?_, fun a ha => ?_⟩
      · rcases Nat.lt_succ_iff_lt_or_eq.1 hb with hb | rfl
        · simp [Function.update_of_ne (Nat.ne_of_lt hb), hread b hb]
        · simp
      · exact (Function.update_of_ne ha _ _).trans (hsame a ha))
    ⟨by simpa [rowText] using h, fun b hb => absurd hb (Nat.not_lt_zero b), fun _ _ => rfl⟩
  rw [Nat.sub_self, List.range'_zero, List.flatMap_nil, List.nil_append] at hbefore
  exact ⟨s', hs', hbefore.newline, hread, hsame⟩

/-- **boss.c reads the matrix back**, whatever the shared memory held. -/
theorem readGraph_graphText (hn : IsInt n) (hM : ∀ i < n, ∀ j < n, IsInt (M i j)) (A : ℕ → ℕ → ℤ) :
    ∃ B, readGraph A (graphText n M) = some ((n : ℤ), B) ∧ ∀ i < n, ∀ j < n, B i j = M i j := by
  have hscan : scan (graphText n M) = (some (n : ℤ), '\n' :: (List.range' 0 n).flatMap (rowText n M)) := by
    have h := scan_text hn (List.forall_mem_nil _) (stops_newline ((List.range' 0 n).flatMap (rowText n M)))
    simpa [graphText] using h
  obtain ⟨s, hs, -, hread⟩ := forRange_inv (fun i => forRange (readEntry i) 0 n)
    (s := ⟨A, '\n' :: (List.range' 0 n).flatMap (rowText n M)⟩) (fun i t =>
      Before ((List.range' i (n - i)).flatMap (rowText n M)) t.rest ∧ ∀ a < i, ∀ b < n, t.A a b = M a b)
    (Nat.zero_le n)
    (fun i t _ hi ⟨hbefore, hread⟩ => by
      rw [show n - i = n - (i + 1) + 1 by omega, List.range'_succ, List.flatMap_cons] at hbefore
      obtain ⟨t', ht', hbefore', hrow, hsame⟩ := readRow_text hM hi hbefore
      refine ⟨t', ht', hbefore', fun a ha b hb => ?_⟩
      rcases Nat.lt_succ_iff_lt_or_eq.1 ha with ha | rfl
      · rw [hsame a (Nat.ne_of_lt ha)]
        exact hread a ha b hb
      · exact hrow b hb)
    ⟨⟨['\n'], by simp, by simp [isSpace]⟩, fun a ha => absurd ha (Nat.not_lt_zero a)⟩
  refine ⟨s.A, ?_, hread⟩
  rw [readGraph, hscan]
  simp only [Int.toNat_natCast, hs, Option.map_some]

end TopSort
end OsLab
