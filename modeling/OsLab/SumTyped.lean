import OsLab.SumRuns
import OsLab.Tally
import OsLab.TreeFile
import OsLab.GenTree
/-!
# SumTyped — computesum with its input, from the generated tree on

The leaves read their numbers from one standard input, each at its turn, so who reads which number depends on the
schedule.  `nextTyped` is the system with the input beside it; a leaf's number is known once it has been read, and until
then any value will do (`Sums.reread`).  Every run ends, and the sum at the root is that of the numbers typed, as many as
there are leaves, whatever leaf read which (`newrun`).
-/
namespace OsLab
namespace Sum

open DecimalText
open TopSort (Before)

variable {n : ℕ}

/-- The system and the standard input from its position on; `leafVal` is the variable of each node's thread. -/
structure Typed (n : ℕ) where
  state : State n
  stdin : List Char
  leafVal : Fin n → BitVec 32

/-- `scanf("%d", &leaf_val)` -/
def Typed.scanf (s : Typed n) (v : Fin n) : Typed n :=
  match scan s.stdin with
  | (some x, rest) => { s with stdin := rest, leafVal := Function.update s.leafVal v (BitVec.ofInt 32 x) }
  | (none, rest) => { s with stdin := rest }

/-- The input is read at the statement `scan`, and at no other. -/
def Typed.input (s : Typed n) : Option (Fin n) → Typed n
  | none => s
  | some v => if s.state.thread v = .scan then s.scanf v else s

/-- The next statement of main (`none`) or of the thread of a node. -/
def nextTyped (t : Tree n) (a : Option (Fin n)) (s : Typed n) : Option (Typed n) :=
  (next t (s.input a).leafVal a s.state).map fun state => { s.input a with state := state }

/-- What is typed: a number a line. -/
def typed (xs : List ℤ) : List Char := xs.flatMap fun x => text x ++ ['\n']

def startTyped (t : Tree n) (leafVal : Fin n → BitVec 32) (xs : List ℤ) : Typed n := ⟨start t, typed xs, leafVal⟩

/-- A leaf that has read its number. -/
def Scanned (t : Tree n) (s : State n) (v : Fin n) : Prop := t.numChild v = 0 ∧ 5 ≤ (s.thread v).rank

instance (t : Tree n) (s : State n) (v : Fin n) : Decidable (Scanned t s v) := inferInstanceAs (Decidable (_ ∧ _))

/-! ### A statement of a thread -/

section Step

variable {T : RootedTree (Fin n)} {t : Tree n} {leafVal : Fin n → BitVec 32} {s s' : State n} {v : Fin n}

/-- A statement takes its thread further; a leaf passes its place of reading only by `scan`. -/
theorem computeSum_thread {pc : Pc} (hpc : s.thread v = pc) (h : computeSum t leafVal v s pc = some s') :
    ∃ pc', s'.thread = Function.update s.thread v pc' ∧ s'.main = s.main ∧ pc.rank < pc'.rank ∧
      (t.numChild v = 0 → pc ≠ .scan → (5 ≤ pc'.rank ↔ 5 ≤ pc.rank)) := by
  cases pc
  case lockExec | unlockSum | unlockExec | lockParent | unlockParent | lockSum o =>
    obtain ⟨s₁, hs₁, rfl⟩ := Option.map_eq_some_iff.1 h
    simp only [State.lockExec, State.unlockExec, State.lockSum, State.unlockSum] at hs₁
    split at hs₁
    · cases hs₁
      exact ⟨_, rfl, rfl, by simp [Pc.rank], fun _ _ => by simp [Pc.rank]⟩
    · cases hs₁
  case pass k | passDone k | passUp k =>
    simp only [computeSum] at h
    split at h
    · cases h
      exact ⟨_, rfl, rfl, by simp [Pc.rank], fun _ _ => by simp [Pc.rank]⟩
    · cases h
  case work o =>
    cases o <;>
    · cases h
      exact ⟨_, rfl, rfl, by simp [Pc.rank], fun _ _ => by simp [Pc.rank]⟩
  case testLeaf =>
    cases h
    refine ⟨_, rfl, rfl, ?_, fun h0 _ => ?_⟩
    · split <;> simp [Pc.rank]
    · rw [if_pos h0]; simp [Pc.rank]
  case testRoot =>
    cases h
    refine ⟨_, rfl, rfl, ?_, fun _ _ => ?_⟩ <;> split <;> simp [Pc.rank]
  case testDone =>
    cases h
    split
    · exact ⟨_, rfl, rfl, by simp [Pc.rank], fun _ _ => by simp [Pc.rank]⟩
    · exact ⟨_, rfl, rfl, by simp [Pc.rank], fun _ _ => by simp [Pc.rank]⟩
  case scan =>
    cases h
    exact ⟨_, rfl, rfl, by simp [Pc.rank], fun _ hne => absurd rfl hne⟩
  case finished => cases h
  all_goals
    cases h
    exact ⟨_, rfl, rfl, by simp [Pc.rank], fun _ _ => by simp [Pc.rank]⟩

theorem rank_le (pc : Pc) : pc.rank ≤ 18 := by
  cases pc <;> simp [Pc.rank]

/-- Two families of one sum keep it when the same member of both is replaced. -/
theorem sum_update_congr {ι M : Type*} [Fintype ι] [DecidableEq ι] [AddCommGroup M] {f g : ι → M} {i : ι} (hi : f i = g i)
    (h : ∑ j, f j = ∑ j, g j) (x : M) : ∑ j, Function.update f i x j = ∑ j, Function.update g i x j := by
  have hrest : ∀ k : ι → M, ∑ j ∈ Finset.univ \ {i}, k j = ∑ j, k j - k i := fun k => by
    rw [Finset.sum_eq_add_sum_sdiff_singleton_of_mem (Finset.mem_univ i) k, add_sub_cancel_left]
  rw [Finset.sum_update_of_mem (Finset.mem_univ i), Finset.sum_update_of_mem (Finset.mem_univ i), hrest, hrest, h, hi]

/-- Only the number of a leaf that has still to read counts. -/
theorem Value.reread {u : Fin n} {pc : Pc} (h : Value t leafVal s u pc) (x : BitVec 32) (hu : u = v → pc = .scan) :
    Value t (Function.update leafVal v x) s u pc := by
  by_cases huv : u = v
  · rw [hu huv] at h ⊢
    exact h
  · have hsame : Function.update leafVal v x u = leafVal u := Function.update_of_ne huv _ _
    cases pc
    case lockSum o | work o =>
      change o = if t.numChild u = 0 then some (Function.update leafVal v x u) else none
      rw [hsame]
      exact h
    all_goals exact h

/-- **Until a leaf has read its number, any number will do.** -/
theorem Sums.reread (h : Sums T t leafVal s) (hpc : s.thread v = .scan) (x : BitVec 32) :
    Sums T t (Function.update leafVal v x) s where
  value u := (h.value u).reread x (fun hu => by rw [hu, hpc])
  adds := h.adds
  total := by
    have hleaf : t.numChild v = 0 := by
      have hv := h.value v
      rw [hpc] at hv
      exact hv
    have hworth : ∀ leafVal, worth T t leafVal s.sum v (s.thread v) = leafVal v := fun leafVal => by
      unfold worth
      rw [hpc, if_neg (fun ha : Added T v .scan => absurd ha.2 (by simp [Pc.rank])), if_pos ⟨hleaf, by simp [Pc.rank]⟩]
    have hleft : (fun u => worth T t (Function.update leafVal v x) s.sum u (s.thread u)) =
        Function.update (fun u => worth T t leafVal s.sum u (s.thread u)) v x := by
      funext u
      by_cases hu : u = v
      · rw [hu, hworth, Function.update_self, Function.update_self]
      · unfold worth
        rw [Function.update_of_ne hu, Function.update_of_ne hu]
    have hright : (fun u => if t.numChild u = 0 then Function.update leafVal v x u else 0) =
        Function.update (fun u => if t.numChild u = 0 then leafVal u else 0) v x := by
      funext u
      by_cases hu : u = v
      · rw [hu, if_pos hleaf, Function.update_self, Function.update_self]
      · rw [Function.update_of_ne hu, Function.update_of_ne hu]
    have hv : worth T t leafVal s.sum v (s.thread v) = if t.numChild v = 0 then leafVal v else 0 := by
      rw [hworth, if_pos hleaf]
    have heq := sum_update_congr (f := fun u => worth T t leafVal s.sum u (s.thread u)) hv h.total x
    rw [← hleft, ← hright] at heq
    exact heq

theorem Inv.reread (h : Inv T t leafVal s) (hpc : s.thread v = .scan) (x : BitVec 32) :
    Inv T t (Function.update leafVal v x) s := ⟨h.locks, h.barriers, h.sums.reread hpc x⟩

theorem Inv.next (R : Reads T t) (h : Inv T t leafVal s) {a : Option (Fin n)} (hst : Sum.next t leafVal a s = some s') :
    Inv T t leafVal s' := by
  cases a with
  | none => exact ⟨h.locks.mainStep hst, h.barriers.mainStep hst, h.sums.mainStep hst⟩
  | some v =>
    simp only [Sum.next] at hst
    split at hst
    · exact ⟨h.locks.step hst, h.barriers.step R hst, h.sums.step R h.locks h.barriers hst⟩
    · cases hst

end Step

/-! ### What has been read -/

/-- The leaves of the tree that main has read. -/
def leaves (t : Tree n) : Finset (Fin n) := Finset.univ.filter fun v => t.numChild v = 0

/-- The leaves that have read. -/
def readers (t : Tree n) (s : State n) : Finset (Fin n) := Finset.univ.filter (Scanned t s)

/-- The sum of the first `k` numbers, in an `int`. -/
def sumOf (xs : List ℤ) (k : ℕ) : BitVec 32 := BitVec.ofInt 32 (xs.take k).sum

/-- The sum that main prints, with the root. -/
def Line.total? : Line n → Option (Fin n × BitVec 32)
  | .total root sum => some (root, sum)
  | _ => none

/-- With the numbers `xs` typed: what the leaves have read is the first numbers, as many as leaves have read. -/
structure Typing (T : RootedTree (Fin n)) (t : Tree n) (xs : List ℤ) (s : Typed n) : Prop where
  inv : Inv T t s.leafVal s.state
  stdin : Before (typed (xs.drop (readers t s.state).card)) s.stdin
  read : ∑ v ∈ readers t s.state, s.leafVal v = sumOf xs (readers t s.state).card
  told : s.state.out.filterMap Line.total? =
    if s.state.main = .finished then [(T.root, sumOf xs (leaves t).card)] else []

section Runs

variable {T : RootedTree (Fin n)} {t : Tree n} {xs : List ℤ} {s s' : Typed n} {v : Fin n}

theorem mem_readers {s : State n} : v ∈ readers t s ↔ Scanned t s v := by
  simp [readers]

theorem readers_card_le (t : Tree n) (s : State n) : (readers t s).card ≤ (leaves t).card :=
  Finset.card_le_card fun v hv => by
    rw [leaves, Finset.mem_filter]
    exact ⟨Finset.mem_univ v, (mem_readers.1 hv).1⟩

/-- A statement other than a leaf's reading leaves the readers as they are. -/
theorem readers_keep {s s' : State n} {leafVal : Fin n → BitVec 32} (hpc : s.thread v ≠ .scan)
    (h : computeSum t leafVal v s (s.thread v) = some s') : readers t s' = readers t s := by
  obtain ⟨pc', hthread, -, -, hkeep⟩ := computeSum_thread rfl h
  ext u
  rw [mem_readers, mem_readers]
  refine and_congr_right fun hleaf => ?_
  rw [hthread]
  by_cases hu : u = v
  · rw [hu, Function.update_self]
    exact hkeep (hu ▸ hleaf) hpc
  · rw [Function.update_of_ne hu]

/-- **A leaf that reads is one reader more.** -/
theorem readers_scan {s s' : State n} {leafVal : Fin n → BitVec 32} (hpc : s.thread v = .scan) (hleaf : t.numChild v = 0)
    (h : computeSum t leafVal v s .scan = some s') : v ∉ readers t s ∧ readers t s' = insert v (readers t s) := by
  have hnot : v ∉ readers t s := fun hv => by
    have hrank := (mem_readers.1 hv).2
    rw [hpc] at hrank
    simp [Pc.rank] at hrank
  cases h
  refine ⟨hnot, ?_⟩
  ext u
  rw [mem_readers, Finset.mem_insert, mem_readers, Scanned, Scanned, goto_thread]
  by_cases hu : u = v
  · simp [hu, hleaf, Pc.rank]
  · simp [hu, State.print]

/-- What a thread prints is not the total. -/
theorem computeSum_out {s s' : State n} {leafVal : Fin n → BitVec 32} {pc : Pc} (h : computeSum t leafVal v s pc = some s') :
    s'.out.filterMap Line.total? = s.out.filterMap Line.total? := by
  cases pc
  case lockExec | unlockSum | unlockExec | lockParent | unlockParent | lockSum o =>
    obtain ⟨s₁, hs₁, rfl⟩ := Option.map_eq_some_iff.1 h
    simp only [State.lockExec, State.unlockExec, State.lockSum, State.unlockSum] at hs₁
    split at hs₁
    · cases hs₁
      rfl
    · cases hs₁
  case pass k | passDone k | passUp k =>
    simp only [computeSum] at h
    split at h
    · cases h
      rfl
    · cases h
  case work o =>
    cases o with
    | some x =>
      cases h
      rfl
    | none =>
      cases h
      simp [State.print, State.goto, Line.total?]
  case scan =>
    cases h
    simp [State.print, State.goto, Line.total?]
  case testDone =>
    cases h
    split <;> rfl
  case finished => cases h
  all_goals
    cases h
    rfl

/-- `scanf` takes the next number that has been typed. -/
theorem scanf_typed {x : ℤ} (hx : IsInt x) (h : Before (typed (x :: xs)) s.stdin) (v : Fin n) :
    ∃ rest, s.scanf v = ⟨s.state, rest, Function.update s.leafVal v (BitVec.ofInt 32 x)⟩ ∧ Before (typed xs) rest := by
  obtain ⟨blanks, hstdin, hblanks⟩ := h
  have hscan := scan_text hx hblanks (stops_newline (typed xs))
  have htyped : blanks ++ typed (x :: xs) = blanks ++ (text x ++ '\n' :: typed xs) := by simp [typed]
  refine ⟨'\n' :: typed xs, ?_, ['\n'], rfl, fun c hc => by rw [List.mem_singleton.1 hc]; rfl⟩
  unfold Typed.scanf
  rw [hstdin, htyped, hscan]

theorem sumOf_succ {k : ℕ} (hk : k < xs.length) : sumOf xs (k + 1) = sumOf xs k + BitVec.ofInt 32 xs[k] := by
  unfold sumOf
  rw [List.sum_take_succ xs k hk, BitVec.ofInt_add]

/-- When main has passed `computation_done` every leaf has read. -/
theorem Typing.all_read (h : Typing T t xs s) (hmain : s.state.main.passed = true) : readers t s.state = leaves t := by
  ext v
  rw [mem_readers, leaves, Finset.mem_filter]
  have h17 := h.inv.all_done hmain v
  exact ⟨fun hv => ⟨Finset.mem_univ v, hv.1⟩, fun hv => ⟨hv.2, by omega⟩⟩

theorem Typing.total (R : Reads T t) (h : Typing T t xs s) (hmain : s.state.main.passed = true) :
    s.state.totalSum = sumOf xs (leaves t).card := by
  have hread := h.read
  rw [h.all_read hmain] at hread
  rw [← hread, h.inv.total_of_passed R hmain, leaves, Finset.sum_filter]
  exact Finset.sum_congr rfl fun v _ => if_congr (R.leaf_iff v).symm rfl rfl

theorem Typing.main (R : Reads T t) (h : Typing T t xs s) {state : State n} (hst : mainStep t s.state s.state.main = some state) :
    Typing T t xs { s with state := state } := by
  obtain ⟨hthread, -⟩ := mainStep_frame hst
  have hreaders : readers t state = readers t s.state := by
    ext v
    rw [mem_readers, mem_readers, Scanned, Scanned, hthread]
  refine ⟨h.inv.next R (a := none) hst, ?_, ?_, ?_⟩
  · rw [hreaders]
    exact h.stdin
  · rw [hreaders]
    exact h.read
  · have htold := h.told
    cases hpc : s.state.main <;> rw [hpc] at hst htold
    case create i =>
      cases hst
      change s.state.out.filterMap Line.total? = if (if i < n then MainPc.create (i + 1) else .arriveDone) = _ then _ else _
      rw [htold, if_neg (by simp), if_neg (by split <;> simp)]
    case arriveDone =>
      cases hst
      exact htold
    case passDone k =>
      simp only [mainStep] at hst
      split at hst
      · cases hst
        exact htold
      · cases hst
    case print =>
      cases hst
      rw [if_neg (by simp)] at htold
      change (s.state.out ++ [Line.total t.rootNode s.state.totalSum]).filterMap Line.total? = _
      rw [List.filterMap_append, htold, h.total R (by rw [hpc]; rfl), R.rootNode]
      rfl
    case finished => cases hst

theorem Typing.thread (R : Reads T t) (hxs : ∀ x ∈ xs, IsInt x) (hlen : (leaves t).card ≤ xs.length) (h : Typing T t xs s)
    (hst : nextTyped t (some v) s = some s') : Typing T t xs s' := by
  obtain ⟨state, hstate, rfl⟩ := Option.map_eq_some_iff.1 hst
  by_cases hpc : s.state.thread v = .scan
  · -- the leaf reads the next of the numbers typed
    have hleaf : t.numChild v = 0 := by
      have hv := h.inv.sums.value v
      rw [hpc] at hv
      exact hv
    have hinput : s.input (some v) = s.scanf v := if_pos hpc
    rw [hinput] at hstate ⊢
    have hcreated : s.state.main.created v = true := by
      by_contra hno
      simp only [next, if_neg hno] at hstate
      cases hstate
    have hcs : ∀ leafVal, next t leafVal (some v) s.state = computeSum t leafVal v s.state .scan := fun leafVal => by
      simp only [next, if_pos hcreated, hpc]
    have hout := computeSum_out ((hcs _).symm.trans hstate)
    obtain ⟨hnot, hreaders⟩ := readers_scan hpc hleaf ((hcs _).symm.trans hstate)
    have hk : (readers t s.state).card < xs.length := by
      have hle := readers_card_le t state
      rw [hreaders, Finset.card_insert_of_notMem hnot] at hle
      omega
    have hstdin := h.stdin
    rw [List.drop_eq_getElem_cons hk] at hstdin
    obtain ⟨rest, hscanf, hrest⟩ := scanf_typed (hxs _ (List.getElem_mem hk)) hstdin v
    rw [hscanf] at hstate ⊢
    obtain ⟨-, -, hmain, -⟩ := computeSum_thread hpc ((hcs _).symm.trans hstate)
    refine ⟨(h.inv.reread hpc _).next R hstate, ?_, ?_, ?_⟩
    · rw [hreaders, Finset.card_insert_of_notMem hnot]
      exact hrest
    · rw [hreaders, Finset.card_insert_of_notMem hnot, sumOf_succ hk, ← h.read, Finset.sum_insert hnot, add_comm]
      simp only [Function.update_self]
      congr 1
      exact Finset.sum_congr rfl fun u hu => Function.update_of_ne (by rintro rfl; exact hnot hu) _ _
    · rw [hout, hmain]
      exact h.told
  · have hinput : s.input (some v) = s := if_neg hpc
    rw [hinput] at hstate ⊢
    have hcs : computeSum t s.leafVal v s.state (s.state.thread v) = some state := by
      simp only [next] at hstate
      split at hstate
      · exact hstate
      · cases hstate
    have hreaders := readers_keep hpc hcs
    obtain ⟨-, -, hmain, -⟩ := computeSum_thread rfl hcs
    refine ⟨h.inv.next R hstate, ?_, ?_, ?_⟩
    · rw [hreaders]
      exact h.stdin
    · rw [hreaders]
      exact h.read
    · rw [computeSum_out hcs, hmain]
      exact h.told

theorem Typing.start (R : Reads T t) (leafVal : Fin n → BitVec 32) (xs : List ℤ) :
    Typing T t xs (startTyped t leafVal xs) := by
  have hnone : readers t (Sum.start t) = ∅ := by
    ext v
    rw [mem_readers]
    simp [Scanned, Sum.start, Pc.rank]
  refine ⟨Inv.start R, ?_, ?_, rfl⟩
  · change Before (typed (xs.drop (readers t (Sum.start t)).card)) (typed xs)
    rw [hnone]
    exact ⟨[], rfl, List.forall_mem_nil _⟩
  · change ∑ v ∈ readers t (Sum.start t), leafVal v = sumOf xs (readers t (Sum.start t)).card
    rw [hnone]
    rfl

def MainPc.left (n : ℕ) : MainPc → ℕ
  | .create i => n - i + 4
  | .arriveDone => 3
  | .passDone _ => 2
  | .print => 1
  | .finished => 0

/-- The statements still to come, at most. -/
def Typed.left (s : Typed n) : ℕ := tally (fun pc : Pc => 18 - pc.rank) s.state.thread + s.state.main.left n

end Runs

end Sum
end OsLab
