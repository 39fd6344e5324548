import OsLab.SumTotal
/-!
# SumRuns — the sum at the root, whatever the schedule

A state where nobody can go on is the end: who stands between the calls of a mutex can go on, so all mutexes are free and
only barriers are left to wait at; from the leaves up, every node passes its own, and so its children pass it too.  When
main has passed `computation_done` the root is done, hence, from the root down, every node; each has added its sum to its
parent's once, and what is left is the sum of the leaves (`computes_sum`).
-/
namespace OsLab
namespace Sum

variable {n : ℕ}

/-! ### The tree that main reads -/

theorem readLine_numChild (t : Tree n) (l : Fin n × Fin n) (x : Fin n) :
    (readLine t l).numChild x = t.numChild x + if l.1 ≠ l.2 ∧ l.2 = x then 1 else 0 := by
  unfold readLine
  by_cases hl : l.1 = l.2
  · simp [hl]
  · by_cases hx : l.2 = x
    · subst hx
      simp [hl]
    · simp [hl, hx, Function.update_of_ne (Ne.symm hx)]

theorem readLines_numChild (lines : List (Fin n × Fin n)) (t : Tree n) (x : Fin n) :
    (lines.foldl readLine t).numChild x = t.numChild x + lines.countP (fun l => l.1 ≠ l.2 ∧ l.2 = x) := by
  induction lines generalizing t with
  | nil => rfl
  | cons l ls ih =>
    rw [List.foldl_cons, ih, readLine_numChild, List.countP_cons, Nat.add_assoc, Nat.add_comm (ite _ _ _)]
    simp

theorem readLine_parent (t : Tree n) (l : Fin n × Fin n) : (readLine t l).parent = Function.update t.parent l.1 l.2 := by
  unfold readLine
  by_cases hl : l.1 = l.2 <;> simp [hl]

theorem readLines_parent {f : Fin n → Fin n} (lines : List (Fin n × Fin n)) (t : Tree n) (h : ∀ l ∈ lines, l.2 = f l.1)
    (v : Fin n) : (lines.foldl readLine t).parent v = if v ∈ lines.map Prod.fst then f v else t.parent v := by
  induction lines generalizing t with
  | nil => rfl
  | cons l ls ih =>
    rw [List.foldl_cons, ih _ (fun m hm => h m (List.mem_cons_of_mem _ hm)), readLine_parent, h l List.mem_cons_self,
      List.map_cons]
    by_cases hv : v ∈ ls.map Prod.fst
    · rw [if_pos hv, if_pos (List.mem_cons_of_mem _ hv)]
    · by_cases hl : v = l.1
      · rw [if_neg hv, hl, Function.update_self, if_pos List.mem_cons_self]
      · rw [if_neg hv, Function.update_of_ne hl, if_neg (fun hm => (List.mem_cons.1 hm).elim hl hv)]

theorem readLine_rootNode (t : Tree n) (l : Fin n × Fin n) :
    (readLine t l).rootNode = if l.1 = l.2 then l.1 else t.rootNode := by
  unfold readLine
  by_cases hl : l.1 = l.2 <;> simp [hl]

theorem readLines_rootNode {r : Fin n} (lines : List (Fin n × Fin n)) (t : Tree n)
    (h : ∀ l ∈ lines, l.1 = l.2 → l.1 = r) (hr : t.rootNode = r ∨ (r, r) ∈ lines) :
    (lines.foldl readLine t).rootNode = r := by
  induction lines generalizing t with
  | nil => exact hr.resolve_right (fun hm => by cases hm)
  | cons l ls ih =>
    refine ih _ (fun m hm => h m (List.mem_cons_of_mem _ hm)) ?_
    rw [readLine_rootNode]
    rcases hr with hr | hr
    · left
      split
      · exact h l List.mem_cons_self ‹_›
      · exact hr
    · rcases List.mem_cons.1 hr with hl | hl
      · left
        rw [← hl, if_pos rfl]
      · exact Or.inr hl

/-- **Main reads the tree**, in whatever order its lines stand. -/
theorem reads_readTree (T : RootedTree (Fin n)) (t : Tree n) {lines : List (Fin n × Fin n)}
    (h : lines.Perm ((List.finRange n).map (fun v => (v, T.parent v)))) : Reads T (readTree t lines) := by
  have hmem : ∀ l ∈ lines, l.2 = T.parent l.1 := fun l hl => by
    obtain ⟨v, -, rfl⟩ := List.mem_map.1 (h.mem_iff.1 hl)
    rfl
  have hall : ∀ v, (v, T.parent v) ∈ lines := fun v =>
    h.mem_iff.2 (List.mem_map.2 ⟨v, List.mem_finRange v, rfl⟩)
  constructor
  · funext v
    unfold readTree
    rw [readLines_parent _ _ hmem, if_pos (List.mem_map.2 ⟨_, hall v, rfl⟩)]
  · intro v
    unfold readTree
    rw [readLines_numChild, h.countP_eq, List.countP_map]
    show 0 + _ = _
    rw [Nat.zero_add, children, Finset.card_def, Finset.filter_val, ← Multiset.countP_eq_card_filter]
    show List.countP _ _ = List.countP _ (List.finRange n)
    refine List.countP_congr (fun c _ => ?_)
    simp only [Function.comp_apply, decide_eq_true_eq]
    constructor
    · rintro ⟨hc, hcv⟩
      exact ⟨hcv, fun e => hc (e.trans hcv.symm)⟩
    · rintro ⟨hcv, hc⟩
      exact ⟨fun e => hc (e.trans hcv), hcv⟩
  · refine readLines_rootNode _ _ (fun l hl heq => ?_) (Or.inr ?_)
    · exact T.eq_root_of_fixed ((hmem l hl).symm.trans heq.symm)
    · have hroot := hall T.root
      rw [T.parent_root] at hroot
      exact hroot

/-! ### The invariants of a run -/

structure Inv (T : RootedTree (Fin n)) (t : Tree n) (leafVal : Fin n → BitVec 32) (s : State n) : Prop where
  locks : Locks t s
  barriers : Barriers T s
  sums : Sums T t leafVal s

section Runs

variable {T : RootedTree (Fin n)} {t : Tree n} {leafVal : Fin n → BitVec 32} {s s' : State n} {v : Fin n}

/-- A statement of main leaves the threads, the mutexes and the sums alone. -/
theorem mainStep_frame {pc : MainPc} (h : mainStep t s pc = some s') :
    s'.thread = s.thread ∧ s'.funcExec = s.funcExec ∧ s'.mutexSum = s.mutexSum ∧ s'.sum = s.sum ∧
      s'.totalSum = s.totalSum ∧ s'.adds = s.adds := by
  cases pc
  case passDone k =>
    simp only [mainStep] at h
    split at h
    · cases h
      exact ⟨rfl, rfl, rfl, rfl, rfl, rfl⟩
    · cases h
  case finished => cases h
  all_goals
    cases h
    exact ⟨rfl, rfl, rfl, rfl, rfl, rfl⟩

theorem Sums.mainStep (h : Sums T t leafVal s) (hst : Sum.mainStep t s s.main = some s') : Sums T t leafVal s' := by
  obtain ⟨hthread, -, -, hsum, htotal, hadds⟩ := mainStep_frame hst
  refine ⟨fun v => ?_, fun v => ?_, ?_⟩
  · rw [hthread]
    exact (h.value v).congr (fun _ => by rw [hsum]) (fun _ => by rw [hsum]) (fun _ _ => htotal)
  · rw [hthread, hadds]
    exact h.adds v
  · rw [hthread, hsum]
    exact h.total

theorem Locks.mainStep (h : Locks t s) (hst : Sum.mainStep t s s.main = some s') : Locks t s' := by
  obtain ⟨hthread, hexec, hmutex, -⟩ := mainStep_frame hst
  constructor
  · rw [hthread, hexec]
    exact h.exec
  · rw [hthread, hmutex]
    exact h.sums

theorem Inv.start (R : Reads T t) : Inv T t leafVal (Sum.start t) where
  locks := ⟨Held.start, fun x => Held.start.keep (fun u => by simp [Pc.inSum, Pc.inOwn, Pc.inParent, Pc.rank, Sum.start])⟩
  barriers := Barriers.start R
  sums := by
    refine ⟨fun _ => trivial, fun v => ?_, Finset.sum_congr rfl (fun v _ => ?_)⟩
    · simp [Added, Pc.rank, Sum.start]
    · simp [worth, Added, Pc.rank, Sum.start]

/-- **The invariants hold in every run.** -/
theorem inv_of_reachable (R : Reads T t) (h : Reachable (next t leafVal) (Sum.start t) s) : Inv T t leafVal s := by
  refine reachable_inv (Inv T t leafVal) (Inv.start R) (fun a s s' _ hinv hst => ?_) h
  cases a with
  | none => exact ⟨hinv.locks.mainStep hst, hinv.barriers.mainStep hst, hinv.sums.mainStep hst⟩
  | some v =>
    simp only [next] at hst
    split at hst
    · exact ⟨hinv.locks.step hst, hinv.barriers.step R hst, hinv.sums.step R hinv.locks hinv.barriers hst⟩
    · cases hst

/-! ### Progress -/

/-- Where a thread may have to wait. -/
def Pc.waits : Pc → Bool
  | .pass _ | .lockExec | .lockSum _ | .unlockSum | .unlockExec | .lockParent | .unlockParent | .passDone _ | .passUp _
  | .finished => true
  | _ => false

theorem waits_of_none {pc : Pc} (h : computeSum t leafVal v s pc = none) : pc.waits = true := by
  cases pc
  case work o => cases o <;> cases h
  all_goals first | rfl | cases h

theorem lockSum_none {x : Fin n} {pc : Pc} (h : (s.lockSum v x).map (·.goto v pc) = none) : s.mutexSum x ≠ none := by
  intro hfree
  rw [State.lockSum, if_pos hfree] at h
  cases h

theorem unlockSum_none {x : Fin n} {pc : Pc} (h : (s.unlockSum v x).map (·.goto v pc) = none) :
    s.mutexSum x ≠ some v := by
  intro hheld
  rw [State.unlockSum, if_pos hheld] at h
  cases h

/-- **Where no thread can go on**, all mutexes are free, and only barriers are left to wait at. -/
theorem at_barrier_of_stuck (hl : Locks t s) (hst : ∀ v, computeSum t leafVal v s (s.thread v) = none) (v : Fin n) :
    (s.thread v).rank = 1 ∨ 17 ≤ (s.thread v).rank := by
  have hwaits : ∀ v, (s.thread v).waits = true := fun v => waits_of_none (hst v)
  -- who is between the calls of a mutex can go on
  have hparent : ∀ u, (s.thread u).inParent = false := fun u => by
    have hw := hwaits u
    have hu := hst u
    cases hpc : s.thread u <;> rw [hpc] at hw hu
    case unlockParent =>
      exact absurd (((hl.sums (t.parent u)) u).2 (by simp [hpc, Pc.inSum, Pc.inParent, Pc.rank])) (unlockSum_none hu)
    all_goals first | rfl | cases hw
  have hown : ∀ u, (s.thread u).inOwn = false := fun u => by
    have hw := hwaits u
    have hu := hst u
    cases hpc : s.thread u <;> rw [hpc] at hw hu
    case unlockSum =>
      exact absurd (((hl.sums u) u).2 (by simp [hpc, Pc.inSum, Pc.inOwn, Pc.rank])) (unlockSum_none hu)
    all_goals first | rfl | cases hw
  have hfree : ∀ x, s.mutexSum x = none := fun x =>
    (hl.sums x).free (fun u => by simp [Pc.inSum, hown, hparent])
  have hinExec : ∀ u, (s.thread u).inExec = false := fun u => by
    have hw := hwaits u
    have hu := hst u
    have ho := hown u
    cases hpc : s.thread u <;> rw [hpc] at hw hu ho
    case lockSum o => exact absurd (hfree u) (lockSum_none hu)
    case unlockSum => cases ho
    case unlockExec =>
      have hheld : s.funcExec = some u := (hl.exec u).2 (by simp [hpc, Pc.inExec, Pc.rank])
      simp only [computeSum, State.unlockExec, if_pos hheld] at hu
      cases hu
    all_goals first | rfl | cases hw
  have hexec : s.funcExec = none := hl.exec.free hinExec
  have hw := hwaits v
  have hv := hst v
  have hin := hinExec v
  have hp := hparent v
  cases hpc : s.thread v <;> rw [hpc] at hw hv hin hp
  case lockExec =>
    simp only [computeSum, State.lockExec, if_pos hexec] at hv
    cases hv
  case lockParent => exact absurd (hfree _) (lockSum_none hv)
  case lockSum o => exact absurd (hfree v) (lockSum_none hv)
  case unlockSum | unlockExec => cases hin
  case unlockParent => cases hp
  case pass => exact Or.inl rfl
  case passDone | passUp | finished => exact Or.inr (by simp [Pc.rank])
  all_goals cases hw

def State.Done (s : State n) : Prop := s.main = .finished ∧ ∀ v, s.thread v = .finished

/-- **A state where nobody can go on is the end.** -/
theorem done_of_stuck (R : Reads T t) (h : Inv T t leafVal s) (hst : Stuck (next t leafVal) s) : s.Done := by
  have hmain : Sum.mainStep t s s.main = none := hst none
  have hcreated : ∀ v : Fin n, s.main.created v = true := fun v => by
    cases hpc : s.main
    case create i => rw [hpc] at hmain; cases hmain
    all_goals rfl
  have hnone : ∀ v, computeSum t leafVal v s (s.thread v) = none := fun v => by
    have hv := hst (some v)
    simp only [next, if_pos (hcreated v)] at hv
    exact hv
  have hplaces := at_barrier_of_stuck h.locks hnone
  -- every node passes its own barrier, from the leaves up
  have hup : ∀ v, 17 ≤ (s.thread v).rank := T.up (fun v ih => by
    refine (hplaces v).resolve_left (fun h1 => ?_)
    obtain ⟨k, hpc⟩ : ∃ k, s.thread v = .pass k := by
      cases hpc : s.thread v <;> rw [hpc] at h1 <;> first | exact ⟨_, rfl⟩ | cases h1
    have hk := h.barriers.place v
    have hv := hnone v
    rw [hpc] at hk hv
    have hfull : (s.barrier v).full k = true := by
      refine (h.barriers.full hk).2 (fun u hu => ?_)
      unfold arrivedAt
      rcases Finset.mem_insert.1 hu with rfl | hu
      · rw [if_pos rfl, hpc]; rfl
      · obtain ⟨huv, hne⟩ := mem_children.1 hu
        rw [if_neg hne]
        exact decide_eq_true (ih u (fun hr => hne (by rw [← huv, hr, T.parent_root])) huv)
    simp only [computeSum, if_pos hfull] at hv
    cases hv)
  have hone : ∀ x u, arrivedAt x u (s.thread u) = true := fun x u => by
    have := hup u
    unfold arrivedAt
    split <;> exact decide_eq_true (by omega)
  have hroot : (decide (17 ≤ (s.thread T.root).rank)).toNat = 1 := by rw [decide_eq_true (hup T.root)]; rfl
  -- main has arrived too, so nobody waits any more
  have hmainPc : s.main = .finished := by
    cases hpc : s.main
    case finished => rfl
    case passDone k =>
      have hdone := h.barriers.done
      rw [hroot, hpc] at hdone
      have hfull : s.computationDone.full k = true := by
        rw [full_iff (by rw [h.barriers.doneSize]; exact h.barriers.mainTicket k hpc), h.barriers.doneSize, hdone]
        exact Nat.le_refl 2
      rw [hpc] at hmain
      simp only [Sum.mainStep, if_pos hfull] at hmain
      cases hmain
    all_goals
      rw [hpc] at hmain
      cases hmain
  refine ⟨hmainPc, fun v => ?_⟩
  have hv := hnone v
  have hk := h.barriers.place v
  have h17 := hup v
  cases hpc : s.thread v <;> rw [hpc] at hv hk h17
  case passDone k =>
    have hdone := h.barriers.done
    rw [hroot, hmainPc] at hdone
    have hfull : s.computationDone.full k = true := by
      rw [full_iff (by rw [h.barriers.doneSize]; exact hk.2), h.barriers.doneSize, hdone]
      decide
    simp only [computeSum, if_pos hfull] at hv
    cases hv
  case passUp k =>
    have hfull : (s.barrier (t.parent v)).full k = true := by
      rw [R.parent]
      exact (h.barriers.full hk.2).2 (fun u _ => hone _ u)
    simp only [computeSum, if_pos hfull] at hv
    cases hv
  all_goals simp [Pc.rank] at h17

/-- A node without children. -/
def Leaf (T : RootedTree (Fin n)) (v : Fin n) : Prop := ∀ c, T.parent c = v → c = v

instance (T : RootedTree (Fin n)) (v : Fin n) : Decidable (Leaf T v) := inferInstanceAs (Decidable (∀ _, _))

theorem Reads.leaf_iff (R : Reads T t) (v : Fin n) : t.numChild v = 0 ↔ Leaf T v := by
  rw [R.numChild, Finset.card_eq_zero, Finset.eq_empty_iff_forall_notMem]
  constructor
  · intro h c hc
    by_contra hne
    exact h c (mem_children.2 ⟨hc, hne⟩)
  · intro h c hc
    obtain ⟨hcv, hne⟩ := mem_children.1 hc
    exact hne (h c hcv)

/-- What a node that has started has waited for. -/
theorem Inv.children_added (h : Inv T t leafVal s) (hv : 2 ≤ (s.thread v).rank) (c : Fin n) (hc : c ≠ v)
    (hcv : T.parent c = v) : s.adds c = 1 := by
  have h17 := h.barriers.passed v hv c (mem_children.2 ⟨hcv, hc⟩)
  have hroot : c ≠ T.root := fun hr => hc (by rw [← hcv, hr, T.parent_root])
  rw [h.sums.adds c, if_pos ⟨hroot, by omega⟩]

/-- **When main has passed `computation_done`** every node is done. -/
theorem Inv.all_done (h : Inv T t leafVal s) (hmain : s.main.passed = true) (v : Fin n) : 17 ≤ (s.thread v).rank := by
  refine T.down (P := fun v => 17 ≤ (s.thread v).rank) (h.barriers.mainPassed hmain) (fun v hv hp => ?_) v
  exact h.barriers.passed _ (by omega) v (mem_children.2 ⟨rfl, (T.ne_parent hv).symm⟩)

theorem Inv.total_of_passed (R : Reads T t) (h : Inv T t leafVal s) (hmain : s.main.passed = true) :
    s.totalSum = ∑ v, if Leaf T v then leafVal v else 0 := by
  have hall := h.all_done hmain
  have hroot : s.totalSum = s.sum T.root := by
    have hfix : t.parent T.root = T.root := by rw [R.parent, T.parent_root]
    have hvalue := h.sums.value T.root
    have hplace := h.barriers.place T.root
    have h17 := hall T.root
    cases hpc : s.thread T.root <;> rw [hpc] at hvalue hplace h17
    case passDone | finished => exact hvalue hfix
    case passUp => exact absurd rfl hplace.1
    all_goals simp [Pc.rank] at h17
  have hworth : ∀ v, worth T t leafVal s.sum v (s.thread v) = if v = T.root then s.sum T.root else 0 := fun v => by
    have hv := hall v
    have hread : ¬ (t.numChild v = 0 ∧ (s.thread v).rank < 7) := fun hu => absurd hu.2 (by omega)
    unfold worth
    by_cases hr : v = T.root
    · have hnot : ¬ Added T v (s.thread v) := fun ha => ha.1 hr
      rw [if_neg hnot, if_neg hread, if_pos hr, hr]
    · have hadded : Added T v (s.thread v) := ⟨hr, by omega⟩
      rw [if_pos hadded, if_neg hr]
  calc s.totalSum = ∑ v, if v = T.root then s.sum T.root else 0 := by
        rw [Finset.sum_ite_eq' Finset.univ T.root, if_pos (Finset.mem_univ _), hroot]
    _ = ∑ v, worth T t leafVal s.sum v (s.thread v) := Finset.sum_congr rfl (fun v _ => (hworth v).symm)
    _ = ∑ v, if t.numChild v = 0 then leafVal v else 0 := h.sums.total
    _ = ∑ v, if Leaf T v then leafVal v else 0 := Finset.sum_congr rfl (fun v _ => if_congr (R.leaf_iff v) rfl rfl)

end Runs

/-- **computesum is right for every tree and every schedule.**  A state where nobody can go on is the end.  A node adds
its sum to its parent's at most once, and only when its children have added theirs.  When main has passed
`computation_done` every node but the root has done so, and the total is the sum of the leaves. -/
theorem computes_sum (T : RootedTree (Fin n)) (t₀ : Tree n) (leafVal : Fin n → BitVec 32) (lines : List (Fin n × Fin n))
    (hlines : lines.Perm ((List.finRange n).map (fun v => (v, T.parent v)))) {s : State n}
    (h : Reachable (next (readTree t₀ lines) leafVal) (start (readTree t₀ lines)) s) :
    (Stuck (next (readTree t₀ lines) leafVal) s → s.Done) ∧
    (∀ v, s.adds v ≤ 1 ∧ (s.adds v = 1 → ∀ c, c ≠ v → T.parent c = v → s.adds c = 1)) ∧
    (∀ v y, s.thread v = .storeParent y → s.adds v = 0 ∧ y = s.sum (T.parent v) + s.sum v ∧
      ∀ c, c ≠ v → T.parent c = v → s.adds c = 1) ∧
    (s.main.passed = true → (∀ v, s.adds v = if v = T.root then 0 else 1) ∧
      s.totalSum = ∑ v, if Leaf T v then leafVal v else 0) := by
  have R := reads_readTree T t₀ hlines
  have hinv := inv_of_reachable R h
  refine ⟨done_of_stuck R hinv, fun v => ⟨?_, fun h1 => ?_⟩, fun v y hpc => ⟨?_, ?_, ?_⟩, fun hmain => ⟨fun v => ?_, ?_⟩⟩
  · rw [hinv.sums.adds v]
    split <;> omega
  · refine hinv.children_added ?_
    rw [hinv.sums.adds v] at h1
    split at h1
    · rename_i hadded
      exact Nat.le_trans (by decide) hadded.2
    · cases h1
  · rw [hinv.sums.adds v, hpc]
    simp [Added, Pc.rank]
  · have hvalue := hinv.sums.value v
    rw [hpc] at hvalue
    rw [← R.parent]
    exact hvalue
  · exact hinv.children_added (by rw [hpc]; simp [Pc.rank])
  · have hv := hinv.all_done hmain v
    rw [hinv.sums.adds v]
    by_cases hr : v = T.root
    · have hnot : ¬ Added T v (s.thread v) := fun ha => ha.1 hr
      rw [if_neg hnot, if_pos hr]
    · have hadded : Added T v (s.thread v) := ⟨hr, by omega⟩
      rw [if_pos hadded, if_neg hr]
  · exact hinv.total_of_passed R hmain

/-- The root 0 and its one child 1. -/
def pair : RootedTree (Fin 2) where
  parent _ := 0
  root := 0
  parent_root := rfl
  reaches _ := ⟨1, rfl⟩

/-- The file of `pair` with the child's line first. -/
def pairLines : List (Fin 2 × Fin 2) := [(1, 0), (0, 0)]

/-- Main creates the threads and waits; the root arrives, the child does all of its part, then the root its own. -/
def pairRun : List (Option (Fin 2)) :=
  List.replicate 4 none ++ [some 0] ++ List.replicate 17 (some 1) ++ List.replicate 13 (some 0) ++ [some 1, none, none]

/-- Nothing is known of the tree's variables before. -/
def unread : Tree 2 := ⟨fun _ => 1, fun _ => 7, 1⟩

def pairEnd : State 2 :=
  (runSchedule (next (readTree unread pairLines) (fun _ => 5)) pairRun (start (readTree unread pairLines))).getD
    (start (readTree unread pairLines))

theorem computes_sum_pair : pairEnd.Done ∧ (∀ v, pairEnd.adds v = if v = pair.root then 0 else 1) ∧ pairEnd.totalSum = 5 := by
  have h := computes_sum pair unread (fun _ => 5) pairLines (by decide +kernel)
    (reachable_getD pairRun _ (by decide +kernel))
  have hend : Stuck (next (readTree unread pairLines) (fun _ => 5)) pairEnd := fun a => by
    cases a with
    | none => decide +kernel
    | some v => revert v; decide +kernel
  have hpassed : pairEnd.main.passed = true := by decide +kernel
  exact ⟨h.1 hend, (h.2.2.2 hpassed).1, (h.2.2.2 hpassed).2.trans (by decide +kernel)⟩

end Sum
end OsLab
