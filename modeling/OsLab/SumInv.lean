import OsLab.SumStep
import OsLab.Semaphore
import Mathlib.Algebra.BigOperators.Group.Finset.Basic
/-!
# SumInv — locks and barriers

The locks are held by who stands between their calls (`Locks`).  A barrier has the node and its children meet: the node
passes when all its children are done (`Barriers`).
-/
namespace OsLab
namespace Sum

variable {n : ℕ}

/-- How far a thread has come. -/
def Pc.rank : Pc → ℕ
  | .arrive => 0
  | .pass _ => 1
  | .lockExec => 2
  | .testLeaf => 3
  | .scan => 4
  | .lockSum _ => 5
  | .work _ => 6
  | .unlockSum => 7
  | .unlockExec => 8
  | .lockParent => 9
  | .testRoot => 10
  | .loadOwn => 11
  | .loadParent _ => 12
  | .storeParent _ => 13
  | .unlockParent => 14
  | .testDone => 15
  | .arriveDone | .arriveUp => 16
  | .passDone _ | .passUp _ => 17
  | .finished => 18

/-- Holds `func_exec`. -/
def Pc.inExec (pc : Pc) : Bool := 3 ≤ pc.rank ∧ pc.rank ≤ 8

/-- Holds the mutex of its own sum. -/
def Pc.inOwn (pc : Pc) : Bool := 6 ≤ pc.rank ∧ pc.rank ≤ 7

/-- Holds the mutex of its parent's sum. -/
def Pc.inParent (pc : Pc) : Bool := 10 ≤ pc.rank ∧ pc.rank ≤ 14

/-- The thread of `u`, which stands at `pc`, holds the mutex of the sum of `x`. -/
def Pc.inSum (parent : Fin n → Fin n) (x u : Fin n) (pc : Pc) : Bool :=
  (x = u ∧ pc.inOwn = true) ∨ (x = parent u ∧ pc.inParent = true)

/-! ### Locks -/

structure Locks (t : Tree n) (s : State n) : Prop where
  exec : Held (fun u => (s.thread u).inExec) s.funcExec
  sums : ∀ x, Held (fun u => (s.thread u).inSum t.parent x u) (s.mutexSum x)

section Locks

variable {t : Tree n} {leafVal : Fin n → BitVec 32} {s s' : State n} {v : Fin n} {pc pc' : Pc}

theorem goto_thread (s : State n) (v u : Fin n) (pc : Pc) :
    (s.goto v pc).thread u = if u = v then pc else s.thread u := Function.update_apply _ _ _ _

theorem inSum_congr (h : pc'.inOwn = pc.inOwn) (h' : pc'.inParent = pc.inParent) (parent : Fin n → Fin n) (x u : Fin n) :
    pc'.inSum parent x u = pc.inSum parent x u := by
  unfold Pc.inSum
  rw [h, h']

/-- A statement that has to do with no lock. -/
theorem Locks.keep (h : Locks t s) (hthread : s'.thread = Function.update s.thread v pc') (hexec : s'.funcExec = s.funcExec)
    (hsum : s'.mutexSum = s.mutexSum) (he : pc'.inExec = (s.thread v).inExec) (ho : pc'.inOwn = (s.thread v).inOwn)
    (hp : pc'.inParent = (s.thread v).inParent) : Locks t s' where
  exec := by
    rw [hexec]
    refine h.exec.keep (fun u => ?_)
    rw [hthread, Function.update_apply]
    split
    · rename_i hu; rw [hu, he]
    · rfl
  sums x := by
    rw [hsum]
    refine (h.sums x).keep (fun u => ?_)
    rw [hthread, Function.update_apply]
    split
    · rename_i hu; rw [hu]; exact inSum_congr ho hp _ _ _
    · rfl

/-- `foothread_mutex_lock(&func_exec)`. -/
theorem Locks.lockExec (h : Locks t s) (hst : (s.lockExec v).map (·.goto v pc') = some s') (he : pc'.inExec = true)
    (ho : pc'.inOwn = (s.thread v).inOwn) (hp : pc'.inParent = (s.thread v).inParent) : Locks t s' := by
  obtain ⟨s₁, hs₁, rfl⟩ := Option.map_eq_some_iff.1 hst
  unfold State.lockExec at hs₁
  split at hs₁
  · rename_i hfree
    cases hs₁
    have hexec := h.exec
    rw [hfree] at hexec
    refine ⟨hexec.take (by rw [goto_thread, if_pos rfl]; exact he) (fun u hu => ?_), fun x => (h.sums x).keep (fun u => ?_)⟩
    · rw [goto_thread, if_neg hu]
    · rw [goto_thread]
      split
      · rename_i hu; rw [hu]; exact inSum_congr ho hp _ _ _
      · rfl
  · cases hs₁

/-- `foothread_mutex_unlock(&func_exec)`. -/
theorem Locks.unlockExec (h : Locks t s) (hst : (s.unlockExec v).map (·.goto v pc') = some s') (he : pc'.inExec = false)
    (ho : pc'.inOwn = (s.thread v).inOwn) (hp : pc'.inParent = (s.thread v).inParent) : Locks t s' := by
  obtain ⟨s₁, hs₁, rfl⟩ := Option.map_eq_some_iff.1 hst
  unfold State.unlockExec at hs₁
  split at hs₁
  · rename_i hheld
    cases hs₁
    have hexec := h.exec
    rw [hheld] at hexec
    refine ⟨hexec.give (by rw [goto_thread, if_pos rfl]; exact he) (fun u hu => ?_), fun x => (h.sums x).keep (fun u => ?_)⟩
    · rw [goto_thread, if_neg hu]
    · rw [goto_thread]
      split
      · rename_i hu; rw [hu]; exact inSum_congr ho hp _ _ _
      · rfl
  · cases hs₁

/-- A call on the mutex of `x`, and on no other lock. -/
theorem Locks.sumTo (h : Locks t s) {x : Fin n} {o : Option (Fin n)} (he : pc'.inExec = (s.thread v).inExec)
    (hx : Held (fun u => ((s.goto v pc').thread u).inSum t.parent x u) o)
    (hother : ∀ y, y ≠ x → pc'.inSum t.parent y v = (s.thread v).inSum t.parent y v) :
    Locks t ({ s with mutexSum := Function.update s.mutexSum x o }.goto v pc') := by
  refine ⟨h.exec.keep (fun u => ?_), fun y => ?_⟩
  · rw [goto_thread]
    split
    · rename_i hu; rw [hu, he]
    · rfl
  · show Held _ (Function.update s.mutexSum x o y)
    by_cases hy : y = x
    · rw [hy, Function.update_self]
      exact hx
    · rw [Function.update_of_ne hy]
      refine (h.sums y).keep (fun u => ?_)
      rw [goto_thread]
      split
      · rename_i hu; rw [hu]; exact hother y hy
      · rfl

/-- `foothread_mutex_lock(&mutex_sum[x])`. -/
theorem Locks.lockSum (h : Locks t s) {x : Fin n} (hst : (s.lockSum v x).map (·.goto v pc') = some s')
    (he : pc'.inExec = (s.thread v).inExec) (hin : pc'.inSum t.parent x v = true)
    (hother : ∀ y, y ≠ x → pc'.inSum t.parent y v = (s.thread v).inSum t.parent y v) : Locks t s' := by
  obtain ⟨s₁, hs₁, rfl⟩ := Option.map_eq_some_iff.1 hst
  unfold State.lockSum at hs₁
  split at hs₁
  · rename_i hfree
    cases hs₁
    refine h.sumTo he ?_ hother
    have hx := h.sums x
    rw [hfree] at hx
    refine hx.take (by rw [goto_thread, if_pos rfl]; exact hin) (fun u hu => ?_)
    rw [goto_thread, if_neg hu]
  · cases hs₁

/-- `foothread_mutex_unlock(&mutex_sum[x])`. -/
theorem Locks.unlockSum (h : Locks t s) {x : Fin n} (hst : (s.unlockSum v x).map (·.goto v pc') = some s')
    (he : pc'.inExec = (s.thread v).inExec) (hout : pc'.inSum t.parent x v = false)
    (hother : ∀ y, y ≠ x → pc'.inSum t.parent y v = (s.thread v).inSum t.parent y v) : Locks t s' := by
  obtain ⟨s₁, hs₁, rfl⟩ := Option.map_eq_some_iff.1 hst
  unfold State.unlockSum at hs₁
  split at hs₁
  · rename_i hheld
    cases hs₁
    refine h.sumTo he ?_ hother
    have hx := h.sums x
    rw [hheld] at hx
    refine hx.give (by rw [goto_thread, if_pos rfl]; exact hout) (fun u hu => ?_)
    rw [goto_thread, if_neg hu]
  · cases hs₁

/-- **Every statement of a node's thread** leaves the locks with who stands between their calls. -/
theorem Locks.step (h : Locks t s) (hst : computeSum t leafVal v s (s.thread v) = some s') : Locks t s' := by
  have hsum : ∀ (x : Fin n) (pc : Pc), pc.inOwn = false → pc.inParent = false → pc.inSum t.parent x v = false :=
    fun x pc ho hp => by simp [Pc.inSum, ho, hp]
  have hne : ∀ (x : Fin n) (pc : Pc), x ≠ v → pc.inParent = false → pc.inSum t.parent x v = false :=
    fun x pc hx hp => by simp [Pc.inSum, hx, hp]
  have hne' : ∀ (x : Fin n) (pc : Pc), x ≠ t.parent v → pc.inOwn = false → pc.inSum t.parent x v = false :=
    fun x pc hx ho => by simp [Pc.inSum, hx, ho]
  cases hpc : s.thread v <;> rw [hpc] at hst
  case lockExec => exact h.lockExec hst rfl (by rw [hpc]; rfl) (by rw [hpc]; rfl)
  case unlockExec => exact h.unlockExec hst rfl (by rw [hpc]; rfl) (by rw [hpc]; rfl)
  case lockSum o =>
    refine h.lockSum hst (by rw [hpc]; rfl) (by simp [Pc.inSum, Pc.inOwn, Pc.rank]) (fun y hy => ?_)
    rw [hpc, hne y _ hy rfl, hne y _ hy rfl]
  case unlockSum =>
    refine h.unlockSum hst (by rw [hpc]; rfl) (hsum _ _ rfl rfl) (fun y hy => ?_)
    rw [hpc, hne y _ hy rfl, hne y _ hy rfl]
  case lockParent =>
    refine h.lockSum hst (by rw [hpc]; rfl) (by simp [Pc.inSum, Pc.inParent, Pc.rank]) (fun y hy => ?_)
    rw [hpc, hne' y _ hy rfl, hne' y _ hy rfl]
  case unlockParent =>
    refine h.unlockSum hst (by rw [hpc]; rfl) (hsum _ _ rfl rfl) (fun y hy => ?_)
    rw [hpc, hne' y _ hy rfl, hne' y _ hy rfl]
  case finished => cases hst
  case pass k | passDone k | passUp k =>
    simp only [computeSum] at hst
    split at hst
    · cases hst
      exact h.keep rfl rfl rfl (by rw [hpc]; rfl) (by rw [hpc]; rfl) (by rw [hpc]; rfl)
    · cases hst
  case work o => cases o <;> cases hst <;> exact h.keep rfl rfl rfl (by rw [hpc]; rfl) (by rw [hpc]; rfl) (by rw [hpc]; rfl)
  case testLeaf | testRoot | testDone =>
    cases hst
    split <;> exact h.keep rfl rfl rfl (by rw [hpc]; rfl) (by rw [hpc]; rfl) (by rw [hpc]; rfl)
  all_goals
    cases hst
    exact h.keep rfl rfl rfl (by rw [hpc]; rfl) (by rw [hpc]; rfl) (by rw [hpc]; rfl)

end Locks

/-! ### Barriers -/

section Barriers

variable (T : RootedTree (Fin n))

def children (v : Fin n) : Finset (Fin n) := Finset.univ.filter (fun c => T.parent c = v ∧ c ≠ v)

/-- Who meets at the barrier of a node. -/
def team (x : Fin n) : Finset (Fin n) := insert x (children T x)

/-- The thread of `u`, which stands at `pc`, has arrived at the barrier of `x`. -/
def arrivedAt (x u : Fin n) (pc : Pc) : Bool := if u = x then 1 ≤ pc.rank else 17 ≤ pc.rank

def MainPc.arrived : MainPc → Bool
  | .create _ | .arriveDone => false
  | _ => true

def MainPc.passed : MainPc → Bool
  | .print | .finished => true
  | _ => false

/-- The tree that main has read. -/
structure Reads (t : Tree n) : Prop where
  parent : t.parent = T.parent
  numChild : ∀ v, t.numChild v = (children T v).card
  rootNode : t.rootNode = T.root

/-- Which threads come to a place, and with which number of arrival. -/
def Place (v : Fin n) : Pc → Prop
  | .pass k => k < (team T v).card
  | .loadOwn | .loadParent _ | .storeParent _ | .arriveUp => v ≠ T.root
  | .arriveDone => v = T.root
  | .passDone k => v = T.root ∧ k < 2
  | .passUp k => v ≠ T.root ∧ k < (team T (T.parent v)).card
  | _ => True

structure Barriers (s : State n) : Prop where
  size : ∀ x, (s.barrier x).size = (team T x).card
  arrivals : ∀ x, (s.barrier x).arrivals = ((team T x).filter (fun u => arrivedAt x u (s.thread u))).card
  passed : ∀ v, 2 ≤ (s.thread v).rank → ∀ c ∈ children T v, 17 ≤ (s.thread c).rank
  place : ∀ v, Place T v (s.thread v)
  doneSize : s.computationDone.size = 2
  done : s.computationDone.arrivals = s.main.arrived.toNat + (decide (17 ≤ (s.thread T.root).rank)).toNat
  mainTicket : ∀ k, s.main = .passDone k → k < 2
  mainPassed : s.main.passed = true → 17 ≤ (s.thread T.root).rank

variable {T} {t : Tree n} {leafVal : Fin n → BitVec 32} {s s' : State n} {v x u : Fin n} {pc' : Pc}

theorem mem_children : u ∈ children T v ↔ T.parent u = v ∧ u ≠ v := by
  unfold children
  rw [Finset.mem_filter, and_iff_right (Finset.mem_univ u)]

theorem card_team (x : Fin n) : (team T x).card = (children T x).card + 1 := by
  refine Finset.card_insert_of_notMem (fun h => ?_)
  exact (mem_children.1 h).2 rfl

theorem mem_team_parent (v : Fin n) : v ∈ team T (T.parent v) := by
  by_cases hv : v = T.parent v
  · exact hv ▸ Finset.mem_insert_self _ _
  · exact Finset.mem_insert_of_mem (mem_children.2 ⟨rfl, hv⟩)

/-- A node is of its own team and of its parent's. -/
theorem eq_or_eq_parent (h : v ∈ team T x) : x = v ∨ x = T.parent v := by
  rcases Finset.mem_insert.1 h with h | h
  · exact Or.inl h.symm
  · exact Or.inr (mem_children.1 h).1.symm

/-- The barrier lets an arrival of its one round pass when as many have arrived as meet. -/
theorem full_iff {b : Rendezvous} {k : ℕ} (hk : k < b.size) : b.full k = true ↔ b.size ≤ b.arrivals := by
  unfold Rendezvous.full
  rw [Nat.div_eq_of_lt hk]
  simp

/-- **A barrier is full** just when its whole team has arrived. -/
theorem Barriers.full (h : Barriers T s) {k : ℕ} (hk : k < (team T x).card) :
    (s.barrier x).full k = true ↔ ∀ u ∈ team T x, arrivedAt x u (s.thread u) = true := by
  rw [full_iff (by rw [h.size]; exact hk), h.size, h.arrivals]
  constructor
  · intro hle u hu
    have heq := Finset.eq_of_subset_of_card_le (Finset.filter_subset (fun u => arrivedAt x u (s.thread u) = true) (team T x)) hle
    rw [← heq] at hu
    exact (Finset.mem_filter.1 hu).2
  · intro hall
    rw [Finset.filter_true_of_mem hall]

theorem arrivals_keep (hthread : s'.thread = Function.update s.thread v pc')
    (h : v ∈ team T x → arrivedAt x v pc' = arrivedAt x v (s.thread v)) :
    (team T x).filter (fun u => arrivedAt x u (s'.thread u)) = (team T x).filter (fun u => arrivedAt x u (s.thread u)) := by
  refine Finset.filter_congr (fun u hu => ?_)
  rw [hthread, Function.update_apply]
  split
  · rename_i huv
    subst huv
    rw [h hu]
  · exact Iff.rfl

/-- One more has arrived. -/
theorem arrivals_succ (hthread : s'.thread = Function.update s.thread v pc') (hv : v ∈ team T x)
    (hold : arrivedAt x v (s.thread v) = false) (hnew : arrivedAt x v pc' = true) :
    ((team T x).filter (fun u => arrivedAt x u (s'.thread u))).card =
      ((team T x).filter (fun u => arrivedAt x u (s.thread u))).card + 1 := by
  have hins : (team T x).filter (fun u => arrivedAt x u (s'.thread u)) =
      insert v ((team T x).filter (fun u => arrivedAt x u (s.thread u))) := by
    ext u
    rw [Finset.mem_insert, Finset.mem_filter, Finset.mem_filter, hthread, Function.update_apply]
    by_cases huv : u = v
    · subst huv
      simp [hv, hnew]
    · simp [huv]
  rw [hins, Finset.card_insert_of_notMem (fun hmem => ?_)]
  rw [(Finset.mem_filter.1 hmem).2] at hold
  cases hold

/-- The arrival that comes next has a number of the first round. -/
theorem Barriers.ticket (h : Barriers T s) (hv : v ∈ team T x) (hold : arrivedAt x v (s.thread v) = false) :
    (s.barrier x).arrivals < (team T x).card := by
  rw [h.arrivals]
  refine Finset.card_lt_card (Finset.filter_ssubset.2 ⟨v, hv, fun hin => ?_⟩)
  rw [hin] at hold
  cases hold

/-- A statement of a thread: what is left to show of where it goes, and of the barriers. -/
theorem Barriers.move (h : Barriers T s) (hthread : s'.thread = Function.update s.thread v pc') (hmain : s'.main = s.main)
    (hrank : (s.thread v).rank ≤ pc'.rank) (hplace : Place T v pc')
    (hpass : 2 ≤ pc'.rank → 2 ≤ (s.thread v).rank ∨ ∀ c ∈ children T v, 17 ≤ (s.thread c).rank)
    (hsize : ∀ x, (s'.barrier x).size = (s.barrier x).size)
    (harr : ∀ x, (s'.barrier x).arrivals = ((team T x).filter (fun u => arrivedAt x u (s'.thread u))).card)
    (hdoneSize : s'.computationDone.size = s.computationDone.size)
    (hdone : s'.computationDone.arrivals =
      s.main.arrived.toNat + (decide (17 ≤ (s'.thread T.root).rank)).toNat) : Barriers T s' := by
  have hpc : ∀ u, (s.thread u).rank ≤ (s'.thread u).rank := fun u => by
    rw [hthread, Function.update_apply]
    split
    · rename_i hu; rw [hu]; exact hrank
    · exact Nat.le_refl _
  constructor
  · exact fun x => (hsize x).trans (h.size x)
  · exact harr
  · intro u hu c hc
    refine Nat.le_trans ?_ (hpc c)
    rw [hthread, Function.update_apply] at hu
    split at hu
    · rename_i huv
      subst huv
      exact (hpass hu).elim (fun hold => h.passed u hold c hc) (fun hall => hall c hc)
    · exact h.passed u hu c hc
  · intro u
    rw [hthread, Function.update_apply]
    split
    · rename_i huv; rw [huv]; exact hplace
    · exact h.place u
  · exact hdoneSize.trans h.doneSize
  · rw [hdone, hmain]
  · rw [hmain]; exact h.mainTicket
  · rw [hmain]
    exact fun hp => Nat.le_trans (h.mainPassed hp) (hpc T.root)

/-- A statement that has to do with no barrier. -/
theorem Barriers.keep (h : Barriers T s) (hthread : s'.thread = Function.update s.thread v pc') (hmain : s'.main = s.main)
    (hbarrier : s'.barrier = s.barrier) (hcd : s'.computationDone = s.computationDone)
    (hrank : 1 ≤ (s.thread v).rank ∧ (s.thread v).rank ≤ pc'.rank) (h17 : 17 ≤ pc'.rank ↔ 17 ≤ (s.thread v).rank)
    (hpass : 2 ≤ (s.thread v).rank ∨ ∀ c ∈ children T v, 17 ≤ (s.thread c).rank) (hplace : Place T v pc') :
    Barriers T s' := by
  have hsame : ∀ x, arrivedAt x v pc' = arrivedAt x v (s.thread v) := fun x => by
    unfold arrivedAt
    split <;> congr 1 <;> rw [eq_iff_iff] <;> omega
  refine h.move hthread hmain hrank.2 hplace (fun _ => hpass) (fun x => by rw [hbarrier]) (fun x => ?_) (by rw [hcd]) ?_
  · rw [hbarrier, arrivals_keep hthread (fun _ => hsame x)]
    exact h.arrivals x
  · rw [hcd, h.done, hthread, Function.update_apply]
    split
    · rename_i hroot
      rw [hroot, decide_eq_decide.2 h17]
    · rfl

/-- An arrival at the barrier of `x`. -/
theorem Barriers.arriveAt (h : Barriers T s) (hthread : s'.thread = Function.update s.thread v pc')
    (hmain : s'.main = s.main) (hbarrier : s'.barrier = Function.update s.barrier x (s.barrier x).arrive)
    (hcd : s'.computationDone = s.computationDone) (hrank : (s.thread v).rank ≤ pc'.rank) (hx : v ∈ team T x)
    (hold : arrivedAt x v (s.thread v) = false) (hnew : arrivedAt x v pc' = true)
    (hother : ∀ y, y ≠ x → v ∈ team T y → arrivedAt y v pc' = arrivedAt y v (s.thread v))
    (hroot : v = T.root → (17 ≤ pc'.rank ↔ 17 ≤ (s.thread v).rank))
    (hpass : 2 ≤ pc'.rank → 2 ≤ (s.thread v).rank) (hplace : Place T v pc') : Barriers T s' := by
  refine h.move hthread hmain hrank hplace (fun h2 => Or.inl (hpass h2)) (fun y => ?_) (fun y => ?_) (by rw [hcd]) ?_
  · rw [hbarrier, Function.update_apply]
    split
    · rename_i hy; rw [hy]; rfl
    · rfl
  · rw [hbarrier, Function.update_apply]
    split
    · rename_i hy
      rw [hy, arrivals_succ hthread hx hold hnew]
      exact congrArg (· + 1) (h.arrivals x)
    · rename_i hy
      rw [arrivals_keep hthread (hother y hy)]
      exact h.arrivals y
  · rw [hcd, h.done, hthread, Function.update_apply]
    split
    · rename_i hv
      rw [decide_eq_decide.2 (hroot hv.symm), hv]
    · rfl

/-- The root arrives where main waits. -/
theorem Barriers.arriveDone (h : Barriers T s) (hthread : s'.thread = Function.update s.thread v pc')
    (hmain : s'.main = s.main) (hbarrier : s'.barrier = s.barrier)
    (hcd : s'.computationDone = s.computationDone.arrive) (hv : v = T.root) (hold : (s.thread v).rank = 16)
    (hnew : pc'.rank = 17) (hplace : Place T v pc') : Barriers T s' := by
  refine h.move hthread hmain (by omega) hplace (fun _ => Or.inl (by omega)) (fun y => by rw [hbarrier]) (fun y => ?_)
    (by rw [hcd]; rfl) ?_
  · rw [hbarrier, arrivals_keep hthread (fun hy => ?_)]
    · exact h.arrivals y
    · have hyv : v = y := by
        rcases eq_or_eq_parent hy with e | e
        · exact e.symm
        · rw [e, hv, T.parent_root]
      unfold arrivedAt
      rw [if_pos hyv, if_pos hyv, hold, hnew]
      rfl
  · have hr : (s.thread T.root).rank = 16 := hv ▸ hold
    rw [hcd, hthread, ← hv, Function.update_self]
    show s.computationDone.arrivals + 1 = _
    rw [h.done, hr, hnew]
    rfl

/-- **Every statement of a node's thread** keeps the barriers. -/
theorem Barriers.step (R : Reads T t) (h : Barriers T s) (hst : computeSum t leafVal v s (s.thread v) = some s') :
    Barriers T s' := by
  have hplace := h.place v
  have hself : v ∈ team T v := Finset.mem_insert_self _ _
  have hfix : v ≠ t.parent v → v ≠ T.root := fun hne hv => hne (by rw [R.parent, hv, T.parent_root])
  have hroot : t.parent v = v → v = T.root := fun hv => T.eq_root_of_fixed (by rw [← R.parent]; exact hv)
  cases hpc : s.thread v <;> rw [hpc] at hst hplace
  case arrive =>
    cases hst
    refine h.arriveAt rfl rfl rfl rfl (by rw [hpc]; exact Nat.zero_le _) hself ?_ ?_ (fun y hy _ => ?_) (fun _ => ?_)
      (fun h2 => ?_) ?_
    · rw [hpc]; simp [arrivedAt, Pc.rank]
    · simp [arrivedAt, Pc.rank]
    · rw [hpc]; simp [arrivedAt, Pc.rank, hy.symm]
    · rw [hpc]; simp [Pc.rank]
    · exact absurd h2 (by simp [Pc.rank])
    · exact h.ticket hself (by rw [hpc]; simp [arrivedAt, Pc.rank])
  case pass k =>
    simp only [computeSum] at hst
    split at hst
    · rename_i hfull
      cases hst
      refine h.keep rfl rfl rfl rfl (by rw [hpc]; simp [Pc.rank]) (by rw [hpc]; simp [Pc.rank]) (Or.inr (fun c hc => ?_)) trivial
      have harr := (h.full hplace).1 hfull c (Finset.mem_insert_of_mem hc)
      unfold arrivedAt at harr
      rw [if_neg (mem_children.1 hc).2] at harr
      exact of_decide_eq_true harr
    · cases hst
  case lockExec | unlockExec | lockSum o | unlockSum | lockParent | unlockParent =>
    obtain ⟨s₁, hs₁, rfl⟩ := Option.map_eq_some_iff.1 hst
    simp only [State.lockExec, State.unlockExec, State.lockSum, State.unlockSum] at hs₁
    split at hs₁
    · cases hs₁
      refine h.keep rfl rfl rfl rfl ?_ ?_ (Or.inl ?_) trivial <;> rw [hpc] <;> simp [Pc.rank]
    · cases hs₁
  case testLeaf =>
    cases hst
    split <;> refine h.keep rfl rfl rfl rfl ?_ ?_ (Or.inl ?_) trivial <;> rw [hpc] <;> simp [Pc.rank]
  case work o =>
    cases o <;> cases hst <;> refine h.keep rfl rfl rfl rfl ?_ ?_ (Or.inl ?_) trivial <;> rw [hpc] <;> simp [Pc.rank]
  case testRoot =>
    cases hst
    split
    · rename_i hne
      refine h.keep rfl rfl rfl rfl ?_ ?_ (Or.inl ?_) (hfix hne) <;> rw [hpc] <;> simp [Pc.rank]
    · refine h.keep rfl rfl rfl rfl ?_ ?_ (Or.inl ?_) trivial <;> rw [hpc] <;> simp [Pc.rank]
  case testDone =>
    cases hst
    split
    · rename_i hv
      refine h.keep rfl rfl rfl rfl ?_ ?_ (Or.inl ?_) (hroot hv) <;> rw [hpc] <;> simp [Pc.rank]
    · rename_i hv
      refine h.keep rfl rfl rfl rfl ?_ ?_ (Or.inl ?_) (hfix (Ne.symm hv)) <;> rw [hpc] <;> simp [Pc.rank]
  case arriveDone =>
    cases hst
    refine h.arriveDone rfl rfl rfl rfl hplace (by rw [hpc]; rfl) rfl ⟨hplace, ?_⟩
    have hr : (s.thread T.root).rank = 16 := by rw [← (show v = T.root from hplace), hpc]; rfl
    rw [h.done, hr]
    cases s.main.arrived <;> decide
  case arriveUp =>
    cases hst
    have hne : v ≠ T.parent v := (T.ne_parent hplace).symm
    have hmem : v ∈ team T (t.parent v) := by rw [R.parent]; exact mem_team_parent v
    have hold : arrivedAt (t.parent v) v (s.thread v) = false := by
      rw [hpc, R.parent]
      simp [arrivedAt, hne, Pc.rank]
    refine h.arriveAt rfl rfl rfl rfl (by rw [hpc]; exact Nat.le_succ _) hmem hold ?_ (fun y hy hin => ?_)
      (fun hv => absurd hv hplace)
      (fun _ => by rw [hpc]; simp [Pc.rank]) ⟨hplace, ?_⟩
    · rw [R.parent]; simp [arrivedAt, hne, Pc.rank]
    · rw [R.parent] at hy
      rw [(eq_or_eq_parent hin).resolve_right hy, hpc]
      simp [arrivedAt, Pc.rank]
    · rw [← R.parent]; exact h.ticket hmem hold
  case passDone k | passUp k =>
    simp only [computeSum] at hst
    split at hst
    · cases hst
      refine h.keep rfl rfl rfl rfl ?_ ?_ (Or.inl ?_) trivial <;> rw [hpc] <;> simp [Pc.rank]
    · cases hst
  case finished => cases hst
  all_goals
    cases hst
    refine h.keep rfl rfl rfl rfl ?_ ?_ (Or.inl ?_) ?_
    · rw [hpc]; simp [Pc.rank]
    · rw [hpc]; simp [Pc.rank]
    · rw [hpc]; simp [Pc.rank]
    · trivial

/-- A statement of main. -/
theorem Barriers.mainStep (h : Barriers T s) (hst : Sum.mainStep t s s.main = some s') : Barriers T s' := by
  cases hpc : s.main <;> rw [hpc] at hst
  case create i =>
    cases hst
    refine ⟨h.size, h.arrivals, h.passed, h.place, h.doneSize, ?_, fun k hk => ?_, fun hp => ?_⟩
    · show _ = (if i < n then MainPc.create (i + 1) else .arriveDone).arrived.toNat + _
      rw [h.done, hpc]
      split <;> rfl
    · change (if i < n then MainPc.create (i + 1) else .arriveDone) = _ at hk
      split at hk <;> cases hk
    · change (if i < n then MainPc.create (i + 1) else .arriveDone).passed = true at hp
      split at hp <;> cases hp
  case arriveDone =>
    cases hst
    have hdone := h.done
    rw [hpc] at hdone
    refine ⟨h.size, h.arrivals, h.passed, h.place, h.doneSize, ?_, fun k hk => ?_, fun hp => by cases hp⟩
    · show s.computationDone.arrivals + 1 = 1 + (decide (17 ≤ (s.thread T.root).rank)).toNat
      rw [hdone]
      exact congrArg (· + 1) (Nat.zero_add _) |>.trans (Nat.add_comm _ _)
    · cases hk
      rw [hdone]
      cases decide (17 ≤ (s.thread T.root).rank) <;> decide
  case passDone k =>
    simp only [Sum.mainStep] at hst
    split at hst
    · rename_i hfull
      cases hst
      refine ⟨h.size, h.arrivals, h.passed, h.place, h.doneSize, ?_, (fun k hk => by cases hk), fun _ => ?_⟩
      · rw [h.done, hpc]; rfl
      · rw [full_iff (by rw [h.doneSize]; exact h.mainTicket k hpc), h.doneSize, h.done, hpc] at hfull
        by_contra hroot
        rw [decide_eq_false hroot] at hfull
        exact absurd hfull (by simp [MainPc.arrived])
    · cases hst
  case print =>
    cases hst
    refine ⟨h.size, h.arrivals, h.passed, h.place, h.doneSize, ?_, (fun k hk => by cases hk), fun _ => ?_⟩
    · exact h.done.trans (by rw [hpc]; rfl)
    · exact h.mainPassed (by rw [hpc]; rfl)
  case finished => cases hst

theorem Barriers.start (R : Reads T t) : Barriers T (Sum.start t) where
  size x := by
    rw [card_team, ← R.numChild]
    rfl
  arrivals x := by
    refine (Finset.card_eq_zero.2 (Finset.filter_eq_empty_iff.2 (fun u _ => ?_))).symm
    show ¬ arrivedAt x u .arrive = true
    simp [arrivedAt, Pc.rank]
  passed v h := absurd h (by simp [Sum.start, Pc.rank])
  place _ := trivial
  doneSize := rfl
  done := rfl
  mainTicket k h := by cases h
  mainPassed h := by cases h

end Barriers

end Sum
end OsLab
