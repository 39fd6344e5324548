import OsLab.TopSortOrder
/-!
# TopSortRuns — every run sorts, unless there is a cycle

Safety holds for every graph (`sorts`).  No run is infinite, since every turn of the boss's loop takes a `V(ntfy)` and each
worker gives one.  In a state where nobody can go on the token is in `mtx`, so nobody waits for it, and the workers that are
left wait for their predecessors: without a cycle there is none, and with one `T` never becomes full (`sorts_iff_acyclic`).
-/
namespace OsLab
namespace TopSort

variable {n : ℕ}

structure Inv (A : Fin n → Fin n → ℤ) (s : State n) : Prop where
  tokens : Tokens s
  syncs : Syncs A s
  orders : Orders A s
  checked : Checked A s

section Runs

variable {A : Fin n → Fin n → ℤ} {s s' : State n} {i j : Fin n} {a : Option (Fin n)}

theorem Tokens.next (h : Tokens s) (hst : TopSort.next A a s = some s') : Tokens s' := by
  cases a with
  | none => exact h.boss hst
  | some i => exact h.worker hst

/-- **The invariants hold in every run.** -/
theorem inv_of_reachable (h : Reachable (next A) (setup A) s) : Inv A s := by
  refine reachable_inv (Inv A) ⟨Tokens.setup, Syncs.setup, Orders.setup, Checked.setup⟩ (fun a s s' _ hinv hst => ?_) h
  obtain ⟨ht, hs, ho, hc⟩ := hinv
  cases a with
  | none => exact ⟨ht.boss hst, hs.boss hst, ho.boss hst, hc.boss ht ho hst⟩
  | some i => exact ⟨ht.worker hst, hs.worker ht hst, ho.worker ht hs hst, hc.worker ht hst⟩

/-- **A decrement finds its semaphore positive.** -/
theorem Inv.positive (h : Inv A s) (hpc : s.worker i = .edge j) (hij : Edge A i j) : ∃ x, s.sync j = some (x + 1) := by
  have hnot : (s.worker i).released j = false := by rw [hpc]; simp [WorkerPc.released]
  cases hj : s.sync j with
  | none =>
    have hcounted := h.tokens.all_counted (h.tokens.removed (Or.inr (Or.inr ⟨j, hj⟩))) j
    rw [h.syncs.passed j (by omega) i hij] at hnot
    cases hnot
  | some x =>
    have hmem : i ∈ (preds A j).filter (fun i => (s.worker i).released j = false) :=
      Finset.mem_filter.2 ⟨mem_preds.2 hij, hnot⟩
    have hpos := Finset.card_pos.2 ⟨i, hmem⟩
    rw [← h.syncs.sync j x hj] at hpos
    exact ⟨x - 1, by rw [Nat.sub_add_cancel hpos]⟩

/-- After its loop the boss never waits. -/
theorem Inv.boss_goes_on (h : Inv A s) (hleft : s.boss.left = true) :
    s.boss = .finished ∨ ∃ s', next A none s = some s' := by
  cases hb : s.boss
  case finished => exact Or.inl rfl
  case wild => exact absurd hb h.checked.wild
  case waitNtfy | signalMtx | test => rw [hb] at hleft; cases hleft
  all_goals exact Or.inr ⟨_, show bossStep A s s.boss = some _ by rw [hb]; rfl⟩

end Runs

/-- **The parallel sort is right in every run, for every graph.**  The places of `T` below `*idx` are a topological order
of different vertices; one worker at most is between `P(mtx)` and `V(ntfy)`; a decrement finds its semaphore positive.
When the boss has left its loop the order is one of all vertices; it goes on to its end, its check never finds anything
wrong, and at the end it has printed `Well done`. -/
theorem sorts (A : Fin n → Fin n → ℤ) {s : State n} (h : Reachable (next A) (setup A) s) :
    Ordered (Edge A) s.T s.idx ∧
    (∀ u v, (s.worker u).inside = 1 → (s.worker v).inside = 1 → u = v) ∧
    (∀ i j : Fin n, s.worker i = .edge j → Edge A i j → ∃ x, s.sync j = some (x + 1)) ∧
    (s.boss.left = true → s.idx = n ∧ (∀ v, ∃ k < n, s.T k = some v) ∧
      (s.boss = .finished ∨ ∃ s', next A none s = some s')) ∧
    s.boss ≠ .wild ∧ Line.wrongOutput ∉ s.out ∧ (s.boss = .finished → Line.wellDone ∈ s.out) := by
  have hinv := inv_of_reachable h
  refine ⟨hinv.orders.ordered, fun u v hu hv => ?_, fun i j => hinv.positive, fun hleft => ?_, hinv.checked.wild,
    hinv.checked.wrong, fun hb => hinv.checked.done (Or.inl hb)⟩
  · by_contra hne
    have hzero := tally_unique hinv.tokens.one (i := v) (by rw [hv]; exact Nat.one_pos) hne
    rw [hu] at hzero
    cases hzero
  · have hidx := hinv.tokens.full hleft
    refine ⟨hidx, fun v => ?_, hinv.boss_goes_on hleft⟩
    obtain ⟨k, hk, hkv⟩ := (hinv.orders.listed v).1 (hinv.tokens.all_counted hleft v)
    exact ⟨k, hidx ▸ hk, hkv⟩

/-- The graph with the one edge from 1 to 0. -/
def oneEdge (i j : Fin 2) : ℤ := if i = 1 ∧ j = 0 then 1 else 0

/-- The boss and the workers 1 and 0 take turns, then the boss finishes. -/
def oneEdgeRun : List (Option (Fin 2)) :=
  List.replicate 3 none ++ List.replicate 10 (some 1) ++ List.replicate 3 none ++ List.replicate 10 (some 0) ++
    List.replicate 14 none

def oneEdgeEnd : State 2 := (runSchedule (next oneEdge) oneEdgeRun (setup oneEdge)).getD (setup oneEdge)

theorem sorts_oneEdge : oneEdgeEnd.boss.left = true ∧ oneEdgeEnd.idx = 2 ∧ (∀ v, ∃ k < 2, oneEdgeEnd.T k = some v) ∧
    oneEdgeEnd.out = [.setupDone, .heading, .entry (some 1), .entry (some 0), .wellDone] := by
  have h := sorts oneEdge (reachable_getD oneEdgeRun _ (by decide +kernel))
  have hleft : oneEdgeEnd.boss.left = true := by decide +kernel
  obtain ⟨hidx, hall, -⟩ := h.2.2.2.1 hleft
  exact ⟨hleft, hidx, hall, by decide +kernel⟩

/-! ### Every run ends -/

/-- How many statements a worker has before it, and four more for the turn of the boss that it starts. -/
def WorkerPc.left (n : ℕ) : WorkerPc → ℕ
  | .waitSync => n + 16
  | .waitMtx => n + 15
  | .loadIdx => n + 14
  | .store _ => n + 13
  | .loadIdx' => n + 12
  | .storeIdx _ => n + 11
  | .edge j => n - j + 10
  | .signalNtfy => 9
  | .done => 0

/-- How many statements the boss has before it when its loop has no more turns. -/
def BossPc.ahead : BossPc n → ℕ
  | .waitNtfy => 2 * n + 10
  | .signalMtx => 2 * n + 13
  | .test => 2 * n + 12
  | .heading => 2 * n + 9
  | .print i => n - i + (n + 8)
  | .check i _ => n - i + 7
  | .verdict _ => 6
  | .rmNtfy => 5
  | .rmSync => 4
  | .rmMtx => 3
  | .finished | .wild => 0

def measure (s : State n) : ℕ := s.boss.ahead + 4 * s.ntfy.getD 0 + tally (WorkerPc.left n) s.worker

section Measure

variable {A : Fin n → Fin n → ℤ} {s s' : State n} {i : Fin n} {pc' : WorkerPc}

theorem measure_worker (hworker : s'.worker = Function.update s.worker i pc') (hboss : s'.boss = s.boss)
    (hlt : pc'.left n + 4 * s'.ntfy.getD 0 < (s.worker i).left n + 4 * s.ntfy.getD 0) : measure s' < measure s := by
  have htally := tally_update (WorkerPc.left n) s.worker i pc'
  unfold measure
  rw [hworker, hboss]
  omega

theorem measure_workerStep (hst : workerStep A i s (s.worker i) = some s') : measure s' < measure s := by
  cases hpc : s.worker i <;> rw [hpc] at hst
  case waitSync =>
    simp only [workerStep] at hst
    split at hst
    · cases hst
      refine measure_worker rfl rfl ?_
      rw [hpc]
      simp [WorkerPc.left, State.goto]
    · cases hst
  case waitMtx =>
    obtain ⟨m, -, rfl⟩ := Option.map_eq_some_iff.1 hst
    refine measure_worker rfl rfl ?_
    rw [hpc]
    simp [WorkerPc.left, State.goto]
  case edge j =>
    simp only [workerStep] at hst
    split at hst
    · rename_i hj
      have hlt : n - (j + 1) + 10 < n - j + 10 := by omega
      split at hst
      · obtain ⟨x, -, rfl⟩ := Option.map_eq_some_iff.1 hst
        refine measure_worker rfl rfl ?_
        rw [hpc]
        exact Nat.add_lt_add_right hlt _
      · cases hst
        refine measure_worker rfl rfl ?_
        rw [hpc]
        exact Nat.add_lt_add_right hlt _
    · cases hst
      refine measure_worker rfl rfl ?_
      rw [hpc]
      show 9 + _ < n - j + 10 + 4 * s.ntfy.getD 0
      exact Nat.add_lt_add_right (by omega) _
  case signalNtfy =>
    cases hst
    refine measure_worker rfl rfl ?_
    rw [hpc]
    show 0 + 4 * (s.ntfy.map (· + 1)).getD 0 < 9 + 4 * s.ntfy.getD 0
    cases s.ntfy with
    | none => exact Nat.succ_pos _
    | some k => show 0 + 4 * (k + 1) < 9 + 4 * k; omega
  case done => cases hst
  all_goals
    cases hst
    refine measure_worker rfl rfl ?_
    rw [hpc]
    simp [WorkerPc.left, State.goto]

theorem measure_boss (hworker : s'.worker = s.worker)
    (hlt : s'.boss.ahead + 4 * s'.ntfy.getD 0 < s.boss.ahead + 4 * s.ntfy.getD 0) : measure s' < measure s := by
  unfold measure
  rw [hworker]
  exact Nat.add_lt_add_right hlt _

theorem measure_bossStep (h : Tokens s) (hst : bossStep A s s.boss = some s') : measure s' < measure s := by
  cases hb : s.boss <;> rw [hb] at hst
  case waitNtfy =>
    obtain ⟨x, hx, rfl⟩ := Option.map_eq_some_iff.1 hst
    refine measure_boss rfl ?_
    rw [hb]
    cases hk : s.ntfy with
    | none =>
      have hleft := h.removed (Or.inr (Or.inl hk))
      rw [hb] at hleft
      cases hleft
    | some k =>
      rw [hk] at hx
      cases k with
      | zero => cases hx
      | succ k =>
        cases hx
        show 2 * n + 13 + 4 * k < 2 * n + 10 + 4 * (k + 1)
        omega
  case test =>
    cases hst
    refine measure_boss rfl ?_
    rw [hb]
    refine Nat.add_lt_add_right ?_ _
    show (if s.idx = n then BossPc.heading else .waitNtfy).ahead < 2 * n + 12
    split
    · show 2 * n + 9 < 2 * n + 12
      omega
    · show 2 * n + 10 < 2 * n + 12
      omega
  case print i =>
    cases hst
    split
    · refine measure_boss rfl ?_
      rw [hb]
      refine Nat.add_lt_add_right ?_ _
      show n - (i + 1) + (n + 8) < n - i + (n + 8)
      omega
    · refine measure_boss rfl ?_
      rw [hb]
      refine Nat.add_lt_add_right ?_ _
      show n - 0 + 7 < n - i + (n + 8)
      omega
  case check i d =>
    cases hst
    refine measure_boss rfl ?_
    rw [hb]
    refine Nat.add_lt_add_right ?_ _
    show (if i < n then checkPlace A i d (s.T i) else .verdict true).ahead < n - i + 7
    split
    · cases s.T i with
      | none => exact Nat.succ_pos _
      | some v =>
        unfold checkPlace
        by_cases hd : d v = 0
        · simp only [if_pos hd]
          show n - (i + 1) + 7 < n - i + 7
          omega
        · simp only [if_neg hd]
          show 6 < n - i + 7
          omega
    · show 6 < n - i + 7
      omega
  case heading =>
    cases hst
    refine measure_boss rfl ?_
    rw [hb]
    refine Nat.add_lt_add_right ?_ _
    show n - 0 + (n + 8) < 2 * n + 9
    omega
  case rmNtfy =>
    cases hst
    refine measure_boss rfl ?_
    rw [hb]
    exact Nat.lt_of_lt_of_le (by decide : 4 < 5) (Nat.le_add_right _ _)
  case finished | wild => cases hst
  all_goals
    cases hst
    refine measure_boss rfl ?_
    rw [hb]
    refine Nat.add_lt_add_right ?_ _
    simp [BossPc.ahead]

/-- **No run is infinite.** -/
theorem not_infinite (A : Fin n → Fin n → ℤ) : ¬ InfiniteRun (next A) (setup A) := by
  refine not_infinite_of_measure (R := fun r s => r = measure s ∧ Tokens s) ⟨rfl, Tokens.setup⟩ (fun _ => measure)
    (fun a _ s s' ⟨_, h⟩ hst => ⟨measure s', ⟨rfl, h.next hst⟩, ?_⟩)
  cases a with
  | none => exact measure_bossStep h hst
  | some i => exact measure_workerStep hst

end Measure

/-! ### Progress -/

section Progress

variable {A : Fin n → Fin n → ℤ} {s s' : State n} {i : Fin n} {a : Option (Fin n)}

/-- The boss does not go back to wait after a full `T` unless a worker has taken its turn. -/
def Heeded (s : State n) : Prop := s.boss = .waitNtfy → ∀ m, s.mtx = some (m + 1) → s.idx ≠ n

theorem Heeded.worker (ht : Tokens s) (h : Heeded s) (hst : workerStep A i s (s.worker i) = some s') : Heeded s' := by
  intro hb m hm
  obtain ⟨hboss, -⟩ := workerStep_frame hst
  rw [hboss] at hb
  have hplace := ht.place i
  cases hpc : s.worker i <;> rw [hpc] at hst hplace
  case waitSync =>
    simp only [workerStep] at hst
    split at hst
    · cases hst; exact h hb m hm
    · cases hst
  case waitMtx =>
    obtain ⟨x, hx, rfl⟩ := Option.map_eq_some_iff.1 hst
    change x = some (m + 1) at hm
    subst hm
    cases hs : s.mtx with
    | none => rw [hs] at hx; cases hx
    | some y =>
      rw [hs] at hx
      cases y with
      | zero => cases hx
      | succ y => cases hx; exact h hb _ hs
  case storeIdx k =>
    cases hst
    -- the one inside has the token
    have hntfy : s.ntfy ≠ none := (ht.not_removed (i := i) (by rw [hpc]; simp [WorkerPc.rank])).2.1
    obtain ⟨x, hx⟩ := Option.ne_none_iff_exists'.1 hntfy
    have htok := ht.token _ x hm hx
    have hin := le_tally WorkerPc.inside s.worker i
    rw [hpc] at hin
    change 1 ≤ _ at hin
    omega
  case edge j =>
    simp only [workerStep] at hst
    split at hst
    · split at hst
      · obtain ⟨x, -, rfl⟩ := Option.map_eq_some_iff.1 hst
        exact h hb m hm
      · cases hst; exact h hb m hm
    · cases hst; exact h hb m hm
  case done => cases hst
  all_goals
    cases hst
    exact h hb m hm

theorem Heeded.boss (hst : bossStep A s s.boss = some s') : Heeded s' := by
  intro hb m hm
  cases hpc : s.boss <;> rw [hpc] at hst
  case waitNtfy =>
    obtain ⟨x, -, rfl⟩ := Option.map_eq_some_iff.1 hst
    cases hb
  case test =>
    cases hst
    intro hidx
    change s.idx = n at hidx
    change (if s.idx = n then BossPc.heading else .waitNtfy) = .waitNtfy at hb
    rw [if_pos hidx] at hb
    cases hb
  case check i d =>
    cases hst
    change (if i < n then checkPlace A i d (s.T i) else .verdict true) = .waitNtfy at hb
    split at hb
    · cases hT : s.T i with
      | none => rw [hT] at hb; cases hb
      | some v =>
        rw [hT] at hb
        unfold checkPlace at hb
        by_cases hd : d v = 0
        · simp only [if_pos hd] at hb; cases hb
        · simp only [if_neg hd] at hb; cases hb
    · cases hb
  case print i =>
    cases hst
    split at hb <;> cases hb
  case finished | wild => cases hst
  all_goals
    cases hst
    cases hb

theorem heeded_of_reachable (h : Reachable (next A) (setup A) s) : Heeded s := by
  refine reachable_inv Heeded (fun _ m hm => (by cases hm)) (fun a s s' hr hinv hst => ?_) h
  cases a with
  | none => exact Heeded.boss hst
  | some i => exact hinv.worker (inv_of_reachable hr).tokens hst

/-- Where nobody can go on and the boss is in its loop: it waits, and a worker is done, waits for its predecessors or for
the token. -/
theorem Inv.waiting (h : Inv A s) (hst : Stuck (next A) s) (hleft : s.boss.left = false) :
    (s.boss = .waitNtfy ∧ s.ntfy = some 0) ∧
    ∀ i, s.worker i = .done ∨ (s.worker i = .waitSync ∧ ∃ x, s.sync i = some (x + 1)) ∨
      (s.worker i = .waitMtx ∧ s.mtx = some 0) := by
  have hnotRemoved : ∀ P : Prop, (P → s.boss.left = true) → ¬ P := fun P hP hp => by
    rw [hP hp] at hleft
    cases hleft
  constructor
  · have hb := hst none
    change bossStep A s s.boss = none at hb
    cases hpc : s.boss <;> rw [hpc] at hb hleft
    case waitNtfy =>
      refine ⟨rfl, ?_⟩
      have hmap := Option.map_eq_none_iff.1 hb
      cases hk : s.ntfy with
      | none => exact absurd (Or.inr (Or.inl hk)) (hnotRemoved _ h.tokens.removed)
      | some k =>
        rw [hk] at hmap
        cases k with
        | zero => rfl
        | succ k => cases hmap
    case signalMtx | test => cases hb
    all_goals cases hleft
  · intro i
    have hi := hst (some i)
    change workerStep A i s (s.worker i) = none at hi
    cases hpc : s.worker i <;> rw [hpc] at hi
    case waitSync =>
      refine Or.inr (Or.inl ⟨rfl, ?_⟩)
      simp only [workerStep] at hi
      split at hi
      · cases hi
      · rename_i hzero
        cases hk : s.sync i with
        | none => rw [hk] at hzero; exact absurd rfl hzero
        | some x =>
          rw [hk] at hzero
          cases x with
          | zero => exact absurd rfl hzero
          | succ x => exact ⟨x, rfl⟩
    case waitMtx =>
      refine Or.inr (Or.inr ⟨rfl, ?_⟩)
      have hmap := Option.map_eq_none_iff.1 hi
      cases hk : s.mtx with
      | none => exact absurd (Or.inl hk) (hnotRemoved _ h.tokens.removed)
      | some k =>
        rw [hk] at hmap
        cases k with
        | zero => rfl
        | succ k => cases hmap
    case edge j =>
      simp only [workerStep] at hi
      split at hi
      · rename_i hj
        split at hi
        · rename_i hij
          obtain ⟨x, hx⟩ := h.positive (j := ⟨j, hj⟩) hpc hij
          rw [hx] at hi
          cases hi
        · cases hi
      · cases hi
    case done => exact Or.inl rfl
    all_goals cases hi

/-- **Without a cycle** the boss is not left in its loop. -/
theorem left_of_stuck (hA : Acyclic (Edge A)) (hr : Reachable (next A) (setup A) s) (hst : Stuck (next A) s) :
    s.boss.left = true := by
  by_contra hnot
  have hleft : s.boss.left = false := by simpa using hnot
  have h := inv_of_reachable hr
  obtain ⟨⟨hb, hntfy⟩, hworkers⟩ := h.waiting hst hleft
  -- nobody is inside, so the token is in `mtx`
  have hnone : tally WorkerPc.inside s.worker = 0 := tally_eq_zero.2 (fun i => by
    rcases hworkers i with hi | ⟨hi, -⟩ | ⟨hi, -⟩ <;> rw [hi] <;> rfl)
  obtain ⟨m, hm⟩ : ∃ m, s.mtx = some m := by
    refine Option.ne_none_iff_exists'.1 (fun e => ?_)
    rw [h.tokens.removed (Or.inl e)] at hleft
    cases hleft
  have htok := h.tokens.token m 0 hm hntfy
  rw [hb, hnone] at htok
  change m + 0 + 0 + 0 = 1 at htok
  have hmtx : s.mtx = some (0 + 1) := by rw [hm, show m = 1 by omega]
  have hdone : ∃ i, s.worker i ≠ .done := by
    by_contra hall
    have hc : ∀ i, (s.worker i).counted = 1 := fun i => by
      rw [not_not.1 (not_exists.1 hall i)]
      rfl
    refine heeded_of_reachable hr hb 0 hmtx ?_
    rw [h.tokens.idx]
    unfold tally
    rw [Finset.sum_congr rfl (fun i _ => hc i)]
    simp
  -- of the workers that are not done the first has no predecessor left
  obtain ⟨i, hi, hfirst⟩ := hA.exists_first hdone
  rcases hworkers i with hdone | ⟨-, x, hx⟩ | ⟨-, hzero⟩
  · exact hi hdone
  · have hcard := h.syncs.sync i _ hx
    have hempty : (preds A i).filter (fun u => (s.worker u).released i = false) = ∅ := by
      refine Finset.filter_eq_empty_iff.2 (fun u hu hno => ?_)
      rw [not_not.1 (hfirst u (mem_preds.1 hu))] at hno
      cases hno
    rw [hempty] at hcard
    cases hcard
  · rw [hmtx] at hzero
    cases hzero

/-- **What a cycle leads to** never has its turn. -/
theorem doomed_waits (h : Reachable (next A) (setup A) s) (hi : Doomed (Edge A) i) :
    s.worker i = .waitSync ∧ ∀ k, s.T k ≠ some i := by
  refine reachable_inv (fun s => ∀ i, Doomed (Edge A) i → s.worker i = .waitSync ∧ ∀ k, s.T k ≠ some i)
    (fun _ _ => ⟨rfl, fun _ e => (by cases e)⟩) (fun a s s' hr hinv hst i hi => ?_) h i hi
  cases a with
  | none =>
    obtain ⟨hworker, hT, -⟩ := bossStep_frame (A := A) hst
    rw [hworker, hT]
    exact hinv i hi
  | some j =>
    have hsyncs := (inv_of_reachable (hr.step hst)).syncs
    change workerStep A j s (s.worker j) = some s' at hst
    by_cases hji : i = j
    · subst hji
      rw [(hinv i hi).1] at hst
      simp only [workerStep] at hst
      split at hst
      · cases hst
        -- a predecessor of the kind waits too, but must be done
        obtain ⟨u, hui, hu⟩ := hi.pred
        have hrel := hsyncs.passed i (by simp [State.goto, WorkerPc.rank]) u hui
        change (Function.update s.worker i .waitMtx u).released i = true at hrel
        rw [Function.update_apply] at hrel
        split at hrel
        · cases hrel
        · rw [(hinv u hu).1] at hrel
          cases hrel
      · cases hst
    · refine ⟨((workerStep_frame hst).2.2 i hji).trans (hinv i hi).1, fun k hk => ?_⟩
      rcases workerStep_T hst with hT | ⟨l, -, hT⟩
      · rw [hT] at hk
        exact (hinv i hi).2 k hk
      · rw [hT, Function.update_apply] at hk
        split at hk
        · exact hji (Option.some.inj hk).symm
        · exact (hinv i hi).2 k hk

/-- **With a cycle** `*idx` never is `n`, and the boss stays in its loop. -/
theorem stays_in_loop (hA : ¬ Acyclic (Edge A)) (hr : Reachable (next A) (setup A) s) :
    s.idx ≠ n ∧ s.boss.left = false := by
  have h := inv_of_reachable hr
  obtain ⟨c, hc⟩ : ∃ c, Relation.TransGen (Edge A) c c := by
    unfold Acyclic at hA
    push Not at hA
    exact hA
  have hidx : s.idx ≠ n := fun hidx => by
    have hone : (s.worker c).counted = 1 := by
      refine tally_full (fun pc => ?_) (by rw [← h.tokens.idx, hidx, Fintype.card_fin]) c
      unfold WorkerPc.counted
      split <;> omega
    rw [(doomed_waits hr ⟨c, hc, Relation.ReflTransGen.refl⟩).1] at hone
    cases hone
  refine ⟨hidx, ?_⟩
  by_contra hleft
  exact hidx (h.tokens.full (by simpa using hleft))

end Progress

/-- **The parallel sort gets stuck exactly on cyclic graphs.**  Without a cycle somebody can go on until the boss has left
its loop, and every maximal run, which is finite, ends with that.  With one `*idx` never is `n`, the boss never leaves its
loop, and no vertex on a cycle or reachable from one is ever written into `T`. -/
theorem sorts_iff_acyclic (A : Fin n → Fin n → ℤ) :
    (Acyclic (Edge A) →
      (∀ s, Reachable (next A) (setup A) s → s.boss.left = false → ∃ a s', next A a s = some s') ∧
      ¬ InfiniteRun (next A) (setup A) ∧
      ∀ s, Reachable (next A) (setup A) s → Stuck (next A) s → s.boss.left = true) ∧
    (¬ Acyclic (Edge A) → ∀ s, Reachable (next A) (setup A) s →
      s.idx ≠ n ∧ s.boss.left = false ∧ ∀ v, Doomed (Edge A) v → ∀ k, s.T k ≠ some v) := by
  constructor
  · intro hA
    refine ⟨fun s hr hleft => ?_, not_infinite A, fun s => left_of_stuck hA⟩
    by_contra hno
    have hst : Stuck (next A) s := fun a => by
      by_contra hne
      obtain ⟨s', hs'⟩ := Option.ne_none_iff_exists'.1 hne
      exact hno ⟨a, s', hs'⟩
    rw [left_of_stuck hA hr hst] at hleft
    cases hleft
  · intro hA s hr
    obtain ⟨hidx, hleft⟩ := stays_in_loop hA hr
    exact ⟨hidx, hleft, fun v hv => (doomed_waits hr hv).2⟩

end TopSort
end OsLab
