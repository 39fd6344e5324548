import OsLab.BarrierInv
/-!
# BarrierRounds — the barrier keeps its threads within one round of each other

In every reachable state the invariant holds in some phase (`reachable_phase`), and each thread's three counts of calls
agree with its place (`reachable_ledger`).  From the two follow the safety of the barrier over any number of rounds
(`no_early_return`) and that some thread can move until all have made their calls (`barrier_live`).
-/
namespace OsLab
namespace Foothread

/-- Is in a call. -/
def Pc.engaged : Pc → ℕ
  | .out => 0
  | _ => 1

/-- Has executed `count++` in the call it is in. -/
def Pc.arrived : Pc → ℕ
  | .out | .check | .lockArrive | .loadArrive | .storeArrive _ | .exited => 0
  | _ => 1

/-- The counts of a thread agree with its place. -/
def Thread.Ledger (th : Thread) : Prop :=
  th.entered = th.returned + th.pc.engaged ∧ th.counted = th.returned + th.pc.arrived

theorem ledger_move {b b' : Barrier} {th : Thread} {pc' : Pc} (h : th.Ledger)
    (hw : foothreadBarrierWait b th.pc = some (b', pc')) (hlive : b.isLive = true) : (th.move pc').Ledger := by
  obtain ⟨h1, h2⟩ := h
  cases hpc : th.pc <;> rw [hpc] at hw h1 h2 <;> simp only [foothreadBarrierWait, Option.map_eq_some_iff] at hw
  case check => rw [hlive] at hw; cases hw; exact ⟨by simpa [Thread.move, hpc, Pc.engaged] using h1, by
    simpa [Thread.move, hpc, Pc.arrived] using h2⟩
  case testArrive => cases hw; split <;> exact ⟨by simpa [Thread.move, hpc, Pc.engaged] using h1, by
    simpa [Thread.move, hpc, Pc.arrived] using h2⟩
  case testDepart => cases hw; split <;> exact ⟨by simpa [Thread.move, hpc, Pc.engaged] using h1, by
    simpa [Thread.move, hpc, Pc.arrived] using h2⟩
  case exited => cases hw
  all_goals first | obtain ⟨v, hv, hb⟩ := hw; cases hb | cases hw
  all_goals exact ⟨by simpa [Thread.move, hpc, Pc.engaged] using h1, by simpa [Thread.move, hpc, Pc.arrived] using h2⟩

theorem reachable_phase {n : ℕ} (again : Fin n → ℕ → Bool) {s : State n} (hn : 1 ≤ n)
    (h : Reachable (next again) (start n) s) : ∃ ph gen, Inv s ph gen :=
  reachable_inv (fun s => ∃ ph gen, Inv s ph gen) ⟨.fill, 0, inv_start n hn⟩
    (fun _ _ _ _ ⟨_, _, hI⟩ hs => inv_next hI hs) h

theorem reachable_ledger {n : ℕ} (again : Fin n → ℕ → Bool) {s : State n} (hn : 1 ≤ n)
    (h : Reachable (next again) (start n) s) : ∀ t, (s.thread t).Ledger := by
  refine reachable_inv (fun s => ∀ t, (s.thread t).Ledger) (fun _ => ⟨rfl, rfl⟩) (fun t s s' hr hl hs u => ?_) h
  obtain ⟨ph, gen, hI⟩ := reachable_phase again hn hr
  obtain ⟨-, b, pc', hw, rfl⟩ := next_some hs
  by_cases hu : u = t
  · subst hu
    rw [moved_self]
    exact ledger_move (hl u) hw hI.live
  · rw [moved_of_ne hu]; exact hl u

theorem late_le_arrived (ph : Phase) (pc : Pc) : pc.late ph ≤ pc.arrived := by
  cases ph <;> cases pc <;> simp [Pc.late, Pc.arrived]

theorem arrived_le_engaged (pc : Pc) : pc.arrived ≤ pc.engaged ∧ pc.engaged ≤ 1 := by
  cases pc <;> simp [Pc.arrived, Pc.engaged]

/-- Is behind `count--` in the call it is in. -/
def Pc.leaving : Pc → Bool
  | .unlockDepart | .waitSem2 | .passSem2 => true
  | _ => false

theorem leaving_iff {pc : Pc} : pc.leaving = true ↔ pc = .unlockDepart ∨ pc = .waitSem2 ∨ pc = .passSem2 := by
  cases pc <;> simp [Pc.leaving]

/-- A thread that is leaving goes on leaving until it is out. -/
theorem leaving_step {b b' : Barrier} {pc pc' : Pc} (h : pc.leaving = true)
    (hw : foothreadBarrierWait b pc = some (b', pc')) : pc' = .out ∨ pc'.leaving = true := by
  rcases leaving_iff.1 h with rfl | rfl | rfl
  · cases hw
    exact Or.inr rfl
  · obtain ⟨v, -, hw⟩ := Option.map_eq_some_iff.1 hw
    cases hw
    exact Or.inr rfl
  · cases hw
    exact Or.inl rfl

theorem late_leaving (ph : Phase) (pc : Pc) : pc.late ph = 0 ∨ pc.late ph = 1 ∧ pc.leaving = true := by
  cases ph <;> cases pc <;> simp [Pc.late, Pc.leaving]

/-- **Who has returned leaves nobody behind but those that are leaving.** -/
theorem returned_or_leaving {n : ℕ} (hn : 1 ≤ n) (again : Fin n → ℕ → Bool) {s : State n}
    (h : Reachable (next again) (start n) s) (t u : Fin n) :
    (s.thread t).returned ≤ (s.thread u).returned ∨ (s.thread u).pc.leaving = true := by
  obtain ⟨ph, gen, hI⟩ := reachable_phase again hn h
  have ht := hI.round t
  have hu := hI.round u
  rcases late_leaving ph (s.thread u).pc with h0 | ⟨-, hl⟩
  · left
    omega
  · exact Or.inr hl

/-- A thread makes `R` calls. -/
def calls {n : ℕ} (R : ℕ) : Fin n → ℕ → Bool := fun _ r => decide (r < R)

/-- Two threads in their first call: thread 0 waits in the first turnstile, thread 1 arrives last, passes the turnstile
and stands before its decrement. -/
def lastArrives : State 2 :=
  (runSchedule (next (calls 1)) (List.replicate 7 0 ++ List.replicate 11 1) (start 2)).getD (start 2)

/-- **Nobody is early**: a thread that returned from its `r`-th call finds every thread to have entered its own and
counted itself in; `count` and the three semaphores stay in range, and two threads' rounds differ by at most one. -/
theorem no_early_return {n : ℕ} (hn : 1 ≤ n) (again : Fin n → ℕ → Bool) {s : State n}
    (h : Reachable (next again) (start n) s) :
    (∀ r, 1 ≤ r → ∀ t, r ≤ (s.thread t).returned → ∀ u, r ≤ (s.thread u).entered ∧ r ≤ (s.thread u).counted) ∧
      (0 ≤ s.bar.count ∧ s.bar.count ≤ n) ∧ s.bar.mutex ≤ 1 ∧ s.bar.sem1 ≤ 1 ∧ s.bar.sem2 ≤ 1 ∧
      ∀ t u, (s.thread t).entered ≤ (s.thread u).entered + 1 ∧ (s.thread t).returned ≤ (s.thread u).returned + 1 := by
  obtain ⟨ph, gen, hI⟩ := reachable_phase again hn h
  have hl := reachable_ledger again hn h
  have hsem1 : s.bar.sem1 + tally (fun th => th.pc.turn1) s.thread ≤ 1 := by rw [hI.sem1]; split <;> simp
  have hsem2 : s.bar.sem2 + tally (fun th => th.pc.turn2) s.thread ≤ 1 := by rw [hI.sem2]; split <;> simp
  have hmutex := hI.mutex
  have hcount := hI.count
  have hround : ∀ t, gen ≤ (s.thread t).counted ∧ (s.thread t).counted ≤ (s.thread t).entered ∧
      (s.thread t).entered ≤ gen + 1 ∧ (s.thread t).returned ≤ gen ∧ gen ≤ (s.thread t).returned + 1 := fun t => by
    obtain ⟨h1, h2⟩ := hl t
    have := hI.round t
    have := late_le_arrived ph (s.thread t).pc
    have := arrived_le_engaged (s.thread t).pc
    omega
  refine ⟨fun r _ t hr u => ?_, ⟨by omega, hI.count_le⟩, by omega, by omega, by omega, fun t u => ?_⟩
  · have := hround t
    have := hround u
    omega
  · have := hround t
    have := hround u
    omega

theorem no_early_return_two : lastArrives.bar.count ≤ 2 ∧ lastArrives.bar.sem1 ≤ 1 :=
  have h := no_early_return (by decide) (calls 1) (reachable_getD _ (start 2) (by decide))
  ⟨h.2.1.2, h.2.2.2.1⟩

/-! ## Progress -/

theorem entered_le {n R : ℕ} {s : State n} (hn : 1 ≤ n) (h : Reachable (next (calls R)) (start n) s) :
    ∀ t, (s.thread t).entered ≤ R := by
  refine reachable_inv (fun s => ∀ t, (s.thread t).entered ≤ R) (fun _ => Nat.zero_le R) (fun t s s' hr hI hs u => ?_) h
  have hl := (reachable_ledger _ hn hr t).1
  obtain ⟨hgo, b, pc', hw, rfl⟩ := next_some hs
  by_cases hu : u = t
  · subst hu
    rw [moved_self]
    by_cases ho : (s.thread u).pc = .out
    · have := of_decide_eq_true (hgo ho)
      simp only [Thread.move, ho, if_true]
      rw [ho] at hl
      exact hl ▸ this
    · simpa [Thread.move, ho] using hI u
  · rw [moved_of_ne hu]; exact hI u

/-- **The holder of `mutex` is never blocked**: both semaphores taken under it are found positive. -/
theorem Inv.holder_moves {n : ℕ} {again : Fin n → ℕ → Bool} {s : State n} {ph : Phase} {gen : ℕ} {t : Fin n}
    (h : Inv s ph gen) (ht : (s.thread t).pc.holding = 1) : next again t s ≠ none := by
  have hout : (s.thread t).pc ≠ .out := fun e => by rw [e] at ht; cases ht
  simp only [next, hout, false_and, if_false, ne_eq, Option.map_eq_none_iff]
  cases hpc : (s.thread t).pc <;> rw [hpc] at ht <;> simp only [Pc.holding, reduceCtorEq] at ht
  case closeSem2 =>
    simp [foothreadBarrierWait, semWait_none, (h.at_closeSem2 hpc).2.1]
  case closeSem1 =>
    simp [foothreadBarrierWait, semWait_none, (h.at_closeSem1 hpc).2.1]
  all_goals simp [foothreadBarrierWait]

/-- Where a thread that cannot move stands, when nobody holds `mutex`. -/
theorem blocked_at {n R : ℕ} {s : State n} {ph : Phase} {gen : ℕ} {t : Fin n} (h : Inv s ph gen)
    (hfree : ∀ u, (s.thread u).pc.holding = 0) (hb : next (calls R) t s = none) :
    ((s.thread t).pc = .out ∧ R ≤ (s.thread t).returned) ∨ ((s.thread t).pc = .waitSem1 ∧ s.bar.sem1 = 0) ∨
      ((s.thread t).pc = .waitSem2 ∧ s.bar.sem2 = 0) := by
  have hmutex : s.bar.mutex = 1 := by
    have := h.mutex
    have hzero : tally (fun th => th.pc.holding) s.thread = 0 := tally_eq_zero.2 hfree
    omega
  have hplace := h.place t
  have hfree := hfree t
  cases hpc : (s.thread t).pc <;> rw [hpc] at hfree hplace
    <;> simp [next, hpc, calls, foothreadBarrierWait, semWait_none, hmutex, h.live, Pc.holding] at hb hfree ⊢
  case exited => cases ph <;> exact hplace.elim
  all_goals exact hb

/-- **The barrier is never stuck before the end**: while some of the `n` threads has not made its `R` calls, some thread
can move; the last arrival always finds `sem2` positive and the last departure `sem1`. -/
theorem barrier_live {n R : ℕ} (hn : 1 ≤ n) {s : State n} (h : Reachable (next (calls R)) (start n) s) :
    ((∀ t, (s.thread t).pc = .out ∧ (s.thread t).returned = R) ∨ ∃ t, next (calls R) t s ≠ none) ∧
      (∀ t, (s.thread t).pc = .closeSem2 → 0 < s.bar.sem2) ∧ ∀ t, (s.thread t).pc = .closeSem1 → 0 < s.bar.sem1 := by
  obtain ⟨ph, gen, hI⟩ := reachable_phase _ hn h
  refine ⟨?_, fun t ht => by rw [(hI.at_closeSem2 ht).2.1]; decide, fun t ht => by rw [(hI.at_closeSem1 ht).2.1]; decide⟩
  by_contra hstuck
  simp only [not_or, not_exists, not_not] at hstuck
  obtain ⟨hnot, hstuck⟩ := hstuck
  have hfree : ∀ u, (s.thread u).pc.holding = 0 := fun u => by
    by_contra hu
    have : (s.thread u).pc.holding = 1 := by
      revert hu
      cases (s.thread u).pc <;> simp [Pc.holding]
    exact hI.holder_moves this (hstuck u)
  have hat := fun u => blocked_at hI hfree (hstuck u)
  cases ph with
  | shut =>
    obtain ⟨u, hu⟩ := hI.opener rfl
    have := hfree u
    rw [hu] at this; cases this
  | reset =>
    obtain ⟨u, hu⟩ := hI.closer rfl
    have := hfree u
    rw [hu] at this; cases this
  | fill =>
    have hsem2 : s.bar.sem2 = 1 := by
      have := hI.sem2
      rwa [tally_eq_zero.2 (fun u => by rcases hat u with ⟨e, -⟩ | ⟨e, -⟩ | ⟨e, -⟩ <;> rw [e] <;> rfl),
        if_pos rfl] at this
    by_cases hall : ∀ u, (s.thread u).pc = .waitSem1
    · have hcount : s.bar.count = n := by
        rw [hI.count, tally, Finset.sum_congr rfl (fun u _ => by rw [hall u]; rfl : ∀ u ∈ Finset.univ, _ = 1)]
        simp
      obtain ⟨u, hu⟩ := hI.lastIn rfl hcount
      rw [hall u] at hu
      rcases hu with hu | hu <;> cases hu
    · obtain ⟨v, hv⟩ := not_forall.1 hall
      have hvout : R ≤ (s.thread v).returned ∧ (s.thread v).returned = gen := by
        rcases hat v with ⟨e, hr⟩ | ⟨e, -⟩ | ⟨-, hs⟩
        · have := hI.round v
          rw [e] at this
          exact ⟨hr, this⟩
        · exact absurd e hv
        · omega
      refine hnot fun u => ?_
      have hle := entered_le hn h u
      have hround := hI.round u
      have hledger := (reachable_ledger _ hn h u).1
      rcases hat u with ⟨e, hr⟩ | ⟨e, -⟩ | ⟨-, hs⟩
      · rw [e] at hledger
        exact ⟨e, by simp only [Pc.engaged] at hledger; omega⟩
      · rw [e] at hledger hround
        simp only [Pc.engaged, Pc.late] at hledger hround
        omega
      · omega
  | drain =>
    have hsem1 : s.bar.sem1 = 1 := by
      have := hI.sem1
      rwa [tally_eq_zero.2 (fun u => by rcases hat u with ⟨e, -⟩ | ⟨e, -⟩ | ⟨e, -⟩ <;> rw [e] <;> rfl),
        if_pos rfl] at this
    have hall : ∀ u, (s.thread u).pc = .waitSem2 := fun u => by
      rcases hat u with ⟨e, -⟩ | ⟨-, hs⟩ | ⟨e, -⟩
      · have := hI.place u
        rw [e] at this; exact this.elim
      · omega
      · exact e
    have hcount : s.bar.count = 0 := by
      rw [hI.count, tally_eq_zero.2 fun u => by rw [hall u]; rfl]
      rfl
    obtain ⟨u, hu⟩ := hI.lastOut rfl hcount
    rw [hall u] at hu
    rcases hu with hu | hu <;> cases hu

theorem barrier_live_two : ∃ t, next (calls 1) t lastArrives ≠ none :=
  (barrier_live (by decide) (reachable_getD _ (start 2) (by decide))).1.resolve_left
    fun h => by have := (h 0).2; revert this; decide

end Foothread
end OsLab
