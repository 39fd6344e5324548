import OsLab.TopSortRuns
/-!
# TopSortRemoval — the boss removes the semaphores too early, on every graph it can sort

The boss reads `*idx` after its `V(mtx)`, not after a `P(ntfy)`.  Its test of `*idx` and the statements of the worker it has
released do not wait for each other, so wherever the boss has gone back to wait for that worker it could still be before its
test (`rewind`): it then finds `*idx` at `n` while the last worker owes its decrements and its `V(ntfy)`, and needs nobody
to go on and remove the semaphores (`finishes_alone`).  No graph with a vertex is spared but those with a cycle, on which the
boss never leaves its loop (`removed_last_iff`).
-/
namespace OsLab
namespace TopSort

variable {n : ℕ}

/-- A semaphore has been removed. -/
def Removed (s : State n) : Prop := s.mtx = none ∨ s.ntfy = none ∨ ∃ j, s.sync j = none

/-- When the boss has left its loop every worker is done, and where a semaphore is removed no worker has a step to take. -/
def RemovedLast (A : Fin n → Fin n → ℤ) (s : State n) : Prop :=
  (s.boss.left = true → ∀ i, s.worker i = .done) ∧ (Removed s → ∀ i, next A (some i) s = none)

/-- The boss is about to test `*idx`, which is `n`, and the worker `i` is about to go through its edges. -/
structure Hasty (s : State n) (i : Fin n) : Prop where
  boss : s.boss = .test
  full : s.idx = n
  worker : s.worker i = .edge 0

section Runs

variable {A : Fin n → Fin n → ℤ} {s t : State n} {i : Fin n} {pc : WorkerPc}

/-- What the boss is about to do is nothing to a worker. -/
theorem workerStep_boss (h : workerStep A i s pc = some t) (b : BossPc n) :
    workerStep A i { s with boss := b } pc = some { t with boss := b } := by
  cases pc
  case waitSync =>
    simp only [workerStep] at h ⊢
    split at h
    · cases h; rw [if_pos ‹_›]; rfl
    · cases h
  case waitMtx =>
    obtain ⟨m, hm, rfl⟩ := Option.map_eq_some_iff.1 h
    exact Option.map_eq_some_iff.2 ⟨m, hm, rfl⟩
  case edge j =>
    simp only [workerStep] at h ⊢
    split at h
    · split at h
      · obtain ⟨x, hx, rfl⟩ := Option.map_eq_some_iff.1 h
        rw [dif_pos ‹_›, if_pos ‹_›]
        exact Option.map_eq_some_iff.2 ⟨x, hx, rfl⟩
      · cases h; rw [dif_pos ‹_›, if_neg ‹_›]; rfl
    · cases h; rw [dif_neg ‹_›]; rfl
  case done => cases h
  all_goals
    cases h
    rfl

/-- A worker takes nothing from `ntfy`. -/
theorem workerStep_ntfy (h : workerStep A i s pc = some t) (ht : t.ntfy = some 0) : s.ntfy = some 0 := by
  cases pc
  case waitSync =>
    simp only [workerStep] at h
    split at h
    · cases h; exact ht
    · cases h
  case waitMtx =>
    obtain ⟨m, -, rfl⟩ := Option.map_eq_some_iff.1 h
    exact ht
  case edge j =>
    simp only [workerStep] at h
    split at h
    · split at h
      · obtain ⟨x, -, rfl⟩ := Option.map_eq_some_iff.1 h
        exact ht
      · cases h; exact ht
    · cases h; exact ht
  case signalNtfy =>
    cases h
    obtain ⟨k, -, hk⟩ := Option.map_eq_some_iff.1 (show s.ntfy.map (· + 1) = some 0 from ht)
    cases hk
  case done => cases h
  all_goals
    cases h
    exact ht

theorem checkPlace_left (k : ℕ) (d : Fin n → ℤ) (v : Option (Fin n)) : (checkPlace A k d v).left = true := by
  cases v with
  | none => rfl
  | some v =>
    change (if d v = 0 then BossPc.check (k + 1) (release A v d) else .verdict false).left = true
    split <;> rfl

/-- The boss does not come back to its loop. -/
theorem bossStep_left (h : bossStep A s s.boss = some t) (hleft : s.boss.left = true) : t.boss.left = true := by
  cases hpc : s.boss <;> rw [hpc] at h hleft
  case waitNtfy | signalMtx | test => cases hleft
  case print i =>
    cases h
    split <;> rfl
  case check i d =>
    cases h
    change (if i < n then checkPlace A i d (s.T i) else BossPc.verdict true).left = true
    split
    · exact checkPlace_left i d _
    · rfl
  case finished | wild => cases h
  all_goals
    cases h
    rfl

/-- The boss comes back to its `P(ntfy)` from its test only. -/
theorem bossStep_waitNtfy (h : bossStep A s s.boss = some t) (ht : t.boss = .waitNtfy) :
    s = { t with boss := .test } := by
  have hloop : s.boss.left ≠ true := fun hleft => by
    have hstay := bossStep_left h hleft
    rw [ht] at hstay
    cases hstay
  cases hpc : s.boss <;> rw [hpc] at h
  case waitNtfy =>
    obtain ⟨x, -, rfl⟩ := Option.map_eq_some_iff.1 h
    cases ht
  case signalMtx =>
    cases h
    cases ht
  case test =>
    cases h
    exact congrArg (fun b => { s with boss := b }) hpc
  all_goals exact absurd (by rw [hpc]; rfl) hloop

/-- `*idx` is raised by one statement of a worker only. -/
theorem workerStep_idx (h : workerStep A i s pc = some t) :
    t.idx = s.idx ∨ ∃ k, pc = .storeIdx k ∧ t.idx = k + 1 := by
  cases pc
  case waitSync =>
    simp only [workerStep] at h
    split at h
    · cases h; exact Or.inl rfl
    · cases h
  case waitMtx =>
    obtain ⟨m, -, rfl⟩ := Option.map_eq_some_iff.1 h
    exact Or.inl rfl
  case storeIdx k =>
    cases h
    exact Or.inr ⟨k, rfl, rfl⟩
  case edge j =>
    simp only [workerStep] at h
    split at h
    · split at h
      · obtain ⟨x, -, rfl⟩ := Option.map_eq_some_iff.1 h
        exact Or.inl rfl
      · cases h; exact Or.inl rfl
    · cases h; exact Or.inl rfl
  case done => cases h
  all_goals
    cases h
    exact Or.inl rfl

/-- **Rewinding**: while the boss waits for the worker it has released, the run could have left it before its test. -/
theorem rewind (h : Reachable (next A) (setup A) s) :
    s.boss = .waitNtfy → s.ntfy = some 0 → Reachable (next A) (setup A) { s with boss := .test } := by
  induction h with
  | refl =>
    intro _ hn
    cases hn
  | @tail s t hr hst ih =>
    intro hb hn
    obtain ⟨a, hst⟩ := hst
    cases a with
    | none =>
      rw [← bossStep_waitNtfy hst hb]
      exact hr
    | some i =>
      obtain ⟨hboss, -, -⟩ := workerStep_frame hst
      exact (ih (hboss ▸ hb) (workerStep_ntfy hst hn)).step (a := some i) (workerStep_boss hst .test)

/-- A worker that raises `*idx` to `n` can do so while the boss is before its test. -/
theorem hasty_of_storeIdx {k : ℕ} (hr : Reachable (next A) (setup A) s) (hpc : s.worker i = .storeIdx k) (hk : k + 1 = n) :
    ∃ t, Reachable (next A) (setup A) t ∧ Hasty t i := by
  have htok := (inv_of_reachable hr).tokens
  have hidx : k = s.idx := by
    have hplace := htok.place i
    rw [hpc] at hplace
    exact hplace
  obtain ⟨hmtx, hntfy, -⟩ := htok.not_removed (i := i) (by rw [hpc]; simp [WorkerPc.rank])
  obtain ⟨m, hm⟩ := Option.ne_none_iff_exists'.1 hmtx
  obtain ⟨x, hx⟩ := Option.ne_none_iff_exists'.1 hntfy
  have hone := htok.token m x hm hx
  have hin := le_tally WorkerPc.inside s.worker i
  rw [hpc] at hin
  change 1 ≤ _ at hin
  have hnot : s.boss.left ≠ true := fun hleft => by
    have hfull := htok.full hleft
    omega
  -- the token is with the worker
  have htest : Reachable (next A) (setup A) { s with boss := .test } := by
    cases hb : s.boss
    case waitNtfy => exact rewind hr hb (by rw [hx, show x = 0 by omega])
    case signalMtx =>
      rw [hb] at hone
      change m + x + 1 + _ = 1 at hone
      omega
    case test => exact (congrArg (fun b => { s with boss := b }) hb : s = { s with boss := .test }) ▸ hr
    all_goals exact absurd (by rw [hb]; rfl) hnot
  have hstep : workerStep A i { s with boss := .test } (s.worker i) =
      some ({ s with boss := .test, idx := k + 1 }.goto i (.edge 0)) := by rw [hpc]; rfl
  exact ⟨_, htest.step (a := some i) hstep, rfl, hk, Function.update_self i _ s.worker⟩

/-- **Once `*idx` is `n`** the run could have been a hasty one. -/
theorem hasty_of_full (hn : 1 ≤ n) (h : Reachable (next A) (setup A) s) :
    s.idx = n → ∃ t i, Reachable (next A) (setup A) t ∧ Hasty t i := by
  induction h with
  | refl =>
    intro hfull
    change 0 = n at hfull
    omega
  | @tail s t hr hst ih =>
    intro hfull
    obtain ⟨a, hst⟩ := hst
    cases a with
    | none =>
      obtain ⟨-, -, hidx, -⟩ := bossStep_frame (A := A) hst
      exact ih (hidx ▸ hfull)
    | some i =>
      rcases workerStep_idx hst with hidx | ⟨k, hpc, hidx⟩
      · exact ih (hidx ▸ hfull)
      · obtain ⟨u, hu, hu'⟩ := hasty_of_storeIdx hr hpc (hidx ▸ hfull)
        exact ⟨u, i, hu, hu'⟩

/-- A semaphore that has been removed does not come back. -/
theorem workerStep_mtx (h : workerStep A i s pc = some t) (hs : s.mtx = none) : t.mtx = none := by
  cases pc
  case waitSync =>
    simp only [workerStep] at h
    split at h
    · cases h; exact hs
    · cases h
  case waitMtx =>
    obtain ⟨m, hm, rfl⟩ := Option.map_eq_some_iff.1 h
    rw [hs] at hm
    exact (Option.some.inj hm).symm
  case edge j =>
    simp only [workerStep] at h
    split at h
    · split at h
      · obtain ⟨x, -, rfl⟩ := Option.map_eq_some_iff.1 h
        exact hs
      · cases h; exact hs
    · cases h; exact hs
  case done => cases h
  all_goals
    cases h
    exact hs

theorem bossStep_finished (h : bossStep A s s.boss = some t) (ht : t.boss = .finished) : t.mtx = none := by
  cases hpc : s.boss <;> rw [hpc] at h
  case rmMtx => cases h; rfl
  case waitNtfy =>
    obtain ⟨x, -, rfl⟩ := Option.map_eq_some_iff.1 h
    cases ht
  case test =>
    cases h
    change (if s.idx = n then BossPc.heading else .waitNtfy) = .finished at ht
    split at ht <;> cases ht
  case print k =>
    cases h
    split at ht <;> cases ht
  case check k d =>
    cases h
    change (if k < n then checkPlace A k d (s.T k) else .verdict true) = .finished at ht
    split at ht
    · cases hT : s.T k with
      | none => rw [hT] at ht; cases ht
      | some v =>
        rw [hT] at ht
        change (if d v = 0 then BossPc.check (k + 1) (release A v d) else .verdict false) = .finished at ht
        split at ht <;> cases ht
    · cases ht
  case finished | wild => cases h
  all_goals
    cases h
    cases ht

/-- At its end the boss has removed `mtx`. -/
theorem mtx_removed (h : Reachable (next A) (setup A) s) : s.boss = .finished → s.mtx = none := by
  refine reachable_inv (fun s => s.boss = .finished → s.mtx = none) (fun hb => by cases hb) (fun a s t _ hinv hst hb => ?_) h
  cases a with
  | none => exact bossStep_finished hst hb
  | some i =>
    obtain ⟨hboss, -, -⟩ := workerStep_frame hst
    exact workerStep_mtx hst (hinv (hboss ▸ hb))

/-- **The worker goes on** through its edges, of which there is none to a vertex that is left. -/
theorem goes_on (hr : Reachable (next A) (setup A) s) (hb : s.boss = .finished) (r : ℕ) :
    ∀ j, j + r = n → s.worker i = .edge j →
      ∃ t, Reachable (next A) (setup A) t ∧ t.boss = .finished ∧ t.worker i = .signalNtfy := by
  induction r generalizing s with
  | zero =>
    intro j hj hpc
    have hst : workerStep A i s (s.worker i) = some (s.goto i .signalNtfy) := by
      rw [hpc]
      exact dif_neg (by omega)
    exact ⟨_, hr.step (a := some i) hst, hb, Function.update_self i _ s.worker⟩
  | succ r ih =>
    intro j hj hpc
    have hinv := inv_of_reachable hr
    have hjn : j < n := by omega
    have hnot : A i ⟨j, hjn⟩ = 0 := by
      by_contra hij
      obtain ⟨x, hx⟩ := hinv.positive (j := ⟨j, hjn⟩) hpc hij
      have hlast := hinv.syncs.passed ⟨j, hjn⟩
        (Nat.le_trans (by decide) (hinv.tokens.all_counted (by rw [hb]; rfl) ⟨j, hjn⟩)) i hij
      rw [hpc] at hlast
      exact absurd hlast (by simp [WorkerPc.released])
    have hst : workerStep A i s (s.worker i) = some (s.goto i (.edge (j + 1))) := by
      rw [hpc]
      exact (dif_pos hjn).trans (if_neg (not_not.2 hnot))
    exact ih (hr.step (a := some i) hst) hb (j + 1) (by omega) (Function.update_self i _ s.worker)

/-- **After its loop the boss needs nobody**: it comes to its end while the workers stand still. -/
theorem finishes_alone (hr : Reachable (next A) (setup A) s) (hleft : s.boss.left = true) :
    ∃ t, Reachable (next A) (setup A) t ∧ t.boss = .finished ∧ t.worker = s.worker := by
  induction hm : measure s using Nat.strong_induction_on generalizing s with
  | _ m ih =>
    have hinv := inv_of_reachable hr
    rcases hinv.boss_goes_on hleft with hb | ⟨t, hst⟩
    · exact ⟨s, hr, hb, rfl⟩
    · obtain ⟨hworker, -⟩ := bossStep_frame (A := A) hst
      obtain ⟨u, hu, hend, hsame⟩ :=
        ih (measure t) (hm ▸ measure_bossStep hinv.tokens hst) (hr.step hst) (bossStep_left hst hleft) rfl
      exact ⟨u, hu, hend, hsame.trans hworker⟩

/-- **On every graph the boss can sort** it may come to its end while a worker is before its `V(ntfy)`. -/
theorem overtaken (hn : 1 ≤ n) (hA : Acyclic (Edge A)) :
    ∃ s i, Reachable (next A) (setup A) s ∧ s.boss = .finished ∧ s.worker i = .signalNtfy := by
  obtain ⟨u, hu, hstuck⟩ := exists_stuck (not_infinite A) (Reachable.refl _ _)
  have hfull := (inv_of_reachable hu).tokens.full (left_of_stuck hA hu hstuck)
  obtain ⟨t, i, ht, hasty⟩ := hasty_of_full hn hu hfull
  have htest : next A none t = some { t with boss := .heading } := by
    change bossStep A t t.boss = _
    rw [hasty.boss]
    exact congrArg some (congrArg (fun b => { t with boss := b }) (if_pos hasty.full))
  obtain ⟨s, hs, hend, hsame⟩ := finishes_alone (ht.step htest) rfl
  obtain ⟨w, hw, hwb, hwi⟩ := goes_on hs hend n 0 (Nat.zero_add n) ((congrFun hsame i).trans hasty.worker)
  exact ⟨w, i, hw, hwb, hwi⟩

theorem not_removedLast (hb : s.boss = .finished) (hi : s.worker i = .signalNtfy) : ¬ RemovedLast A s := fun h => by
  have hdone := h.1 (by rw [hb]; rfl) i
  rw [hi] at hdone
  cases hdone

end Runs

/-- **The boss never waits for the last worker**: on every acyclic graph with a vertex some order of the steps lets it come
to its end, all semaphores removed, before a worker's `V(ntfy)`, so that it is not last in every run. -/
theorem never_removed_last {A : Fin n → Fin n → ℤ} (hn : 1 ≤ n) (hA : Acyclic (Edge A)) :
    (∃ s i, Reachable (next A) (setup A) s ∧ s.boss = .finished ∧ s.mtx = none ∧ s.worker i = .signalNtfy) ∧
    ¬ ∀ s, Reachable (next A) (setup A) s → RemovedLast A s := by
  obtain ⟨s, i, hs, hb, hi⟩ := overtaken hn hA
  exact ⟨⟨s, i, hs, hb, mtx_removed hs hb, hi⟩, fun h => not_removedLast hb hi (h s hs)⟩

theorem oneEdge_acyclic : Acyclic (Edge oneEdge) := acyclic_of_rank (fun i => 1 - i.val) (by decide)

theorem never_removed_last_oneEdge : ¬ ∀ s, Reachable (next oneEdge) (setup oneEdge) s → RemovedLast oneEdge s :=
  (never_removed_last (by decide) oneEdge_acyclic).2

/-- **The boss removes the semaphores last exactly where it has no worker or never comes to it.** -/
theorem removed_last_iff (A : Fin n → Fin n → ℤ) :
    (∀ s, Reachable (next A) (setup A) s → RemovedLast A s) ↔ n = 0 ∨ ¬ Acyclic (Edge A) := by
  constructor
  · intro h
    by_contra hnot
    push Not at hnot
    obtain ⟨s, i, hs, hb, hi⟩ := overtaken (Nat.one_le_iff_ne_zero.2 hnot.1) hnot.2
    exact not_removedLast hb hi (h s hs)
  · rintro (h0 | hcyc) s hs
    · subst h0
      exact ⟨fun _ i => i.elim0, fun _ i => i.elim0⟩
    · have hleft := (stays_in_loop hcyc hs).2
      have hin : s.boss.left ≠ true := by rw [hleft]; decide
      exact ⟨fun hl => absurd hl hin, fun hr => absurd ((inv_of_reachable hs).tokens.removed hr) hin⟩

/-- One vertex: the boss hands out the turn, the worker writes its place and `*idx`, and the boss goes on to remove
`ntfy` before the worker's `V(ntfy)`. -/
def hastyRun : List (Option (Fin 1)) :=
  List.replicate 2 none ++ List.replicate 8 (some 0) ++ List.replicate 8 none

/-- **The boss may remove a semaphore that a worker still needs.** -/
theorem removed_too_early : ¬ ∀ (n : ℕ) (A : Fin n → Fin n → ℤ), 1 ≤ n → Acyclic (Edge A) →
    ∀ s, Reachable (next A) (setup A) s → RemovedLast A s := by
  intro h
  have hacyclic : Acyclic (Edge fun _ _ : Fin 1 => (0 : ℤ)) := acyclic_of_rank (fun _ => 0) fun _ _ h => absurd rfl h
  have hlast := h 1 (fun _ _ => 0) (by decide) hacyclic _ (reachable_getD hastyRun _ (by decide +kernel))
  exact absurd (hlast.1 (by decide +kernel) 0) (by decide +kernel)

end TopSort
end OsLab
