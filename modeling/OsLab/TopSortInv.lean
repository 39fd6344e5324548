import OsLab.TopSortStep
import OsLab.Tally
/-!
# TopSortInv — one token, and what each semaphore counts

There is one token, in `mtx`, in `ntfy`, with the boss or with the one worker between its calls, and `*idx` counts the
workers past their increment (`Tokens`).  `sync[j]` is the number of predecessors of `j` that have not yet decremented
it, so a worker that goes on has none left (`Syncs`).
-/
namespace OsLab
namespace TopSort

variable {n : ℕ}

/-! ### The count of the edges -/

def Edge (A : Fin n → Fin n → ℤ) (i j : Fin n) : Prop := A i j ≠ 0

instance (A : Fin n → Fin n → ℤ) (i j : Fin n) : Decidable (Edge A i j) := inferInstanceAs (Decidable (_ ≠ _))

def preds (A : Fin n → Fin n → ℤ) (j : Fin n) : Finset (Fin n) := Finset.univ.filter (fun i => Edge A i j)

variable (A : Fin n → Fin n → ℤ)

theorem mem_preds {A : Fin n → Fin n → ℤ} {i j : Fin n} : i ∈ preds A j ↔ Edge A i j := by
  unfold preds
  rw [Finset.mem_filter, and_iff_right (Finset.mem_univ i)]

/-- A loop over all `j` that changes the entries `j` with `p j`, each once. -/
theorem foldl_update {α : Type*} (p : Fin n → Prop) [DecidablePred p] (f : α → α) (l : List (Fin n)) (hl : l.Nodup)
    (d : Fin n → α) (j : Fin n) :
    l.foldl (fun d j => if p j then Function.update d j (f (d j)) else d) d j = if j ∈ l ∧ p j then f (d j) else d j := by
  induction l generalizing d with
  | nil => simp
  | cons i is ih =>
    obtain ⟨hi, his⟩ := List.nodup_cons.1 hl
    rw [List.foldl_cons, ih his]
    by_cases hj : j = i
    · subst hj
      by_cases hp : p j <;> simp [hi, hp]
    · by_cases hp : p i <;> simp [hj, hp]

theorem release_apply (v : Fin n) (d : Fin n → ℤ) (j : Fin n) : release A v d j = if Edge A v j then d j - 1 else d j := by
  unfold release
  refine (foldl_update (fun j => A v j ≠ 0) (· - 1) _ (List.nodup_finRange n) d j).trans ?_
  exact if_congr (and_iff_right (List.mem_finRange j)) rfl rfl

theorem indegrees_fold (l : List (Fin n)) (d : Fin n → ℕ) (j : Fin n) :
    l.foldl (fun indeg i => (List.finRange n).foldl (fun indeg j =>
      if A i j ≠ 0 then Function.update indeg j (indeg j + 1) else indeg) indeg) d j =
      d j + l.countP (fun i => A i j ≠ 0) := by
  induction l generalizing d with
  | nil => rfl
  | cons i is ih =>
    rw [List.foldl_cons, ih, List.countP_cons,
      foldl_update (fun j => A i j ≠ 0) (· + 1) _ (List.nodup_finRange n) d j]
    by_cases hp : A i j = 0 <;> simp [hp]
    omega

/-- **What the boss counts**: the predecessors of a vertex. -/
theorem indegrees_eq (j : Fin n) : indegrees A j = (preds A j).card := by
  unfold indegrees
  rw [indegrees_fold, Nat.zero_add, preds, Finset.card_def, Finset.filter_val, ← Multiset.countP_eq_card_filter]
  rfl

/-! ### Places -/

def WorkerPc.rank : WorkerPc → ℕ
  | .waitSync => 0
  | .waitMtx => 1
  | .loadIdx => 2
  | .store _ => 3
  | .loadIdx' => 4
  | .storeIdx _ => 5
  | .edge _ => 6
  | .signalNtfy => 7
  | .done => 8

/-- Between `P(mtx)` and `V(ntfy)`. -/
def WorkerPc.inside (pc : WorkerPc) : ℕ := if 2 ≤ pc.rank ∧ pc.rank ≤ 7 then 1 else 0

/-- The worker has incremented `*idx`. -/
def WorkerPc.counted (pc : WorkerPc) : ℕ := if 6 ≤ pc.rank then 1 else 0

/-- The worker is past its decrement of `sync[j]`. -/
def WorkerPc.released (j : Fin n) : WorkerPc → Bool
  | .edge k => j < k
  | .signalNtfy | .done => true
  | _ => false

/-- The boss has the token. -/
def BossPc.holds : BossPc n → ℕ
  | .signalMtx => 1
  | _ => 0

/-- The boss has left its loop. -/
def BossPc.left : BossPc n → Bool
  | .waitNtfy | .signalMtx | .test => false
  | _ => true

theorem rank_of_released {j : Fin n} {pc : WorkerPc} (h : pc.released j = true) : 6 ≤ pc.rank := by
  cases pc
  case edge | signalNtfy | done => simp [WorkerPc.rank]
  all_goals cases h

/-! ### The token -/

def Place (idx : ℕ) : WorkerPc → Prop
  | .store k | .storeIdx k => k = idx
  | _ => True

structure Tokens (s : State n) : Prop where
  token : ∀ m k, s.mtx = some m → s.ntfy = some k →
    m + k + s.boss.holds + tally WorkerPc.inside s.worker = 1
  one : tally WorkerPc.inside s.worker ≤ 1
  idx : s.idx = tally WorkerPc.counted s.worker
  place : ∀ i, Place s.idx (s.worker i)
  full : s.boss.left = true → s.idx = n
  removed : s.mtx = none ∨ s.ntfy = none ∨ (∃ j, s.sync j = none) → s.boss.left = true

section Tokens

variable {A : Fin n → Fin n → ℤ} {s s' : State n} {i j : Fin n} {pc' : WorkerPc}

theorem inside_of {pc : WorkerPc} (h : 2 ≤ pc.rank) (h' : pc.rank ≤ 7) : pc.inside = 1 := if_pos ⟨h, h'⟩

/-- Who is not the one inside has nothing read. -/
theorem place_of_outside {pc : WorkerPc} (h : pc.inside = 0) (idx : ℕ) : Place idx pc := by
  cases pc
  case store | storeIdx => cases h
  all_goals trivial

/-- **When the boss has left its loop** every worker has been counted. -/
theorem Tokens.all_counted (h : Tokens s) (hleft : s.boss.left = true) (i : Fin n) : 6 ≤ (s.worker i).rank := by
  have hfull : tally WorkerPc.counted s.worker = Fintype.card (Fin n) := by
    rw [← h.idx, h.full hleft, Fintype.card_fin]
  have hle : ∀ pc : WorkerPc, pc.counted ≤ 1 := fun pc => by
    unfold WorkerPc.counted
    split <;> omega
  have hone := tally_full hle hfull i
  unfold WorkerPc.counted at hone
  by_contra hlt
  rw [if_neg hlt] at hone
  cases hone

/-- A worker that has not been counted finds the semaphores. -/
theorem Tokens.not_removed (h : Tokens s) (hi : (s.worker i).rank < 6) :
    s.mtx ≠ none ∧ s.ntfy ≠ none ∧ ∀ j, s.sync j ≠ none := by
  have hleft : s.boss.left = true → False := fun hl => absurd (h.all_counted hl i) (by omega)
  refine ⟨fun e => hleft (h.removed (Or.inl e)), fun e => hleft (h.removed (Or.inr (Or.inl e))), fun j e => ?_⟩
  exact hleft (h.removed (Or.inr (Or.inr ⟨j, e⟩)))

/-- A statement of a worker that neither takes nor gives the token, nor counts. -/
theorem Tokens.keep (h : Tokens s) (hworker : s'.worker = Function.update s.worker i pc') (hboss : s'.boss = s.boss)
    (hmtx : s'.mtx = s.mtx) (hntfy : s'.ntfy = s.ntfy) (hsync : ∀ j, s'.sync j = none → s.sync j = none)
    (hidx : s'.idx = s.idx) (hin : pc'.inside = (s.worker i).inside) (hc : pc'.counted = (s.worker i).counted)
    (hplace : Place s.idx pc') : Tokens s' := by
  have htin := tally_update WorkerPc.inside s.worker i pc'
  have htc := tally_update WorkerPc.counted s.worker i pc'
  rw [hin] at htin
  rw [hc] at htc
  constructor
  · rw [hworker, hboss, hmtx, hntfy, Nat.add_right_cancel htin]
    exact h.token
  · rw [hworker, Nat.add_right_cancel htin]
    exact h.one
  · rw [hworker, hidx, Nat.add_right_cancel htc]
    exact h.idx
  · intro u
    rw [hworker, hidx, Function.update_apply]
    split
    · exact hplace
    · exact h.place u
  · rw [hboss, hidx]
    exact h.full
  · rw [hboss, hmtx, hntfy]
    refine fun hr => h.removed (hr.imp_right (Or.imp_right ?_))
    rintro ⟨j, hj⟩
    exact ⟨j, hsync j hj⟩

/-- **Every statement of a worker** keeps the token. -/
theorem Tokens.worker (h : Tokens s) (hst : workerStep A i s (s.worker i) = some s') : Tokens s' := by
  have hplace := h.place i
  have hothers : 0 < (s.worker i).inside → ∀ u, u ≠ i → (s.worker u).inside = 0 := fun hi u hu =>
    tally_unique h.one hi hu
  cases hpc : s.worker i <;> rw [hpc] at hst hplace hothers
  case waitSync =>
    simp only [workerStep] at hst
    split at hst
    · cases hst
      exact h.keep rfl rfl rfl rfl (fun _ hj => hj) rfl (by rw [hpc]; rfl) (by rw [hpc]; rfl) trivial
    · cases hst
  case waitMtx =>
    obtain ⟨hm, hk, -⟩ := h.not_removed (i := i) (by rw [hpc]; decide)
    obtain ⟨m, hm⟩ := Option.ne_none_iff_exists'.1 hm
    obtain ⟨k, hk⟩ := Option.ne_none_iff_exists'.1 hk
    simp only [workerStep] at hst
    cases m with
    | zero => rw [hm] at hst; cases hst
    | succ m =>
      rw [hm] at hst
      cases hst
      have htok := h.token _ _ hm hk
      have htin := tally_update WorkerPc.inside s.worker i .loadIdx
      have htc := tally_update WorkerPc.counted s.worker i .loadIdx
      rw [hpc] at htin htc
      change _ + 0 = _ + 1 at htin
      change _ + 0 = _ + 0 at htc
      constructor
      · intro m' k' hm' hk'
        cases hm'
        rw [hk] at hk'
        cases hk'
        show m + k + s.boss.holds + tally WorkerPc.inside (Function.update s.worker i .loadIdx) = 1
        omega
      · show tally WorkerPc.inside (Function.update s.worker i .loadIdx) ≤ 1
        omega
      · show s.idx = tally WorkerPc.counted (Function.update s.worker i .loadIdx)
        rw [h.idx]
        omega
      · intro u
        show Place s.idx (Function.update s.worker i .loadIdx u)
        rw [Function.update_apply]
        split
        · trivial
        · exact h.place u
      · exact h.full
      · rintro (hr | hr | hr)
        · cases hr
        · exact h.removed (Or.inr (Or.inl hr))
        · exact h.removed (Or.inr (Or.inr hr))
  case loadIdx | loadIdx' =>
    cases hst
    exact h.keep rfl rfl rfl rfl (fun _ hj => hj) rfl (by rw [hpc]; rfl) (by rw [hpc]; rfl) rfl
  case store k =>
    cases hst
    exact h.keep rfl rfl rfl rfl (fun _ hj => hj) rfl (by rw [hpc]; rfl) (by rw [hpc]; rfl) trivial
  case storeIdx k =>
    cases hst
    have hk : k = s.idx := hplace
    subst hk
    have htin := tally_update WorkerPc.inside s.worker i (.edge 0)
    have htc := tally_update WorkerPc.counted s.worker i (.edge 0)
    rw [hpc] at htin htc
    change _ + 0 = _ + 1 at htc
    constructor
    · show ∀ m k, s.mtx = some m → s.ntfy = some k →
        m + k + s.boss.holds + tally WorkerPc.inside (Function.update s.worker i (.edge 0)) = 1
      rw [Nat.add_right_cancel htin]
      exact h.token
    · show tally WorkerPc.inside (Function.update s.worker i (.edge 0)) ≤ 1
      rw [Nat.add_right_cancel htin]
      exact h.one
    · show s.idx + 1 = tally WorkerPc.counted (Function.update s.worker i (.edge 0))
      rw [h.idx]
      omega
    · intro u
      show Place (s.idx + 1) (Function.update s.worker i (.edge 0) u)
      rw [Function.update_apply]
      split
      · trivial
      · rename_i hu
        exact place_of_outside (hothers Nat.one_pos u hu) _
    · intro hl
      have := h.all_counted hl i
      rw [hpc] at this
      exact absurd this (by simp [WorkerPc.rank])
    · exact h.removed
  case edge j =>
    simp only [workerStep] at hst
    split at hst
    · split at hst
      · obtain ⟨x, hx, rfl⟩ := Option.map_eq_some_iff.1 hst
        refine h.keep rfl rfl rfl rfl (fun l hl => ?_) rfl (by rw [hpc]; rfl) (by rw [hpc]; rfl) trivial
        change Function.update s.sync ⟨j, _⟩ x l = none at hl
        rw [Function.update_apply] at hl
        split at hl
        · rename_i hlj
          rw [hlj]
          rw [hl] at hx
          cases hs : s.sync ⟨j, _⟩ with
          | none => rfl
          | some y => rw [hs] at hx; cases y <;> cases hx
        · exact hl
      · cases hst
        exact h.keep rfl rfl rfl rfl (fun _ hj => hj) rfl (by rw [hpc]; rfl) (by rw [hpc]; rfl) trivial
    · cases hst
      exact h.keep rfl rfl rfl rfl (fun _ hj => hj) rfl (by rw [hpc]; rfl) (by rw [hpc]; rfl) trivial
  case signalNtfy =>
    cases hst
    have htin := tally_update WorkerPc.inside s.worker i .done
    have htc := tally_update WorkerPc.counted s.worker i .done
    rw [hpc] at htin htc
    change _ + 1 = _ + 0 at htin
    have hone := h.one
    constructor
    · intro m k hm hk
      obtain ⟨k', hk', rfl⟩ := Option.map_eq_some_iff.1 hk
      have htok := h.token m k' hm hk'
      show m + (k' + 1) + s.boss.holds + tally WorkerPc.inside (Function.update s.worker i .done) = 1
      omega
    · show tally WorkerPc.inside (Function.update s.worker i .done) ≤ 1
      omega
    · show s.idx = tally WorkerPc.counted (Function.update s.worker i .done)
      rw [h.idx]
      exact (Nat.add_right_cancel htc).symm
    · intro u
      show Place s.idx (Function.update s.worker i .done u)
      rw [Function.update_apply]
      split
      · trivial
      · exact h.place u
    · exact h.full
    · rintro (hr | hr | hr)
      · exact h.removed (Or.inl hr)
      · exact h.removed (Or.inr (Or.inl (Option.map_eq_none_iff.1 hr)))
      · exact h.removed (Or.inr (Or.inr hr))
  case done => cases hst

/-- **Every statement of the boss** keeps the token. -/
theorem Tokens.boss (h : Tokens s) (hst : bossStep A s s.boss = some s') : Tokens s' := by
  -- in its loop it finds the semaphores; after it the token is no longer of interest
  have hfind : s.boss.left = false → s.mtx ≠ none ∧ s.ntfy ≠ none ∧ ∀ j, s.sync j ≠ none := fun hl => by
    have hnot : ∀ P : Prop, (P → s.boss.left = true) → ¬ P := fun P hP hp => by
      have := hP hp
      rw [hl] at this
      cases this
    have hr := hnot _ h.removed
    exact ⟨fun e => hr (Or.inl e), fun e => hr (Or.inr (Or.inl e)), fun j e => hr (Or.inr (Or.inr ⟨j, e⟩))⟩
  have hleft : s.boss.left = true → ∀ b : BossPc n, b.left = true → b.holds = 0 → s.boss.holds = 0 →
      Tokens { s with boss := b } := fun hl b hbl hbh hsh =>
    ⟨fun m k hm hk => by have := h.token m k hm hk; rw [hsh] at this; show m + k + b.holds + _ = 1; rw [hbh]; exact this,
      h.one, h.idx, h.place, fun _ => h.full hl, fun _ => hbl⟩
  cases hpc : s.boss <;> rw [hpc] at hst
  case waitNtfy =>
    obtain ⟨hm, hk, hsync⟩ := hfind (by rw [hpc]; rfl)
    obtain ⟨k, hk⟩ := Option.ne_none_iff_exists'.1 hk
    obtain ⟨x, hx, rfl⟩ := Option.map_eq_some_iff.1 hst
    rw [hk] at hx
    cases k with
    | zero => cases hx
    | succ k =>
      cases hx
      refine ⟨fun m k' hm' hk' => ?_, h.one, h.idx, h.place, fun hl => (by cases hl), ?_⟩
      · cases hk'
        have htok := h.token m _ hm' hk
        rw [hpc] at htok
        change m + (k + 1) + 0 + _ = 1 at htok
        show m + k + 1 + tally WorkerPc.inside s.worker = 1
        omega
      · rintro (hr | hr | ⟨j, hr⟩)
        · exact absurd hr hm
        · cases hr
        · exact absurd hr (hsync j)
  case signalMtx =>
    obtain ⟨hm, hk, hsync⟩ := hfind (by rw [hpc]; rfl)
    cases hst
    refine ⟨fun m k hm' hk' => ?_, h.one, h.idx, h.place, fun hl => (by cases hl), ?_⟩
    · obtain ⟨m', hm₁, rfl⟩ := Option.map_eq_some_iff.1 hm'
      have htok := h.token m' k hm₁ hk'
      rw [hpc] at htok
      change m' + k + 1 + _ = 1 at htok
      show m' + 1 + k + 0 + tally WorkerPc.inside s.worker = 1
      omega
    · rintro (hr | hr | ⟨j, hr⟩)
      · exact absurd (Option.map_eq_none_iff.1 hr) hm
      · exact absurd hr hk
      · exact absurd hr (hsync j)
  case test =>
    obtain ⟨hm, hk, hsync⟩ := hfind (by rw [hpc]; rfl)
    cases hst
    refine ⟨fun m k hm' hk' => ?_, h.one, h.idx, h.place, fun hl => ?_, ?_⟩
    · have htok := h.token m k hm' hk'
      rw [hpc] at htok
      show m + k + (if s.idx = n then BossPc.heading else .waitNtfy).holds + _ = 1
      split <;> exact htok
    · change (if s.idx = n then BossPc.heading else .waitNtfy).left = true at hl
      split at hl
      · assumption
      · cases hl
    · rintro (hr | hr | ⟨j, hr⟩)
      · exact absurd hr hm
      · exact absurd hr hk
      · exact absurd hr (hsync j)
  case print i =>
    have hb := hleft (by rw [hpc]; rfl)
    rw [hpc] at hb
    cases hst
    split
    · have hkeep := hb (.print (i + 1)) rfl rfl rfl
      exact ⟨hkeep.token, hkeep.one, hkeep.idx, hkeep.place, hkeep.full, hkeep.removed⟩
    · exact hb _ rfl rfl rfl
  case check i d =>
    have hb := hleft (by rw [hpc]; rfl)
    rw [hpc] at hb
    cases hst
    split
    · cases s.T i with
      | none => exact hb _ rfl rfl rfl
      | some v =>
        unfold checkPlace
        by_cases hd : d v = 0
        · simp only [if_pos hd]
          exact hb _ rfl rfl rfl
        · simp only [if_neg hd]
          exact hb _ rfl rfl rfl
    · exact hb _ rfl rfl rfl
  case heading =>
    have hb := hleft (by rw [hpc]; rfl) (.print 0) rfl rfl (by rw [hpc]; rfl)
    cases hst
    exact ⟨hb.token, hb.one, hb.idx, hb.place, hb.full, hb.removed⟩
  case verdict c =>
    have hb := hleft (by rw [hpc]; rfl) .rmNtfy rfl rfl (by rw [hpc]; rfl)
    cases hst
    exact ⟨hb.token, hb.one, hb.idx, hb.place, hb.full, hb.removed⟩
  case rmNtfy =>
    cases hst
    refine ⟨fun m k _ hk => ?_, h.one, h.idx, h.place, fun _ => h.full (by rw [hpc]; rfl), fun _ => rfl⟩
    cases hk
  case rmSync =>
    have hb := hleft (by rw [hpc]; rfl) .rmMtx rfl rfl (by rw [hpc]; rfl)
    cases hst
    exact ⟨hb.token, hb.one, hb.idx, hb.place, hb.full, fun _ => rfl⟩
  case rmMtx =>
    cases hst
    refine ⟨fun m k hm _ => ?_, h.one, h.idx, h.place, fun _ => h.full (by rw [hpc]; rfl), fun _ => rfl⟩
    cases hm
  case finished => cases hst
  case wild => cases hst

theorem Tokens.setup : Tokens (TopSort.setup A) := by
  have hin : tally WorkerPc.inside (fun _ : Fin n => WorkerPc.waitSync) = 0 := (tally_const _ _).trans (Nat.mul_zero _)
  have hc : tally WorkerPc.counted (fun _ : Fin n => WorkerPc.waitSync) = 0 := (tally_const _ _).trans (Nat.mul_zero _)
  refine ⟨fun m k hm hk => ?_, ?_, hc.symm, fun _ => trivial, fun hl => (by cases hl), ?_⟩
  · cases hm
    cases hk
    show 0 + 1 + 0 + tally WorkerPc.inside (fun _ : Fin n => WorkerPc.waitSync) = 1
    rw [hin]
  · show tally WorkerPc.inside (fun _ : Fin n => WorkerPc.waitSync) ≤ 1
    rw [hin]
    exact Nat.zero_le 1
  · rintro (hr | hr | ⟨j, hr⟩) <;> cases hr

end Tokens

/-! ### The semaphores of the vertices -/

structure Syncs (A : Fin n → Fin n → ℤ) (s : State n) : Prop where
  sync : ∀ j x, s.sync j = some x → x = ((preds A j).filter (fun i => (s.worker i).released j = false)).card
  passed : ∀ j, 1 ≤ (s.worker j).rank → ∀ i, Edge A i j → (s.worker i).released j = true

section Syncs

variable {A : Fin n → Fin n → ℤ} {s s' : State n} {i j : Fin n} {pc' : WorkerPc}

/-- A statement of a worker that decrements nothing. -/
theorem Syncs.keep (h : Syncs A s) (hworker : s'.worker = Function.update s.worker i pc')
    (hsync : s'.sync = s.sync) (hreleased : ∀ j, Edge A i j → pc'.released j = (s.worker i).released j)
    (hpass : 1 ≤ pc'.rank → 1 ≤ (s.worker i).rank ∨ ∀ u, Edge A u i → (s.worker u).released i = true) : Syncs A s' := by
  have hsame : ∀ u j, Edge A u j → (s'.worker u).released j = (s.worker u).released j := fun u j hu => by
    rw [hworker, Function.update_apply]
    split
    · rename_i hui
      subst hui
      exact hreleased j hu
    · rfl
  constructor
  · intro j x hx
    rw [hsync] at hx
    rw [h.sync j x hx]
    exact congrArg _ (Finset.filter_congr (fun u hu => by rw [hsame u j (mem_preds.1 hu)])).symm
  · intro j hj u hu
    rw [hsame u j hu]
    rw [hworker, Function.update_apply] at hj
    split at hj
    · rename_i hji
      subst hji
      exact (hpass hj).elim (fun hold => h.passed j hold u hu) (fun hall => hall u hu)
    · exact h.passed j hj u hu

/-- A worker past one more decrement. -/
theorem released_succ {j : ℕ} (hj : j < n) (l : Fin n) (hl : l ≠ ⟨j, hj⟩) :
    (WorkerPc.edge (j + 1)).released l = (WorkerPc.edge j).released l := by
  have hne : l.val ≠ j := fun e => hl (Fin.ext e)
  unfold WorkerPc.released
  rw [decide_eq_decide]
  omega

/-- `V(sync)` with −1. -/
theorem Syncs.release (h : Syncs A s) {j : ℕ} (hj : j < n) (hpc : s.worker i = .edge j) (hij : Edge A i ⟨j, hj⟩)
    {x : Sem} (hx : Sem.P (s.sync ⟨j, hj⟩) = some x) :
    Syncs A ({ s with sync := Function.update s.sync ⟨j, hj⟩ x }.goto i (.edge (j + 1))) := by
  have hnot : (s.worker i).released ⟨j, hj⟩ = false := by rw [hpc]; simp [WorkerPc.released]
  have hdone : (WorkerPc.edge (j + 1)).released (⟨j, hj⟩ : Fin n) = true := by simp [WorkerPc.released]
  have hsame : ∀ u l, (u ≠ i ∨ l ≠ ⟨j, hj⟩) →
      (Function.update s.worker i (.edge (j + 1)) u).released l = (s.worker u).released l := fun u l hul => by
    rw [Function.update_apply]
    split
    · rename_i hui
      rw [hui, hpc]
      exact released_succ hj l (hul.resolve_left (not_not.2 hui))
    · rfl
  constructor
  · intro l y hy
    change Function.update s.sync ⟨j, hj⟩ x l = some y at hy
    show y = ((preds A l).filter
      (fun u => (Function.update s.worker i (.edge (j + 1)) u).released l = false)).card
    by_cases hl : l = ⟨j, hj⟩
    · subst hl
      rw [Function.update_self] at hy
      subst hy
      obtain ⟨z, hz, rfl⟩ : ∃ z, s.sync ⟨j, hj⟩ = some z ∧ z = y + 1 := by
        cases hs : s.sync ⟨j, hj⟩ with
        | none => rw [hs] at hx; cases hx
        | some z =>
          rw [hs] at hx
          cases z with
          | zero => cases hx
          | succ z => cases hx; exact ⟨_, rfl, rfl⟩
      have hcard := h.sync _ _ hz
      have herase : (preds A ⟨j, hj⟩).filter
          (fun u => (Function.update s.worker i (.edge (j + 1)) u).released ⟨j, hj⟩ = false) =
          ((preds A ⟨j, hj⟩).filter (fun u => (s.worker u).released ⟨j, hj⟩ = false)).erase i := by
        ext u
        rw [Finset.mem_erase, Finset.mem_filter, Finset.mem_filter]
        by_cases hu : u = i
        · subst hu
          simp [hdone]
        · simp [hu]
      rw [herase, Finset.card_erase_of_mem (Finset.mem_filter.2 ⟨mem_preds.2 hij, hnot⟩), ← hcard]
      rfl
    · rw [Function.update_of_ne hl] at hy
      rw [h.sync l y hy]
      exact congrArg _ (Finset.filter_congr (fun u _ => by rw [hsame u l (Or.inr hl)])).symm
  · intro l hl u hu
    change (Function.update s.worker i (.edge (j + 1)) u).released l = true
    by_cases hul : u = i ∧ l = ⟨j, hj⟩
    · obtain ⟨rfl, rfl⟩ := hul
      rw [Function.update_self]
      exact hdone
    · rw [hsame u l (not_and_or.1 hul)]
      refine h.passed l ?_ u hu
      change 1 ≤ (Function.update s.worker i (.edge (j + 1)) l).rank at hl
      rw [Function.update_apply] at hl
      split at hl
      · rename_i hli
        rw [hli, hpc]
        simp [WorkerPc.rank]
      · exact hl

/-- **Every statement of a worker** keeps what the semaphores count. -/
theorem Syncs.worker (ht : Tokens s) (h : Syncs A s) (hst : workerStep A i s (s.worker i) = some s') : Syncs A s' := by
  cases hpc : s.worker i <;> rw [hpc] at hst
  case waitSync =>
    simp only [workerStep] at hst
    split at hst
    · rename_i hzero
      cases hst
      refine h.keep rfl rfl (fun j _ => by rw [hpc]; rfl) (fun _ => Or.inr (fun u hu => ?_))
      obtain ⟨x, hx⟩ := Option.ne_none_iff_exists'.1 ((ht.not_removed (i := i) (by rw [hpc]; decide)).2.2 i)
      rw [hx] at hzero
      have hcard := h.sync i x hx
      rw [of_decide_eq_true hzero] at hcard
      have hempty := Finset.filter_eq_empty_iff.1 (Finset.card_eq_zero.1 hcard.symm) (mem_preds.2 hu)
      simpa using hempty
    · cases hst
  case waitMtx =>
    obtain ⟨m, -, rfl⟩ := Option.map_eq_some_iff.1 hst
    exact h.keep rfl rfl (fun j _ => by rw [hpc]; rfl) (fun _ => Or.inl (by rw [hpc]; simp [WorkerPc.rank]))
  case storeIdx k =>
    cases hst
    refine h.keep rfl rfl (fun j _ => ?_) (fun _ => Or.inl (by rw [hpc]; simp [WorkerPc.rank]))
    rw [hpc]
    simp [WorkerPc.released]
  case edge j =>
    simp only [workerStep] at hst
    split at hst
    · rename_i hj
      split at hst
      · rename_i hij
        obtain ⟨x, hx, rfl⟩ := Option.map_eq_some_iff.1 hst
        exact h.release hj hpc hij hx
      · rename_i hij
        cases hst
        refine h.keep rfl rfl (fun l hl => ?_) (fun _ => Or.inl (by rw [hpc]; simp [WorkerPc.rank]))
        rw [hpc]
        exact released_succ hj l (fun e => hij (e ▸ hl))
    · rename_i hj
      cases hst
      refine h.keep rfl rfl (fun l _ => ?_) (fun _ => Or.inl (by rw [hpc]; simp [WorkerPc.rank]))
      rw [hpc]
      exact (decide_eq_true (Nat.lt_of_lt_of_le l.2 (Nat.le_of_not_lt hj))).symm
  case done => cases hst
  all_goals
    cases hst
    exact h.keep rfl rfl (fun j _ => by rw [hpc]; rfl) (fun _ => Or.inl (by rw [hpc]; simp [WorkerPc.rank]))

/-- A statement of the boss leaves the workers, the places and `*idx` alone. -/
theorem bossStep_frame {b : BossPc n} (h : bossStep A s b = some s') :
    s'.worker = s.worker ∧ s'.T = s.T ∧ s'.idx = s.idx ∧ ∀ j, s'.sync j = none ∨ s'.sync j = s.sync j := by
  cases b
  case waitNtfy =>
    obtain ⟨x, -, rfl⟩ := Option.map_eq_some_iff.1 h
    exact ⟨rfl, rfl, rfl, fun _ => Or.inr rfl⟩
  case print i =>
    cases h
    split <;> exact ⟨rfl, rfl, rfl, fun _ => Or.inr rfl⟩
  case rmSync =>
    cases h
    exact ⟨rfl, rfl, rfl, fun _ => Or.inl rfl⟩
  case finished | wild => cases h
  all_goals
    cases h
    exact ⟨rfl, rfl, rfl, fun _ => Or.inr rfl⟩

theorem Syncs.boss (h : Syncs A s) (hst : bossStep A s s.boss = some s') : Syncs A s' := by
  obtain ⟨hworker, -, -, hsync⟩ := bossStep_frame hst
  constructor
  · intro j x hx
    rw [hworker]
    rcases hsync j with hj | hj
    · rw [hj] at hx; cases hx
    · rw [hj] at hx; exact h.sync j x hx
  · rw [hworker]
    exact h.passed

theorem Syncs.setup : Syncs A (TopSort.setup A) where
  sync j x hx := by
    cases hx
    rw [indegrees_eq]
    exact congrArg _ (Finset.filter_true_of_mem (fun _ _ => rfl)).symm
  passed j hj := absurd hj (by simp [TopSort.setup, WorkerPc.rank])

end Syncs

end TopSort
end OsLab
