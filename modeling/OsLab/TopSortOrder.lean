import OsLab.TopSortInv
import OsLab.TopoOrder
/-!
# TopSortOrder — the places of `T` and the boss's check

The places of `T` below `*idx` are a topological order of their vertices (`Orders`): when a worker's turn has come all its
predecessors are placed.  So the boss's check of a full `T` finds nothing wrong (`Checked`).
-/
namespace OsLab
namespace TopSort

variable {n : ℕ}

/-! ### The order -/

structure Orders (A : Fin n → Fin n → ℤ) (s : State n) : Prop where
  stored : ∀ i, 4 ≤ (s.worker i).rank → (s.worker i).rank ≤ 5 → s.T s.idx = some i
  ordered : Ordered (Edge A) s.T s.idx
  listed : ∀ i, 6 ≤ (s.worker i).rank ↔ ∃ k < s.idx, s.T k = some i

section Orders

variable {A : Fin n → Fin n → ℤ} {s s' : State n} {i : Fin n} {pc' : WorkerPc}

/-- A statement of a worker that writes nothing. -/
theorem Orders.keep (h : Orders A s) (hworker : s'.worker = Function.update s.worker i pc') (hT : s'.T = s.T)
    (hidx : s'.idx = s.idx) (h45 : 4 ≤ pc'.rank ∧ pc'.rank ≤ 5 → 4 ≤ (s.worker i).rank ∧ (s.worker i).rank ≤ 5)
    (h6 : 6 ≤ pc'.rank ↔ 6 ≤ (s.worker i).rank) : Orders A s' := by
  constructor
  · intro u hu hu'
    rw [hT, hidx]
    rw [hworker, Function.update_apply] at hu hu'
    split at hu
    · rename_i hui
      rw [if_pos hui] at hu'
      rw [hui]
      exact h.stored i (h45 ⟨hu, hu'⟩).1 (h45 ⟨hu, hu'⟩).2
    · rename_i hui
      rw [if_neg hui] at hu'
      exact h.stored u hu hu'
  · rw [hT, hidx]
    exact h.ordered
  · intro u
    rw [hT, hidx, ← h.listed u, hworker, Function.update_apply]
    split
    · rename_i hui
      rw [hui]
      exact h6
    · exact Iff.rfl

/-- `T[*idx] = i;` -/
theorem Orders.store (ht : Tokens s) (h : Orders A s) (hpc : s.worker i = .store s.idx) :
    Orders A ({ s with T := Function.update s.T s.idx (some i) }.goto i .loadIdx') := by
  have hT : ∀ k < s.idx, Function.update s.T s.idx (some i) k = s.T k := fun k hk =>
    Function.update_of_ne (Nat.ne_of_lt hk) _ _
  have hin : 0 < (s.worker i).inside := by rw [hpc]; exact Nat.one_pos
  constructor
  · intro u hu hu'
    change 4 ≤ (Function.update s.worker i .loadIdx' u).rank at hu
    change (Function.update s.worker i .loadIdx' u).rank ≤ 5 at hu'
    show Function.update s.T s.idx (some i) s.idx = some u
    rw [Function.update_self]
    by_cases hui : u = i
    · rw [hui]
    · rw [Function.update_of_ne hui] at hu hu'
      have hout := tally_unique ht.one hin hui
      rw [inside_of (by omega) (by omega)] at hout
      cases hout
  · exact h.ordered.congr hT
  · intro u
    have hlisted : (∃ k < s.idx, Function.update s.T s.idx (some i) k = some u) ↔ ∃ k < s.idx, s.T k = some u :=
      exists_congr (fun k => and_congr_right (fun hk => by rw [hT k hk]))
    show 6 ≤ (Function.update s.worker i .loadIdx' u).rank ↔ _
    refine Iff.trans ?_ hlisted.symm
    rw [← h.listed u, Function.update_apply]
    split
    · rename_i hui
      rw [hui, hpc]
      simp [WorkerPc.rank]
    · exact Iff.rfl

/-- `*idx = (*idx)+1;` -/
theorem Orders.count (ht : Tokens s) (hs : Syncs A s) (h : Orders A s) (hpc : s.worker i = .storeIdx s.idx) :
    Orders A ({ s with idx := s.idx + 1 }.goto i (.edge 0)) := by
  have hstored : s.T s.idx = some i := h.stored i (by rw [hpc]; simp [WorkerPc.rank]) (by rw [hpc]; simp [WorkerPc.rank])
  have hin : 0 < (s.worker i).inside := by rw [hpc]; exact Nat.one_pos
  constructor
  · intro u hu hu'
    change 4 ≤ (Function.update s.worker i (.edge 0) u).rank at hu
    change (Function.update s.worker i (.edge 0) u).rank ≤ 5 at hu'
    by_cases hui : u = i
    · rw [hui, Function.update_self] at hu'
      exact absurd hu' (by decide)
    · rw [Function.update_of_ne hui] at hu hu'
      have hout := tally_unique ht.one hin hui
      rw [inside_of (by omega) (by omega)] at hout
      cases hout
  · refine h.ordered.snoc hstored (fun k hk hki => ?_) (fun u hu => (h.listed u).1 ?_)
    · have hcounted := (h.listed i).2 ⟨k, hk, hki⟩
      rw [hpc] at hcounted
      simp [WorkerPc.rank] at hcounted
    · exact rank_of_released (hs.passed i (by rw [hpc]; simp [WorkerPc.rank]) u hu)
  · intro u
    show 6 ≤ (Function.update s.worker i (.edge 0) u).rank ↔ ∃ k < s.idx + 1, s.T k = some u
    by_cases hui : u = i
    · rw [hui, Function.update_self]
      exact iff_of_true (by decide) ⟨s.idx, Nat.lt_succ_self _, hstored⟩
    · rw [Function.update_of_ne hui, h.listed u]
      constructor
      · rintro ⟨k, hk, hku⟩
        exact ⟨k, Nat.lt_succ_of_lt hk, hku⟩
      · rintro ⟨k, hk, hku⟩
        refine ⟨k, Nat.lt_of_le_of_ne (Nat.le_of_lt_succ hk) (fun e => hui ?_), hku⟩
        rw [e, hstored] at hku
        exact (Option.some.inj hku).symm

/-- **Every statement of a worker** keeps the order. -/
theorem Orders.worker (ht : Tokens s) (hs : Syncs A s) (h : Orders A s)
    (hst : workerStep A i s (s.worker i) = some s') : Orders A s' := by
  have hplace := ht.place i
  cases hpc : s.worker i <;> rw [hpc] at hst hplace
  case waitSync =>
    simp only [workerStep] at hst
    split at hst
    · cases hst
      refine h.keep rfl rfl rfl ?_ ?_ <;> rw [hpc] <;> simp [WorkerPc.rank]
    · cases hst
  case waitMtx =>
    obtain ⟨m, -, rfl⟩ := Option.map_eq_some_iff.1 hst
    refine h.keep rfl rfl rfl ?_ ?_ <;> rw [hpc] <;> simp [WorkerPc.rank]
  case store k =>
    cases hst
    have hk : k = s.idx := hplace
    rw [hk]
    exact h.store ht (hk ▸ hpc)
  case storeIdx k =>
    cases hst
    have hk : k = s.idx := hplace
    rw [hk]
    exact h.count ht hs (hk ▸ hpc)
  case edge j =>
    simp only [workerStep] at hst
    split at hst
    · split at hst
      · obtain ⟨x, -, rfl⟩ := Option.map_eq_some_iff.1 hst
        refine h.keep rfl rfl rfl ?_ ?_ <;> rw [hpc] <;> simp [WorkerPc.rank]
      · cases hst
        refine h.keep rfl rfl rfl ?_ ?_ <;> rw [hpc] <;> simp [WorkerPc.rank]
    · cases hst
      refine h.keep rfl rfl rfl ?_ ?_ <;> rw [hpc] <;> simp [WorkerPc.rank]
  case done => cases hst
  all_goals
    cases hst
    refine h.keep rfl rfl rfl ?_ ?_ <;> rw [hpc] <;> simp [WorkerPc.rank]

theorem Orders.boss (h : Orders A s) (hst : bossStep A s s.boss = some s') : Orders A s' := by
  obtain ⟨hworker, hT, hidx, -⟩ := bossStep_frame hst
  constructor
  · rw [hworker, hT, hidx]
    exact h.stored
  · rw [hT, hidx]
    exact h.ordered
  · rw [hworker, hT, hidx]
    exact h.listed

theorem Orders.setup : Orders A (TopSort.setup A) where
  stored i hi := absurd hi (by simp [TopSort.setup, WorkerPc.rank])
  ordered := Ordered.nil _
  listed i := by simp [TopSort.setup, WorkerPc.rank]

end Orders

/-! ### The check -/

structure Checked (A : Fin n → Fin n → ℤ) (s : State n) : Prop where
  check : ∀ i d, s.boss = .check i d →
    ∀ j, d j = ((preds A j).filter (fun u => ∀ k < i, s.T k ≠ some u)).card
  verdict : s.boss ≠ .verdict false
  wild : s.boss ≠ .wild
  wrong : Line.wrongOutput ∉ s.out
  done : s.boss = .finished ∨ s.boss = .rmNtfy ∨ s.boss = .rmSync ∨ s.boss = .rmMtx → Line.wellDone ∈ s.out

section Checked

variable {A : Fin n → Fin n → ℤ} {s s' : State n} {i : Fin n}

/-- Only one statement of a worker writes a place. -/
theorem workerStep_T {pc : WorkerPc} (h : workerStep A i s pc = some s') :
    s'.T = s.T ∨ ∃ k, pc = .store k ∧ s'.T = Function.update s.T k (some i) := by
  cases pc
  case waitSync =>
    simp only [workerStep] at h
    split at h
    · cases h; exact Or.inl rfl
    · cases h
  case waitMtx =>
    obtain ⟨m, -, rfl⟩ := Option.map_eq_some_iff.1 h
    exact Or.inl rfl
  case store k =>
    cases h
    exact Or.inr ⟨k, rfl, rfl⟩
  case edge j =>
    simp only [workerStep] at h
    split at h
    · split at h
      · obtain ⟨x, -, rfl⟩ := Option.map_eq_some_iff.1 h
        exact Or.inl rfl
      · cases h; exact Or.inl rfl
    · cases h; exact Or.inl rfl
  case done => cases h
  all_goals
    cases h
    exact Or.inl rfl

/-- **After the boss has left its loop** no worker writes a place. -/
theorem Tokens.keeps_T (h : Tokens s) (hleft : s.boss.left = true) (hst : workerStep A i s (s.worker i) = some s') :
    s'.T = s.T := by
  refine (workerStep_T hst).resolve_right ?_
  rintro ⟨k, hpc, -⟩
  have hi := h.all_counted hleft i
  rw [hpc] at hi
  simp [WorkerPc.rank] at hi

/-- A statement of a worker concerns neither the boss's place nor what is printed, nor the other workers. -/
theorem workerStep_frame {pc : WorkerPc} (h : workerStep A i s pc = some s') :
    s'.boss = s.boss ∧ s'.out = s.out ∧ ∀ u, u ≠ i → s'.worker u = s.worker u := by
  cases pc
  case waitSync =>
    simp only [workerStep] at h
    split at h
    · cases h; exact ⟨rfl, rfl, fun u hu => Function.update_of_ne hu _ _⟩
    · cases h
  case waitMtx =>
    obtain ⟨m, -, rfl⟩ := Option.map_eq_some_iff.1 h
    exact ⟨rfl, rfl, fun u hu => Function.update_of_ne hu _ _⟩
  case edge j =>
    simp only [workerStep] at h
    split at h
    · split at h
      · obtain ⟨x, -, rfl⟩ := Option.map_eq_some_iff.1 h
        exact ⟨rfl, rfl, fun u hu => Function.update_of_ne hu _ _⟩
      · cases h; exact ⟨rfl, rfl, fun u hu => Function.update_of_ne hu _ _⟩
    · cases h; exact ⟨rfl, rfl, fun u hu => Function.update_of_ne hu _ _⟩
  case done => cases h
  all_goals
    cases h
    exact ⟨rfl, rfl, fun u hu => Function.update_of_ne hu _ _⟩

theorem Checked.worker (ht : Tokens s) (h : Checked A s) (hst : workerStep A i s (s.worker i) = some s') :
    Checked A s' := by
  obtain ⟨hboss, hout, -⟩ := workerStep_frame hst
  constructor
  · intro i d hb j
    rw [hboss] at hb
    rw [ht.keeps_T (by rw [hb]; rfl) hst]
    exact h.check i d hb j
  · rw [hboss]
    exact h.verdict
  · rw [hboss]
    exact h.wild
  · rw [hout]
    exact h.wrong
  · rw [hboss, hout]
    exact h.done

/-- One turn of the check: the vertex at the place has no predecessor left. -/
theorem Checked.turn (ht : Tokens s) (ho : Orders A s) (h : Checked A s) {i : ℕ} {d : Fin n → ℤ} (hb : s.boss = .check i d)
    (hi : i < n) : ∃ v, s.T i = some v ∧ checkPlace A i d (s.T i) = .check (i + 1) (release A v d) ∧
      ∀ j, release A v d j = ((preds A j).filter (fun u => ∀ k < i + 1, s.T k ≠ some u)).card := by
  have hidx : s.idx = n := ht.full (by rw [hb]; rfl)
  have hord := ho.ordered
  rw [hidx] at hord
  obtain ⟨v, hv⟩ := hord.filled i hi
  have hzero : d v = 0 := by
    rw [h.check i d hb v, Int.natCast_eq_zero, Finset.card_eq_zero, Finset.filter_eq_empty_iff]
    intro u hu hno
    obtain ⟨k, hk, hku⟩ := hord.preds i hi v hv u (mem_preds.1 hu)
    exact hno k hk hku
  refine ⟨v, hv, by rw [hv]; exact if_pos hzero, fun j => ?_⟩
  rw [release_apply, h.check i d hb j]
  have hnew : ∀ k < i, s.T k ≠ some v := fun k hk hkv =>
    absurd (hord.distinct k (Nat.lt_trans hk hi) i hi (hkv.trans hv.symm)) (Nat.ne_of_lt hk)
  have herase : (preds A j).filter (fun u => ∀ k < i + 1, s.T k ≠ some u) =
      ((preds A j).filter (fun u => ∀ k < i, s.T k ≠ some u)).erase v := by
    ext u
    rw [Finset.mem_erase, Finset.mem_filter, Finset.mem_filter]
    constructor
    · rintro ⟨hu, hno⟩
      refine ⟨fun huv => hno i (Nat.lt_succ_self i) (huv ▸ hv), hu, fun k hk => hno k (Nat.lt_succ_of_lt hk)⟩
    · rintro ⟨huv, hu, hno⟩
      refine ⟨hu, fun k hk hku => ?_⟩
      rcases Nat.lt_succ_iff_lt_or_eq.1 hk with hk | rfl
      · exact hno k hk hku
      · rw [hv] at hku
        exact huv (Option.some.inj hku).symm
  rw [herase]
  by_cases hvj : Edge A v j
  · have hmem : v ∈ (preds A j).filter (fun u => ∀ k < i, s.T k ≠ some u) :=
      Finset.mem_filter.2 ⟨mem_preds.2 hvj, hnew⟩
    rw [if_pos hvj, Finset.card_erase_of_mem hmem, Nat.cast_sub (Finset.card_pos.2 ⟨v, hmem⟩)]
    rfl
  · have hnot : v ∉ (preds A j).filter (fun u => ∀ k < i, s.T k ≠ some u) := fun hmem =>
      hvj (mem_preds.1 (Finset.mem_filter.1 hmem).1)
    rw [if_neg hvj, Finset.erase_eq_of_notMem hnot]

/-- Where there is nothing yet to say of the boss's check. -/
def BossPc.quiet : BossPc n → Bool
  | .waitNtfy | .signalMtx | .test | .heading | .print _ | .verdict true => true
  | _ => false

theorem Checked.of_quiet (hb : s'.boss.quiet = true) (hw : Line.wrongOutput ∉ s'.out) : Checked A s' := by
  refine ⟨fun i d hc => ?_, fun hc => ?_, fun hc => ?_, hw, ?_⟩
  · rw [hc] at hb; cases hb
  · rw [hc] at hb; cases hb
  · rw [hc] at hb; cases hb
  · rintro (hc | hc | hc | hc) <;> rw [hc] at hb <;> cases hb

theorem Checked.boss (ht : Tokens s) (ho : Orders A s) (h : Checked A s) (hst : bossStep A s s.boss = some s') :
    Checked A s' := by
  have hprint : ∀ l : Line n, l ≠ .wrongOutput → Line.wrongOutput ∉ s.out ++ [l] := fun l hl hw => by
    rcases List.mem_append.1 hw with hw | hw
    · exact h.wrong hw
    · exact hl (List.mem_singleton.1 hw).symm
  cases hb : s.boss <;> rw [hb] at hst
  case waitNtfy =>
    obtain ⟨x, -, rfl⟩ := Option.map_eq_some_iff.1 hst
    exact Checked.of_quiet rfl h.wrong
  case signalMtx =>
    cases hst
    exact Checked.of_quiet rfl h.wrong
  case test =>
    cases hst
    refine Checked.of_quiet ?_ h.wrong
    show (if s.idx = n then BossPc.heading else .waitNtfy).quiet = true
    split <;> rfl
  case heading =>
    cases hst
    exact Checked.of_quiet rfl (hprint _ (fun e => by cases e))
  case print i =>
    cases hst
    split
    · exact Checked.of_quiet rfl (hprint _ (fun e => by cases e))
    · refine ⟨fun k d hc j => ?_, fun hc => (by cases hc), fun hc => (by cases hc), h.wrong, fun hc => ?_⟩
      · cases hc
        show ((indegrees A j : ℕ) : ℤ) = _
        rw [indegrees_eq]
        exact congrArg _ (congrArg _ (Finset.filter_true_of_mem (fun u _ k hk => absurd hk (Nat.not_lt_zero k))).symm)
      · rcases hc with hc | hc | hc | hc <;> cases hc
  case check i d =>
    cases hst
    by_cases hi : i < n
    · obtain ⟨v, hv, hcheck, hd⟩ := h.turn ht ho hb hi
      rw [if_pos hi, hcheck]
      refine ⟨fun k d' hc => ?_, fun hc => (by cases hc), fun hc => (by cases hc), h.wrong, fun hc => ?_⟩
      · cases hc
        exact hd
      · rcases hc with hc | hc | hc | hc <;> cases hc
    · rw [if_neg hi]
      exact Checked.of_quiet rfl h.wrong
  case verdict c =>
    cases hst
    cases c
    · exact absurd hb h.verdict
    · refine ⟨fun _ _ hc => (by cases hc), fun hc => (by cases hc), fun hc => (by cases hc),
        hprint _ (fun e => by cases e), fun _ => ?_⟩
      exact List.mem_append_right _ List.mem_cons_self
  case rmNtfy | rmSync | rmMtx =>
    have hdone := h.done (by rw [hb]; simp)
    cases hst
    exact ⟨fun _ _ hc => (by cases hc), fun hc => (by cases hc), fun hc => (by cases hc), h.wrong, fun _ => hdone⟩
  case finished | wild => cases hst

theorem Checked.setup : Checked A (TopSort.setup A) where
  check _ _ hc := by cases hc
  verdict hc := by cases hc
  wild hc := by cases hc
  wrong hw := by simp [TopSort.setup] at hw
  done hc := by rcases hc with hc | hc | hc | hc <;> cases hc

end Checked

end TopSort
end OsLab
