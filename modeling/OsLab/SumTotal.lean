import OsLab.SumInv
import Mathlib.Algebra.BigOperators.Group.Finset.Piecewise
/-!
# SumTotal — what the nodes are worth together

A node is worth its sum, a leaf whose input is still to come that input, and a node whose sum has been added to its
parent's nothing more.  All nodes together are worth the same all the time (`Sums`): a node that is passed upward no
longer changes, since its children are done, and its parent's mutex is held while its sum is replaced.
-/
namespace OsLab
namespace Sum

variable {n : ℕ}

/-- The sum of the node, whose thread stands at `pc`, has been added to its parent's. -/
def Added (T : RootedTree (Fin n)) (v : Fin n) (pc : Pc) : Prop := v ≠ T.root ∧ 14 ≤ pc.rank

instance (T : RootedTree (Fin n)) (v : Fin n) (pc : Pc) : Decidable (Added T v pc) := inferInstanceAs (Decidable (_ ∧ _))

/-- What a node counts for. -/
def worth (T : RootedTree (Fin n)) (t : Tree n) (leafVal sum : Fin n → BitVec 32) (v : Fin n) (pc : Pc) : BitVec 32 :=
  if Added T v pc then 0 else if t.numChild v = 0 ∧ pc.rank < 7 then leafVal v else sum v

/-- What a thread has read when it stands at a place. -/
def Value (t : Tree n) (leafVal : Fin n → BitVec 32) (s : State n) (v : Fin n) : Pc → Prop
  | .scan => t.numChild v = 0
  | .lockSum o | .work o => o = if t.numChild v = 0 then some (leafVal v) else none
  | .loadParent x => x = s.sum v
  | .storeParent y => y = s.sum (t.parent v) + s.sum v
  | .arriveDone | .passDone _ | .finished => t.parent v = v → s.totalSum = s.sum v
  | _ => True

structure Sums (T : RootedTree (Fin n)) (t : Tree n) (leafVal : Fin n → BitVec 32) (s : State n) : Prop where
  value : ∀ v, Value t leafVal s v (s.thread v)
  adds : ∀ v, s.adds v = if Added T v (s.thread v) then 1 else 0
  total : ∑ v, worth T t leafVal s.sum v (s.thread v) = ∑ v, if t.numChild v = 0 then leafVal v else 0

/-- **What one gives and another gets** leaves the sum as it is. -/
theorem sum_move {ι M : Type*} [Fintype ι] [DecidableEq ι] [AddCommMonoid M] (f : ι → M) {a b : ι} (hab : a ≠ b) :
    ∑ i, Function.update (Function.update f a 0) b (f b + f a) i = ∑ i, f i := by
  have ha : a ∈ Finset.univ \ {b} := by simp [hab]
  rw [Finset.sum_update_of_mem (Finset.mem_univ b), Finset.sum_update_of_mem ha, zero_add, add_assoc,
    ← Finset.sum_eq_add_sum_sdiff_singleton_of_mem ha, ← Finset.sum_eq_add_sum_sdiff_singleton_of_mem (Finset.mem_univ b)]

section Sums

variable {T : RootedTree (Fin n)} {t : Tree n} {leafVal : Fin n → BitVec 32} {s s' : State n} {v : Fin n} {pc' : Pc}

/-- What a thread has read stays right while the sums it has read, and the total, are as before. -/
theorem Value.congr {u : Fin n} {pc : Pc} (h : Value t leafVal s u pc) (hown : 9 ≤ pc.rank → s'.sum u = s.sum u)
    (hparent : pc.rank = 13 → s'.sum (t.parent u) = s.sum (t.parent u))
    (htotal : t.parent u = u → 16 ≤ pc.rank → s'.totalSum = s.totalSum) : Value t leafVal s' u pc := by
  cases pc
  case loadParent x => exact (show x = s.sum u from h).trans (hown (by simp [Pc.rank])).symm
  case storeParent y =>
    show y = s'.sum (t.parent u) + s'.sum u
    rw [hown (by simp [Pc.rank]), hparent rfl]
    exact h
  case arriveDone | passDone | finished =>
    intro hu
    rw [hown (by simp [Pc.rank]), htotal hu (by simp [Pc.rank])]
    exact h hu
  all_goals exact h

/-- The values after a statement of `v`, of which the other threads notice nothing. -/
theorem Sums.values (h : Sums T t leafVal s) (hthread : s'.thread = Function.update s.thread v pc')
    (hown : ∀ u, u ≠ v → 9 ≤ (s.thread u).rank → s'.sum u = s.sum u)
    (hparent : ∀ u, u ≠ v → (s.thread u).rank = 13 → s'.sum (t.parent u) = s.sum (t.parent u))
    (htotal : ∀ u, u ≠ v → t.parent u = u → s'.totalSum = s.totalSum) (hvalue : Value t leafVal s' v pc') (u : Fin n) :
    Value t leafVal s' u (s'.thread u) := by
  rw [hthread, Function.update_apply]
  split
  · rename_i hu
    rw [hu]
    exact hvalue
  · rename_i hu
    exact (h.value u).congr (hown u hu) (hparent u hu) (fun hpu _ => htotal u hu hpu)

/-- A statement that changes no sum. -/
theorem Sums.keep (h : Sums T t leafVal s) (hthread : s'.thread = Function.update s.thread v pc') (hsum : s'.sum = s.sum)
    (hadds : s'.adds = s.adds) (htotal : ∀ u, u ≠ v → t.parent u = u → s'.totalSum = s.totalSum)
    (hvalue : Value t leafVal s' v pc') (hadded : v ≠ T.root → (14 ≤ pc'.rank ↔ 14 ≤ (s.thread v).rank))
    (hunread : t.numChild v = 0 → (pc'.rank < 7 ↔ (s.thread v).rank < 7)) : Sums T t leafVal s' where
  value := h.values hthread (fun u _ _ => by rw [hsum]) (fun u _ _ => by rw [hsum]) htotal hvalue
  adds u := by
    rw [hadds, h.adds u, hthread, Function.update_apply]
    refine if_congr ?_ rfl rfl
    split
    · rename_i hu
      rw [hu]
      exact and_congr_right (fun hr => (hadded hr).symm)
    · exact Iff.rfl
  total := by
    rw [← h.total]
    refine Finset.sum_congr rfl (fun u _ => ?_)
    rw [hsum, hthread, Function.update_apply]
    split
    · rename_i hu
      subst hu
      unfold worth
      exact if_congr (and_congr_right hadded) rfl (if_congr (and_congr_right hunread) rfl rfl)
    · rfl

theorem Reads.ne_of_leaf (R : Reads T t) {c x : Fin n} (hx : t.numChild x = 0) (hc : c ≠ x) : t.parent c ≠ x := by
  intro hcx
  rw [R.numChild, Finset.card_eq_zero] at hx
  have hmem : c ∈ children T x := mem_children.2 ⟨by rw [← R.parent]; exact hcx, hc⟩
  rw [hx] at hmem
  cases hmem

/-- `sum[node_id] = leaf_val;` -/
theorem Sums.read (R : Reads T t) (h : Sums T t leafVal s) {x : BitVec 32} (hpc : s.thread v = .work (some x)) :
    Sums T t leafVal ((s.setSum v x).goto v .unlockSum) := by
  have hx : some x = if t.numChild v = 0 then some (leafVal v) else none := by
    have hv := h.value v
    rw [hpc] at hv
    exact hv
  have hleaf : t.numChild v = 0 := by
    by_contra hne
    rw [if_neg hne] at hx
    cases hx
  rw [if_pos hleaf] at hx
  cases hx
  have hadded : ∀ u, Added T u (((s.setSum v (leafVal v)).goto v .unlockSum).thread u) ↔ Added T u (s.thread u) := fun u => by
    rw [goto_thread]
    split
    · rename_i hu
      rw [hu, hpc]
      simp [Added, Pc.rank]
    · exact Iff.rfl
  refine ⟨h.values rfl (fun u hu _ => ?_) (fun u hu _ => ?_) (fun _ _ _ => rfl) trivial, fun u => ?_, ?_⟩
  · exact Function.update_of_ne hu _ _
  · exact Function.update_of_ne (R.ne_of_leaf hleaf hu) _ _
  · rw [if_congr (hadded u) rfl rfl]
    exact h.adds u
  · rw [← h.total]
    refine Finset.sum_congr rfl (fun u _ => ?_)
    unfold worth
    refine if_congr (hadded u) rfl ?_
    rw [goto_thread]
    by_cases hu : u = v
    · rw [hu, if_pos rfl, hpc, if_neg (by simp [Pc.rank]), if_pos ⟨hleaf, by simp [Pc.rank]⟩]
      exact Function.update_self _ _ _
    · rw [if_neg hu]
      exact if_congr Iff.rfl rfl (Function.update_of_ne hu _ _)

/-- `sum[parent_id] += sum[node_id];` -/
theorem Sums.store (R : Reads T t) (hl : Locks t s) (hb : Barriers T s) (h : Sums T t leafVal s) {y : BitVec 32}
    (hpc : s.thread v = .storeParent y) :
    Sums T t leafVal { (s.setSum (t.parent v) y).goto v .unlockParent with
      adds := Function.update s.adds v (s.adds v + 1) } := by
  have hroot : v ≠ T.root := by
    have hv := hb.place v
    rw [hpc] at hv
    exact hv
  have hy : y = s.sum (t.parent v) + s.sum v := by
    have hv := h.value v
    rw [hpc] at hv
    exact hv
  have hne : v ≠ t.parent v := by rw [R.parent]; exact (T.ne_parent hroot).symm
  have hmem : v ∈ children T (t.parent v) := mem_children.2 ⟨by rw [R.parent], hne⟩
  -- the parent waits at its own barrier, where this node is still missing
  have hwait : (s.thread (t.parent v)).rank < 2 := by
    by_contra hge
    have h17 := hb.passed _ (Nat.le_of_not_lt hge) v hmem
    rw [hpc] at h17
    simp [Pc.rank] at h17
  have hin : (s.thread v).inSum t.parent (t.parent v) v = true := by rw [hpc]; simp [Pc.inSum, Pc.inParent, Pc.rank]
  have hparent : t.numChild (t.parent v) ≠ 0 := fun h0 => R.ne_of_leaf h0 hne rfl
  refine ⟨h.values rfl (fun u hu h9 => ?_) (fun u hu h13 => ?_) (fun _ _ _ => rfl) trivial, fun u => ?_, ?_⟩
  · refine Function.update_of_ne (fun hup => ?_) _ _
    rw [hup] at h9
    omega
  · refine Function.update_of_ne (fun hup => hu ?_) _ _
    exact (hl.sums (t.parent v)).one (by simp [Pc.inSum, Pc.inParent, hup, h13]) hin
  · show Function.update s.adds v _ u = if Added T u (Function.update s.thread v .unlockParent u) then 1 else 0
    by_cases hu : u = v
    · rw [hu, Function.update_self, Function.update_self, h.adds v, hpc]
      simp [Added, Pc.rank, hroot]
    · rw [Function.update_of_ne hu, Function.update_of_ne hu]
      exact h.adds u
  · rw [← h.total, ← sum_move (fun u => worth T t leafVal s.sum u (s.thread u)) hne]
    refine Finset.sum_congr rfl (fun u _ => ?_)
    show worth T t leafVal (Function.update s.sum (t.parent v) y) u (Function.update s.thread v .unlockParent u) = _
    by_cases hup : u = t.parent v
    · have hnot : ¬ Added T (t.parent v) (s.thread (t.parent v)) := fun ha => absurd ha.2 (by omega)
      have hw : ∀ sum, worth T t leafVal sum (t.parent v) (s.thread (t.parent v)) = sum (t.parent v) := fun sum => by
        unfold worth
        rw [if_neg hnot, if_neg (fun h0 => hparent h0.1)]
      have hwv : worth T t leafVal s.sum v (s.thread v) = s.sum v := by rw [hpc]; simp [worth, Added, Pc.rank]
      rw [hup, Function.update_self, Function.update_of_ne hne.symm, hw, hw, hwv, Function.update_self, hy]
    · rw [Function.update_of_ne hup]
      by_cases hu : u = v
      · rw [hu, Function.update_self, Function.update_self]
        simp [worth, Added, hroot, Pc.rank]
      · rw [Function.update_of_ne hu, Function.update_of_ne hu]
        unfold worth
        rw [Function.update_of_ne hup]

/-- **Every statement of a node's thread** keeps what the nodes are worth together. -/
theorem Sums.step (R : Reads T t) (hl : Locks t s) (hb : Barriers T s) (h : Sums T t leafVal s)
    (hst : computeSum t leafVal v s (s.thread v) = some s') : Sums T t leafVal s' := by
  have hvalue := h.value v
  cases hpc : s.thread v <;> rw [hpc] at hst hvalue
  case testLeaf =>
    cases hst
    refine h.keep rfl rfl rfl (fun _ _ _ => rfl) ?_ (fun _ => ?_) (fun _ => ?_)
    · split
      · assumption
      · rename_i hv
        exact (if_neg hv).symm
    · rw [hpc]; split <;> simp [Pc.rank]
    · rw [hpc]; split <;> simp [Pc.rank]
  case scan =>
    cases hst
    refine h.keep rfl rfl rfl (fun _ _ _ => rfl) (if_pos hvalue).symm (fun _ => ?_) (fun _ => ?_) <;> rw [hpc] <;>
      simp [Pc.rank]
  case lockExec | unlockSum | unlockExec | lockParent | unlockParent =>
    obtain ⟨s₁, hs₁, rfl⟩ := Option.map_eq_some_iff.1 hst
    simp only [State.lockExec, State.unlockExec, State.lockSum, State.unlockSum] at hs₁
    split at hs₁
    · cases hs₁
      refine h.keep rfl rfl rfl (fun _ _ _ => rfl) trivial (fun _ => ?_) (fun _ => ?_) <;> rw [hpc] <;> simp [Pc.rank]
    · cases hs₁
  case lockSum o =>
    obtain ⟨s₁, hs₁, rfl⟩ := Option.map_eq_some_iff.1 hst
    unfold State.lockSum at hs₁
    split at hs₁
    · cases hs₁
      refine h.keep rfl rfl rfl (fun _ _ _ => rfl) hvalue (fun _ => ?_) (fun _ => ?_) <;> rw [hpc] <;> simp [Pc.rank]
    · cases hs₁
  case work o =>
    cases o with
    | some x =>
      cases hst
      exact h.read R hpc
    | none =>
      cases hst
      refine h.keep rfl rfl rfl (fun _ _ _ => rfl) trivial (fun _ => ?_) (fun h0 => ?_)
      · rw [hpc]; simp [Pc.rank]
      · rw [show Value t leafVal s v (.work none) = (none = _) from rfl, if_pos h0] at hvalue
        cases hvalue
  case testRoot =>
    cases hst
    refine h.keep rfl rfl rfl (fun _ _ _ => rfl) ?_ (fun hv => ?_) (fun _ => ?_)
    · split <;> trivial
    · rw [hpc, if_pos (by rw [R.parent]; exact (T.ne_parent hv).symm)]
      simp [Pc.rank]
    · rw [hpc]; split <;> simp [Pc.rank]
  case storeParent y =>
    cases hst
    exact h.store R hl hb hpc
  case testDone =>
    cases hst
    split
    · rename_i hv
      refine h.keep rfl rfl rfl (fun u hu hpu => ?_) (fun _ => rfl) (fun _ => ?_) (fun _ => ?_)
      · rw [R.parent] at hv hpu
        exact absurd ((T.eq_root_of_fixed hpu).trans (T.eq_root_of_fixed hv).symm) hu
      · rw [hpc]; simp [Pc.rank]
      · rw [hpc]; simp [Pc.rank]
    · refine h.keep rfl rfl rfl (fun _ _ _ => rfl) trivial (fun _ => ?_) (fun _ => ?_) <;> rw [hpc] <;> simp [Pc.rank]
  case pass k =>
    simp only [computeSum] at hst
    split at hst
    · cases hst
      refine h.keep rfl rfl rfl (fun _ _ _ => rfl) trivial (fun _ => ?_) (fun _ => ?_) <;> rw [hpc] <;> simp [Pc.rank]
    · cases hst
  case passDone k =>
    simp only [computeSum] at hst
    split at hst
    · cases hst
      refine h.keep rfl rfl rfl (fun _ _ _ => rfl) hvalue (fun _ => ?_) (fun _ => ?_) <;> rw [hpc] <;> simp [Pc.rank]
    · cases hst
  case passUp k =>
    simp only [computeSum] at hst
    split at hst
    · cases hst
      refine h.keep rfl rfl rfl (fun _ _ _ => rfl) (fun hv => ?_) (fun _ => ?_) (fun _ => ?_)
      · have hne := hb.place v
        rw [hpc] at hne
        exact absurd (T.eq_root_of_fixed (by rw [← R.parent]; exact hv)) hne.1
      · rw [hpc]; simp [Pc.rank]
      · rw [hpc]; simp [Pc.rank]
    · cases hst
  case finished => cases hst
  case loadOwn =>
    cases hst
    refine h.keep rfl rfl rfl (fun _ _ _ => rfl) rfl (fun _ => ?_) (fun _ => ?_) <;> rw [hpc] <;> simp [Pc.rank]
  case loadParent x =>
    cases hst
    refine h.keep rfl rfl rfl (fun _ _ _ => rfl) (congrArg _ hvalue) (fun _ => ?_) (fun _ => ?_) <;> rw [hpc] <;>
      simp [Pc.rank]
  case arrive | arriveDone | arriveUp =>
    cases hst
    refine h.keep rfl rfl rfl (fun _ _ _ => rfl) hvalue (fun _ => ?_) (fun _ => ?_) <;> rw [hpc] <;> simp [Pc.rank]

end Sums

end Sum
end OsLab
