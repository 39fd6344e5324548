import Mathlib.Algebra.Group.Nat.Even
import Mathlib.Data.Multiset.MapFold
import Mathlib.Data.Multiset.Range
import Mathlib.Logic.Equiv.Basic
import Mathlib.Order.Basic
/-!
# Heap — binary heaps in an array, with a test that need not be an order

The children of place `p` are `2p+1` and `2p+2`; `siftDown` and `siftUp` exchange entries until the test `before` lets them
stop.  Of the test only this is needed: where it holds the keys are in order, and where it does not they are in the other
order (`Compares`); on ties it may say anything.  Each sift keeps the multiset of the entries and repairs the one place
where the heap is not in order.
-/
namespace OsLab
namespace Heap

variable {α κ : Type*}

/-- `before` decides the order of keys, whatever it says on ties. -/
structure Compares [LE κ] (before : α → α → Bool) (key : α → κ) : Prop where
  le : ∀ {a b}, before a b = true → key a ≤ key b
  ge : ∀ {a b}, before a b = false → key b ≤ key a

def swap (Q : ℕ → α) (i j : ℕ) : ℕ → α := Function.update (Function.update Q i (Q j)) j (Q i)

/-- The child that goes up: the left one when there is no other or it comes before the other. -/
def child (before : α → α → Bool) (n : ℕ) (Q : ℕ → α) (i : ℕ) : ℕ :=
  if 2 * i + 2 = n ∨ before (Q (2 * i + 1)) (Q (2 * i + 2)) = true then 2 * i + 1 else 2 * i + 2

/-- Exchange the entry at `i` with its child until it comes before it or has none. -/
def siftDown (before : α → α → Bool) (n : ℕ) (Q : ℕ → α) (i : ℕ) : ℕ → α :=
  if _h : n ≤ 2 * i + 1 then Q
  else if before (Q i) (Q (child before n Q i)) then Q
  else siftDown before n (swap Q i (child before n Q i)) (child before n Q i)
termination_by n - i
decreasing_by unfold child; split <;> omega

/-- Exchange the entry at `i` with its parent until that comes before it or there is none. -/
def siftUp (before : α → α → Bool) (Q : ℕ → α) (i : ℕ) : ℕ → α :=
  if _h : i = 0 then Q
  else if before (Q ((i - 1) / 2)) (Q i) then Q
  else siftUp before (swap Q i ((i - 1) / 2)) ((i - 1) / 2)
termination_by i

/-! ### Entries -/

/-- The first `n` entries, in no order. -/
def contents (n : ℕ) (Q : ℕ → α) : Multiset α := (Multiset.range n).map Q

theorem contents_congr {n : ℕ} {Q Q' : ℕ → α} (h : ∀ i < n, Q' i = Q i) : contents n Q' = contents n Q :=
  Multiset.map_congr rfl (fun i hi => h i (Multiset.mem_range.1 hi))

theorem contents_succ (n : ℕ) (Q : ℕ → α) : contents (n + 1) Q = Q n ::ₘ contents n Q := by
  unfold contents
  rw [Multiset.range_succ, Multiset.map_cons]

theorem mem_contents {n : ℕ} {Q : ℕ → α} {a : α} : a ∈ contents n Q ↔ ∃ i < n, Q i = a := by
  unfold contents
  simp only [Multiset.mem_map, Multiset.mem_range]

theorem card_contents (n : ℕ) (Q : ℕ → α) : (contents n Q).card = n := by
  unfold contents
  rw [Multiset.card_map, Multiset.card_range]

theorem swap_apply (Q : ℕ → α) (i j k : ℕ) : swap Q i j k = Q (Equiv.swap i j k) := by
  unfold swap
  by_cases hj : k = j
  · rw [hj, Function.update_self, Equiv.swap_apply_right]
  · by_cases hi : k = i
    · rw [Function.update_of_ne hj, hi, Function.update_self, Equiv.swap_apply_left]
    · rw [Function.update_of_ne hj, Function.update_of_ne hi, Equiv.swap_apply_of_ne_of_ne hi hj]

theorem swap_left (Q : ℕ → α) (i j : ℕ) : swap Q i j i = Q j := by rw [swap_apply, Equiv.swap_apply_left]

theorem swap_right (Q : ℕ → α) (i j : ℕ) : swap Q i j j = Q i := by rw [swap_apply, Equiv.swap_apply_right]

theorem swap_of_ne (Q : ℕ → α) {i j k : ℕ} (hi : k ≠ i) (hj : k ≠ j) : swap Q i j k = Q k := by
  rw [swap_apply, Equiv.swap_apply_of_ne_of_ne hi hj]

/-- **An exchange keeps the entries.** -/
theorem contents_swap {n : ℕ} (Q : ℕ → α) {i j : ℕ} (hi : i < n) (hj : j < n) :
    contents n (swap Q i j) = contents n Q := by
  have hlt : ∀ k, k < n → Equiv.swap i j k < n := fun k hk => by
    rw [Equiv.swap_apply_def]
    split
    · exact hj
    · split
      · exact hi
      · exact hk
  have hperm : (Multiset.range n).map (Equiv.swap i j) = Multiset.range n := by
    refine (Multiset.Nodup.ext ?_ (Multiset.nodup_range n)).2 (fun k => ?_)
    · exact (Multiset.nodup_range n).map (Equiv.injective _)
    · rw [Multiset.mem_map]
      constructor
      · rintro ⟨l, hl, rfl⟩
        exact Multiset.mem_range.2 (hlt l (Multiset.mem_range.1 hl))
      · intro hk
        exact ⟨Equiv.swap i j k, Multiset.mem_range.2 (hlt k (Multiset.mem_range.1 hk)), Equiv.swap_apply_self i j k⟩
  calc contents n (swap Q i j) = (Multiset.range n).map (Q ∘ Equiv.swap i j) :=
        Multiset.map_congr rfl (fun k _ => swap_apply Q i j k)
    _ = ((Multiset.range n).map (Equiv.swap i j)).map Q := (Multiset.map_map _ _ _).symm
    _ = contents n Q := by rw [hperm, contents]

variable {before : α → α → Bool} {n : ℕ} {Q : ℕ → α} {i : ℕ}

theorem child_cases (h : ¬ n ≤ 2 * i + 1) :
    (child before n Q i = 2 * i + 1 ∨ child before n Q i = 2 * i + 2) ∧ child before n Q i < n := by
  unfold child
  split
  · exact ⟨Or.inl rfl, by omega⟩
  · exact ⟨Or.inr rfl, by omega⟩

theorem contents_siftDown (before : α → α → Bool) (n : ℕ) (Q : ℕ → α) (i : ℕ) :
    contents n (siftDown before n Q i) = contents n Q := by
  fun_induction siftDown before n Q i with
  | case1 => rfl
  | case2 => rfl
  | case3 Q i h hb ih =>
    rw [ih]
    exact contents_swap Q (by omega) (child_cases h).2

theorem contents_siftUp (before : α → α → Bool) (Q : ℕ → α) (i : ℕ) (hi : i < n) :
    contents n (siftUp before Q i) = contents n Q := by
  fun_induction siftUp before Q i with
  | case1 => rfl
  | case2 => rfl
  | case3 Q i h hb ih =>
    rw [ih (by omega)]
    exact contents_swap Q hi (by omega)

/-! ### Entries that are not in use -/

/-- The first `n` entries are the same. -/
def Agree (n : ℕ) (Q Q' : ℕ → α) : Prop := ∀ i < n, Q' i = Q i

theorem Agree.update {Q' : ℕ → α} (h : Agree n Q Q') (i : ℕ) (a : α) :
    Agree n (Function.update Q i a) (Function.update Q' i a) := fun j hj => by
  rw [Function.update_apply, Function.update_apply, h j hj]

theorem Agree.swap {Q' : ℕ → α} (h : Agree n Q Q') {i j : ℕ} (hi : i < n) (hj : j < n) :
    Agree n (swap Q i j) (swap Q' i j) := by
  unfold Heap.swap
  rw [h i hi, h j hj]
  exact (h.update i (Q j)).update j (Q i)

theorem Agree.siftDown {Q' : ℕ → α} (h : Agree n Q Q') (before : α → α → Bool) (i : ℕ) :
    Agree n (siftDown before n Q i) (siftDown before n Q' i) := by
  fun_induction Heap.siftDown before n Q i generalizing Q' with
  | case1 Q i hleaf =>
    rw [Heap.siftDown.eq_def before n Q' i, dif_pos hleaf]
    exact h
  | case2 Q i hleaf hb =>
    have hchild : child before n Q' i = child before n Q i := by
      unfold child
      refine if_congr (or_congr_right' (fun hn => ?_)) rfl rfl
      rw [h _ (by omega), h _ (by omega)]
    rw [Heap.siftDown.eq_def before n Q' i, dif_neg hleaf, hchild, h i (by omega), h _ (child_cases hleaf).2, if_pos hb]
    exact h
  | case3 Q i hleaf hb ih =>
    have hchild : child before n Q' i = child before n Q i := by
      unfold child
      refine if_congr (or_congr_right' (fun hn => ?_)) rfl rfl
      rw [h _ (by omega), h _ (by omega)]
    rw [Heap.siftDown.eq_def before n Q' i, dif_neg hleaf, hchild, h i (by omega), h _ (child_cases hleaf).2, if_neg hb]
    exact ih (h.swap (by omega) (child_cases hleaf).2)

theorem Agree.siftUp {Q' : ℕ → α} (h : Agree n Q Q') (before : α → α → Bool) (hi : i < n) :
    Agree n (siftUp before Q i) (siftUp before Q' i) := by
  fun_induction Heap.siftUp before Q i generalizing Q' with
  | case1 Q =>
    rw [Heap.siftUp.eq_def before Q' 0, dif_pos rfl]
    exact h
  | case2 Q i h0 hb =>
    rw [Heap.siftUp.eq_def before Q' i, dif_neg h0, h i hi, h _ (by omega), if_pos hb]
    exact h
  | case3 Q i h0 hb ih =>
    rw [Heap.siftUp.eq_def before Q' i, dif_neg h0, h i hi, h _ (by omega), if_neg hb]
    exact ih (h.swap hi (by omega)) (by omega)

/-! ### Order -/

section Order

variable [LinearOrder κ] {key : α → κ} {k : ℕ}

/-- From place `k` on every entry is in order with its children. -/
def OrderedFrom (key : α → κ) (k n : ℕ) (Q : ℕ → α) : Prop :=
  ∀ p c, k ≤ p → c = 2 * p + 1 ∨ c = 2 * p + 2 → c < n → key (Q p) ≤ key (Q c)

/-- **The entry at the top is the least.** -/
theorem OrderedFrom.least (h : OrderedFrom key 0 n Q) : ∀ c < n, key (Q 0) ≤ key (Q c) := by
  intro c
  induction c using Nat.strong_induction_on with
  | _ c ih =>
    intro hc
    by_cases h0 : c = 0
    · rw [h0]
    · exact (ih ((c - 1) / 2) (by omega) (by omega)).trans (h _ c (Nat.zero_le _) (by omega) hc)

/-- The child that goes up is the lesser one. -/
theorem child_le (hcmp : Compares before key) {c : ℕ} (hc : c = 2 * i + 1 ∨ c = 2 * i + 2) (hcn : c < n) :
    key (Q (child before n Q i)) ≤ key (Q c) := by
  unfold child
  split
  · rename_i hl
    rcases hc with rfl | rfl
    · exact le_refl _
    · rcases hl with hl | hl
      · omega
      · exact hcmp.le hl
  · rename_i hl
    rw [not_or] at hl
    rcases hc with rfl | rfl
    · exact hcmp.ge (by simpa using hl.2)
    · exact le_refl _

/-- In order but for the entry at `i` and its children, which its parent is in order with. -/
structure DownFrom (key : α → κ) (k n i : ℕ) (Q : ℕ → α) : Prop where
  other : ∀ p c, k ≤ p → p ≠ i → c = 2 * p + 1 ∨ c = 2 * p + 2 → c < n → key (Q p) ≤ key (Q c)
  grand : ∀ p c, k ≤ p → i = 2 * p + 1 ∨ i = 2 * p + 2 → c = 2 * i + 1 ∨ c = 2 * i + 2 → c < n → key (Q p) ≤ key (Q c)

/-- **Sifting down** repairs the place where it starts. -/
theorem siftDown_ordered (hcmp : Compares before key) (hk : k ≤ i) (h : DownFrom key k n i Q) :
    OrderedFrom key k n (siftDown before n Q i) := by
  fun_induction siftDown before n Q i with
  | case1 Q i hleaf =>
    intro p c hp hc hcn
    exact h.other p c hp (by omega) hc hcn
  | case2 Q i hleaf hb =>
    intro p c hp hc hcn
    by_cases hpi : p = i
    · rw [hpi] at hc ⊢
      exact (hcmp.le hb).trans (child_le hcmp hc hcn)
    · exact h.other p c hp hpi hc hcn
  | case3 Q i hleaf hb ih =>
    obtain ⟨hchild, hlt⟩ := child_cases (Q := Q) hleaf
    have hle : key (Q (child before n Q i)) ≤ key (Q i) := hcmp.ge (by simpa using hb)
    have hleast : ∀ c, c = 2 * i + 1 ∨ c = 2 * i + 2 → c < n → key (Q (child before n Q i)) ≤ key (Q c) :=
      fun c => child_le hcmp
    generalize child before n Q i = m at hchild hlt hle hleast ih
    refine ih (by omega) ⟨fun p c hp hpm hc hcn => ?_, fun p c hp hm hc hcn => ?_⟩
    · by_cases hpi : p = i
      · subst hpi
        rw [swap_left]
        by_cases hcm : c = m
        · rw [hcm, swap_right]; exact hle
        · rw [swap_of_ne Q (by omega) hcm]; exact hleast c hc hcn
      · rw [swap_of_ne Q hpi hpm]
        by_cases hci : c = i
        · rw [hci, swap_left]
          exact h.grand p m hp (by omega) (by omega) hlt
        · rw [swap_of_ne Q hci (by omega)]
          exact h.other p c hp hpi hc hcn
    · have hpi : p = i := by omega
      rw [hpi, swap_left, swap_of_ne Q (by omega) (by omega)]
      exact h.other m c (by omega) (by omega) hc hcn

/-- In order but for the entry at `i` and its parent, which is in order with the children of `i`. -/
structure UpTo (key : α → κ) (n i : ℕ) (Q : ℕ → α) : Prop where
  other : ∀ p c, c ≠ i → c = 2 * p + 1 ∨ c = 2 * p + 2 → c < n → key (Q p) ≤ key (Q c)
  grand : ∀ p c, i = 2 * p + 1 ∨ i = 2 * p + 2 → c = 2 * i + 1 ∨ c = 2 * i + 2 → c < n → key (Q p) ≤ key (Q c)

/-- **Sifting up** repairs the place where it starts. -/
theorem siftUp_ordered (hcmp : Compares before key) (h : UpTo key n i Q) : OrderedFrom key 0 n (siftUp before Q i) := by
  fun_induction siftUp before Q i with
  | case1 Q =>
    intro p c _ hc hcn
    exact h.other p c (by omega) hc hcn
  | case2 Q i h0 hb =>
    intro p c _ hc hcn
    by_cases hci : c = i
    · have hp : p = (i - 1) / 2 := by omega
      rw [hp, hci]
      exact hcmp.le hb
    · exact h.other p c hci hc hcn
  | case3 Q i h0 hb ih =>
    have hle : key (Q i) ≤ key (Q ((i - 1) / 2)) := hcmp.ge (by simpa using hb)
    have hi : i = 2 * ((i - 1) / 2) + 1 ∨ i = 2 * ((i - 1) / 2) + 2 := by omega
    generalize (i - 1) / 2 = m at hle hi ih
    have hgrand : ∀ p, m = 2 * p + 1 ∨ m = 2 * p + 2 → m < n → key (Q p) ≤ key (Q m) := fun p hp hm =>
      h.other p m (by omega) hp hm
    refine ih ⟨fun p c hcm hc hcn => ?_, fun p c hp hc hcn => ?_⟩
    · by_cases hpm : p = m
      · subst hpm
        rw [swap_right]
        by_cases hci : c = i
        · rw [hci, swap_left]; exact hle
        · rw [swap_of_ne Q hci hcm]
          exact hle.trans (h.other p c hci hc hcn)
      · by_cases hpi : p = i
        · rw [hpi, swap_left, swap_of_ne Q (by omega) hcm]
          exact h.grand m c hi (by omega) hcn
        · rw [swap_of_ne Q hpi hpm, swap_of_ne Q (by omega) hcm]
          exact h.other p c (by omega) hc hcn
    · have hmi : m < n := by omega
      rw [swap_of_ne Q (by omega) (by omega)]
      by_cases hci : c = i
      · rw [hci, swap_left]
        exact hgrand p hp hmi
      · rw [swap_of_ne Q hci (by omega)]
        exact (hgrand p hp hmi).trans (h.other m c hci hc hcn)

end Order

/-! ### The places a sift touches -/

/-- The places `siftDown` reads or writes: the children it compares, and the entry and the child that may change places. -/
def siftDownPlaces (before : α → α → Bool) (n : ℕ) (Q : ℕ → α) (i : ℕ) : List ℕ :=
  if _h : n ≤ 2 * i + 1 then []
  else (if 2 * i + 2 = n then [] else [2 * i + 1, 2 * i + 2]) ++ i :: child before n Q i ::
    if before (Q i) (Q (child before n Q i)) then []
    else siftDownPlaces before n (swap Q i (child before n Q i)) (child before n Q i)
termination_by n - i
decreasing_by unfold child; split <;> omega

/-- The places `siftUp` reads or writes. -/
def siftUpPlaces (before : α → α → Bool) (Q : ℕ → α) (i : ℕ) : List ℕ :=
  if _h : i = 0 then []
  else (i - 1) / 2 :: i :: if before (Q ((i - 1) / 2)) (Q i) then []
    else siftUpPlaces before (swap Q i ((i - 1) / 2)) ((i - 1) / 2)
termination_by i

/-- **Sifting down stays below the end.** -/
theorem siftDownPlaces_lt (before : α → α → Bool) (n : ℕ) (Q : ℕ → α) (i : ℕ) : ∀ p ∈ siftDownPlaces before n Q i, p < n := by
  induction Q, i using siftDownPlaces.induct before n with
  | case1 Q i h =>
    rw [siftDownPlaces, dif_pos h]
    exact fun p hp => absurd hp List.not_mem_nil
  | case2 Q i h ih =>
    have hchild : child before n Q i < n := (child_cases h).2
    intro p hp
    rw [siftDownPlaces, dif_neg h] at hp
    rcases List.mem_append.1 hp with hp | hp
    · split at hp
      · exact absurd hp List.not_mem_nil
      · simp only [List.mem_cons, List.not_mem_nil, or_false] at hp
        omega
    · rcases List.mem_cons.1 hp with rfl | hp
      · omega
      · rcases List.mem_cons.1 hp with rfl | hp
        · exact hchild
        · split at hp
          · exact absurd hp List.not_mem_nil
          · exact ih p hp

/-- **Sifting up stays at or below the place it starts from.** -/
theorem siftUpPlaces_le (before : α → α → Bool) (Q : ℕ → α) (i : ℕ) : ∀ p ∈ siftUpPlaces before Q i, p ≤ i := by
  induction Q, i using siftUpPlaces.induct with
  | case1 Q =>
    rw [siftUpPlaces, dif_pos rfl]
    exact fun p hp => absurd hp List.not_mem_nil
  | case2 Q i h ih =>
    intro p hp
    rw [siftUpPlaces, dif_neg h] at hp
    rcases List.mem_cons.1 hp with rfl | hp
    · omega
    · rcases List.mem_cons.1 hp with rfl | hp
      · exact Nat.le_refl p
      · split at hp
        · exact absurd hp List.not_mem_nil
        · exact Nat.le_trans (ih p hp) (by omega)

end Heap
end OsLab
