import OsLab.TopSortInv
import Mathlib.Data.Fintype.EquivFin
/-!
# TopSortCheck — what the boss's check accepts

The check of boss.c on an array `T` that anybody may have written.  At each place the loop wants the vertex there to have
no predecessor left, where each place before it has released the successors of its vertex (`before`).  So it passes when at
every place as many places before it lead to the vertex as vertices do (`checks_iff`).  For an array without
repetition this says that it is a topological order; an array may repeat a vertex and pass.
-/
namespace OsLab
namespace TopSort

variable {n : ℕ} (A : Fin n → Fin n → ℤ)

/-- The boss takes its steps alone and leaves the check with `correct`. -/
inductive Checks : State n → Bool → Prop
  | verdict {s : State n} {b : Bool} (h : s.boss = .verdict b) : Checks s b
  | step {s t : State n} {b : Bool} {i : ℕ} {d : Fin n → ℤ} (h : s.boss = .check i d)
      (hs : bossStep A s s.boss = some t) (ht : Checks t b) : Checks s b

/-- The boss before its check, with the array `T` in the shared memory. -/
def checking (s : State n) (T : Fin n → Fin n) : State n :=
  { s with T := fun k => if h : k < n then some (T ⟨k, h⟩) else none, boss := .check 0 (fun j => indegrees A j) }

/-- Every vertex stands in one place, and after the vertices with an edge to it. -/
def Topological (T : Fin n → Fin n) : Prop :=
  (∀ v, ∃! k, T k = v) ∧ ∀ i j, A i j ≠ 0 → ∀ k l, T k = i → T l = j → k < l

/-- How many of the places before `i` hold a vertex with an edge to `j`. -/
def before (T : Fin n → Fin n) (i : ℕ) (j : Fin n) : ℕ :=
  (Finset.univ.filter fun l : Fin n => l.val < i ∧ Edge A (T l) j).card

variable {A} {s t : State n} {T : Fin n → Fin n} {b b' : Bool} {i : ℕ} {d : Fin n → ℤ} {v j : Fin n}

theorem Checks.reachable (h : Checks A s b) : ∃ t, Reachable (next A) s t ∧ t.boss = .verdict b := by
  induction h with
  | @verdict s b hs => exact ⟨s, .refl _ _, hs⟩
  | @step s t b i d h hs ht ih =>
    obtain ⟨u, hu, hb⟩ := ih
    exact ⟨u, (Reachable.refl (next A) s |>.step (a := none) hs).trans hu, hb⟩

theorem before_zero (T : Fin n → Fin n) (j : Fin n) : before A T 0 j = 0 := by simp [before]

theorem before_succ (hi : i < n) (j : Fin n) :
    before A T (i + 1) j = before A T i j + if Edge A (T ⟨i, hi⟩) j then 1 else 0 := by
  have hset : (Finset.univ.filter fun l : Fin n => l.val < i + 1 ∧ Edge A (T l) j) =
      (Finset.univ.filter fun l : Fin n => l.val < i ∧ Edge A (T l) j) ∪
        Finset.univ.filter fun l : Fin n => l = ⟨i, hi⟩ ∧ Edge A (T l) j := by
    ext l
    simp only [Finset.mem_union, Finset.mem_filter, Finset.mem_univ, true_and, Nat.lt_succ_iff_lt_or_eq, Fin.ext_iff,
      or_and_right]
  unfold before
  rw [hset, Finset.card_union_of_disjoint]
  · congr 1
    split
    · rename_i he
      rw [Finset.card_eq_one]
      exact ⟨⟨i, hi⟩, by ext l; simp only [Finset.mem_filter, Finset.mem_univ, true_and, Finset.mem_singleton]; exact
        ⟨And.left, fun hl => ⟨hl, hl ▸ he⟩⟩⟩
    · rename_i he
      rw [Finset.card_eq_zero, Finset.filter_eq_empty_iff]
      rintro l - ⟨rfl, hl⟩
      exact he hl
  · rw [Finset.disjoint_filter]
    rintro l - ⟨hl, -⟩ ⟨rfl, -⟩
    exact Nat.lt_irrefl _ hl

/-! ### The loop -/

theorem checks_verdict (h : s.boss = .verdict b') : Checks A s b ↔ b = b' := by
  constructor
  · rintro (hb | ⟨hb, -, -⟩)
    · rw [h] at hb
      exact (BossPc.verdict.inj hb).symm
    · rw [h] at hb
      cases hb
  · rintro rfl
    exact .verdict h

theorem checks_step (h : s.boss = .check i d) (hs : bossStep A s s.boss = some t) : Checks A s b ↔ Checks A t b := by
  constructor
  · rintro (hb | ⟨-, hs', ht⟩)
    · rw [h] at hb
      cases hb
    · rw [hs] at hs'
      cases hs'
      exact ht
  · exact .step h hs

/-- **The check as it goes on** from place `i`: it passes when no vertex from there on has a predecessor left. -/
theorem checks_from (hT : ∀ k : Fin n, s.T k = some (T k)) (r : ℕ) (hr : i + r = n) (hb : s.boss = .check i d)
    (hd : ∀ j, d j = (preds A j).card - before A T i j) :
    Checks A s b ↔ b = decide (∀ k : Fin n, i ≤ k → before A T k (T k) = (preds A (T k)).card) := by
  induction r generalizing s i d with
  | zero =>
    have hs : bossStep A s s.boss = some { s with boss := .verdict true } := by
      rw [hb, bossStep, if_neg (by omega)]
    rw [checks_step hb hs, checks_verdict rfl, decide_eq_true fun k hk => absurd k.isLt (by omega)]
  | succ r ih =>
    have hi : i < n := by omega
    have hTi : s.T i = some (T ⟨i, hi⟩) := hT ⟨i, hi⟩
    by_cases hzero : d (T ⟨i, hi⟩) = 0
    · have hs : bossStep A s s.boss = some { s with boss := .check (i + 1) (release A (T ⟨i, hi⟩) d) } := by
        rw [hb, bossStep, if_pos hi, hTi, checkPlace, if_pos hzero]
      rw [checks_step hb hs, ih (s := { s with boss := .check (i + 1) (release A (T ⟨i, hi⟩) d) }) hT (by omega) rfl]
      · have hhere : before A T i (T ⟨i, hi⟩) = (preds A (T ⟨i, hi⟩)).card := by
          rw [hd] at hzero
          omega
        refine iff_of_eq (congrArg _ (decide_eq_decide.2 (forall_congr' fun k => ⟨fun h hk => ?_, fun h hk => h (by omega)⟩)))
        rcases Nat.lt_or_eq_of_le hk with hk | hk
        · exact h hk
        · obtain rfl : k = ⟨i, hi⟩ := Fin.ext hk.symm
          exact hhere
      · intro j
        rw [release_apply, hd, before_succ hi]
        split <;> push_cast <;> omega
    · have hs : bossStep A s s.boss = some { s with boss := .verdict false } := by
        rw [hb, bossStep, if_pos hi, hTi, checkPlace, if_neg hzero]
      rw [checks_step hb hs, checks_verdict rfl, decide_eq_false]
      intro h
      rw [hd, h ⟨i, hi⟩ (Nat.le_refl i)] at hzero
      omega

/-- **The check always ends**, and what it accepts. -/
theorem checks_iff (s : State n) (T : Fin n → Fin n) (b : Bool) :
    Checks A (checking A s T) b ↔ b = decide (∀ k : Fin n, before A T k (T k) = indegrees A (T k)) := by
  refine (checks_from (T := T) (fun k => dif_pos k.isLt) n (Nat.zero_add n) rfl fun j => ?_).trans ?_
  · rw [before_zero, indegrees_eq]
    omega
  · simp only [indegrees_eq, Nat.zero_le, forall_const]

/-! ### Topological orders -/

/-- Where no vertex is repeated, the places before count vertices. -/
theorem before_eq_iff (hT : Function.Injective T) (k : Fin n) :
    before A T k (T k) = (preds A (T k)).card ↔ ∀ u, Edge A u (T k) → ∃ l < k, T l = u := by
  have himage : (Finset.univ.filter fun l : Fin n => l.val < k ∧ Edge A (T l) (T k)).image T ⊆ preds A (T k) := by
    intro u hu
    obtain ⟨l, hl, rfl⟩ := Finset.mem_image.1 hu
    exact mem_preds.2 (Finset.mem_filter.1 hl).2.2
  unfold before
  rw [← Finset.card_image_of_injective _ hT]
  constructor
  · intro hcard u hu
    rw [← mem_preds, ← Finset.eq_of_subset_of_card_le himage hcard.ge] at hu
    obtain ⟨l, hl, hlu⟩ := Finset.mem_image.1 hu
    exact ⟨l, (Finset.mem_filter.1 hl).2.1, hlu⟩
  · intro hall
    refine congrArg _ (Finset.Subset.antisymm himage fun u hu => ?_)
    obtain ⟨l, hl, rfl⟩ := hall u (mem_preds.1 hu)
    exact Finset.mem_image_of_mem T (Finset.mem_filter.2 ⟨Finset.mem_univ l, hl, mem_preds.1 hu⟩)

theorem Topological.injective (h : Topological A T) : Function.Injective T := fun _ l hkl =>
  (h.1 (T l)).unique hkl rfl

theorem topological_iff (hT : Function.Injective T) :
    Topological A T ↔ ∀ k : Fin n, before A T k (T k) = indegrees A (T k) := by
  simp only [indegrees_eq, before_eq_iff hT]
  have hsurj := Finite.injective_iff_surjective.1 hT
  constructor
  · intro h k u hu
    obtain ⟨l, rfl⟩ := hsurj u
    exact ⟨l, h.2 _ _ hu l k rfl rfl, rfl⟩
  · intro h
    refine ⟨fun v => ?_, fun i j hij k l hk hl => ?_⟩
    · obtain ⟨k, rfl⟩ := hsurj v
      exact ⟨k, rfl, fun l hl => hT hl⟩
    · subst hl
      obtain ⟨k', hk', he⟩ := h l i hij
      rwa [← hT (he.trans hk.symm)]

/-- **When the check tells right from wrong**: when the array repeats no vertex, or at some place the places before that
lead to its vertex are not as many as the vertices that do. -/
theorem check_iff (A : Fin n → Fin n → ℤ) (s : State n) (T : Fin n → Fin n) :
    (Checks A (checking A s T) true ↔ Topological A T) ↔
      Function.Injective T ∨ ∃ k : Fin n, before A T k (T k) ≠ indegrees A (T k) := by
  rw [checks_iff, eq_comm, decide_eq_true_iff]
  by_cases hT : Function.Injective T
  · exact iff_of_true (topological_iff hT).symm (Or.inl hT)
  · have hno : ¬ Topological A T := fun h => hT h.injective
    rw [or_iff_right hT]
    simp only [hno, iff_false, not_forall, ne_eq]

/-- Two vertices without an edge, one of them in both places. -/
theorem repeated_vertex_accepted : ¬ ∀ (n : ℕ) (A : Fin n → Fin n → ℤ) (s : State n) (T : Fin n → Fin n),
    Checks A (checking A s T) true ↔ Topological A T := by
  intro h
  have hiff := h 2 (fun _ _ => 0) (setup fun _ _ => 0) fun _ => 0
  have hpass : Checks (fun _ _ => 0) (checking (fun _ _ => 0) (setup fun _ _ => 0) fun _ : Fin 2 => (0 : Fin 2)) true :=
    (checks_iff _ _ _).2 (by decide)
  obtain ⟨k, hk, -⟩ := (hiff.1 hpass).1 1
  exact absurd (show (0 : Fin 2) = 1 from hk) (by decide)

end TopSort
end OsLab
