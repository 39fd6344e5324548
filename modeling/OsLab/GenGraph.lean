import OsLab.GenTree
import OsLab.GraphFile
import OsLab.TopSortInv
import OsLab.TopoOrder
/-!
# GenGraph — the generator of random acyclic graphs

gengraph.c of Assignment 5: a random permutation of the vertices, then for every two places of it an edge from the earlier
to the later one, or none.  The diagonal is written by vertex and the rest by place; after the turn `i` of the outer loop the
diagonal is done up to `i`, and every pair whose earlier place is at most `i` (`Filled`).
-/
namespace OsLab
namespace GenGraph

open GenTree (Rand)
open DecimalText (IsInt)
open TopSort (Entries Edge graphText printGraph printGraph_eq readGraph readGraph_graphText)

/-- Lines 17 to 21, the shuffle that gentree.c has too. -/
def shuffle (rand : Rand) (n : ℕ) : Option (List ℕ) := GenTree.shuffle rand n n (List.range n)

structure State where
  A : Entries
  /-- How often `rand` has been called. -/
  draws : ℕ

/-- `A[u][v] = x`: `none` is an index outside the matrix. -/
def setEntry (n : ℕ) (A : Entries) (u v : ℕ) (x : ℤ) : Option Entries :=
  if u < n ∧ v < n then some (Function.update A u (Function.update (A u) v (some x))) else none

/-- Lines 25 and 26.  `edge` says for which values of `rand` the floating-point comparison with the probability holds. -/
def setPair (rand : Rand) (edge : ℕ → Bool) (n : ℕ) (PERM : List ℕ) (i j : ℕ) (s : State) : Option State :=
  match PERM[i]?, PERM[j]? with
  | some u, some v =>
    (setEntry n s.A u v (if edge (rand s.draws) then 1 else 0)).bind fun A =>
    (setEntry n A v u 0).map fun A => ⟨A, s.draws + 1⟩
  | _, _ => none

/-- Lines 23 to 27. -/
def setRow (rand : Rand) (edge : ℕ → Bool) (n : ℕ) (PERM : List ℕ) (i : ℕ) (s : State) : Option State :=
  (setEntry n s.A i i 0).bind fun A => forRange (setPair rand edge n PERM i) (i + 1) n ⟨A, s.draws⟩

/-- `main`: the permutation, the matrix and what is printed. -/
def gengraph (rand : Rand) (edge : ℕ → Bool) (n : ℕ) : Option (List ℕ × Entries × List Char) :=
  (shuffle rand n).bind fun PERM =>
  (forRange (setRow rand edge n PERM) 0 n ⟨fun _ _ => none, n⟩).bind fun s =>
  (printGraph n s.A).map fun file => (PERM, s.A, file)

section Fill

variable {n : ℕ} {PERM : List ℕ} {A A' : Entries} {d i j u v : ℕ} {x : ℤ}

theorem setEntry_eq (n : ℕ) (A : Entries) (hu : u < n) (hv : v < n) (x : ℤ) :
    ∃ A', setEntry n A u v x = some A' ∧ A' u v = some x ∧ ∀ a b, (a ≠ u ∨ b ≠ v) → A' a b = A a b := by
  refine ⟨_, if_pos ⟨hu, hv⟩, by simp, fun a b hne => ?_⟩
  by_cases ha : a = u
  · subst ha
    rw [Function.update_self]
    exact Function.update_of_ne (hne.resolve_left (fun h => h rfl)) _ _
  · rw [Function.update_of_ne ha]

/-- Different places hold different vertices. -/
theorem place_inj (h : PERM.Perm (List.range n)) {a b : ℕ} (ha : PERM[a]? = some u) (hb : PERM[b]? = some u) : a = b := by
  have hnodup := GenTree.perm_nodup h
  rw [← GenTree.idxOf_of_getElem? hnodup ha, ← GenTree.idxOf_of_getElem? hnodup hb]

/-- The diagonal is written up to `d`; of the pairs of places, those whose earlier one is before `i`, and those of `i`
whose later one is before `j`. -/
structure Filled (n : ℕ) (PERM : List ℕ) (A : Entries) (d i j : ℕ) : Prop where
  diag : ∀ a < d, A a a = some 0
  pairs : ∀ a b u v, a < b → b < n → a < i ∨ a = i ∧ b < j → PERM[a]? = some u → PERM[b]? = some v →
    (A u v = some 0 ∨ A u v = some 1) ∧ A v u = some 0

/-- An entry of the diagonal is written: no pair is touched. -/
theorem Filled.setDiag (h : Filled n PERM A i i j) (hperm : PERM.Perm (List.range n)) (hi : i < n) :
    ∃ A', setEntry n A i i 0 = some A' ∧ Filled n PERM A' (i + 1) i j := by
  obtain ⟨A', hset, hnew, hold⟩ := setEntry_eq n A hi hi 0
  refine ⟨A', hset, fun a ha => ?_, fun a b u v hab hb hdone hu hv => ?_⟩
  · rcases Nat.lt_succ_iff_lt_or_eq.1 ha with ha | rfl
    · rw [hold a a (Or.inl (Nat.ne_of_lt ha))]
      exact h.diag a ha
    · exact hnew
  · have huv : u ≠ v := fun he => Nat.ne_of_lt hab (place_inj hperm hu (he ▸ hv))
    rw [hold u v (by omega), hold v u (by omega)]
    exact h.pairs a b u v hab hb hdone hu hv

/-- The two entries of a pair are written: the diagonal and the other pairs are not touched. -/
theorem Filled.setPair (rand : Rand) (edge : ℕ → Bool) {s : State} (h : Filled n PERM s.A d i j)
    (hperm : PERM.Perm (List.range n)) (hij : i < j) (hj : j < n) :
    ∃ s', setPair rand edge n PERM i j s = some s' ∧ Filled n PERM s'.A d i (j + 1) := by
  obtain ⟨u, hu, hun⟩ := GenTree.perm_getElem hperm (Nat.lt_trans hij hj)
  obtain ⟨v, hv, hvn⟩ := GenTree.perm_getElem hperm hj
  have huv : u ≠ v := fun he => Nat.ne_of_lt hij (place_inj hperm hu (he ▸ hv))
  obtain ⟨A₁, hset₁, hnew₁, hold₁⟩ := setEntry_eq n s.A hun hvn (if edge (rand s.draws) then 1 else 0)
  obtain ⟨A₂, hset₂, hnew₂, hold₂⟩ := setEntry_eq n A₁ hvn hun 0
  have hold : ∀ a b, (a ≠ u ∨ b ≠ v) → (a ≠ v ∨ b ≠ u) → A₂ a b = s.A a b := fun a b hab hba =>
    (hold₂ a b hba).trans (hold₁ a b hab)
  refine ⟨⟨A₂, s.draws + 1⟩, ?_, fun a ha => ?_, fun a b u' v' hab hb hdone hu' hv' => ?_⟩
  · rw [GenGraph.setPair, hu, hv]
    simp only [hset₁, hset₂, Option.bind_some, Option.map_some]
  · exact (hold a a (by omega) (by omega)).trans (h.diag a ha)
  · by_cases hnew : a = i ∧ b = j
    · -- the pair itself
      obtain ⟨rfl, rfl⟩ := hnew
      obtain rfl := Option.some.inj (hu.symm.trans hu')
      obtain rfl := Option.some.inj (hv.symm.trans hv')
      refine ⟨?_, hnew₂⟩
      simp only [hold₂ u v (Or.inl huv), hnew₁]
      split
      · exact Or.inr rfl
      · exact Or.inl rfl
    · have hsame : u' ≠ u ∨ v' ≠ v := by
        by_contra hboth
        push Not at hboth
        exact hnew ⟨place_inj hperm hu' (hboth.1 ▸ hu), place_inj hperm hv' (hboth.2 ▸ hv)⟩
      have hswapped : u' ≠ v ∨ v' ≠ u := by
        by_contra hboth
        push Not at hboth
        have haj : a = j := place_inj hperm hu' (hboth.1 ▸ hv)
        have hbi : b = i := place_inj hperm hv' (hboth.2 ▸ hu)
        omega
      simp only [hold u' v' hsame hswapped, hold v' u' hswapped.symm hsame.symm]
      exact h.pairs a b u' v' hab hb (by omega) hu' hv'

/-- **A turn of the outer loop** writes an entry of the diagonal and all pairs of its place with later ones. -/
theorem Filled.setRow (rand : Rand) (edge : ℕ → Bool) {s : State} (h : Filled n PERM s.A i i 0)
    (hperm : PERM.Perm (List.range n)) (hi : i < n) :
    ∃ s', setRow rand edge n PERM i s = some s' ∧ Filled n PERM s'.A (i + 1) (i + 1) 0 := by
  obtain ⟨A', hset, hdiag⟩ := h.setDiag hperm hi
  obtain ⟨s', hs', hrow⟩ := forRange_inv (GenGraph.setPair rand edge n PERM i) (s := ⟨A', s.draws⟩)
    (fun j t => Filled n PERM t.A (i + 1) i j) hi
    (fun j t hij hj ht => ht.setPair rand edge hperm hij hj)
    ⟨hdiag.diag, fun a b u v hab hb hdone => hdiag.pairs a b u v hab hb (by omega)⟩
  refine ⟨s', ?_, hrow.diag, fun a b u v hab hb hdone => hrow.pairs a b u v hab hb (by omega)⟩
  rw [GenGraph.setRow, hset]
  exact hs'

/-- **Every entry is assigned**, and the edges go forward in the permutation. -/
theorem Filled.entries (h : Filled n PERM A n n 0) (hperm : PERM.Perm (List.range n)) (hu : u < n) (hv : v < n) :
    A u v = some 0 ∨ A u v = some 1 ∧ PERM.idxOf u < PERM.idxOf v := by
  have hmem : ∀ w < n, w ∈ PERM := fun w hw => hperm.mem_iff.2 (List.mem_range.2 hw)
  have hlt : ∀ w < n, PERM.idxOf w < n := fun w hw => by
    have hlt := List.idxOf_lt_length_iff.2 (hmem w hw)
    rwa [hperm.length_eq, List.length_range] at hlt
  have hpu := List.getElem?_idxOf (hmem u hu)
  have hpv := List.getElem?_idxOf (hmem v hv)
  rcases Nat.lt_trichotomy (PERM.idxOf u) (PERM.idxOf v) with huv | heq | hvu
  · obtain ⟨hzero | hone, -⟩ := h.pairs _ _ u v huv (hlt v hv) (Or.inl (hlt u hu)) hpu hpv
    · exact Or.inl hzero
    · exact Or.inr ⟨hone, huv⟩
  · rw [heq, hpv] at hpu
    obtain rfl := Option.some.inj hpu
    exact Or.inl (h.diag v hv)
  · exact Or.inl (h.pairs _ _ v u hvu (hlt u hu) (Or.inl (hlt v hv)) hpv hpu).2

end Fill

/-- **The generator always produces a complete acyclic matrix**, whatever `rand` returns and whatever the edge probability
is: every entry has been assigned and is 0 or 1, the diagonal is 0, and the edges go forward in the permutation.  boss.c
reads the matrix back from the file. -/
theorem gengraph_valid (rand : Rand) (edge : ℕ → Bool) (n : ℕ) (hint : IsInt n) :
    ∃ PERM A file, ∃ M : Fin n → Fin n → ℤ, gengraph rand edge n = some (PERM, A, file) ∧
      PERM.Perm (List.range n) ∧ (∀ u v : Fin n, A u v = some (M u v)) ∧ (∀ u v, M u v = 0 ∨ M u v = 1) ∧
      (∀ v, M v v = 0) ∧ (∀ u v, Edge M u v → PERM.idxOf (u : ℕ) < PERM.idxOf (v : ℕ)) ∧ Acyclic (Edge M) ∧
      ∀ B₀, ∃ B, readGraph B₀ file = some ((n : ℤ), B) ∧ ∀ u v : Fin n, B u v = M u v := by
  obtain ⟨PERM, hshuffle, hperm⟩ := GenTree.shuffle_perm rand n (List.range n) (Nat.le_refl n) List.length_range
  obtain ⟨s, hloop, hfilled⟩ := forRange_inv (setRow rand edge n PERM) (s := ⟨fun _ _ => none, n⟩)
    (fun i t => Filled n PERM t.A i i 0) (Nat.zero_le n) (fun i t _ hi ht => ht.setRow rand edge hperm hi)
    ⟨fun a ha => absurd ha (Nat.not_lt_zero a), fun a b u v _ _ hdone => absurd hdone (by omega)⟩
  -- the assigned values
  have hentry : ∀ u < n, ∀ v < n, s.A u v = some ((s.A u v).getD 0) := fun u hu v hv => by
    rcases hfilled.entries hperm hu hv with h | ⟨h, -⟩ <;> simp [h]
  have hbit : ∀ u < n, ∀ v < n, (s.A u v).getD 0 = 0 ∨ (s.A u v).getD 0 = 1 := fun u hu v hv => by
    rcases hfilled.entries hperm hu hv with h | ⟨h, -⟩ <;> simp [h]
  have hforward : ∀ u v : Fin n, (s.A u v).getD 0 ≠ 0 → PERM.idxOf (u : ℕ) < PERM.idxOf (v : ℕ) := fun u v huv => by
    rcases hfilled.entries hperm u.isLt v.isLt with h | ⟨-, h⟩
    · exact absurd (by simp [h]) huv
    · exact h
  have hints : ∀ u < n, ∀ v < n, IsInt ((s.A u v).getD 0) := fun u hu v hv => by
    rcases hbit u hu v hv with h | h <;> rw [h] <;> decide
  refine ⟨PERM, s.A, graphText n (fun u v => (s.A u v).getD 0), fun u v => (s.A u v).getD 0, ?_, hperm,
    fun u v => hentry u u.isLt v v.isLt, fun u v => hbit u u.isLt v v.isLt, fun v => ?_, hforward,
    acyclic_of_rank (fun v : Fin n => PERM.idxOf (v : ℕ)) hforward, fun B₀ => ?_⟩
  · rw [gengraph, shuffle, hshuffle, Option.bind_some, hloop, Option.bind_some, printGraph_eq hentry, Option.map_some]
  · simp [hfilled.diag v v.isLt]
  · obtain ⟨B, hB, hread⟩ := readGraph_graphText hint hints B₀
    exact ⟨B, hB, fun u v => hread u u.isLt v v.isLt⟩

theorem gengraph_valid_three : ∃ PERM A file, gengraph (fun i => i * i + 5) (fun r => r % 3 = 0) 3 = some (PERM, A, file) ∧
    ∃ B, readGraph (fun _ _ => 7) file = some (3, B) :=
  have ⟨PERM, A, file, _, h⟩ := gengraph_valid (fun i => i * i + 5) (fun r => r % 3 = 0) 3 (by decide)
  have ⟨B, hB⟩ := h.2.2.2.2.2.2.2 (fun _ _ => 7)
  ⟨PERM, A, file, h.1, B, hB.1⟩

end GenGraph
end OsLab
