import OsLab.RootedTree
import Mathlib.Data.List.FinRange
import Mathlib.Data.List.Perm.Basic
/-!
# GenTree — the generator of random trees

gentree.c of Assignment 7: a random permutation of the nodes, then rounds that hang the next few nodes of it under the next
parent.  A round may hang none, but then the parents have not caught up with the children; so there are at most as many
rounds as nodes (`loop_ends`), and what is hung stands behind its parent in the permutation.
-/
namespace OsLab
namespace GenTree

/-- What `rand` returns, call by call. -/
abbrev Rand := ℕ → ℕ

/-- Lines 17 and 18: `none` is an index outside the array. -/
def swap (PERM : List ℕ) (i j : ℕ) : Option (List ℕ) :=
  match PERM[i]?, PERM[j]? with
  | some t, some u => some ((PERM.set i u).set j t)
  | _, _ => none

/-- The loop of lines 16 to 19, with `k` places left of the `n`. -/
def shuffle (rand : Rand) (n : ℕ) : ℕ → List ℕ → Option (List ℕ)
  | 0, PERM => some PERM
  | k + 1, PERM =>
    let i := n - (k + 1)
    (swap PERM i (i + rand i % (n - i))).bind (shuffle rand n k)

structure State where
  PERM : List ℕ
  /-- The parents that have been assigned. -/
  P : List (Option ℕ)
  nextchild : ℕ
  nextparent : ℕ
  remaining : ℕ
  /-- How often `rand` has been called. -/
  draws : ℕ

/-- `P[PERM[child]] = PERM[parent]`. -/
def setParent (PERM : List ℕ) (P : List (Option ℕ)) (child parent : ℕ) : Option (List (Option ℕ)) :=
  match PERM[child]?, PERM[parent]? with
  | some c, some p => if c < P.length then some (P.set c (some p)) else none
  | _, _ => none

/-- The loop of lines 30 to 33, `t` children to go. -/
def hang (PERM : List ℕ) (nextparent : ℕ) : ℕ → ℕ → List (Option ℕ) → Option (List (Option ℕ))
  | 0, _, P => some P
  | t + 1, nextchild, P => (setParent PERM P (nextchild + 1) nextparent).bind (hang PERM nextparent t (nextchild + 1))

/-- Lines 25 to 28, with the value that `rand` returns. -/
def childCount (s : State) (r : ℕ) : ℕ :=
  if s.remaining > 5 then
    if s.nextchild = s.nextparent then 1 + r % 5 else r % 5
  else if s.nextchild = s.nextparent then 1 + r % s.remaining else r % s.remaining

/-- One round of the `while` loop. -/
def round (rand : Rand) (s : State) : Option State :=
  let t := childCount s (rand s.draws)
  (hang s.PERM s.nextparent t s.nextchild s.P).map fun P =>
    { s with P := P, nextchild := s.nextchild + t, nextparent := s.nextparent + 1, remaining := s.remaining - t,
             draws := s.draws + 1 }

/-- The `while` loop, for at most `fuel` rounds. -/
def loop (rand : Rand) : ℕ → State → Option State
  | fuel, s =>
    if s.remaining > 0 then
      match fuel with
      | 0 => none
      | fuel + 1 => (round rand s).bind (loop rand fuel)
    else some s

/-- The lines of the file after the first, which is `n`. -/
def writeTree (n : ℕ) (P : List (Option ℕ)) : Option (List (ℕ × ℕ)) :=
  (List.range n).mapM fun i => P[i]?.join.map fun p => (i, p)

/-- `main` with the loop cut off after `fuel` rounds: the arrays at its end and the lines of the file. -/
def gentree (rand : Rand) (n fuel : ℕ) : Option (State × List (ℕ × ℕ)) :=
  (shuffle rand n n (List.range n)).bind fun PERM =>
  (setParent PERM (List.replicate n none) 0 0).bind fun P =>
  (loop rand fuel ⟨PERM, P, 0, 0, n - 1, n⟩).bind fun s =>
  (writeTree n s.P).map fun lines => (s, lines)

/-! ### The permutation -/

theorem swap_perm (PERM : List ℕ) {i j : ℕ} (hi : i < PERM.length) (hj : j < PERM.length) :
    ∃ PERM', swap PERM i j = some PERM' ∧ PERM'.Perm PERM := by
  refine ⟨(PERM.set i PERM[j]).set j PERM[i], ?_, List.set_set_perm hi hj⟩
  unfold swap
  rw [List.getElem?_eq_getElem hi, List.getElem?_eq_getElem hj]

theorem shuffle_perm (rand : Rand) {n : ℕ} : ∀ (k : ℕ) (PERM : List ℕ), k ≤ n → PERM.length = n →
    ∃ PERM', shuffle rand n k PERM = some PERM' ∧ PERM'.Perm PERM
  | 0, PERM, _, _ => ⟨PERM, rfl, List.Perm.refl PERM⟩
  | k + 1, PERM, hk, hlen => by
    have hmod : rand (n - (k + 1)) % (n - (n - (k + 1))) < n - (n - (k + 1)) := Nat.mod_lt _ (by omega)
    have hi : n - (k + 1) < PERM.length := by omega
    have hj : n - (k + 1) + rand (n - (k + 1)) % (n - (n - (k + 1))) < PERM.length := by omega
    obtain ⟨PERM', hswap, hperm⟩ := swap_perm PERM hi hj
    obtain ⟨PERM'', hrest, hperm'⟩ := shuffle_perm rand k PERM' (by omega) (hperm.length_eq.trans hlen)
    refine ⟨PERM'', ?_, hperm'.trans hperm⟩
    rw [shuffle, hswap]
    exact hrest

/-! ### What has been hung -/

/-- Place `i` of the permutation has a parent: place 0 itself, any other one that stands before it. -/
def Hung (PERM : List ℕ) (P : List (Option ℕ)) (i : ℕ) : Prop :=
  ∃ j c p, (j < i ∨ i = 0 ∧ j = 0) ∧ PERM[i]? = some c ∧ PERM[j]? = some p ∧ P[c]? = some (some p)

/-- The places up to `k` have been hung. -/
structure HungTo (n : ℕ) (PERM : List ℕ) (P : List (Option ℕ)) (k : ℕ) : Prop where
  perm : PERM.Perm (List.range n)
  length : P.length = n
  lt : k < n
  hung : ∀ i, i ≤ k → Hung PERM P i

theorem perm_getElem {n : ℕ} {PERM : List ℕ} (h : PERM.Perm (List.range n)) {i : ℕ} (hi : i < n) :
    ∃ c, PERM[i]? = some c ∧ c < n := by
  have hlen : i < PERM.length := by
    rw [h.length_eq, List.length_range]
    exact hi
  refine ⟨PERM[i], List.getElem?_eq_getElem hlen, ?_⟩
  exact List.mem_range.1 (h.mem_iff.1 (List.getElem_mem hlen))

theorem perm_nodup {n : ℕ} {PERM : List ℕ} (h : PERM.Perm (List.range n)) : PERM.Nodup := h.nodup_iff.2 List.nodup_range

/-- Hanging one more node leaves those before it. -/
theorem HungTo.setParent {n : ℕ} {PERM : List ℕ} {P : List (Option ℕ)} {k parent : ℕ} (h : HungTo n PERM P k)
    (hk : k + 1 < n) (hparent : parent ≤ k) :
    ∃ P', setParent PERM P (k + 1) parent = some P' ∧ HungTo n PERM P' (k + 1) := by
  obtain ⟨c, hc, hcn⟩ := perm_getElem h.perm hk
  obtain ⟨p, hp, -⟩ := perm_getElem h.perm (show parent < n by omega)
  refine ⟨P.set c (some p), ?_, ⟨h.perm, ?_, hk, fun i hi => ?_⟩⟩
  · unfold GenTree.setParent
    rw [hc, hp]
    exact if_pos (h.length ▸ hcn)
  · rw [List.length_set, h.length]
  · rcases Nat.lt_or_ge k i with hlast | hold
    · obtain rfl : i = k + 1 := by omega
      refine ⟨parent, c, p, Or.inl (by omega), hc, hp, ?_⟩
      rw [List.getElem?_set_self (h.length ▸ hcn)]
    · obtain ⟨j, c', p', hj, hc', hp', hP⟩ := h.hung i hold
      have hne : c ≠ c' := by
        rintro rfl
        have heq := (List.getElem?_inj (by rw [h.perm.length_eq, List.length_range]; exact hk) (perm_nodup h.perm)).1
          (hc.trans hc'.symm)
        omega
      exact ⟨j, c', p', hj, hc', hp', by rw [List.getElem?_set_ne hne]; exact hP⟩

theorem HungTo.hang {n : ℕ} {PERM : List ℕ} {parent : ℕ} : ∀ (t : ℕ) {P : List (Option ℕ)} {k : ℕ}, HungTo n PERM P k →
    k + t < n → parent ≤ k → ∃ P', hang PERM parent t k P = some P' ∧ HungTo n PERM P' (k + t)
  | 0, P, k, h, _, _ => ⟨P, rfl, h⟩
  | t + 1, P, k, h, hkt, hparent => by
    obtain ⟨P', hset, h'⟩ := h.setParent (show k + 1 < n by omega) hparent
    obtain ⟨P'', hrest, h''⟩ := h'.hang t (by omega) (show parent ≤ k + 1 by omega)
    refine ⟨P'', ?_, ?_⟩
    · rw [GenTree.hang, hset]
      exact hrest
    · rwa [show k + (t + 1) = k + 1 + t by omega]

/-! ### The rounds -/

/-- Between the rounds: the parents are no further than the children, and the nodes not yet hung are those that remain. -/
structure Inv (n : ℕ) (s : State) : Prop where
  hung : HungTo n s.PERM s.P s.nextchild
  behind : s.nextparent ≤ s.nextchild
  left : s.nextchild + s.remaining + 1 = n

/-- No more children than remain, and one at least if the parents have caught up. -/
theorem childCount_bounds {s : State} (h : 0 < s.remaining) (r : ℕ) :
    childCount s r ≤ s.remaining ∧ (s.nextchild = s.nextparent → 1 ≤ childCount s r) := by
  have hfive : r % 5 < 5 := Nat.mod_lt r (by decide)
  have hrem : r % s.remaining < s.remaining := Nat.mod_lt r h
  unfold childCount
  split <;> split <;> omega

/-- **A round** stays inside the arrays and goes on to the next parent. -/
theorem Inv.round {n : ℕ} {s : State} (rand : Rand) (h : Inv n s) (hrem : 0 < s.remaining) :
    ∃ s', round rand s = some s' ∧ Inv n s' ∧ s'.nextparent = s.nextparent + 1 ∧ s'.PERM = s.PERM := by
  have hleft := h.left
  have hbehind := h.behind
  obtain ⟨hle, hone⟩ := childCount_bounds hrem (rand s.draws)
  obtain ⟨P', hhang, hung⟩ := h.hung.hang (childCount s (rand s.draws)) (by omega) h.behind
  refine ⟨⟨s.PERM, P', s.nextchild + childCount s (rand s.draws), s.nextparent + 1,
    s.remaining - childCount s (rand s.draws), s.draws + 1⟩, ?_, ⟨hung, ?_, ?_⟩, rfl, rfl⟩
  · unfold GenTree.round
    simp only [hhang, Option.map_some]
  · change s.nextparent + 1 ≤ s.nextchild + childCount s (rand s.draws)
    omega
  · change s.nextchild + childCount s (rand s.draws) + (s.remaining - childCount s (rand s.draws)) + 1 = n
    omega

/-- **The loop ends**, after as many rounds as there are places for the next parent. -/
theorem loop_ends {n : ℕ} (rand : Rand) : ∀ (fuel : ℕ) {s : State}, Inv n s → n ≤ fuel + s.nextparent →
    ∃ s', loop rand fuel s = some s' ∧ Inv n s' ∧ s'.remaining = 0 ∧ s'.PERM = s.PERM
  | 0, s, h, hfuel => by
    have hleft := h.left
    have hbehind := h.behind
    omega
  | fuel + 1, s, h, hfuel => by
    unfold loop
    by_cases hrem : 0 < s.remaining
    · obtain ⟨s', hround, hinv, hparent, hPERM⟩ := h.round rand hrem
      obtain ⟨s'', hloop, hinv', hzero, hPERM'⟩ := loop_ends rand fuel hinv (by omega)
      refine ⟨s'', ?_, hinv', hzero, hPERM'.trans hPERM⟩
      rw [if_pos hrem, hround]
      exact hloop
    · exact ⟨s, if_neg hrem, h, by omega, rfl⟩

/-- With the root its own parent, the loop may start. -/
theorem start_inv {n : ℕ} (hn : 1 ≤ n) {PERM : List ℕ} (hperm : PERM.Perm (List.range n)) :
    ∃ P, setParent PERM (List.replicate n none) 0 0 = some P ∧ Inv n ⟨PERM, P, 0, 0, n - 1, n⟩ := by
  obtain ⟨c, hc, hcn⟩ := perm_getElem hperm (show 0 < n by omega)
  have hlen : c < (List.replicate n (none : Option ℕ)).length := by
    rw [List.length_replicate]
    exact hcn
  refine ⟨(List.replicate n none).set c (some c), ?_, ⟨⟨hperm, ?_, hn, fun i hi => ?_⟩, Nat.le_refl 0, ?_⟩⟩
  · unfold setParent
    rw [hc]
    exact if_pos hlen
  · rw [List.length_set, List.length_replicate]
  · obtain rfl : i = 0 := Nat.le_zero.1 hi
    exact ⟨0, c, c, Or.inr ⟨rfl, rfl⟩, hc, hc, List.getElem?_set_self hlen⟩
  · change 0 + (n - 1) + 1 = n
    omega

/-! ### The tree -/

theorem idxOf_of_getElem? {PERM : List ℕ} (h : PERM.Nodup) {i c : ℕ} (hc : PERM[i]? = some c) : PERM.idxOf c = i := by
  obtain ⟨hi, rfl⟩ := List.getElem?_eq_some_iff.1 hc
  exact h.idxOf_getElem i hi

/-- When all are hung, the parents make a tree: each stands before its children in the permutation. -/
theorem HungTo.tree {n : ℕ} {PERM : List ℕ} {P : List (Option ℕ)} {k : ℕ} (h : HungTo n PERM P k) (hk : k + 1 = n) :
    ∃ T : RootedTree (Fin n), PERM[0]? = some (T.root : ℕ) ∧ ∀ v : Fin n, P[(v : ℕ)]? = some (some (T.parent v : ℕ)) := by
  have hnodup := perm_nodup h.perm
  have hplace : ∀ v : Fin n, ∃ p : Fin n, P[(v : ℕ)]? = some (some (p : ℕ)) ∧
      (PERM.idxOf (p : ℕ) < PERM.idxOf (v : ℕ) ∨ PERM.idxOf (v : ℕ) = 0 ∧ p = v) := by
    intro v
    have hmem : (v : ℕ) ∈ PERM := h.perm.mem_iff.2 (List.mem_range.2 v.isLt)
    have hi : PERM.idxOf (v : ℕ) < n := by
      have hlt := List.idxOf_lt_length_iff.2 hmem
      rwa [h.perm.length_eq, List.length_range] at hlt
    obtain ⟨j, c, p, hj, hc, hp, hP⟩ := h.hung (PERM.idxOf (v : ℕ)) (by omega)
    obtain rfl : (v : ℕ) = c := Option.some.inj ((List.getElem?_idxOf hmem).symm.trans hc)
    have hpn : p < n := List.mem_range.1 (h.perm.mem_iff.1 (List.mem_of_getElem? hp))
    refine ⟨⟨p, hpn⟩, hP, ?_⟩
    rcases hj with hlt | ⟨hzero, rfl⟩
    · exact Or.inl (by rw [idxOf_of_getElem? hnodup hp]; exact hlt)
    · rw [hzero] at hc
      exact Or.inr ⟨hzero, Fin.ext (Option.some.inj (hp.symm.trans hc))⟩
  choose parent hparent hrank using hplace
  obtain ⟨root, hroot, hrootn⟩ := perm_getElem h.perm (show 0 < n by omega)
  have hroot0 : PERM.idxOf root = 0 := idxOf_of_getElem? hnodup hroot
  refine ⟨RootedTree.ofRank parent ⟨root, hrootn⟩ (fun v => PERM.idxOf (v : ℕ)) ?_ (fun v hv => ?_), hroot, hparent⟩
  · rcases hrank ⟨root, hrootn⟩ with hlt | ⟨-, heq⟩
    · exact absurd (hroot0 ▸ hlt) (Nat.not_lt_zero _)
    · exact heq
  · rcases hrank v with hlt | ⟨hzero, -⟩
    · exact hlt
    · have hmem : (v : ℕ) ∈ PERM := h.perm.mem_iff.2 (List.mem_range.2 v.isLt)
      have hv0 := List.getElem?_idxOf hmem
      rw [hzero] at hv0
      exact absurd (Fin.ext (Option.some.inj (hv0.symm.trans hroot))) hv

theorem writeTree_eq {n : ℕ} {P : List (Option ℕ)} {parent : Fin n → Fin n}
    (h : ∀ v : Fin n, P[(v : ℕ)]? = some (some (parent v : ℕ))) :
    writeTree n P = some ((List.finRange n).map fun v : Fin n => ((v : ℕ), (parent v : ℕ))) := by
  have hlines : ∀ vs : List (Fin n), ((vs.map fun v : Fin n => (v : ℕ)).mapM fun i => P[i]?.join.map fun p => (i, p)) =
      some (vs.map fun v : Fin n => ((v : ℕ), (parent v : ℕ))) := by
    intro vs
    induction vs with
    | nil => rfl
    | cons v vs ih =>
      rw [List.map_cons, List.mapM_cons, h v, ih]
      rfl
  unfold writeTree
  rw [← List.map_coe_finRange_eq_range]
  exact hlines (List.finRange n)

/-- **The generator ends with a tree**, whatever `rand` returns: within `n` rounds and without leaving the arrays it has
assigned every parent, the root is the only node that is its own parent, every node comes to it, and the file lists the
tree. -/
theorem gentree_tree (rand : Rand) (n : ℕ) (hn : 1 ≤ n) :
    ∃ s lines, ∃ T : RootedTree (Fin n), gentree rand n n = some (s, lines) ∧ s.P.length = n ∧
      s.PERM[0]? = some (T.root : ℕ) ∧ (∀ v : Fin n, s.P[(v : ℕ)]? = some (some (T.parent v : ℕ))) ∧
      (∀ v, T.parent v = v ↔ v = T.root) ∧ (∀ v, ∃ k, T.parent^[k] v = T.root) ∧
      lines = (List.finRange n).map fun v : Fin n => ((v : ℕ), (T.parent v : ℕ)) := by
  obtain ⟨PERM, hshuffle, hperm⟩ := shuffle_perm rand n (List.range n) (Nat.le_refl n) List.length_range
  obtain ⟨P, hset, hstart⟩ := start_inv hn hperm
  obtain ⟨s, hloop, hinv, hzero, hPERM⟩ := loop_ends rand n hstart (Nat.le_refl n)
  have hleft := hinv.left
  obtain ⟨T, hroot, hparent⟩ := hinv.hung.tree (by omega)
  refine ⟨s, _, T, ?_, hinv.hung.length, hroot, hparent, fun v => ⟨T.eq_root_of_fixed, ?_⟩, T.reaches, rfl⟩
  · unfold gentree
    rw [hshuffle, Option.bind_some, hset, Option.bind_some, hloop, Option.bind_some, writeTree_eq hparent]
    rfl
  · rintro rfl
    exact T.parent_root

theorem gentree_tree_seven : ∃ s lines, gentree (fun i => i * i + 3) 7 7 = some (s, lines) ∧ s.P.length = 7 :=
  have ⟨s, lines, _, h⟩ := gentree_tree (fun i => i * i + 3) 7 (by decide)
  ⟨s, lines, h.1, h.2.1⟩

end GenTree
end OsLab
