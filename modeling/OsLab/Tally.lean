import Mathlib.Algebra.BigOperators.Fin
import Mathlib.Algebra.Order.BigOperators.Group.Finset
import Mathlib.Data.Fintype.BigOperators
/-!
# Tally — counting the parties at a control point

`tally w g` adds up the weight `w` of what every party holds.  When one party moves, the tally of the others stands
(`tally_update`), so an invariant that counts parties is an equation between numbers, before and after a step.
-/
namespace OsLab

variable {ι β : Type*} [Fintype ι]

/-- The sum of a weight over all parties. -/
def tally (w : β → ℕ) (g : ι → β) : ℕ := ∑ i, w (g i)

theorem tally_const (w : β → ℕ) (b : β) : tally w (fun _ : ι => b) = Fintype.card ι * w b := by
  simp [tally]

/-- **One party's move changes a tally by that party's weight only.** -/
theorem tally_update [DecidableEq ι] (w : β → ℕ) (g : ι → β) (i : ι) (b : β) :
    tally w (Function.update g i b) + w (g i) = tally w g + w b := by
  unfold tally
  rw [← Finset.add_sum_erase _ _ (Finset.mem_univ i), ← Finset.add_sum_erase _ (fun j => w (g j)) (Finset.mem_univ i)]
  have h : ∀ j ∈ Finset.univ.erase i, w (Function.update g i b j) = w (g j) := fun j hj => by
    rw [Function.update_of_ne (Finset.ne_of_mem_erase hj)]
  rw [Finset.sum_congr rfl h, Function.update_self]
  omega

theorem le_tally (w : β → ℕ) (g : ι → β) (i : ι) : w (g i) ≤ tally w g :=
  Finset.single_le_sum (f := fun j => w (g j)) (fun _ _ => Nat.zero_le _) (Finset.mem_univ i)

theorem tally_eq_zero {w : β → ℕ} {g : ι → β} : tally w g = 0 ↔ ∀ i, w (g i) = 0 := by
  simp [tally]

theorem tally_le {w : β → ℕ} {g : ι → β} {c : ℕ} (h : ∀ b, w b ≤ c) : tally w g ≤ Fintype.card ι * c := by
  have := Finset.sum_le_card_nsmul Finset.univ (fun i => w (g i)) c (fun i _ => h (g i))
  simpa [tally] using this

/-- **A tally of at most one is held by one party**: if `i` has weight, every other party has none. -/
theorem tally_unique [DecidableEq ι] {w : β → ℕ} {g : ι → β} (h : tally w g ≤ 1) {i j : ι} (hi : 0 < w (g i))
    (hj : j ≠ i) : w (g j) = 0 := by
  have hs : w (g i) + w (g j) ≤ tally w g := by
    rw [tally, ← Finset.add_sum_erase _ _ (Finset.mem_univ i)]
    have := Finset.single_le_sum (f := fun k => w (g k)) (fun _ _ => Nat.zero_le _)
      (Finset.mem_erase.2 ⟨hj, Finset.mem_univ j⟩)
    omega
  omega

/-- **A full tally of weights of at most one weighs every party.** -/
theorem tally_full {w : β → ℕ} {g : ι → β} (hw : ∀ b, w b ≤ 1) (h : tally w g = Fintype.card ι) (i : ι) :
    w (g i) = 1 := by
  have hc : ∑ j : ι, (1 - w (g j)) = 0 := by
    have h1 : ∑ j : ι, (1 - w (g j)) + ∑ j : ι, w (g j) = Fintype.card ι := by
      rw [← Finset.sum_add_distrib, Finset.sum_congr rfl (fun j _ => Nat.sub_add_cancel (hw (g j)))]
      simp
    unfold tally at h
    omega
  have := Finset.sum_eq_zero_iff.1 hc i (Finset.mem_univ i)
  have := hw (g i)
  omega

end OsLab
