import Mathlib.Data.List.Range
/-!
# CountedLoop — loops that count upwards

`for (i = lo; i < hi; ++i)` around a body that may fail.  Two rules: an invariant that every turn carries on holds at the end,
and the loop ends (`forRange_inv`); a loop that only appends leaves everything appended in order (`forRange_append`).
-/
namespace OsLab

variable {σ : Type*}

/-- `k` turns, counting from `i` upwards. -/
def countUp (body : ℕ → σ → Option σ) : ℕ → ℕ → σ → Option σ
  | 0, _, s => some s
  | k + 1, i, s => (body i s).bind (countUp body k (i + 1))

/-- `for (i = lo; i < hi; ++i)`. -/
def forRange (body : ℕ → σ → Option σ) (lo hi : ℕ) (s : σ) : Option σ := countUp body (hi - lo) lo s

variable {lo hi : ℕ} {s : σ}

theorem countUp_inv (body : ℕ → σ → Option σ) (I : ℕ → σ → Prop) : ∀ (k i : ℕ) (s : σ),
    (∀ j s, i ≤ j → j < i + k → I j s → ∃ s', body j s = some s' ∧ I (j + 1) s') → I i s →
    ∃ s', countUp body k i s = some s' ∧ I (i + k) s'
  | 0, i, s, _, h => ⟨s, rfl, h⟩
  | k + 1, i, s, hstep, h => by
    obtain ⟨s₁, hs₁, h₁⟩ := hstep i s (Nat.le_refl i) (by omega) h
    obtain ⟨s', hs', h'⟩ := countUp_inv body I k (i + 1) s₁ (fun j s hij hj => hstep j s (by omega) (by omega)) h₁
    refine ⟨s', ?_, ?_⟩
    · rw [countUp, hs₁]
      exact hs'
    · rwa [show i + (k + 1) = i + 1 + k by omega]

/-- **The loop ends, and the invariant holds at its end.** -/
theorem forRange_inv (body : ℕ → σ → Option σ) (I : ℕ → σ → Prop) (hle : lo ≤ hi)
    (hstep : ∀ i s, lo ≤ i → i < hi → I i s → ∃ s', body i s = some s' ∧ I (i + 1) s') (h : I lo s) :
    ∃ s', forRange body lo hi s = some s' ∧ I hi s' := by
  obtain ⟨s', hs', h'⟩ := countUp_inv body I (hi - lo) lo s (fun j s hij hj => hstep j s hij (by omega)) h
  exact ⟨s', hs', by rwa [Nat.add_sub_cancel' hle] at h'⟩

/-- **A loop that only appends.** -/
theorem forRange_append {α : Type*} (body : ℕ → List α → Option (List α)) (f : ℕ → List α) (hle : lo ≤ hi) (out : List α)
    (hbody : ∀ i out, lo ≤ i → i < hi → body i out = some (out ++ f i)) :
    forRange body lo hi out = some (out ++ (List.range' lo (hi - lo)).flatMap f) := by
  obtain ⟨out', hout', h⟩ := forRange_inv body (s := out) (fun i o => o = out ++ (List.range' lo (i - lo)).flatMap f) hle
    (fun i o hlo hhi ho => by
      refine ⟨o ++ f i, hbody i o hlo hhi, ?_⟩
      rw [ho, show i + 1 - lo = i - lo + 1 by omega, List.range'_concat, List.flatMap_append, List.append_assoc]
      simp [show lo + (i - lo) = i by omega]) (by simp)
  rw [hout', h]

end OsLab
