import Mathlib.Data.Nat.Notation
import Mathlib.Logic.Function.Basic
/-!
# Semaphore — a semaphore that guards a region

A semaphore of value one, taken on the way into a region and given back on the way out, lets one party in at a time.
`Guarded` is the invariant, with one rule each for a step that stays in or out, that takes the semaphore and that gives
it back.  `Held` is the same for a lock that knows its holder.  The parties are of any type.
-/
namespace OsLab

variable {τ : Type*}

/-- The semaphore `v` guards the region: one party at most is inside, and none while the semaphore is positive. -/
structure Guarded (inside : τ → Bool) (v : ℕ) : Prop where
  one : ∀ t u, inside t = true → inside u = true → t = u
  free : v = 0 ∨ v = 1 ∧ ∀ t, inside t = false

namespace Guarded

variable {inside inside' : τ → Bool} {v : ℕ} {t u : τ}

theorem nobody (h : Guarded inside (v + 1)) (u : τ) : inside u = false := by
  obtain ⟨-, hu⟩ := h.free.resolve_left (Nat.succ_ne_zero v)
  exact hu u

theorem zero (h : Guarded inside v) (ht : inside t = true) : v = 0 := by
  refine h.free.resolve_right (fun hf => ?_)
  rw [hf.2 t] at ht
  cases ht

theorem others (h : Guarded inside v) (ht : inside t = true) (hu : u ≠ t) : inside u = false := by
  by_contra hin
  exact hu (h.one u t (by simpa using hin) ht)

theorem keep (h : Guarded inside v) (heq : ∀ u, inside' u = inside u) : Guarded inside' v where
  one a b ha hb := by
    rw [heq] at ha hb
    exact h.one a b ha hb
  free := h.free.imp_right (fun hf => ⟨hf.1, fun a => by rw [heq]; exact hf.2 a⟩)

theorem take (h : Guarded inside (v + 1)) (hother : ∀ u, u ≠ t → inside' u = inside u) : Guarded inside' v where
  one a b ha hb := by
    have honly : ∀ c, inside' c = true → c = t := fun c hc => by
      by_contra hct
      rw [hother c hct, h.nobody c] at hc
      cases hc
    rw [honly a ha, honly b hb]
  free := by
    obtain ⟨hv, -⟩ := h.free.resolve_left (Nat.succ_ne_zero v)
    exact Or.inl (Nat.succ.inj hv)

theorem give (h : Guarded inside v) (ht : inside t = true) (ht' : inside' t = false)
    (hother : ∀ u, u ≠ t → inside' u = inside u) : Guarded inside' (v + 1) := by
  have hnone : ∀ c, inside' c = false := fun c => by
    by_cases hct : c = t
    · rw [hct, ht']
    · rw [hother c hct, h.others ht hct]
  refine ⟨fun a _ ha => ?_, Or.inr ⟨by rw [h.zero ht], hnone⟩⟩
  rw [hnone a] at ha
  cases ha

end Guarded

/-- The lock is held by exactly the party that is inside. -/
def Held (inside : τ → Bool) (lock : Option τ) : Prop := ∀ u, lock = some u ↔ inside u = true

namespace Held

variable {inside inside' : τ → Bool} {lock : Option τ} {t u : τ}

theorem start : Held (fun _ : τ => false) none := fun _ => iff_of_false (fun h => by cases h) (fun h => by cases h)

theorem one (h : Held inside lock) (ht : inside t = true) (hu : inside u = true) : t = u :=
  Option.some.inj (((h t).2 ht).symm.trans ((h u).2 hu))

theorem nobody (h : Held inside none) (u : τ) : inside u = false := by
  by_contra hu
  have := (h u).2 (by simpa using hu)
  cases this

/-- Where nobody is inside, the lock is free. -/
theorem free (h : Held inside lock) (hno : ∀ u, inside u = false) : lock = none := by
  cases lock with
  | none => rfl
  | some u =>
    have hu := (h u).1 rfl
    rw [hno u] at hu
    cases hu

theorem keep (h : Held inside lock) (heq : ∀ u, inside' u = inside u) : Held inside' lock := fun u => by
  rw [heq]
  exact h u

theorem take (h : Held inside none) (ht : inside' t = true) (hother : ∀ u, u ≠ t → inside' u = inside u) :
    Held inside' (some t) := fun u => by
  by_cases hu : u = t
  · rw [hu, ht]
    exact iff_of_true rfl rfl
  · rw [hother u hu, h.nobody u]
    exact iff_of_false (fun e => hu (Option.some.inj e).symm) (fun e => by cases e)

theorem give (h : Held inside (some t)) (ht : inside' t = false) (hother : ∀ u, u ≠ t → inside' u = inside u) :
    Held inside' none := fun u => by
  refine iff_of_false (fun e => by cases e) (fun hu => ?_)
  by_cases hut : u = t
  · rw [hut, ht] at hu
    cases hu
  · rw [hother u hut] at hu
    exact hut (Option.some.inj ((h u).2 hu)).symm

end Held

end OsLab
