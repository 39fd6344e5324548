import Mathlib.Algebra.GroupWithZero.Nat
import Mathlib.Logic.Function.Iterate
import Mathlib.Logic.Relation
import Mathlib.Order.WellFounded
/-!
# Reach — systems that take steps, their reachable states and their runs

A system is a partial step function `next : α → σ → Option σ`: the party `a` takes its next step in the state `s`, or
cannot.  A state is reachable when some order of steps leads to it, so a theorem about every reachable state is one
about every interleaving.  Proved once here: the rule of an invariant (`reachable_inv`), that of a measure which every
step lowers (`not_infinite_of_measure`), and that a system which cannot run forever comes to rest (`exists_stuck`).  A program
by itself, whose step never fails, has one run from each state (`Leads`); it rests where the step changes nothing.
-/
namespace OsLab

variable {α σ : Type*}

/-- The parties of a system of one or two are numerals. -/
instance neZeroOne : NeZero 1 := ⟨Nat.one_ne_zero⟩

instance neZeroTwo : NeZero 2 := ⟨Nat.succ_ne_zero 1⟩

/-- One step of some party. -/
def Steps (next : α → σ → Option σ) (s t : σ) : Prop := ∃ a, next a s = some t

/-- The states some order of steps leads to from `s₀`. -/
def Reachable (next : α → σ → Option σ) (s₀ s : σ) : Prop := Relation.ReflTransGen (Steps next) s₀ s

/-- No party can take a step. -/
def Stuck (next : α → σ → Option σ) (s : σ) : Prop := ∀ a, next a s = none

/-- The state after the parties of a schedule each took one step. -/
def runSchedule (next : α → σ → Option σ) : List α → σ → Option σ
  | [], s => some s
  | a :: as, s => (next a s).bind (runSchedule next as)

/-- An infinite run from `s₀`. -/
def InfiniteRun (next : α → σ → Option σ) (s₀ : σ) : Prop :=
  ∃ f : ℕ → σ, f 0 = s₀ ∧ ∀ i, Steps next (f i) (f (i + 1))

/-- The system in which a party takes only the steps that meet the condition `ok`. -/
def restricted (ok : α → σ → Prop) [∀ a s, Decidable (ok a s)] (next : α → σ → Option σ) (a : α) (s : σ) : Option σ :=
  if ok a s then next a s else none

theorem Reachable.refl (next : α → σ → Option σ) (s : σ) : Reachable next s s := Relation.ReflTransGen.refl

theorem Reachable.step {next : α → σ → Option σ} {s₀ s t : σ} {a : α} (h : Reachable next s₀ s)
    (hst : next a s = some t) : Reachable next s₀ t :=
  Relation.ReflTransGen.tail h ⟨a, hst⟩

theorem restricted_some {ok : α → σ → Prop} [∀ a s, Decidable (ok a s)] {next : α → σ → Option σ} {a : α} {s t : σ} :
    restricted ok next a s = some t ↔ ok a s ∧ next a s = some t := by
  unfold restricted
  by_cases h : ok a s <;> simp [h]

theorem Reachable.trans {next : α → σ → Option σ} {s t u : σ} (h : Reachable next s t) (h' : Reachable next t u) :
    Reachable next s u :=
  Relation.ReflTransGen.trans h h'

theorem reachable_of_runSchedule {next : α → σ → Option σ} :
    ∀ (as : List α) {s t : σ}, runSchedule next as s = some t → Reachable next s t
  | [], s, t, h => by cases h; exact Reachable.refl next s
  | a :: as, s, t, h => by
    obtain ⟨u, hu, ht⟩ := Option.bind_eq_some_iff.1 h
    exact ((Reachable.refl next s).step hu).trans (reachable_of_runSchedule as ht)

/-- Where a schedule that every party can follow leads. -/
theorem reachable_getD {next : α → σ → Option σ} (as : List α) (s : σ) (h : (runSchedule next as s).isSome = true) :
    Reachable next s ((runSchedule next as s).getD s) := by
  obtain ⟨t, ht⟩ := Option.isSome_iff_exists.1 h
  rw [ht]
  exact reachable_of_runSchedule as ht

/-- **The invariant rule**: what holds at the start and survives every step of a reachable state holds at every
reachable state. -/
theorem reachable_inv {next : α → σ → Option σ} {s₀ : σ} (I : σ → Prop) (h0 : I s₀)
    (hstep : ∀ a s t, Reachable next s₀ s → I s → next a s = some t → I t) {s : σ} (h : Reachable next s₀ s) : I s := by
  induction h with
  | refl => exact h0
  | tail hr hst ih =>
    obtain ⟨a, ha⟩ := hst
    exact hstep a _ _ hr ih ha

/-- **The measure rule**: when every state is in a relation `R` to some value, and every step leads to a related value of
smaller measure, no run is infinite. -/
theorem not_infinite_of_measure {next : α → σ → Option σ} {s₀ : σ} {β : Type*} {R : β → σ → Prop} {b₀ : β}
    (h0 : R b₀ s₀) (μ : β → σ → ℕ)
    (hμ : ∀ a b s t, R b s → next a s = some t → ∃ b', R b' t ∧ μ b' t < μ b s) : ¬ InfiniteRun next s₀ := by
  rintro ⟨f, hf0, hf⟩
  have hdesc : ∀ i, ∃ b, R b (f i) ∧ μ b (f i) + i ≤ μ b₀ s₀ := fun i => by
    induction i with
    | zero => exact ⟨b₀, by rw [hf0]; exact h0, by rw [hf0]; exact Nat.le_refl _⟩
    | succ i ih =>
      obtain ⟨b, hb, hle⟩ := ih
      obtain ⟨a, ha⟩ := hf i
      obtain ⟨b', hb', hlt⟩ := hμ a b _ _ hb ha
      exact ⟨b', hb', by omega⟩
  obtain ⟨b, -, hle⟩ := hdesc (μ b₀ s₀ + 1)
  omega

/-- The same with an invariant and a measure of the state alone. -/
theorem not_infinite_of_lt {next : α → σ → Option σ} {s₀ : σ} (I : σ → Prop) (h0 : I s₀) (μ : σ → ℕ)
    (hstep : ∀ a s t, I s → next a s = some t → I t ∧ μ t < μ s) : ¬ InfiniteRun next s₀ :=
  @not_infinite_of_measure _ _ next s₀ Unit (fun _ => I) () h0 (fun _ => μ)
    fun a _ s t hs hst => ⟨(), hstep a s t hs hst⟩

/-- **A system that never comes to rest runs forever.** -/
theorem infinite_of_never_stuck {next : α → σ → Option σ} {s₀ : σ} (h : ∀ s, Reachable next s₀ s → ¬ Stuck next s) :
    InfiniteRun next s₀ := by
  have hnext : ∀ s : { s // Reachable next s₀ s }, ∃ t : { s // Reachable next s₀ s }, Steps next s.1 t.1 := by
    rintro ⟨s, hs⟩
    have hns := h s hs
    simp only [Stuck, not_forall] at hns
    obtain ⟨a, ha⟩ := hns
    obtain ⟨t, ht⟩ := Option.ne_none_iff_exists'.1 ha
    exact ⟨⟨t, hs.step ht⟩, a, ht⟩
  choose g hg using hnext
  refine ⟨fun i => (g^[i] ⟨s₀, Reachable.refl next s₀⟩).1, rfl, fun i => ?_⟩
  simp only [Function.iterate_succ_apply']
  exact hg _

/-- A run from a reachable state is the end of one from the start. -/
theorem InfiniteRun.of_reachable {next : α → σ → Option σ} {s₀ s : σ} (hr : Reachable next s₀ s)
    (h : InfiniteRun next s) : InfiniteRun next s₀ := by
  induction hr with
  | refl => exact h
  | @tail u v _ hst ih =>
    obtain ⟨f, hf0, hf⟩ := h
    refine ih ⟨fun i => Nat.casesOn i u f, rfl, fun i => ?_⟩
    cases i with
    | zero =>
      change Steps next u (f 0)
      rw [hf0]
      exact hst
    | succ i => exact hf i

/-- **Where no run is infinite, every reachable state leads to a stuck one.** -/
theorem exists_stuck {next : α → σ → Option σ} {s₀ s : σ} (hn : ¬ InfiniteRun next s₀) (hr : Reachable next s₀ s) :
    ∃ t, Reachable next s t ∧ Stuck next t := by
  by_contra hs
  push Not at hs
  exact hn ((infinite_of_never_stuck hs).of_reachable hr)

section Alone

variable {f : σ → σ} {s t u : σ}

/-- The run from `s` comes through `t`. -/
def Leads (f : σ → σ) (s t : σ) : Prop := ∃ k, f^[k] s = t

theorem Leads.refl (s : σ) : Leads f s s := ⟨0, rfl⟩

theorem Leads.step (s : σ) : Leads f s (f s) := ⟨1, rfl⟩

theorem Leads.trans (hst : Leads f s t) (htu : Leads f t u) : Leads f s u := by
  obtain ⟨k, rfl⟩ := hst
  obtain ⟨l, rfl⟩ := htu
  exact ⟨l + k, Function.iterate_add_apply f l k s⟩

/-- What no step lowers, no run lowers. -/
theorem Leads.le {m : σ → ℕ} (hm : ∀ s, m s ≤ m (f s)) (h : Leads f s t) : m s ≤ m t := by
  obtain ⟨k, rfl⟩ := h
  induction k with
  | zero => exact Nat.le_refl _
  | succ k ih =>
    rw [Function.iterate_succ_apply']
    exact Nat.le_trans ih (hm _)

/-- **Whatever a run comes through leads to where it rests.** -/
theorem Leads.rest (h : Leads f s t) (ht : f t = t) (k : ℕ) : Leads f (f^[k] s) t := by
  obtain ⟨l, rfl⟩ := h
  refine ⟨l, ?_⟩
  rw [← Function.iterate_add_apply, Nat.add_comm, Function.iterate_add_apply]
  exact Function.iterate_fixed ht k

theorem Leads.eq_of_fixed (h : Leads f s t) (hs : f s = s) : t = s := by
  obtain ⟨k, rfl⟩ := h
  exact Function.iterate_fixed hs k

/-- A run that rests in one state never comes to rest in another. -/
theorem Leads.not_fixed (h : Leads f s t) (ht : f t = t) (k : ℕ) (hne : f^[k] s ≠ t) :
    f (f^[k] s) ≠ f^[k] s := fun hfixed => hne ((h.rest ht k).eq_of_fixed hfixed).symm

end Alone

end OsLab
