import OsLab.BarrierStep
import OsLab.Tally
import Mathlib.Tactic.Common
/-!
# BarrierInv — the counting invariant of the two turnstiles

A barrier of `n` threads goes through four phases.  While it fills, `sem2` is open and threads of the round before may
still be leaving through it; the last arrival shuts `sem2` and opens `sem1`; while it drains, `sem1` is open; the last
departure shuts `sem1` and opens `sem2` again, which starts the next round.  `Inv` counts the threads at the places that
matter, so that the two semaphores taken while `mutex` is held are seen to be positive: when `count` is `n` nobody can be
inside the second turnstile, and when it is zero nobody inside the first.
-/
namespace OsLab
namespace Foothread

/-- Which turnstile is open: the second, none after the last arrival, the first, none after the last departure. -/
inductive Phase where
  | fill
  | shut
  | drain
  | reset
  deriving DecidableEq, Repr

/-- Holds `mutex`. -/
def Pc.holding : Pc → ℕ
  | .loadArrive | .storeArrive _ | .testArrive | .closeSem2 | .openSem1 | .unlockArrive => 1
  | .loadDepart | .storeDepart _ | .testDepart | .closeSem1 | .openSem2 | .unlockDepart => 1
  | _ => 0

/-- Is counted in `count`. -/
def Pc.inside : Pc → ℕ
  | .testArrive | .closeSem2 | .openSem1 | .unlockArrive | .waitSem1 | .passSem1 => 1
  | .lockDepart | .loadDepart | .storeDepart _ => 1
  | _ => 0

/-- Has taken `sem1` in the first turnstile and not given it back. -/
def Pc.turn1 : Pc → ℕ
  | .passSem1 => 1
  | _ => 0

/-- Has taken `sem2` in the second turnstile and not given it back. -/
def Pc.turn2 : Pc → ℕ
  | .passSem2 => 1
  | _ => 0

/-- Where a thread can be in a phase. -/
def Pc.allowed : Phase → Pc → Prop
  | .fill, .openSem1 | .fill, .passSem1 | .fill, .lockDepart | .fill, .loadDepart | .fill, .storeDepart _ => False
  | .fill, .testDepart | .fill, .closeSem1 | .fill, .openSem2 | .fill, .exited => False
  | .fill, _ => True
  | .shut, .openSem1 | .shut, .waitSem1 => True
  | .shut, _ => False
  | .drain, .unlockArrive | .drain, .waitSem1 | .drain, .passSem1 | .drain, .lockDepart | .drain, .loadDepart => True
  | .drain, .storeDepart _ | .drain, .testDepart | .drain, .closeSem1 | .drain, .unlockDepart => True
  | .drain, .waitSem2 => True
  | .drain, _ => False
  | .reset, .openSem2 | .reset, .waitSem2 => True
  | .reset, _ => False

/-- By how many calls a thread is behind the barrier's round: a thread still leaving when the next round fills is one
behind. -/
def Pc.late : Phase → Pc → ℕ
  | _, .passSem2 => 1
  | .fill, .unlockDepart | .fill, .waitSem2 => 1
  | _, _ => 0

/-- Whether coming here is returning from the call. -/
def Pc.done : Pc → ℕ
  | .out => 1
  | _ => 0

/-- **The invariant of a barrier in phase `ph` of round `gen`.** -/
structure Inv {n : ℕ} (s : State n) (ph : Phase) (gen : ℕ) : Prop where
  live : s.bar.isLive = true
  size : s.bar.n = n
  mutex : s.bar.mutex + tally (fun th => th.pc.holding) s.thread = 1
  count : s.bar.count = tally (fun th => th.pc.inside) s.thread
  sem1 : s.bar.sem1 + tally (fun th => th.pc.turn1) s.thread = if ph = .drain then 1 else 0
  sem2 : s.bar.sem2 + tally (fun th => th.pc.turn2) s.thread = if ph = .fill then 1 else 0
  place : ∀ t, (s.thread t).pc.allowed ph
  loadedUp : ∀ t v, (s.thread t).pc = .storeArrive v → v = s.bar.count + 1
  loadedDown : ∀ t v, (s.thread t).pc = .storeDepart v → v = s.bar.count - 1
  lastIn : ph = .fill → s.bar.count = n → ∃ t, (s.thread t).pc = .testArrive ∨ (s.thread t).pc = .closeSem2
  fullAt : ∀ t, (s.thread t).pc = .closeSem2 → s.bar.count = n
  lastOut : ph = .drain → s.bar.count = 0 → ∃ t, (s.thread t).pc = .testDepart ∨ (s.thread t).pc = .closeSem1
  emptyAt : ∀ t, (s.thread t).pc = .closeSem1 → s.bar.count = 0
  opener : ph = .shut → ∃ t, (s.thread t).pc = .openSem1
  closer : ph = .reset → ∃ t, (s.thread t).pc = .openSem2
  round : ∀ t, (s.thread t).returned + (s.thread t).pc.late ph = gen

theorem inv_start (n : ℕ) (hn : 1 ≤ n) : Inv (start n) .fill 0 where
  live := rfl
  size := rfl
  mutex := by simp [start, tally_const, Pc.holding, foothreadBarrierInit]
  count := by simp [start, tally_const, Pc.inside, foothreadBarrierInit]
  sem1 := by simp [start, tally_const, Pc.turn1, foothreadBarrierInit]
  sem2 := by simp [start, tally_const, Pc.turn2, foothreadBarrierInit]
  place := fun _ => trivial
  loadedUp := fun _ _ h => by cases h
  loadedDown := fun _ _ h => by cases h
  lastIn := fun _ h => by simp only [start, foothreadBarrierInit] at h; omega
  fullAt := fun _ h => by cases h
  lastOut := fun h => by cases h
  emptyAt := fun _ h => by cases h
  opener := fun h => by cases h
  closer := fun h => by cases h
  round := fun _ => rfl

section Moves

variable {n : ℕ} {s : State n} {ph : Phase} {gen : ℕ} {t : Fin n} {b : Barrier} {pc' : Pc}

@[simp] theorem moved_bar : (s.moved t b pc').bar = b := rfl

@[simp] theorem moved_self : (s.moved t b pc').thread t = (s.thread t).move pc' := Function.update_self ..

theorem moved_of_ne {u : Fin n} (h : u ≠ t) : (s.moved t b pc').thread u = s.thread u := Function.update_of_ne h ..

@[simp] theorem move_pc (th : Thread) : (th.move pc').pc = pc' := rfl

theorem move_returned (th : Thread) : (th.move pc').returned = th.returned + pc'.done := by
  cases pc' <;> rfl

/-- While one thread holds `mutex`, no other does. -/
theorem Inv.alone (h : Inv s ph gen) (ht : (s.thread t).pc.holding = 1) {u : Fin n} (hu : u ≠ t) :
    (s.thread u).pc.holding = 0 := by
  have := h.mutex
  exact tally_unique (w := fun th : Thread => th.pc.holding) (i := t) (by omega) (by omega) hu

theorem tally_moved (w : Pc → ℕ) (s : State n) (t : Fin n) (b : Barrier) (pc' : Pc) :
    tally (fun th : Thread => w th.pc) (s.moved t b pc').thread + w (s.thread t).pc =
      tally (fun th : Thread => w th.pc) s.thread + w pc' :=
  tally_update (fun th : Thread => w th.pc) s.thread t _

/-- **A move within a phase**: what the statement of one thread must do for the invariant to stand. -/
theorem Inv.move {pc : Pc} (h : Inv s ph gen) (hpc : (s.thread t).pc = pc) (hlive : b.isLive = s.bar.isLive)
    (hsize : b.n = s.bar.n) (hmutex : b.mutex + pc'.holding = s.bar.mutex + pc.holding)
    (hcount : b.count + pc.inside = s.bar.count + pc'.inside) (hsem1 : b.sem1 + pc'.turn1 = s.bar.sem1 + pc.turn1)
    (hsem2 : b.sem2 + pc'.turn2 = s.bar.sem2 + pc.turn2) (hplace : pc'.allowed ph)
    (hround : pc'.done + pc'.late ph = pc.late ph) (hown : b.count = s.bar.count ∨ pc.holding = 1)
    (hup : ∀ v, pc' = .storeArrive v → v = b.count + 1) (hdown : ∀ v, pc' = .storeDepart v → v = b.count - 1)
    (hin : pc ≠ .testArrive ∧ pc ≠ .closeSem2 ∧ b.count = s.bar.count ∨ b.count ≠ n ∨ pc' = .testArrive ∨
      pc' = .closeSem2)
    (hfull : pc' = .closeSem2 → b.count = n)
    (hout : pc ≠ .testDepart ∧ pc ≠ .closeSem1 ∧ b.count = s.bar.count ∨ b.count ≠ 0 ∨ pc' = .testDepart ∨
      pc' = .closeSem1)
    (hempty : pc' = .closeSem1 → b.count = 0) (hopen : pc ≠ .openSem1) (hclose : pc ≠ .openSem2) :
    Inv (s.moved t b pc') ph gen where
  live := hlive.trans h.live
  size := hsize.trans h.size
  mutex := by
    have := tally_moved Pc.holding s t b pc'
    rw [hpc] at this
    have := h.mutex
    simp only [moved_bar]
    omega
  count := by
    have := tally_moved Pc.inside s t b pc'
    rw [hpc] at this
    have := h.count
    simp only [moved_bar]
    omega
  sem1 := by
    have := tally_moved Pc.turn1 s t b pc'
    rw [hpc] at this
    have := h.sem1
    simp only [moved_bar]
    omega
  sem2 := by
    have := tally_moved Pc.turn2 s t b pc'
    rw [hpc] at this
    have := h.sem2
    simp only [moved_bar]
    omega
  place := fun u => by
    by_cases hu : u = t
    · subst hu; simpa using hplace
    · rw [moved_of_ne hu]; exact h.place u
  loadedUp := fun u v hv => by
    by_cases hu : u = t
    · subst hu; exact hup v (by simpa using hv)
    · rw [moved_of_ne hu] at hv
      rcases hown with hc | hm
      · rw [moved_bar, hc]; exact h.loadedUp u v hv
      · have := h.alone (hpc ▸ hm) hu
        rw [hv] at this; cases this
  loadedDown := fun u v hv => by
    by_cases hu : u = t
    · subst hu; exact hdown v (by simpa using hv)
    · rw [moved_of_ne hu] at hv
      rcases hown with hc | hm
      · rw [moved_bar, hc]; exact h.loadedDown u v hv
      · have := h.alone (hpc ▸ hm) hu
        rw [hv] at this; cases this
  lastIn := fun hph hc => by
    rcases hin with ⟨h1, h2, hsame⟩ | hne | hpc'
    · obtain ⟨u, hu⟩ := h.lastIn hph (hsame ▸ hc)
      have hne : u ≠ t := fun e => by subst e; rw [hpc] at hu; exact hu.elim h1 h2
      exact ⟨u, by rw [moved_of_ne hne]; exact hu⟩
    · exact absurd hc hne
    · exact ⟨t, by simpa using hpc'⟩
  fullAt := fun u hv => by
    by_cases hu : u = t
    · subst hu; exact hfull (by simpa using hv)
    · rw [moved_of_ne hu] at hv
      rcases hown with hc | hm
      · rw [moved_bar, hc]; exact h.fullAt u hv
      · have := h.alone (hpc ▸ hm) hu
        rw [hv] at this; cases this
  lastOut := fun hph hc => by
    rcases hout with ⟨h1, h2, hsame⟩ | hne | hpc'
    · obtain ⟨u, hu⟩ := h.lastOut hph (hsame ▸ hc)
      have hne : u ≠ t := fun e => by subst e; rw [hpc] at hu; exact hu.elim h1 h2
      exact ⟨u, by rw [moved_of_ne hne]; exact hu⟩
    · exact absurd hc hne
    · exact ⟨t, by simpa using hpc'⟩
  emptyAt := fun u hv => by
    by_cases hu : u = t
    · subst hu; exact hempty (by simpa using hv)
    · rw [moved_of_ne hu] at hv
      rcases hown with hc | hm
      · rw [moved_bar, hc]; exact h.emptyAt u hv
      · have := h.alone (hpc ▸ hm) hu
        rw [hv] at this; cases this
  opener := fun hph => by
    obtain ⟨u, hu⟩ := h.opener hph
    have hne : u ≠ t := fun e => by subst e; exact hopen (hpc ▸ hu)
    exact ⟨u, by rw [moved_of_ne hne]; exact hu⟩
  closer := fun hph => by
    obtain ⟨u, hu⟩ := h.closer hph
    have hne : u ≠ t := fun e => by subst e; exact hclose (hpc ▸ hu)
    exact ⟨u, by rw [moved_of_ne hne]; exact hu⟩
  round := fun u => by
    by_cases hu : u = t
    · subst hu
      have := h.round u
      rw [hpc] at this
      rw [moved_self, move_pc, move_returned]
      omega
    · rw [moved_of_ne hu]; exact h.round u

/-- **The gate**: when every other thread waits at one turnstile, a move that keeps `mutex`, `count` and the round may
change the phase. -/
theorem Inv.gate {ph' : Phase} {gen' : ℕ} {w : Pc} (h : Inv s ph gen) (hlive : b.isLive = s.bar.isLive)
    (hsize : b.n = s.bar.n) (hmutex : b.mutex = s.bar.mutex) (hcount : b.count = s.bar.count)
    (hhold : pc'.holding = (s.thread t).pc.holding) (hinside : pc'.inside = (s.thread t).pc.inside)
    (hpc' : pc' = .openSem1 ∨ pc' = .unlockArrive ∨ pc' = .openSem2 ∨ pc' = .unlockDepart)
    (hw : w = .waitSem1 ∨ w = .waitSem2) (hothers : ∀ u, u ≠ t → (s.thread u).pc = w)
    (hsem1 : b.sem1 = if ph' = .drain then 1 else 0) (hsem2 : b.sem2 = if ph' = .fill then 1 else 0)
    (hplace : pc'.allowed ph') (hwplace : w.allowed ph') (hin : ph' = .fill → b.count ≠ n)
    (hout : ph' = .drain → b.count ≠ 0) (hopen : ph' = .shut → pc' = .openSem1)
    (hclose : ph' = .reset → pc' = .openSem2)
    (hround : (s.thread t).returned + pc'.late ph' = gen')
    (hwround : ∀ u, u ≠ t → (s.thread u).returned + w.late ph' = gen') : Inv (s.moved t b pc') ph' gen' := by
  have hat : ∀ u, ((s.moved t b pc').thread u).pc = if u = t then pc' else w := fun u => by
    by_cases hu : u = t
    · subst hu; simp
    · rw [moved_of_ne hu, if_neg hu]; exact hothers u hu
  have hnone : ∀ q, q ≠ pc' → q ≠ w → ∀ u, ((s.moved t b pc').thread u).pc ≠ q := fun q h1 h2 u => by
    rw [hat u]; split
    · exact h1.symm
    · exact h2.symm
  have hturn1 : tally (fun th : Thread => th.pc.turn1) (s.moved t b pc').thread = 0 := tally_eq_zero.2 fun u => by
    rw [hat u]; rcases hpc' with rfl | rfl | rfl | rfl <;> rcases hw with rfl | rfl <;> split <;> rfl
  have hturn2 : tally (fun th : Thread => th.pc.turn2) (s.moved t b pc').thread = 0 := tally_eq_zero.2 fun u => by
    rw [hat u]; rcases hpc' with rfl | rfl | rfl | rfl <;> rcases hw with rfl | rfl <;> split <;> rfl
  have hhold' := tally_moved Pc.holding s t b pc'
  have hinside' := tally_moved Pc.inside s t b pc'
  have hm := h.mutex
  have hc := h.count
  exact {
    live := hlive.trans h.live
    size := hsize.trans h.size
    mutex := by rw [moved_bar]; omega
    count := by rw [moved_bar]; omega
    sem1 := by rw [hturn1]; exact hsem1
    sem2 := by rw [hturn2]; exact hsem2
    place := fun u => by rw [hat u]; split <;> assumption
    loadedUp := fun u v hv => absurd hv (hnone _ (by rcases hpc' with rfl | rfl | rfl | rfl <;> simp)
      (by rcases hw with rfl | rfl <;> simp) u)
    loadedDown := fun u v hv => absurd hv (hnone _ (by rcases hpc' with rfl | rfl | rfl | rfl <;> simp)
      (by rcases hw with rfl | rfl <;> simp) u)
    lastIn := fun hph hc => absurd hc (hin hph)
    fullAt := fun u hv => absurd hv (hnone _ (by rcases hpc' with rfl | rfl | rfl | rfl <;> simp)
      (by rcases hw with rfl | rfl <;> simp) u)
    lastOut := fun hph hc => absurd hc (hout hph)
    emptyAt := fun u hv => absurd hv (hnone _ (by rcases hpc' with rfl | rfl | rfl | rfl <;> simp)
      (by rcases hw with rfl | rfl <;> simp) u)
    opener := fun hph => ⟨t, by rw [moved_self, move_pc]; exact hopen hph⟩
    closer := fun hph => ⟨t, by rw [moved_self, move_pc]; exact hclose hph⟩
    round := fun u => by
      rw [hat u]
      by_cases hu : u = t
      · subst hu
        rw [if_pos rfl, moved_self, move_returned]
        rcases hpc' with rfl | rfl | rfl | rfl <;> exact hround
      · rw [if_neg hu, moved_of_ne hu]; exact hwround u hu }

theorem Inv.count_le (h : Inv s ph gen) : s.bar.count ≤ n := by
  have := h.count
  have := tally_le (w := fun th : Thread => th.pc.inside) (g := s.thread) (c := 1) fun th => by
    cases th.pc <;> simp [Pc.inside]
  rw [Fintype.card_fin] at this
  omega

/-- When `count` is `n`, every thread is inside. -/
theorem Inv.all_inside (h : Inv s ph gen) (hc : s.bar.count = n) (u : Fin n) : (s.thread u).pc.inside = 1 := by
  have := h.count
  refine tally_full (w := fun th : Thread => th.pc.inside) (fun th => ?_) (by rw [Fintype.card_fin]; omega) u
  cases th.pc <;> simp [Pc.inside]

/-- When `count` is zero, nobody is inside. -/
theorem Inv.none_inside (h : Inv s ph gen) (hc : s.bar.count = 0) (u : Fin n) : (s.thread u).pc.inside = 0 := by
  have := h.count
  exact tally_eq_zero.1 (by omega : tally (fun th : Thread => th.pc.inside) s.thread = 0) u

/-- Some statements are reached in one phase only. -/
theorem Inv.phase (h : Inv s ph gen) {pc : Pc} {one : Phase} (ht : (s.thread t).pc = pc)
    (hpc : ∀ ph', pc.allowed ph' → ph' = one) : ph = one := by
  have hplace := h.place t
  rw [ht] at hplace
  exact hpc ph hplace

/-- Between two rounds of departures and arrivals both turnstiles are shut. -/
theorem Inv.both_shut (h : Inv s ph gen) (hd : ph ≠ .drain) (hf : ph ≠ .fill) : s.bar.sem1 = 0 ∧ s.bar.sem2 = 0 := by
  have h1 := h.sem1
  have h2 := h.sem2
  rw [if_neg hd] at h1
  rw [if_neg hf] at h2
  omega

/-- The holder of `mutex` knows where the others are, if the phase leaves one place for them. -/
theorem Inv.others (h : Inv s ph gen) (ht : (s.thread t).pc.holding = 1) (P : Pc → Prop) (hP : ∀ u, P (s.thread u).pc)
    {w : Pc} (hw : ∀ pc : Pc, P pc → pc.holding = 0 → pc.allowed ph → pc = w) : ∀ u, u ≠ t → (s.thread u).pc = w :=
  fun u hu => hw _ (hP u) (h.alone ht hu) (h.place u)

/-- **The last arrival finds `sem2` open**, and every other thread at the first turnstile. -/
theorem Inv.at_closeSem2 (h : Inv s ph gen) (ht : (s.thread t).pc = .closeSem2) :
    ph = .fill ∧ s.bar.sem2 = 1 ∧ ∀ u, u ≠ t → (s.thread u).pc = .waitSem1 := by
  obtain rfl : ph = .fill := h.phase ht (by rintro (_ | _ | _ | _) <;> simp [Pc.allowed])
  have hall := h.all_inside (h.fullAt t ht)
  have hturn : tally (fun th : Thread => th.pc.turn2) s.thread = 0 := tally_eq_zero.2 fun u => by
    have := hall u
    revert this
    cases (s.thread u).pc <;> simp [Pc.inside, Pc.turn2]
  refine ⟨rfl, ?_, h.others (by rw [ht]; rfl) (·.inside = 1) hall fun pc => ?_⟩
  · have := h.sem2
    simp [hturn] at this
    exact this
  · cases pc <;> simp [Pc.inside, Pc.holding, Pc.allowed]

/-- **The last departure finds `sem1` open**, and every other thread at the second turnstile. -/
theorem Inv.at_closeSem1 (h : Inv s ph gen) (ht : (s.thread t).pc = .closeSem1) :
    ph = .drain ∧ s.bar.sem1 = 1 ∧ ∀ u, u ≠ t → (s.thread u).pc = .waitSem2 := by
  obtain rfl : ph = .drain := h.phase ht (by rintro (_ | _ | _ | _) <;> simp [Pc.allowed])
  have hnone := h.none_inside (h.emptyAt t ht)
  have hturn : tally (fun th : Thread => th.pc.turn1) s.thread = 0 := tally_eq_zero.2 fun u => by
    have := hnone u
    revert this
    cases (s.thread u).pc <;> simp [Pc.inside, Pc.turn1]
  refine ⟨rfl, ?_, h.others (by rw [ht]; rfl) (·.inside = 0) hnone fun pc => ?_⟩
  · have := h.sem1
    simp [hturn] at this
    exact this
  · cases pc <;> simp [Pc.inside, Pc.holding, Pc.allowed]

/-- Between shutting `sem2` and opening `sem1` every other thread is at the first turnstile. -/
theorem Inv.at_openSem1 (h : Inv s ph gen) (ht : (s.thread t).pc = .openSem1) :
    ph = .shut ∧ s.bar.sem1 = 0 ∧ s.bar.sem2 = 0 ∧ ∀ u, u ≠ t → (s.thread u).pc = .waitSem1 := by
  obtain rfl : ph = .shut := h.phase ht (by rintro (_ | _ | _ | _) <;> simp [Pc.allowed])
  obtain ⟨hsem1, hsem2⟩ := h.both_shut nofun nofun
  refine ⟨rfl, hsem1, hsem2, h.others (by rw [ht]; rfl) (fun _ => True) (fun _ => True.intro) fun pc _ => ?_⟩
  cases pc <;> simp [Pc.holding, Pc.allowed]

/-- Between shutting `sem1` and opening `sem2` every other thread is at the second turnstile. -/
theorem Inv.at_openSem2 (h : Inv s ph gen) (ht : (s.thread t).pc = .openSem2) :
    ph = .reset ∧ s.bar.sem1 = 0 ∧ s.bar.sem2 = 0 ∧ ∀ u, u ≠ t → (s.thread u).pc = .waitSem2 := by
  obtain rfl : ph = .reset := h.phase ht (by rintro (_ | _ | _ | _) <;> simp [Pc.allowed])
  obtain ⟨hsem1, hsem2⟩ := h.both_shut nofun nofun
  refine ⟨rfl, hsem1, hsem2, h.others (by rw [ht]; rfl) (fun _ => True) (fun _ => True.intro) fun pc _ => ?_⟩
  cases pc <;> simp [Pc.holding, Pc.allowed]

end Moves

/-- **Every statement of every thread keeps the invariant**, in the same phase or the next. -/
theorem inv_next {n : ℕ} {again : Fin n → ℕ → Bool} {s s' : State n} {ph : Phase} {gen : ℕ} {t : Fin n}
    (h : Inv s ph gen) (hs : next again t s = some s') : ∃ ph' gen', Inv s' ph' gen' := by
  obtain ⟨-, b, pc', hw, rfl⟩ := next_some hs
  have hplace := h.place t
  have hround := h.round t
  have hn : (1 : Int) ≤ n := by have := t.isLt; omega
  have hsem1 := h.sem1
  have hsem2 := h.sem2
  cases hpc : (s.thread t).pc with
  | exited => rw [hpc] at hw; cases hw
  | closeSem2 =>
    obtain ⟨rfl, hsem, hothers⟩ := h.at_closeSem2 hpc
    rw [hpc] at hw hround
    simp only [foothreadBarrierWait, Option.map_eq_some_iff, semWait_some, hsem] at hw
    obtain ⟨v, hv, hb⟩ := hw
    cases hb
    refine ⟨.shut, gen, h.gate rfl rfl rfl rfl (by rw [hpc]; rfl) (by rw [hpc]; rfl) (.inl rfl) (.inl rfl) hothers
      ?_ ?_ trivial trivial (fun e => by cases e) (fun e => by cases e) (fun _ => rfl) (fun e => by cases e) ?_ ?_⟩
    · simp only [reduceCtorEq, if_false] at hsem1 ⊢; omega
    · simp only [reduceCtorEq, if_false]; omega
    · exact hround
    · intro u hu
      simpa [hothers u hu, Pc.late] using h.round u
  | openSem1 =>
    obtain ⟨rfl, hsem1, hsem2, hothers⟩ := h.at_openSem1 hpc
    have hsome : s.bar.count ≠ 0 := fun hc => by
      have := h.none_inside hc t
      rw [hpc] at this; cases this
    rw [hpc] at hw hround
    cases hw
    refine ⟨.drain, gen, h.gate rfl rfl rfl rfl (by rw [hpc]; rfl) (by rw [hpc]; rfl) (.inr (.inl rfl)) (.inl rfl)
      hothers ?_ ?_ trivial trivial (fun e => by cases e) (fun _ => hsome) (fun e => by cases e) (fun e => by cases e)
      ?_ ?_⟩
    · simp [hsem1]
    · simp [hsem2]
    · exact hround
    · intro u hu
      simpa [hothers u hu, Pc.late] using h.round u
  | closeSem1 =>
    obtain ⟨rfl, hsem, hothers⟩ := h.at_closeSem1 hpc
    rw [hpc] at hw hround
    simp only [foothreadBarrierWait, Option.map_eq_some_iff, semWait_some, hsem] at hw
    obtain ⟨v, hv, hb⟩ := hw
    cases hb
    refine ⟨.reset, gen, h.gate rfl rfl rfl rfl (by rw [hpc]; rfl) (by rw [hpc]; rfl) (.inr (.inr (.inl rfl)))
      (.inr rfl) hothers ?_ ?_ trivial trivial (fun e => by cases e) (fun e => by cases e) (fun e => by cases e)
      (fun _ => rfl) ?_ ?_⟩
    · simp only [reduceCtorEq, if_false]; omega
    · simp only [reduceCtorEq, if_false] at hsem2 ⊢; omega
    · exact hround
    · intro u hu
      simpa [hothers u hu, Pc.late] using h.round u
  | openSem2 =>
    obtain ⟨rfl, hsem1, hsem2, hothers⟩ := h.at_openSem2 hpc
    have hsome : s.bar.count ≠ n := fun hc => by
      have := h.all_inside hc t
      rw [hpc] at this; cases this
    rw [hpc] at hw hround
    cases hw
    refine ⟨.fill, gen + 1, h.gate rfl rfl rfl rfl (by rw [hpc]; rfl) (by rw [hpc]; rfl) (.inr (.inr (.inr rfl)))
      (.inr rfl) hothers ?_ ?_ trivial trivial (fun _ => hsome) (fun e => by cases e) (fun e => by cases e)
      (fun e => by cases e) ?_ ?_⟩
    · simp [hsem1]
    · simp [hsem2]
    · exact congrArg (· + 1) hround
    · intro u hu
      simpa [hothers u hu, Pc.late] using h.round u
  | check =>
    have := h.live
    rw [hpc] at hw hplace
    simp only [foothreadBarrierWait, this, if_true, Option.some.injEq, Prod.mk.injEq] at hw
    obtain ⟨rfl, rfl⟩ := hw
    refine ⟨ph, gen, h.move hpc rfl rfl rfl rfl rfl rfl ?_ ?_ (.inl rfl) ?_ ?_ ?_ ?_ ?_ ?_ ?_ ?_⟩
    · cases ph <;> trivial
    · rfl
    all_goals simp
  | lockArrive | lockDepart =>
    rw [hpc] at hw hplace
    simp only [foothreadBarrierWait, Option.map_eq_some_iff, semWait_some] at hw
    obtain ⟨v, hv, hb⟩ := hw
    cases hb
    refine ⟨ph, gen, h.move hpc rfl rfl hv.symm rfl rfl rfl ?_ ?_ (.inl rfl) ?_ ?_ ?_ ?_ ?_ ?_ ?_ ?_⟩
    · cases ph <;> trivial
    · rfl
    all_goals simp
  | waitSem1 =>
    rw [hpc] at hw
    simp only [foothreadBarrierWait, Option.map_eq_some_iff, semWait_some] at hw
    obtain ⟨v, hv, hb⟩ := hw
    cases hb
    have hph : ph = .drain := by
      by_contra hne
      rw [if_neg hne] at hsem1
      omega
    refine ⟨ph, gen, h.move hpc rfl rfl rfl rfl hv.symm rfl ?_ ?_ (.inl rfl) ?_ ?_ ?_ ?_ ?_ ?_ ?_ ?_⟩
    · rw [hph]; trivial
    · rfl
    all_goals simp
  | waitSem2 =>
    rw [hpc] at hw
    simp only [foothreadBarrierWait, Option.map_eq_some_iff, semWait_some] at hw
    obtain ⟨v, hv, hb⟩ := hw
    cases hb
    have hph : ph = .fill := by
      by_contra hne
      rw [if_neg hne] at hsem2
      omega
    refine ⟨ph, gen, h.move hpc rfl rfl rfl rfl rfl hv.symm ?_ ?_ (.inl rfl) ?_ ?_ ?_ ?_ ?_ ?_ ?_ ?_⟩
    · rw [hph]; trivial
    · rw [hph]; rfl
    all_goals simp
  | storeArrive v =>
    have hv := h.loadedUp t v hpc
    have hcount := h.count
    rw [hpc] at hw hplace
    cases hw
    refine ⟨ph, gen, h.move hpc rfl rfl rfl ?_ rfl rfl ?_ ?_ (.inr rfl) ?_ ?_ (.inr (.inr (.inl rfl))) ?_
      (.inr (.inl ?_)) ?_ ?_ ?_⟩
    · simp [Pc.inside, hv]
    · cases ph <;> trivial
    · rfl
    any_goals simp
    omega
  | storeDepart v =>
    have hv := h.loadedDown t v hpc
    have hle := h.count_le
    rw [hpc] at hw hplace
    cases hw
    refine ⟨ph, gen, h.move hpc rfl rfl rfl ?_ rfl rfl ?_ ?_ (.inr rfl) ?_ ?_ (.inr (.inl ?_)) ?_
      (.inr (.inr (.inl rfl))) ?_ ?_ ?_⟩
    · simp [Pc.inside, hv]
    · cases ph <;> trivial
    · cases ph <;> rfl
    any_goals simp
    omega
  | testArrive =>
    have hsize := h.size
    rw [hpc] at hw hplace
    by_cases hc : s.bar.count = s.bar.n <;> simp only [foothreadBarrierWait, hc, if_true, if_false] at hw <;> cases hw
    · refine ⟨ph, gen, h.move hpc rfl rfl rfl rfl rfl rfl ?_ ?_ (.inl rfl) ?_ ?_ (.inr (.inr (.inr rfl))) ?_ ?_ ?_
        ?_ ?_⟩
      · cases ph <;> trivial
      · rfl
      any_goals simp
      omega
    · refine ⟨ph, gen, h.move hpc rfl rfl rfl rfl rfl rfl ?_ ?_ (.inl rfl) ?_ ?_ (.inr (.inl ?_)) ?_ ?_ ?_ ?_ ?_⟩
      · cases ph <;> trivial
      · rfl
      any_goals simp
      omega
  | testDepart =>
    rw [hpc] at hw hplace
    by_cases hc : s.bar.count = 0 <;> simp only [foothreadBarrierWait, hc, if_true, if_false] at hw <;> cases hw
    · refine ⟨ph, gen, h.move hpc rfl rfl rfl rfl rfl rfl ?_ ?_ (.inl rfl) ?_ ?_ ?_ ?_ (.inr (.inr (.inr rfl))) ?_ ?_
        ?_⟩
      · cases ph <;> trivial
      · cases ph <;> rfl
      any_goals simp
      exact hc
    · refine ⟨ph, gen, h.move hpc rfl rfl rfl rfl rfl rfl ?_ ?_ (.inl rfl) ?_ ?_ ?_ ?_ (.inr (.inl hc)) ?_ ?_ ?_⟩
      · cases ph <;> trivial
      · cases ph <;> first | rfl | exact hplace.elim
      all_goals simp
  | out | loadArrive | unlockArrive | passSem1 | loadDepart | unlockDepart | passSem2 =>
    rw [hpc] at hw hplace
    cases hw
    refine ⟨ph, gen, h.move hpc rfl rfl rfl rfl rfl rfl ?_ ?_ (.inl rfl) ?_ ?_ ?_ ?_ ?_ ?_ ?_ ?_⟩
    · cases ph <;> trivial
    · cases ph <;> rfl
    all_goals simp

end Foothread
end OsLab
