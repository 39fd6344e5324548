import OsLab.MutexStep
/-!
# MutexOwner — who may unlock

`unlock` asks whether the caller is the owner, but `lock` sets `is_locked` before the owner's fields, and `unlock` leaves
these as they are: while a new holder is between the two writes, the last owner still passes the test.  Without such a
step the mutex has at most one holder and only the holder unlocks it (`mutex_owned`).
-/
namespace OsLab
namespace Mutex

open Foothread (semWait_some)

/-- At most one thread holds the mutex, and only the holder stands before the two statements that release it. -/
structure Owned (s : State) : Prop where
  one : ∀ t u, (s.thread t).holds = true → (s.thread u).holds = true → t = u
  owner : ∀ t, (s.thread t).holds = false →
    (s.thread t).pc ≠ .unlock .clearLocked ∧ (s.thread t).pc ≠ .unlock .post

/-- A thread that does not hold the mutex makes the last test of `unlock` and finds its own tid. -/
def Overtaken (t : ℤ) (s : State) : Prop :=
  (s.thread t).holds = false ∧ (s.thread t).pc = .unlock .testTid ∧ s.mutex.ownerTid = t

instance (t : ℤ) (s : State) : Decidable (Overtaken t s) := by unfold Overtaken; infer_instance

/-- Inside `lock`, after `is_locked` and before `owner_tid`. -/
def Pc.window : Pc → Bool
  | .lock .setPid | .lock .setTid => true
  | _ => false

/-- The places of a holder where `is_locked` need not be set. -/
def Pc.edge : Pc → Bool
  | .lock .setLocked | .unlock .post => true
  | _ => false

/-- The places only a holder reaches. -/
def Pc.inside : Pc → Bool
  | .lock .setLocked | .lock .setPid | .lock .setTid | .unlock .clearLocked | .unlock .post => true
  | _ => false

/-- The invariant of the runs in which nobody is overtaken. -/
structure Inv (s : State) : Prop where
  one : ∀ t u, (s.thread t).holds = true → (s.thread u).holds = true → t = u
  free : s.mutex.sem = 0 ∨ s.mutex.sem = 1 ∧ ∀ t, (s.thread t).holds = false
  inside : ∀ t, (s.thread t).pc.inside = true → (s.thread t).holds = true
  locked : s.mutex.isLocked = true → ∃ t, (s.thread t).holds = true ∧ (s.thread t).pc.edge = false
  named : ∀ t, (s.thread t).holds = true → (s.thread t).pc.edge = false → (s.thread t).pc.window = false →
    s.mutex.ownerTid = t
  stale : ∀ t, (s.thread t).holds = false → (s.thread t).pc = .unlock .testPid ∨ (s.thread t).pc = .unlock .testTid →
    s.mutex.ownerTid = t → ∃ u, (s.thread u).holds = true ∧ (s.thread u).pc.window = true

/-- What a statement of thread `t` can do to the mutex and to the place of the thread. -/
inductive Effect (t : ℤ) (old : FoothreadMutex) : Pc → FoothreadMutex → Pc → Prop
  | quiet {pc pc' : Pc} (hpc : pc.inside = false) (hpc' : pc'.inside = false) (hw : pc ≠ .lock .wait)
      (hl : pc' = .unlock .testPid → old.isLocked = true) (ht : pc' = .unlock .testTid → pc = .unlock .testPid) :
      Effect t old pc old pc'
  | take {v : ℕ} (hv : old.sem = v + 1) : Effect t old (.lock .wait) { old with sem := v } (.lock .setLocked)
  | setLocked : Effect t old (.lock .setLocked) { old with isLocked := true } (.lock .setPid)
  | setPid (pid : ℤ) : Effect t old (.lock .setPid) { old with ownerPid := pid } (.lock .setTid)
  | setTid : Effect t old (.lock .setTid) { old with ownerTid := t } .out
  | pass (h : old.ownerTid = t) : Effect t old (.unlock .testTid) old (.unlock .clearLocked)
  | clear : Effect t old (.unlock .clearLocked) { old with isLocked := false } (.unlock .post)
  | post : Effect t old (.unlock .post) { old with sem := old.sem + 1 } .out

theorem Effect.plain {t : ℤ} {old : FoothreadMutex} {pc pc' : Pc} (hpc : pc.inside = false) (hpc' : pc'.inside = false)
    (hw : pc ≠ .lock .wait) (hl : pc' ≠ .unlock .testPid) (ht : pc' ≠ .unlock .testTid) : Effect t old pc old pc' :=
  Effect.quiet hpc hpc' hw (fun h => absurd h hl) (fun h => absurd h ht)

theorem effect_of_statement {pid t : ℤ} {c : Call} {old m : FoothreadMutex} {pc pc' : Pc}
    (h : statement pid t c old pc = some (m, pc')) : Effect t old pc m pc' := by
  cases pc with
  | out =>
    cases h
    cases c <;> exact Effect.plain rfl rfl (by decide) (by decide) (by decide)
  | exited => cases h
  | lock p =>
    cases p with
    | wait =>
      obtain ⟨v, hv, h⟩ := Option.map_eq_some_iff.1 h
      cases h
      exact Effect.take (semWait_some.1 hv)
    | testLive =>
      cases h
      split <;> exact Effect.plain rfl rfl (by decide) (by decide) (by decide)
    | setLocked => cases h; exact Effect.setLocked
    | setPid => cases h; exact Effect.setPid pid
    | setTid => cases h; exact Effect.setTid
  | unlock p =>
    cases p with
    | testLive =>
      cases h
      split <;> exact Effect.plain rfl rfl (by decide) (by decide) (by decide)
    | testLocked =>
      cases h
      split
      · rename_i hl
        exact Effect.quiet rfl rfl (by decide) (fun _ => hl) (by decide)
      · exact Effect.plain rfl rfl (by decide) (by decide) (by decide)
    | testPid =>
      cases h
      split <;> exact Effect.quiet rfl rfl (by decide) (fun h => by cases h) (fun _ => rfl)
    | testTid =>
      cases h
      split
      · rename_i ht
        exact Effect.pass ht
      · exact Effect.plain rfl rfl (by decide) (by decide) (by decide)
    | clearLocked => cases h; exact Effect.clear
    | post => cases h; exact Effect.post

section Steps

variable {s : State} {t u : ℤ} {m : FoothreadMutex} {pc' : Pc}

theorem moved_self (s : State) (t : ℤ) (m : FoothreadMutex) (pc' : Pc) :
    (s.moved t m pc').thread t = (s.thread t).move pc' := Function.update_self _ _ _

theorem moved_of_ne (h : u ≠ t) : (s.moved t m pc').thread u = s.thread u := Function.update_of_ne h _ _

/-- A step that neither takes the mutex nor gives it back keeps every holder. -/
theorem moved_holds (hw : (s.thread t).pc ≠ .lock .wait) (hp : (s.thread t).pc ≠ .unlock .post) (m : FoothreadMutex)
    (pc' : Pc) (u : ℤ) : ((s.moved t m pc').thread u).holds = (s.thread u).holds := by
  by_cases hu : u = t
  · rw [hu, moved_self]
    unfold Thread.move
    split <;> simp_all
  · rw [moved_of_ne hu]

theorem moved_pc (u : ℤ) : ((s.moved t m pc').thread u).pc = if u = t then pc' else (s.thread u).pc := by
  by_cases hu : u = t
  · rw [hu, moved_self, if_pos rfl]
    rfl
  · rw [moved_of_ne hu, if_neg hu]

theorem edge_inside {pc : Pc} (h : pc.inside = false) : pc.edge = false ∧ pc.window = false := by
  cases pc with
  | lock p => cases p <;> first | exact ⟨rfl, rfl⟩ | cases h
  | unlock p => cases p <;> first | exact ⟨rfl, rfl⟩ | cases h
  | out => exact ⟨rfl, rfl⟩
  | exited => exact ⟨rfl, rfl⟩

/-- A step outside the places of a holder: only the tests of `unlock` need an argument. -/
theorem Inv.quiet (h : Inv s) (hpc : (s.thread t).pc.inside = false) (hpc' : pc'.inside = false)
    (hw : (s.thread t).pc ≠ .lock .wait) (hl : pc' = .unlock .testPid → s.mutex.isLocked = true)
    (ht : pc' = .unlock .testTid → (s.thread t).pc = .unlock .testPid) : Inv (s.moved t s.mutex pc') := by
  have hholds := moved_holds hw (fun hp => by rw [hp] at hpc; cases hpc) s.mutex pc'
  have hplace := @moved_pc s t s.mutex pc'
  -- a holder is at an edge, or in the window, after the step just when it was so before
  have hedge : ∀ u, ((s.moved t s.mutex pc').thread u).pc.edge = (s.thread u).pc.edge ∧
      ((s.moved t s.mutex pc').thread u).pc.window = (s.thread u).pc.window := fun u => by
    rw [hplace u]
    split
    · rename_i hu
      rw [hu, (edge_inside hpc).1, (edge_inside hpc).2, (edge_inside hpc').1, (edge_inside hpc').2]
      exact ⟨rfl, rfl⟩
    · exact ⟨rfl, rfl⟩
  constructor
  · intro u v hu hv
    rw [hholds] at hu hv
    exact h.one u v hu hv
  · refine h.free.imp_right (fun hf => ⟨hf.1, fun u => ?_⟩)
    rw [hholds]
    exact hf.2 u
  · intro u hu
    rw [hplace] at hu
    rw [hholds]
    split at hu
    · rw [hpc'] at hu; cases hu
    · exact h.inside u hu
  · intro hlock
    obtain ⟨u, hu, he⟩ := h.locked hlock
    exact ⟨u, by rw [hholds]; exact hu, by rw [(hedge u).1]; exact he⟩
  · intro u hu he hwin
    rw [hholds] at hu
    rw [(hedge u).1] at he
    rw [(hedge u).2] at hwin
    exact h.named u hu he hwin
  · intro u hu hat hown
    rw [hholds] at hu
    rw [hplace] at hat
    have hold : ∃ v, (s.thread v).holds = true ∧ (s.thread v).pc.window = true := by
      split at hat
      · rename_i hut
        subst hut
        rcases hat with hat | hat
        · -- the flag is set, so there is a holder, and it is not the one the fields name
          obtain ⟨v, hv, he⟩ := h.locked (hl hat)
          refine ⟨v, hv, ?_⟩
          by_contra hwin
          have hnamed := h.named v hv he (by simpa using hwin)
          have huv : u = v := hown.symm.trans hnamed
          rw [huv, hv] at hu
          cases hu
        · exact h.stale u hu (Or.inl (ht hat)) hown
      · exact h.stale u hu hat hown
    obtain ⟨v, hv, hwin⟩ := hold
    exact ⟨v, by rw [hholds]; exact hv, by rw [(hedge v).2]; exact hwin⟩

/-- `sem_wait` in `lock`: nobody held the mutex. -/
theorem Inv.take (h : Inv s) (hpc : (s.thread t).pc = .lock .wait) {v : ℕ} (hv : s.mutex.sem = v + 1) :
    Inv (s.moved t { s.mutex with sem := v } (.lock .setLocked)) := by
  obtain ⟨hsem, hnone⟩ : s.mutex.sem = 1 ∧ ∀ u, (s.thread u).holds = false := h.free.resolve_left (by omega)
  have hself : ((s.thread t).move (.lock .setLocked)).holds = true := by rw [Thread.move, hpc]
  have honly : ∀ u, ((s.moved t { s.mutex with sem := v } (.lock .setLocked)).thread u).holds = true → u = t := by
    intro u hu
    by_contra hut
    rw [moved_of_ne hut, hnone u] at hu
    cases hu
  have hlock : s.mutex.isLocked = false := by
    by_contra hl
    obtain ⟨u, hu, -⟩ := h.locked (by simpa using hl)
    rw [hnone u] at hu
    cases hu
  constructor
  · intro u w hu hw
    rw [honly u hu, honly w hw]
  · exact Or.inl (by show v = 0; omega)
  · intro u hu
    by_cases hut : u = t
    · rw [hut, moved_self]
      exact hself
    · rw [moved_of_ne hut] at hu
      have := h.inside u hu
      rw [hnone u] at this
      cases this
  · intro hl
    rw [show (s.moved t { s.mutex with sem := v } (.lock .setLocked)).mutex.isLocked = s.mutex.isLocked from rfl, hlock] at hl
    cases hl
  · intro u hu he
    rw [honly u hu, moved_self] at he
    cases he
  · intro u hu hat hown
    by_cases hut : u = t
    · rw [hut, moved_self, hself] at hu
      cases hu
    · rw [moved_of_ne hut] at hu hat
      obtain ⟨w, hw, -⟩ := h.stale u hu hat hown
      rw [hnone w] at hw
      cases hw

/-- A step of the holder that keeps it: the two fields of the others' concern are `is_locked` and `owner_tid`. -/
theorem Inv.held (h : Inv s) (ht : (s.thread t).holds = true) (hw : (s.thread t).pc ≠ .lock .wait)
    (hp : (s.thread t).pc ≠ .unlock .post) (hsem : m.sem = s.mutex.sem)
    (hl : m.isLocked = true → pc'.edge = false) (hn : pc'.edge = false → pc'.window = false → m.ownerTid = t)
    (hs : ∀ u, u ≠ t → m.ownerTid = u → pc'.window = true ∨ s.mutex.ownerTid = u ∧ (s.thread t).pc.window = false) :
    Inv (s.moved t m pc') := by
  have hholds := moved_holds hw hp m pc'
  have honly : ∀ u, (s.thread u).holds = true → u = t := fun u hu => h.one u t hu ht
  constructor
  · intro u w hu hw
    rw [hholds] at hu hw
    exact h.one u w hu hw
  · refine (h.free.imp (fun hf => ?_) (fun hf => ⟨?_, fun u => ?_⟩))
    · exact hsem.trans hf
    · exact hsem.trans hf.1
    · rw [hholds]; exact hf.2 u
  · intro u hu
    rw [hholds]
    by_cases hut : u = t
    · rw [hut]; exact ht
    · rw [moved_of_ne hut] at hu
      exact h.inside u hu
  · intro hlock
    refine ⟨t, by rw [hholds]; exact ht, ?_⟩
    rw [moved_pc, if_pos rfl]
    exact hl hlock
  · intro u hu he hwin
    rw [hholds] at hu
    obtain rfl := honly u hu
    rw [moved_pc, if_pos rfl] at he hwin
    exact hn he hwin
  · intro u hu hat hown
    rw [hholds] at hu
    have hut : u ≠ t := fun hut => by rw [hut, ht] at hu; cases hu
    rw [moved_of_ne hut] at hat
    refine ⟨t, by rw [hholds]; exact ht, ?_⟩
    rw [moved_pc, if_pos rfl]
    rcases hs u hut hown with hwin | ⟨hold, hno⟩
    · exact hwin
    · obtain ⟨w, hw, hwin⟩ := h.stale u hu hat hold
      obtain rfl := honly w hw
      rw [hno] at hwin
      cases hwin

/-- `sem_post` in `unlock`: the mutex is free again. -/
theorem Inv.post (h : Inv s) (hpc : (s.thread t).pc = .unlock .post) :
    Inv (s.moved t { s.mutex with sem := s.mutex.sem + 1 } .out) := by
  have ht := h.inside t (by rw [hpc]; rfl)
  have hnone : ∀ u, ((s.moved t { s.mutex with sem := s.mutex.sem + 1 } .out).thread u).holds = false := fun u => by
    by_cases hut : u = t
    · rw [hut, moved_self, Thread.move, hpc]
    · rw [moved_of_ne hut]
      by_contra hu
      exact hut (h.one u t (by simpa using hu) ht)
  have hlock : s.mutex.isLocked = false := by
    by_contra hl
    obtain ⟨u, hu, he⟩ := h.locked (by simpa using hl)
    rw [h.one u t hu ht, hpc] at he
    cases he
  have hsem : s.mutex.sem = 0 := h.free.resolve_right (fun hf => by rw [hf.2 t] at ht; cases ht)
  constructor
  · intro u w hu
    rw [hnone u] at hu
    cases hu
  · exact Or.inr ⟨congrArg (· + 1) hsem, hnone⟩
  · intro u hu
    by_cases hut : u = t
    · rw [hut, moved_self] at hu
      cases hu
    · rw [moved_of_ne hut] at hu ⊢
      exact h.inside u hu
  · intro hl
    rw [show (s.moved t { s.mutex with sem := s.mutex.sem + 1 } .out).mutex.isLocked = s.mutex.isLocked from rfl,
      hlock] at hl
    cases hl
  · intro u hu
    rw [hnone u] at hu
    cases hu
  · intro u _ hat hown
    by_cases hut : u = t
    · rw [hut, moved_self] at hat
      rcases hat with hat | hat <;> cases hat
    · rw [moved_of_ne hut] at hat
      have hu : (s.thread u).holds = false := by
        by_contra hu
        exact hut (h.one u t (by simpa using hu) ht)
      obtain ⟨w, hw, hwin⟩ := h.stale u hu hat hown
      rw [h.one w t hw ht, hpc] at hwin
      cases hwin

end Steps

theorem start_inv (m : FoothreadMutex) : Inv (start m) where
  one _ _ h := by cases h
  free := Or.inr ⟨rfl, fun _ => rfl⟩
  inside _ h := by cases h
  locked h := by cases h
  named _ h := by cases h
  stale _ _ h := by rcases h with h | h <;> cases h

/-- **What every step keeps** that overtakes nobody. -/
theorem Inv.step {pid : ℤ → ℤ} {a : ℤ × Call} {s s' : State} (h : Inv s) (hok : ¬ Overtaken a.1 s)
    (hst : next pid a s = some s') : Inv s' := by
  obtain ⟨t, c⟩ := a
  obtain ⟨m, pc', hstat, rfl⟩ := next_some hst
  have heff := effect_of_statement hstat
  generalize hpc : (s.thread t).pc = pc at heff
  cases heff with
  | quiet hin hin' hw hl ht => exact h.quiet (hpc ▸ hin) hin' (hpc ▸ hw) hl (fun e => hpc.trans (ht e))
  | take hv => exact h.take hpc hv
  | setLocked =>
    have ht := h.inside t (by rw [hpc]; rfl)
    exact h.held ht (by rw [hpc]; decide) (by rw [hpc]; decide) rfl (fun _ => rfl) (fun _ h => by cases h)
      (fun _ _ _ => Or.inl rfl)
  | setPid pid =>
    have ht := h.inside t (by rw [hpc]; rfl)
    exact h.held ht (by rw [hpc]; decide) (by rw [hpc]; decide) rfl (fun _ => rfl) (fun _ h => by cases h)
      (fun _ _ _ => Or.inl rfl)
  | setTid =>
    have ht := h.inside t (by rw [hpc]; rfl)
    exact h.held ht (by rw [hpc]; decide) (by rw [hpc]; decide) rfl (fun _ => rfl) (fun _ _ => rfl)
      (fun u hu he => absurd he.symm hu)
  | pass hown =>
    have ht : (s.thread t).holds = true := by
      by_contra hno
      exact hok ⟨by simpa using hno, hpc, hown⟩
    exact h.held ht (by rw [hpc]; decide) (by rw [hpc]; decide) rfl (fun _ => rfl) (fun _ _ => hown)
      (fun u hu he => absurd (he.symm.trans hown) hu)
  | clear =>
    have ht := h.inside t (by rw [hpc]; rfl)
    exact h.held ht (by rw [hpc]; decide) (by rw [hpc]; decide) rfl (fun h => by cases h) (fun h => by cases h)
      (fun u _ he => Or.inr ⟨he, by rw [hpc]; rfl⟩)
  | post => exact h.post hpc

theorem Inv.owned {s : State} (h : Inv s) : Owned s where
  one := h.one
  owner t ht := by
    constructor <;> intro hpc <;> rw [h.inside t (by rw [hpc]; rfl)] at ht <;> cases ht

/-- The system in which nobody is overtaken. -/
abbrev calm (pid : ℤ → ℤ) : ℤ × Call → State → Option State := restricted (fun a s => ¬ Overtaken a.1 s) (next pid)

/-- **Exclusion and ownership**: they hold in every state of a run in which nobody is overtaken, the next step breaks them
just when it overtakes somebody, and this happens only while another thread stands between its two writes in `lock`. -/
theorem mutex_owned {pid : ℤ → ℤ} {m : FoothreadMutex} {s : State} (h : Reachable (calm pid) (start m) s) :
    Owned s ∧ (∀ a s', next pid a s = some s' → (Owned s' ↔ ¬ Overtaken a.1 s)) ∧
      ∀ t, Overtaken t s → ∃ u, u ≠ t ∧ (s.thread u).pc.window = true := by
  have hI : Inv s := reachable_inv Inv (start_inv m) (fun a u v _ hu hst => by
    obtain ⟨hok, hst⟩ := restricted_some.1 hst
    exact hu.step hok hst) h
  refine ⟨hI.owned, fun a s' hst => ⟨fun ho hover => ?_, fun hok => (hI.step hok hst).owned⟩, fun t ht => ?_⟩
  · -- the overtaken thread goes on to clear the flag
    obtain ⟨m', pc', hstat, rfl⟩ := next_some hst
    obtain ⟨hno, hpc, hown⟩ := hover
    rw [hpc] at hstat
    obtain ⟨rfl, rfl⟩ : s.mutex = m' ∧ .unlock .clearLocked = pc' := by
      simpa [statement, foothreadMutexUnlock, hown] using hstat
    have hself : ((s.moved a.1 s.mutex (.unlock .clearLocked)).thread a.1).holds = false := by
      rw [moved_holds (by rw [hpc]; decide) (by rw [hpc]; decide), hno]
    exact (ho.owner a.1 hself).1 (by rw [moved_pc, if_pos rfl])
  · obtain ⟨hno, hpc, hown⟩ := ht
    obtain ⟨u, hu, hwin⟩ := hI.stale t hno (Or.inr hpc) hown
    refine ⟨u, fun hut => ?_, hwin⟩
    rw [hut, hno] at hu
    cases hu

def fresh : State := start ⟨false, false, 0, 0, 0⟩

/-- Thread 1 locks the mutex and thread 2 is turned away when it tries to unlock it. -/
def turnedAway : State :=
  (runSchedule (calm fun _ => 1) (List.replicate 6 (1, .lock) ++ List.replicate 5 (2, .unlock)) fresh).getD fresh

theorem mutex_owned_turnedAway : (turnedAway.thread 2).pc = .exited ∧ (turnedAway.thread 1).holds = true ∧ Owned turnedAway ∧
    (∀ a s', next (fun _ => 1) a turnedAway = some s' → (Owned s' ↔ ¬ Overtaken a.1 turnedAway)) ∧
      ∀ t, Overtaken t turnedAway → ∃ u, u ≠ t ∧ (turnedAway.thread u).pc.window = true :=
  ⟨by decide, by decide, mutex_owned (reachable_getD _ _ (by decide))⟩

/-- Thread 1 locks and unlocks; thread 2 has locked as far as `is_locked`; thread 1 unlocks a second time, and thread 3
locks. -/
def secondUnlock : List (ℤ × Call) :=
  List.replicate 6 (1, .lock) ++ List.replicate 7 (1, .unlock) ++ List.replicate 4 (2, .lock) ++
    List.replicate 7 (1, .unlock) ++ List.replicate 3 (3, .lock)

/-- **The last owner can unlock for another thread**: then two threads hold the mutex. -/
theorem two_holders : ¬ ∀ (pid : ℤ → ℤ) (m : FoothreadMutex) (s : State), Reachable (next pid) (start m) s → Owned s := by
  intro h
  have hr : Reachable (next fun _ => 1) _ _ := reachable_getD secondUnlock fresh (by decide)
  have := (h _ _ _ hr).one 2 3 (by decide) (by decide)
  exact absurd this (by decide)

end Mutex
end OsLab
