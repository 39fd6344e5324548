import OsLab.SessionThreads
import OsLab.Semaphore
/-!
# SessionLocks — who has the two mutexes

What a lock, an unlock and a wait are as steps, what main does with an event and when it calls a visitor, and that a mutex is
held by exactly the thread that is between its lock and its unlock (`Locked`).
-/
namespace OsLab
namespace Session

def WaitPc.holds (w : WaitPc) : Bool := w = .wait

def MainPc.holds : Mutex → MainPc → Bool
  | .mutex, .lockAgain | .mutex, .lockDocLast | .mutex, .signalLast | .mutex, .unlockDocLast | .mutex, .unlockLast
  | .mutex, .unlockFree | .mutex, .unlockRefused | .mutex, .unlockAdmitted _ _ | .mutex, .unlockInit _ _
  | .mutex, .unlockIdle | .mutex, .unlockChosen _ _ | .mutex, .broadcast _ _ _ | .mutex, .unlockCurr _ _ _ _ => true
  | .mutex, .awaitInit w _ _ => w.holds
  | .docMutex, .signalLast | .docMutex, .unlockDocLast | .docMutex, .signalDoc _ _ | .docMutex, .unlockDoc _ _
  | .docMutex, .unlockDone _ _ => true
  | .docMutex, .awaitDone w _ _ => w.holds
  | _, _ => false

def DoctorPc.holds : Mutex → DoctorPc → Bool
  | .mutex, .unlockLast | .mutex, .unlockMutex => true
  | .mutex, _ => false
  | .docMutex, .await w => w.holds
  | .docMutex, .finished => false
  | .docMutex, _ => true

def VisitorPc.holds : Mutex → VisitorPc → Bool
  | .mutex, .signalInit _ | .mutex, .unlockInit _ | .mutex, .unlockTurn => true
  | .mutex, .await w _ => w.holds
  | _, _ => false

def State.inside (s : State) (m : Mutex) : Party → Bool
  | .main => s.main.holds m
  | .doctor => s.doctor.holds m
  | .visitor who => (s.visitor who).holds m

/-- Each mutex has the holder that the places of the threads say. -/
def Locked (s : State) : Prop := ∀ m, Held (s.inside m) (s.holder m)

section Steps

variable {s s' : State} {m : Mutex} {p : Party} {w : WaitPc} {k : Kind} {e : Event} {i : ℕ}

theorem lock_some : s.lock m p = some s' ↔ (s.holder m = none ∧ s.main.destroyed m = false) ∧
    s' = { s with holder := Function.update s.holder m (some p) } := by
  unfold State.lock
  split
  · rename_i h
    exact ⟨fun e => ⟨h, (Option.some.inj e).symm⟩, fun e => by rw [e.2]⟩
  · rename_i h
    exact ⟨fun e => (by cases e), fun e => absurd e.1 h⟩

theorem unlock_some :
    s.unlock m p = some s' ↔ s.holder m = some p ∧ s' = { s with holder := Function.update s.holder m none } := by
  unfold State.unlock
  split
  · rename_i h
    exact ⟨fun e => ⟨h, (Option.some.inj e).symm⟩, fun e => by rw [e.2]⟩
  · rename_i h
    exact ⟨fun e => (by cases e), fun e => absurd e.1 h⟩

/-- A lock and what follows. -/
theorem lock_map {f : State → State} (h : (s.lock m p).map f = some s') :
    s.holder m = none ∧ s' = f { s with holder := Function.update s.holder m (some p) } := by
  obtain ⟨s₁, hs₁, rfl⟩ := Option.map_eq_some_iff.1 h
  obtain ⟨⟨hfree, -⟩, rfl⟩ := lock_some.1 hs₁
  exact ⟨hfree, rfl⟩

theorem unlock_map {f : State → State} (h : (s.unlock m p).map f = some s') :
    s.holder m = some p ∧ s' = f { s with holder := Function.update s.holder m none } := by
  obtain ⟨s₁, hs₁, rfl⟩ := Option.map_eq_some_iff.1 h
  obtain ⟨hheld, rfl⟩ := unlock_some.1 hs₁
  exact ⟨hheld, rfl⟩

/-- A step of a waiting loop: it takes the mutex and looks, or goes to sleep. -/
theorem await_some {ready : Bool} {goto : WaitPc → State → State} {go : State → State}
    (h : s.await m p ready goto go w = some s') :
    w = .lock ∧ s.holder m = none ∧ ready = true ∧ s' = go { s with holder := Function.update s.holder m (some p) } ∨
    w = .lock ∧ s.holder m = none ∧ ready = false ∧
      s' = goto .wait { s with holder := Function.update s.holder m (some p) } ∨
    w = .wait ∧ s.holder m = some p ∧ s' = goto .asleep { s with holder := Function.update s.holder m none } := by
  cases w with
  | lock =>
    obtain ⟨hfree, rfl⟩ := lock_map h
    cases ready with
    | true => exact Or.inl ⟨rfl, hfree, rfl, rfl⟩
    | false => exact Or.inr (Or.inl ⟨rfl, hfree, rfl, rfl⟩)
  | wait =>
    obtain ⟨hheld, rfl⟩ := unlock_map h
    exact Or.inr (Or.inr ⟨rfl, hheld, rfl⟩)
  | asleep => cases h

/-- A step of main's end goes on to the next of what is left. -/
theorem destroy_some {left : List Resource} (h : mainStep s (.destroy left) = some s') :
    left = [] ∧ s' = s.goMain .finished ∨ ∃ r rest, left = r :: rest ∧ s' = s.goMain (.destroy rest) := by
  cases left with
  | nil => exact Or.inl ⟨rfl, (Option.some.inj h).symm⟩
  | cons r rest =>
    right
    cases r with
    | mutex m => exact ⟨_, rest, rfl, (Option.some.inj h).symm⟩
    | cond c =>
      rw [mainStep] at h
      split at h
      · cases h
      · exact ⟨_, rest, rfl, (Option.some.inj h).symm⟩

/-- What main does with an event. -/
theorem event_cases (s : State) (e : Event) :
    letterOf e.type = .done ∧ (s.vars.setTime e.time).free.sessionOver = true ∧
      s.event e = { s with vars := (s.vars.setTime e.time).free, main := .lockDocLast } ∨
    letterOf e.type = .done ∧ (s.vars.setTime e.time).free.sessionOver = false ∧
      s.event e = { s with vars := (s.vars.setTime e.time).free, main := .unlockFree } ∨
    (∃ k l, letterOf e.type = .visitor k ∧ ((s.vars.setTime e.time).arrive k e).refusal k = some l ∧
      s.event e = { s with vars := ((s.vars.setTime e.time).arrive k e).print l, main := .unlockRefused }) ∨
    (∃ k, letterOf e.type = .visitor k ∧ ((s.vars.setTime e.time).arrive k e).refusal k = none ∧
      s.event e =
        { s with
          vars := ((s.vars.setTime e.time).arrive k e).letIn k
          initDone := Function.update s.initDone k false
          main := .unlockAdmitted k ⟨e, ((s.vars.setTime e.time).arrive k e).cnt k⟩ }) ∨
    letterOf e.type = .other ∧ s.event e = { s with vars := s.vars.setTime e.time, main := .lockAgain } := by
  unfold State.event
  cases hl : letterOf e.type with
  | done =>
    cases hover : (s.vars.setTime e.time).free.sessionOver with
    | true => exact Or.inl ⟨rfl, rfl, by simp only [hover, if_true]⟩
    | false => exact Or.inr (Or.inl ⟨rfl, rfl, by simp only [hover, Bool.false_eq_true, if_false]⟩)
  | visitor k =>
    simp only
    cases href : ((s.vars.setTime e.time).arrive k e).refusal k with
    | some l => exact Or.inr (Or.inr (Or.inl ⟨k, l, rfl, href, rfl⟩))
    | none => exact Or.inr (Or.inr (Or.inr (Or.inl ⟨k, rfl, href, rfl⟩)))
  | other => exact Or.inr (Or.inr (Or.inr (Or.inr ⟨rfl, rfl⟩)))

theorem dispatch_cases (s : State) :
    (∃ k, s.vars.choose = some k ∧
      s.dispatch = { s with vars := s.vars.dispatch k, main := .unlockChosen k (s.vars.visitor k) }) ∨
    s.vars.choose = none ∧ s.dispatch = s.goMain .unlockIdle := by
  unfold State.dispatch
  cases hc : s.vars.choose with
  | some k => exact Or.inl ⟨k, rfl, rfl⟩
  | none => exact Or.inr ⟨rfl, rfl⟩

theorem visitorStep_eq (s : State) (who : Kind × ℕ) (pc : VisitorPc) : visitorStep s who pc = visit who.1 who.2 s pc := by
  obtain ⟨k, i⟩ := who
  cases k <;> rfl

/-! ### The rules of a mutex -/

/-- Only `p` has moved into a mutex or out of it. -/
def Others (s s' : State) (p : Party) : Prop := ∀ u, u ≠ p → ∀ m, s'.inside m u = s.inside m u

theorem Locked.keep (h : Locked s) (ho : Others s s' p) (hh : s'.holder = s.holder)
    (hp : ∀ m, s'.inside m p = s.inside m p) : Locked s' := fun m => by
  rw [hh]
  refine (h m).keep (fun u => ?_)
  by_cases hu : u = p
  · rw [hu]
    exact hp m
  · exact ho u hu m

theorem Locked.take (h : Locked s) (ho : Others s s' p) (hfree : s.holder m = none)
    (hh : s'.holder = Function.update s.holder m (some p))
    (hp : ∀ m', s'.inside m' p = if m' = m then true else s.inside m' p) : Locked s' := fun m' => by
  have hm' := h m'
  rw [hh, Function.update_apply]
  by_cases hm : m' = m
  · rw [hm, hfree] at hm'
    rw [if_pos hm, hm]
    exact hm'.take (by rw [hp, if_pos rfl]) (fun u hu => ho u hu m)
  · rw [if_neg hm]
    refine hm'.keep (fun u => ?_)
    by_cases hu : u = p
    · rw [hu, hp, if_neg hm]
    · exact ho u hu m'

theorem Locked.give (h : Locked s) (ho : Others s s' p) (hheld : s.holder m = some p)
    (hh : s'.holder = Function.update s.holder m none)
    (hp : ∀ m', s'.inside m' p = if m' = m then false else s.inside m' p) : Locked s' := fun m' => by
  have hm' := h m'
  rw [hh, Function.update_apply]
  by_cases hm : m' = m
  · rw [hm, hheld] at hm'
    rw [if_pos hm, hm]
    exact hm'.give (by rw [hp, if_pos rfl]) (fun u hu => ho u hu m)
  · rw [if_neg hm]
    refine hm'.keep (fun u => ?_)
    by_cases hu : u = p
    · rw [hu, hp, if_neg hm]
    · exact ho u hu m'

/-! ### Waking up moves nobody into a mutex or out of it -/

@[simp] theorem WaitPc.holds_wake (w : WaitPc) : w.wake.holds = w.holds := by cases w <;> rfl

@[simp] theorem MainPc.holds_wakeInit (m : Mutex) (k : Kind) (pc : MainPc) : (pc.wakeInit k).holds m = pc.holds m := by
  cases pc <;> try rfl
  cases m
  · unfold MainPc.wakeInit MainPc.holds
    simp only
    split
    · exact WaitPc.holds_wake _
    · rfl
  · rfl

@[simp] theorem MainPc.holds_wakeDone (m : Mutex) (pc : MainPc) : pc.wakeDone.holds m = pc.holds m := by
  cases pc <;> try rfl
  cases m
  · rfl
  · exact WaitPc.holds_wake _

@[simp] theorem DoctorPc.holds_wake (m : Mutex) (pc : DoctorPc) : pc.wake.holds m = pc.holds m := by
  cases pc <;> try rfl
  cases m
  · rfl
  · exact WaitPc.holds_wake _

@[simp] theorem VisitorPc.holds_wake (m : Mutex) (pc : VisitorPc) : pc.wake.holds m = pc.holds m := by
  cases pc <;> try rfl
  cases m
  · exact WaitPc.holds_wake _
  · rfl

/-! ### Every step -/

theorem inside_main {pc : MainPc} (h : s.main = pc) (m : Mutex) : s.inside m .main = pc.holds m := by
  rw [← h]
  rfl

theorem inside_doctor {pc : DoctorPc} (h : s.doctor = pc) (m : Mutex) : s.inside m .doctor = pc.holds m := by
  rw [← h]
  rfl

theorem inside_visitor {who : Kind × ℕ} {pc : VisitorPc} (h : s.visitor who = pc) (m : Mutex) :
    s.inside m (.visitor who) = pc.holds m := by
  rw [← h]
  rfl

theorem Others.main (hd : ∀ m, s'.doctor.holds m = s.doctor.holds m)
    (hv : ∀ who m, (s'.visitor who).holds m = (s.visitor who).holds m) : Others s s' .main := fun u hu m => by
  cases u with
  | main => exact absurd rfl hu
  | doctor => exact hd m
  | visitor who => exact hv who m

theorem Others.doctor (hm : ∀ m, s'.main.holds m = s.main.holds m) (hv : s'.visitor = s.visitor) : Others s s' .doctor :=
  fun u hu m => by
    cases u with
    | main => exact hm m
    | doctor => exact absurd rfl hu
    | visitor who => exact congrArg (VisitorPc.holds m) (congrFun hv who)

theorem Others.visitor {who : Kind × ℕ} {pc : VisitorPc} (hm : ∀ m, s'.main.holds m = s.main.holds m)
    (hd : s'.doctor = s.doctor) (hv : s'.visitor = Function.update s.visitor who pc) : Others s s' (.visitor who) :=
  fun u hu m => by
    cases u with
    | main => exact hm m
    | doctor => exact congrArg (DoctorPc.holds m) hd
    | visitor v =>
      show (s'.visitor v).holds m = (s.visitor v).holds m
      rw [hv, Function.update_of_ne (fun e => hu (by rw [e]))]

/-- **A step of main** keeps the holders. -/
theorem locked_main (h : Locked s) (hst : mainStep s s.main = some s') : Locked s' := by
  cases hpc : s.main with
  | head =>
    rw [hpc] at hst
    by_cases hE : emptyQ s.vars.E = true
    · rw [mainStep, if_pos hE] at hst
      cases hst
      exact h.keep (.main (fun _ => rfl) (fun _ _ => rfl)) rfl (fun m => by rw [inside_main hpc]; cases m <;> rfl)
    · rw [mainStep, if_neg hE] at hst
      cases hst
      exact h.keep (.main (fun _ => rfl) (fun _ _ => rfl)) rfl (fun m => by rw [inside_main hpc]; cases m <;> rfl)
  | lockEvent e =>
    rw [hpc] at hst
    obtain ⟨hfree, rfl⟩ := lock_map hst
    obtain ⟨-, -, hs'⟩ | ⟨-, -, hs'⟩ | ⟨k, l, -, -, hs'⟩ | ⟨k, -, -, hs'⟩ | ⟨-, hs'⟩ := event_cases _ e
    all_goals
      rw [hs']
      exact h.take (.main (fun _ => rfl) (fun _ _ => rfl)) hfree rfl (fun m => by rw [inside_main hpc]; cases m <;> rfl)
  | lockAgain =>
    rw [hpc] at hst
    obtain ⟨hfree, rfl⟩ := lock_map hst
    have hheld := (h .mutex .main).2 (inside_main hpc .mutex)
    rw [hfree] at hheld
    cases hheld
  | lockDocLast =>
    rw [hpc] at hst
    obtain ⟨hfree, rfl⟩ := lock_map hst
    exact h.take (.main (fun _ => rfl) (fun _ _ => rfl)) hfree rfl (fun m => by rw [inside_main hpc]; cases m <;> rfl)
  | signalLast =>
    rw [hpc] at hst
    cases hst
    exact h.keep (.main (fun m => DoctorPc.holds_wake m _) (fun _ _ => rfl)) rfl
      (fun m => by rw [inside_main hpc]; cases m <;> rfl)
  | unlockDocLast =>
    rw [hpc] at hst
    obtain ⟨hheld, rfl⟩ := unlock_map hst
    exact h.give (.main (fun _ => rfl) (fun _ _ => rfl)) hheld rfl (fun m => by rw [inside_main hpc]; cases m <;> rfl)
  | unlockLast =>
    rw [hpc] at hst
    obtain ⟨hheld, rfl⟩ := unlock_map hst
    exact h.give (.main (fun _ => rfl) (fun _ _ => rfl)) hheld rfl (fun m => by rw [inside_main hpc]; cases m <;> rfl)
  | joinDoctor =>
    rw [hpc] at hst
    obtain ⟨-, hst⟩ := Option.ite_none_right_eq_some.1 hst
    cases hst
    exact h.keep (.main (fun _ => rfl) (fun _ _ => rfl)) rfl (fun m => by rw [inside_main hpc]; cases m <;> rfl)
  | unlockFree =>
    rw [hpc] at hst
    obtain ⟨hheld, rfl⟩ := unlock_map hst
    exact h.give (.main (fun _ => rfl) (fun _ _ => rfl)) hheld rfl (fun m => by rw [inside_main hpc]; cases m <;> rfl)
  | unlockRefused =>
    rw [hpc] at hst
    obtain ⟨hheld, rfl⟩ := unlock_map hst
    exact h.give (.main (fun _ => rfl) (fun _ _ => rfl)) hheld rfl (fun m => by rw [inside_main hpc]; cases m <;> rfl)
  | unlockAdmitted k a =>
    rw [hpc] at hst
    obtain ⟨hheld, rfl⟩ := unlock_map hst
    exact h.give (.main (fun _ => rfl) (fun _ _ => rfl)) hheld rfl (fun m => by rw [inside_main hpc]; cases m <;> rfl)
  | create k a =>
    rw [hpc] at hst
    obtain ⟨habsent, hst⟩ := Option.ite_none_right_eq_some.1 hst
    cases hst
    refine h.keep (.main (fun _ => rfl) (fun who m => ?_)) rfl (fun m => by rw [inside_main hpc]; cases m <;> rfl)
    show (Function.update s.visitor (k, a.id) .start who).holds m = _
    rw [Function.update_apply]
    split
    · rename_i hw
      rw [hw, habsent]
      cases m <;> rfl
    · rfl
  | awaitInit w k a =>
    rw [hpc, mainStep] at hst
    obtain ⟨rfl, hfree, -, rfl⟩ | ⟨rfl, hfree, -, rfl⟩ | ⟨rfl, hheld, rfl⟩ := await_some hst
    · exact h.take (.main (fun _ => rfl) (fun _ _ => rfl)) hfree rfl (fun m => by rw [inside_main hpc]; cases m <;> rfl)
    · exact h.take (.main (fun _ => rfl) (fun _ _ => rfl)) hfree rfl (fun m => by rw [inside_main hpc]; cases m <;> rfl)
    · exact h.give (.main (fun _ => rfl) (fun _ _ => rfl)) hheld rfl (fun m => by rw [inside_main hpc]; cases m <;> rfl)
  | unlockInit k a =>
    rw [hpc] at hst
    obtain ⟨hheld, rfl⟩ := unlock_map hst
    exact h.give (.main (fun _ => rfl) (fun _ _ => rfl)) hheld rfl (fun m => by rw [inside_main hpc]; cases m <;> rfl)
  | lockDispatch =>
    rw [hpc] at hst
    obtain ⟨hfree, rfl⟩ := lock_map hst
    obtain ⟨k, -, hs'⟩ | ⟨-, hs'⟩ := dispatch_cases _
    all_goals
      rw [hs']
      exact h.take (.main (fun _ => rfl) (fun _ _ => rfl)) hfree rfl (fun m => by rw [inside_main hpc]; cases m <;> rfl)
  | unlockIdle =>
    rw [hpc] at hst
    obtain ⟨hheld, rfl⟩ := unlock_map hst
    exact h.give (.main (fun _ => rfl) (fun _ _ => rfl)) hheld rfl (fun m => by rw [inside_main hpc]; cases m <;> rfl)
  | unlockChosen k v =>
    rw [hpc] at hst
    obtain ⟨hheld, rfl⟩ := unlock_map hst
    exact h.give (.main (fun _ => rfl) (fun _ _ => rfl)) hheld rfl (fun m => by rw [inside_main hpc]; cases m <;> rfl)
  | lockDoc k v =>
    rw [hpc] at hst
    obtain ⟨hfree, rfl⟩ := lock_map hst
    exact h.take (.main (fun _ => rfl) (fun _ _ => rfl)) hfree rfl (fun m => by rw [inside_main hpc]; cases m <;> rfl)
  | signalDoc k v =>
    rw [hpc] at hst
    cases hst
    exact h.keep (.main (fun m => DoctorPc.holds_wake m _) (fun _ _ => rfl)) rfl
      (fun m => by rw [inside_main hpc]; cases m <;> rfl)
  | unlockDoc k v =>
    rw [hpc] at hst
    obtain ⟨hheld, rfl⟩ := unlock_map hst
    exact h.give (.main (fun _ => rfl) (fun _ _ => rfl)) hheld rfl (fun m => by rw [inside_main hpc]; cases m <;> rfl)
  | awaitDone w k v =>
    rw [hpc, mainStep] at hst
    obtain ⟨rfl, hfree, -, rfl⟩ | ⟨rfl, hfree, -, rfl⟩ | ⟨rfl, hheld, rfl⟩ := await_some hst
    · exact h.take (.main (fun _ => rfl) (fun _ _ => rfl)) hfree rfl (fun m => by rw [inside_main hpc]; cases m <;> rfl)
    · exact h.take (.main (fun _ => rfl) (fun _ _ => rfl)) hfree rfl (fun m => by rw [inside_main hpc]; cases m <;> rfl)
    · exact h.give (.main (fun _ => rfl) (fun _ _ => rfl)) hheld rfl (fun m => by rw [inside_main hpc]; cases m <;> rfl)
  | unlockDone k v =>
    rw [hpc] at hst
    obtain ⟨hheld, rfl⟩ := unlock_map hst
    exact h.give (.main (fun _ => rfl) (fun _ _ => rfl)) hheld rfl (fun m => by rw [inside_main hpc]; cases m <;> rfl)
  | lockCurr k v =>
    rw [hpc] at hst
    obtain ⟨hfree, rfl⟩ := lock_map hst
    exact h.take (.main (fun _ => rfl) (fun _ _ => rfl)) hfree rfl (fun m => by rw [inside_main hpc]; cases m <;> rfl)
  | broadcast k v id =>
    rw [hpc] at hst
    cases hst
    refine h.keep (.main (fun _ => rfl) (fun who m => ?_)) rfl (fun m => by rw [inside_main hpc]; cases m <;> rfl)
    show (if who.1 = k then (s.visitor who).wake else s.visitor who).holds m = _
    split
    · exact VisitorPc.holds_wake m _
    · rfl
  | unlockCurr k v id time =>
    rw [hpc] at hst
    obtain ⟨hheld, rfl⟩ := unlock_map hst
    exact h.give (.main (fun _ => rfl) (fun _ _ => rfl)) hheld rfl (fun m => by rw [inside_main hpc]; cases m <;> rfl)
  | join k v id time =>
    rw [hpc] at hst
    obtain ⟨who, -, hst⟩ := Option.bind_eq_some_iff.1 hst
    obtain ⟨-, hst⟩ := Option.ite_none_right_eq_some.1 hst
    cases hst
    exact h.keep (.main (fun _ => rfl) (fun _ _ => rfl)) rfl (fun m => by rw [inside_main hpc]; cases m <;> rfl)
  | destroy left =>
    rw [hpc] at hst
    obtain ⟨-, rfl⟩ | ⟨r, rest, -, rfl⟩ := destroy_some hst
    all_goals exact h.keep (.main (fun _ => rfl) (fun _ _ => rfl)) rfl (fun m => by rw [inside_main hpc]; cases m <;> rfl)
  | finished =>
    rw [hpc] at hst
    cases hst

/-- **A step of the doctor** keeps the holders. -/
theorem locked_doctor (h : Locked s) (hst : doctor s s.doctor = some s') : Locked s' := by
  cases hpc : s.doctor with
  | await w =>
    rw [hpc, doctor] at hst
    obtain ⟨rfl, hfree, -, rfl⟩ | ⟨rfl, hfree, -, rfl⟩ | ⟨rfl, hheld, rfl⟩ := await_some hst
    · exact h.take (.doctor (fun _ => rfl) rfl) hfree rfl (fun m => by rw [inside_doctor hpc]; cases m <;> rfl)
    · exact h.take (.doctor (fun _ => rfl) rfl) hfree rfl (fun m => by rw [inside_doctor hpc]; cases m <;> rfl)
    · exact h.give (.doctor (fun _ => rfl) rfl) hheld rfl (fun m => by rw [inside_doctor hpc]; cases m <;> rfl)
  | lockMutex =>
    rw [hpc] at hst
    obtain ⟨hfree, rfl⟩ := lock_map hst
    by_cases hleave : s.docState = .leaving
    · rw [if_pos hleave]
      exact h.take (.doctor (fun _ => rfl) rfl) hfree rfl (fun m => by rw [inside_doctor hpc]; cases m <;> rfl)
    · rw [if_neg hleave]
      exact h.take (.doctor (fun _ => rfl) rfl) hfree rfl (fun m => by rw [inside_doctor hpc]; cases m <;> rfl)
  | unlockLast =>
    rw [hpc] at hst
    obtain ⟨hheld, rfl⟩ := unlock_map hst
    exact h.give (.doctor (fun _ => rfl) rfl) hheld rfl (fun m => by rw [inside_doctor hpc]; cases m <;> rfl)
  | unlockDocLast =>
    rw [hpc] at hst
    obtain ⟨hheld, rfl⟩ := unlock_map hst
    exact h.give (.doctor (fun _ => rfl) rfl) hheld rfl (fun m => by rw [inside_doctor hpc]; cases m <;> rfl)
  | unlockMutex =>
    rw [hpc] at hst
    obtain ⟨hheld, rfl⟩ := unlock_map hst
    exact h.give (.doctor (fun _ => rfl) rfl) hheld rfl (fun m => by rw [inside_doctor hpc]; cases m <;> rfl)
  | signalDone =>
    rw [hpc] at hst
    cases hst
    exact h.keep (.doctor (fun m => MainPc.holds_wakeDone m _) rfl) rfl
      (fun m => by rw [inside_doctor hpc]; cases m <;> rfl)
  | unlockDoc =>
    rw [hpc] at hst
    obtain ⟨hheld, rfl⟩ := unlock_map hst
    exact h.give (.doctor (fun _ => rfl) rfl) hheld rfl (fun m => by rw [inside_doctor hpc]; cases m <;> rfl)
  | finished =>
    rw [hpc] at hst
    cases hst

section Visitor

variable {who : Kind × ℕ} {pc pc' : VisitorPc}

theorem inside_moved (hv : s'.visitor = Function.update s.visitor who pc') (m : Mutex) :
    s'.inside m (.visitor who) = pc'.holds m := by
  show (s'.visitor who).holds m = _
  rw [hv, Function.update_self]

theorem Locked.keepVisitor (h : Locked s) (hpc : s.visitor who = pc) (hm : ∀ m, s'.main.holds m = s.main.holds m)
    (hd : s'.doctor = s.doctor) (hv : s'.visitor = Function.update s.visitor who pc') (hh : s'.holder = s.holder)
    (hp : ∀ m, pc'.holds m = pc.holds m) : Locked s' :=
  h.keep (.visitor hm hd hv) hh (fun m => by rw [inside_moved hv, inside_visitor hpc]; exact hp m)

theorem Locked.takeVisitor (h : Locked s) (hpc : s.visitor who = pc) (hm : ∀ m, s'.main.holds m = s.main.holds m)
    (hd : s'.doctor = s.doctor) (hv : s'.visitor = Function.update s.visitor who pc') (hfree : s.holder m = none)
    (hh : s'.holder = Function.update s.holder m (some (.visitor who)))
    (hp : ∀ m', pc'.holds m' = if m' = m then true else pc.holds m') : Locked s' :=
  h.take (.visitor hm hd hv) hfree hh (fun m => by rw [inside_moved hv, inside_visitor hpc]; exact hp m)

theorem Locked.giveVisitor (h : Locked s) (hpc : s.visitor who = pc) (hm : ∀ m, s'.main.holds m = s.main.holds m)
    (hd : s'.doctor = s.doctor) (hv : s'.visitor = Function.update s.visitor who pc')
    (hheld : s.holder m = some (.visitor who)) (hh : s'.holder = Function.update s.holder m none)
    (hp : ∀ m', pc'.holds m' = if m' = m then false else pc.holds m') : Locked s' :=
  h.give (.visitor hm hd hv) hheld hh (fun m => by rw [inside_moved hv, inside_visitor hpc]; exact hp m)

end Visitor

/-- **A step of a visitor** keeps the holders. -/
theorem locked_visit (h : Locked s) (hst : visit k i s (s.visitor (k, i)) = some s') : Locked s' := by
  cases hpc : s.visitor (k, i) with
  | start =>
    rw [hpc] at hst
    unfold visit at hst
    simp only at hst
    split at hst
    · cases hst
      exact h.keepVisitor hpc (fun _ => rfl) rfl rfl rfl (fun m => by cases m <;> rfl)
    · cases hst
      exact h.keepVisitor hpc (fun _ => rfl) rfl rfl rfl (fun m => by cases m <;> rfl)
  | lockInit a =>
    rw [hpc] at hst
    obtain ⟨hfree, rfl⟩ := lock_map hst
    exact h.takeVisitor hpc (fun _ => rfl) rfl rfl hfree rfl (fun m => by cases m <;> rfl)
  | signalInit a =>
    rw [hpc] at hst
    cases hst
    exact h.keepVisitor hpc (fun m => MainPc.holds_wakeInit m _ _) rfl rfl rfl (fun m => by cases m <;> rfl)
  | unlockInit a =>
    rw [hpc] at hst
    obtain ⟨hheld, rfl⟩ := unlock_map hst
    exact h.giveVisitor hpc (fun _ => rfl) rfl rfl hheld rfl (fun m => by cases m <;> rfl)
  | await w a =>
    rw [hpc, visit] at hst
    obtain ⟨rfl, hfree, -, rfl⟩ | ⟨rfl, hfree, -, rfl⟩ | ⟨rfl, hheld, rfl⟩ := await_some hst
    · exact h.takeVisitor hpc (fun _ => rfl) rfl rfl hfree rfl (fun m => by cases m <;> rfl)
    · exact h.takeVisitor hpc (fun _ => rfl) rfl rfl hfree rfl (fun m => by cases m <;> rfl)
    · exact h.giveVisitor hpc (fun _ => rfl) rfl rfl hheld rfl (fun m => by cases m <;> rfl)
  | unlockTurn =>
    rw [hpc] at hst
    obtain ⟨hheld, rfl⟩ := unlock_map hst
    exact h.giveVisitor hpc (fun _ => rfl) rfl rfl hheld rfl (fun m => by cases m <;> rfl)
  | _ =>
    rw [hpc] at hst
    cases hst

/-- What a wake-up is. -/
theorem wakeUp_cases (hst : wakeUp s p = some s') :
    (p = .main ∧ ∃ k a, s.main = .awaitInit .asleep k a ∧ s' = s.goMain (.awaitInit .lock k a)) ∨
    (p = .main ∧ ∃ k v, s.main = .awaitDone .asleep k v ∧ s' = s.goMain (.awaitDone .lock k v)) ∨
    (p = .doctor ∧ s.doctor = .await .asleep ∧ s' = s.goDoctor (.await .lock)) ∨
    ∃ who a, p = .visitor who ∧ s.visitor who = .await .asleep a ∧ s' = s.goVisitor who (.await .lock a) := by
  unfold wakeUp at hst
  cases p with
  | main =>
    simp only at hst
    split at hst
    · rename_i k a hpc
      exact Or.inl ⟨rfl, k, a, hpc, (Option.some.inj hst).symm⟩
    · rename_i k v hpc
      exact Or.inr (Or.inl ⟨rfl, k, v, hpc, (Option.some.inj hst).symm⟩)
    · cases hst
  | doctor =>
    simp only at hst
    split at hst
    · rename_i hpc
      exact Or.inr (Or.inr (Or.inl ⟨rfl, hpc, (Option.some.inj hst).symm⟩))
    · cases hst
  | visitor who =>
    simp only at hst
    split at hst
    · rename_i a hpc
      exact Or.inr (Or.inr (Or.inr ⟨who, a, rfl, hpc, (Option.some.inj hst).symm⟩))
    · cases hst

theorem locked_next {a : Act} (h : Locked s) (hst : next a s = some s') : Locked s' := by
  cases a with
  | go p =>
    cases p with
    | main => exact locked_main h hst
    | doctor => exact locked_doctor h hst
    | visitor who => exact locked_visit h ((visitorStep_eq s who _).symm.trans hst)
  | wake p =>
    obtain ⟨-, k, a, hpc, rfl⟩ | ⟨-, k, v, hpc, rfl⟩ | ⟨-, hpc, rfl⟩ | ⟨who, a, -, hpc, rfl⟩ := wakeUp_cases hst
    · exact h.keep (.main (fun _ => rfl) (fun _ _ => rfl)) rfl (fun m => by rw [inside_main hpc]; cases m <;> rfl)
    · exact h.keep (.main (fun _ => rfl) (fun _ _ => rfl)) rfl (fun m => by rw [inside_main hpc]; cases m <;> rfl)
    · exact h.keep (.doctor (fun _ => rfl) rfl) rfl (fun m => by rw [inside_doctor hpc]; cases m <;> rfl)
    · exact h.keepVisitor hpc (fun _ => rfl) rfl rfl rfl (fun m => by cases m <;> rfl)

theorem locked_init (file : List Event) (Q : ℕ → Event) : Locked (State.init file Q) := fun m => by
  refine Held.start.keep (fun u => ?_)
  cases u <;> cases m <;> rfl

end Steps

end Session
end OsLab
