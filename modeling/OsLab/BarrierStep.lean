import OsLab.Reach
import Mathlib.Logic.Function.Basic
/-!
# BarrierStep — the foothread barrier, statement by statement

`foothreadBarrierWait` is one statement of `foothread_barrier_wait` (Assignment 7, foothread.c) on the shared barrier: a
`sem_wait` that finds zero cannot be taken, and `count++` and `count--` are a load and a store.  `next` is the system of
`n` threads that call it again and again, each counting the calls it entered, those in which it incremented `count`
and those it returned from.
-/
namespace OsLab
namespace Foothread

/-- `foothread_barrier_t`; a `sem_t` is its value. -/
structure Barrier where
  isLive : Bool
  n : Int
  count : Int
  mutex : ℕ
  sem1 : ℕ
  sem2 : ℕ
  deriving DecidableEq, Repr

/-- `foothread_barrier_init`. -/
def foothreadBarrierInit (n : Int) : Barrier :=
  { isLive := true, n := n, count := 0, mutex := 1, sem1 := 0, sem2 := 1 }

/-- Where a thread stands in `foothread_barrier_wait`: the statement it executes next. -/
inductive Pc where
  | out
  | check
  | lockArrive
  | loadArrive
  | storeArrive (v : Int)
  | testArrive
  | closeSem2
  | openSem1
  | unlockArrive
  | waitSem1
  | passSem1
  | lockDepart
  | loadDepart
  | storeDepart (v : Int)
  | testDepart
  | closeSem1
  | openSem2
  | unlockDepart
  | waitSem2
  | passSem2
  | exited
  deriving DecidableEq, Repr

/-- `sem_wait` on a value: blocked at zero. -/
def semWait : ℕ → Option ℕ
  | 0 => none
  | v + 1 => some v

/-- One statement of `foothread_barrier_wait`; `out` is before the call and after it. -/
def foothreadBarrierWait (b : Barrier) : Pc → Option (Barrier × Pc)
  | .out => some (b, .check)
  | .check => if b.isLive then some (b, .lockArrive) else some (b, .exited)
  | .lockArrive => (semWait b.mutex).map fun v => ({ b with mutex := v }, .loadArrive)
  | .loadArrive => some (b, .storeArrive (b.count + 1))
  | .storeArrive v => some ({ b with count := v }, .testArrive)
  | .testArrive => some (b, if b.count = b.n then .closeSem2 else .unlockArrive)
  | .closeSem2 => (semWait b.sem2).map fun v => ({ b with sem2 := v }, .openSem1)
  | .openSem1 => some ({ b with sem1 := b.sem1 + 1 }, .unlockArrive)
  | .unlockArrive => some ({ b with mutex := b.mutex + 1 }, .waitSem1)
  | .waitSem1 => (semWait b.sem1).map fun v => ({ b with sem1 := v }, .passSem1)
  | .passSem1 => some ({ b with sem1 := b.sem1 + 1 }, .lockDepart)
  | .lockDepart => (semWait b.mutex).map fun v => ({ b with mutex := v }, .loadDepart)
  | .loadDepart => some (b, .storeDepart (b.count - 1))
  | .storeDepart v => some ({ b with count := v }, .testDepart)
  | .testDepart => some (b, if b.count = 0 then .closeSem1 else .unlockDepart)
  | .closeSem1 => (semWait b.sem1).map fun v => ({ b with sem1 := v }, .openSem2)
  | .openSem2 => some ({ b with sem2 := b.sem2 + 1 }, .unlockDepart)
  | .unlockDepart => some ({ b with mutex := b.mutex + 1 }, .waitSem2)
  | .waitSem2 => (semWait b.sem2).map fun v => ({ b with sem2 := v }, .passSem2)
  | .passSem2 => some ({ b with sem2 := b.sem2 + 1 }, .out)
  | .exited => none

/-- A thread: its place and how many calls it entered, counted itself in and returned from. -/
structure Thread where
  pc : Pc
  entered : ℕ
  counted : ℕ
  returned : ℕ
  deriving DecidableEq, Repr

/-- The thread after the statement at `pc` led it to `pc'`. -/
def Thread.move (th : Thread) (pc' : Pc) : Thread :=
  { pc := pc'
    entered := if th.pc = .out then th.entered + 1 else th.entered
    counted := match th.pc with | .storeArrive _ => th.counted + 1 | _ => th.counted
    returned := if pc' = .out then th.returned + 1 else th.returned }

/-- The barrier and its `n` threads. -/
structure State (n : ℕ) where
  bar : Barrier
  thread : Fin n → Thread

/-- A barrier initialised for exactly the `n` threads, none of which has called it. -/
def start (n : ℕ) : State n :=
  { bar := foothreadBarrierInit n, thread := fun _ => { pc := .out, entered := 0, counted := 0, returned := 0 } }

/-- The state after thread `t` went to `pc'` and the barrier became `b`. -/
def State.moved {n : ℕ} (s : State n) (t : Fin n) (b : Barrier) (pc' : Pc) : State n :=
  { bar := b, thread := Function.update s.thread t ((s.thread t).move pc') }

/-- Thread `t` executes its next statement; after `r` calls it makes another one when `again t r`. -/
def next {n : ℕ} (again : Fin n → ℕ → Bool) (t : Fin n) (s : State n) : Option (State n) :=
  if (s.thread t).pc = .out ∧ again t (s.thread t).returned = false then none
  else (foothreadBarrierWait s.bar (s.thread t).pc).map fun p => s.moved t p.1 p.2

theorem semWait_some {v w : ℕ} : semWait v = some w ↔ v = w + 1 := by
  cases v <;> simp [semWait]

theorem semWait_none {v : ℕ} : semWait v = none ↔ v = 0 := by
  cases v <;> simp [semWait]

/-- **What a step is**: the thread may go on, its statement took the barrier and its place to the new ones, and no
other thread moved. -/
theorem next_some {n : ℕ} {again : Fin n → ℕ → Bool} {t : Fin n} {s s' : State n} (h : next again t s = some s') :
    ((s.thread t).pc = .out → again t (s.thread t).returned = true) ∧
      ∃ b pc', foothreadBarrierWait s.bar (s.thread t).pc = some (b, pc') ∧ s' = s.moved t b pc' := by
  unfold next at h
  split at h
  · cases h
  · rename_i hgo
    obtain ⟨⟨b, pc'⟩, hw, rfl⟩ := Option.map_eq_some_iff.1 h
    refine ⟨fun ho => ?_, b, pc', hw, rfl⟩
    simpa [ho] using hgo

end Foothread
end OsLab
