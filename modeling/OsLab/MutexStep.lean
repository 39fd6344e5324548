import OsLab.BarrierStep
/-!
# MutexStep — the foothread mutex, statement by statement

`foothreadMutexLock` and `foothreadMutexUnlock` are one statement each of the functions of that name (Assignment 7,
foothread.c).  `next` is the system of all threads, each of which calls either function whenever it is in neither; a
thread is its tid, and `pid` says in which process it runs.
-/
namespace OsLab
namespace Mutex

open Foothread (semWait semWait_some)

/-- `foothread_mutex_t`. -/
structure FoothreadMutex where
  isLive : Bool
  isLocked : Bool
  ownerPid : ℤ
  ownerTid : ℤ
  sem : ℕ
  deriving DecidableEq, Repr

/-- `foothread_mutex_init`: the owner's fields keep what was there. -/
def foothreadMutexInit (m : FoothreadMutex) : FoothreadMutex := { m with isLive := true, isLocked := false, sem := 1 }

/-- The statement of `foothread_mutex_lock` that comes next. -/
inductive LockPc where
  | testLive
  | wait
  | setLocked
  | setPid
  | setTid
  deriving DecidableEq, Repr

/-- The statement of `foothread_mutex_unlock` that comes next. -/
inductive UnlockPc where
  | testLive
  | testLocked
  | testPid
  | testTid
  | clearLocked
  | post
  deriving DecidableEq, Repr

/-- Where a thread stands; `exited` is an error exit, after which the other threads still run until the process is gone. -/
inductive Pc where
  | out
  | lock (p : LockPc)
  | unlock (p : UnlockPc)
  | exited
  deriving DecidableEq, Repr

def foothreadMutexLock (pid tid : ℤ) (m : FoothreadMutex) : LockPc → Option (FoothreadMutex × Pc)
  | .testLive => some (m, if m.isLive then .lock .wait else .exited)
  | .wait => (semWait m.sem).map fun v => ({ m with sem := v }, .lock .setLocked)
  | .setLocked => some ({ m with isLocked := true }, .lock .setPid)
  | .setPid => some ({ m with ownerPid := pid }, .lock .setTid)
  | .setTid => some ({ m with ownerTid := tid }, .out)

def foothreadMutexUnlock (pid tid : ℤ) (m : FoothreadMutex) : UnlockPc → Option (FoothreadMutex × Pc)
  | .testLive => some (m, if m.isLive then .unlock .testLocked else .exited)
  | .testLocked => some (m, if m.isLocked then .unlock .testPid else .exited)
  | .testPid => some (m, if m.ownerPid = pid then .unlock .testTid else .exited)
  | .testTid => some (m, if m.ownerTid = tid then .unlock .clearLocked else .exited)
  | .clearLocked => some ({ m with isLocked := false }, .unlock .post)
  | .post => some ({ m with sem := m.sem + 1 }, .out)

/-- The function a thread calls next. -/
inductive Call where
  | lock
  | unlock
  deriving DecidableEq, Repr

def Call.entry : Call → Pc
  | .lock => .lock .testLive
  | .unlock => .unlock .testLive

/-- The next statement of a thread; `c` matters only between two calls. -/
def statement (pid tid : ℤ) (c : Call) (m : FoothreadMutex) : Pc → Option (FoothreadMutex × Pc)
  | .out => some (m, c.entry)
  | .lock p => foothreadMutexLock pid tid m p
  | .unlock p => foothreadMutexUnlock pid tid m p
  | .exited => none

/-- A thread: its place, and whether it is between passing `sem_wait` in `lock` and `sem_post` in `unlock`. -/
structure Thread where
  pc : Pc
  holds : Bool
  deriving DecidableEq, Repr

/-- The thread after its statement led it to `pc'`. -/
def Thread.move (th : Thread) (pc' : Pc) : Thread where
  pc := pc'
  holds := match th.pc with
    | .lock .wait => true
    | .unlock .post => false
    | _ => th.holds

/-- The mutex and the threads by their tids. -/
structure State where
  mutex : FoothreadMutex
  thread : ℤ → Thread

/-- The mutex has just been initialised over what was in its place. -/
def start (m : FoothreadMutex) : State := ⟨foothreadMutexInit m, fun _ => ⟨.out, false⟩⟩

/-- The state after thread `t` went to `pc'` and the mutex became `m`. -/
def State.moved (s : State) (t : ℤ) (m : FoothreadMutex) (pc' : Pc) : State :=
  ⟨m, Function.update s.thread t ((s.thread t).move pc')⟩

/-- The thread `a.1` executes its next statement; between calls it calls `a.2`. -/
def next (pid : ℤ → ℤ) (a : ℤ × Call) (s : State) : Option State :=
  (statement (pid a.1) a.1 a.2 s.mutex (s.thread a.1).pc).map fun r =>
    s.moved a.1 r.1 r.2

/-- **What a step is**: one statement of one thread. -/
theorem next_some {pid : ℤ → ℤ} {a : ℤ × Call} {s s' : State} (h : next pid a s = some s') :
    ∃ m pc', statement (pid a.1) a.1 a.2 s.mutex (s.thread a.1).pc = some (m, pc') ∧
      s' = s.moved a.1 m pc' := by
  obtain ⟨⟨m, pc'⟩, hs, rfl⟩ := Option.map_eq_some_iff.1 h
  exact ⟨m, pc', hs, rfl⟩

end Mutex
end OsLab
