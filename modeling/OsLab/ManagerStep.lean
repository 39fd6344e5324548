import OsLab.BarrierStep
/-!
# ManagerStep — creating and joining foothreads, statement by statement

`foothreadCreate` and `foothreadExit` are one statement each of the functions of that name (Assignment 7, foothread.c)
on the static manager.  A program is whatever its threads do between these calls, so `next` lets a thread outside them
call either function at any time, within what is asked of a program: main and joinable threads create, and a thread that
called `foothread_exit` only returns.  A thread is its tid, main the one whose tid is the pid, and `clone` returns a tid
that no thread has had.
-/
namespace OsLab
namespace Manager

open Foothread (semWait semWait_some)

def foothreadJoinable : ℤ := 26
def foothreadDetached : ℤ := 27
def foothreadThreadsMax : ℕ := 100

/-- One index of the arrays of `foothread_manager_t`; a `sem_t` is its value, a stack the number of its block. -/
structure Slot where
  pid : ℤ
  tid : ℤ
  joinType : ℤ
  mutex : ℕ
  stack : ℕ
  live : Bool
  deriving DecidableEq, Repr

/-- The arrays that `foothread_create` fills in, in its order. -/
inductive Field where
  | threads
  | attrs
  | mutex
  | stack
  | live
  deriving DecidableEq, Repr

/-- The first two arguments of `foothread_create`: whether there is a thread to fill in, and the join type of the
attribute if there is one. -/
structure CreateArgs where
  thread : Bool
  attr : Option ℤ
  deriving DecidableEq, Repr

def CreateArgs.joinType (a : CreateArgs) : ℤ := a.attr.getD foothreadDetached

/-- One write into the table, for the thread `tid` on the stack `b`. -/
def Field.write (f : Field) (pid tid : ℤ) (a : CreateArgs) (b : ℕ) (e : Slot) : Slot :=
  match f with
  | .threads => { e with pid := pid, tid := tid }
  | .attrs => { e with joinType := a.joinType }
  | .mutex => { e with mutex := 0 }
  | .stack => { e with stack := b }
  | .live => { e with live := true }

/-- The statement of `foothread_create` that comes next; `b` is the stack, `tid` what `clone` returned. -/
inductive CreatePc where
  | init
  | check
  | malloc
  | wait (b : ℕ)
  | full (b : ℕ)
  | refuse (b : ℕ)
  | clone (b : ℕ)
  | write (f : Field) (b : ℕ) (tid : ℤ)
  | count (b : ℕ) (tid : ℤ)
  | post
  deriving DecidableEq, Repr

/-- The statement of `foothread_exit` that comes next: `test` to `postAgain` are main's loop, `find` to `signal` that of
another thread, and `missed` is the end of that loop without the thread's own slot. -/
inductive ExitPc where
  | init
  | wait
  | read
  | post (maxt : ℕ)
  | test (i maxt : ℕ)
  | testLive (i maxt : ℕ)
  | testJoinable (i maxt : ℕ)
  | join (i maxt : ℕ)
  | lock (i maxt : ℕ)
  | free (i maxt : ℕ)
  | clear (i maxt : ℕ)
  | unlock (i maxt : ℕ)
  | waitAgain (i maxt : ℕ)
  | readAgain (i : ℕ)
  | postAgain (i maxt : ℕ)
  | find (i maxt : ℕ)
  | findLive (i maxt : ℕ)
  | findSelf (i maxt : ℕ)
  | signal (i : ℕ)
  | missed
  deriving DecidableEq, Repr

/-- The returns after the signal: from `foothread_exit`, from the start routine, from `foothread_start`. -/
inductive LeavePc where
  | exit
  | routine
  | start
  deriving DecidableEq, Repr

/-- Where a thread stands: `none` before it exists, `run` outside the two functions, `gone` when it has returned, `done`
at main's `exit(EXIT_SUCCESS)`, `failed` at an error exit. -/
inductive Pc where
  | none
  | run
  | create (a : CreateArgs) (p : CreatePc)
  | exit (p : ExitPc)
  | leave (p : LeavePc)
  | gone
  | done
  | failed
  deriving DecidableEq, Repr

/-- A thread: its place, whether it was created joinable, the slot that was free when it was cloned, its stack. -/
structure Thread where
  pc : Pc
  joinable : Bool
  slot : ℕ
  stack : ℕ
  deriving DecidableEq, Repr

structure State where
  initDone : Bool
  managerMutex : ℕ
  count : ℕ
  table : ℕ → Slot
  blocks : ℕ
  freed : ℕ → Bool
  thread : ℤ → Thread

/-- Only the place of `t` changes. -/
def State.goto (s : State) (t : ℤ) (pc : Pc) : State :=
  { s with thread := Function.update s.thread t { s.thread t with pc := pc } }

/-- `sem_wait(&manager_mutex)`. -/
def State.lockManager (s : State) (t : ℤ) (pc : Pc) : Option State :=
  (semWait s.managerMutex).map fun v => { s.goto t pc with managerMutex := v }

/-- `sem_post(&manager_mutex)`. -/
def State.unlockManager (s : State) (t : ℤ) (pc : Pc) : State :=
  { s.goto t pc with managerMutex := s.managerMutex + 1 }

def State.free (s : State) (b : ℕ) : State := { s with freed := Function.update s.freed b true }

def State.setSlot (s : State) (i : ℕ) (e : Slot) : State := { s with table := Function.update s.table i e }

def emptySlot : Slot := ⟨0, 0, 0, 0, 0, false⟩

/-- The block that the first call of `foothread_create` executes. -/
def State.initManager (s : State) : State :=
  { s with managerMutex := 1, table := fun _ => emptySlot, count := 0, initDone := true }

/-- The thread that `clone` makes: it begins with its start routine. -/
def State.spawn (s : State) (tid : ℤ) (a : CreateArgs) (b : ℕ) : State :=
  { s with thread := Function.update s.thread tid ⟨.run, a.joinType = foothreadJoinable, s.count, b⟩ }

/-- What the world outside decides about a step: which call a thread outside makes, whether `malloc` and `clone` fail and
which tid `clone` returns. -/
inductive Choice where
  | go
  | fail
  | tid (u : ℤ)
  | create (a : CreateArgs)
  | exit
  deriving DecidableEq, Repr

/-- A statement of `foothread_create(a)` by thread `t`. -/
def foothreadCreate (pid t : ℤ) (a : CreateArgs) (s : State) : CreatePc → Choice → Option State
  | .init, .go => some ((if s.initDone then s else s.initManager).goto t (.create a .check))
  | .check, .go =>
    if a.thread = false then some (s.goto t .failed)
    else if a.attr.all (fun j => j = foothreadJoinable ∨ j = foothreadDetached) then some (s.goto t (.create a .malloc))
    else some (s.goto t .failed)
  | .malloc, .go => some { s.goto t (.create a (.wait s.blocks)) with blocks := s.blocks + 1 }
  | .malloc, .fail => some (s.goto t .failed)
  | .wait b, .go => s.lockManager t (.create a (.full b))
  | .full b, .go =>
    some (s.goto t (.create a (if s.count = foothreadThreadsMax then .refuse b else .clone b)))
  | .refuse b, .go => some ((s.free b).unlockManager t .failed)
  | .clone b, .tid u =>
    if u ≠ -1 ∧ (s.thread u).pc = .none then some ((s.spawn u a b).goto t (.create a (.write .threads b u))) else none
  | .clone b, .fail => some ((s.free b).unlockManager t .failed)
  | .write f b u, .go =>
    some ((s.setSlot s.count (f.write pid u a b (s.table s.count))).goto t (.create a (match f with
      | .threads => .write .attrs b u
      | .attrs => .write .mutex b u
      | .mutex => .write .stack b u
      | .stack => .write .live b u
      | .live => .count b u)))
  | .count _ _, .go => some { s.goto t (.create a .post) with count := s.count + 1 }
  | .post, .go => some (s.unlockManager t .run)
  | _, _ => none

/-- A statement of `foothread_exit` by thread `t`. -/
def foothreadExit (pid t : ℤ) (s : State) : ExitPc → Option State
  | .init => some (s.goto t (if s.initDone then .exit .wait else .failed))
  | .wait => s.lockManager t (.exit .read)
  | .read => some (s.goto t (.exit (.post s.count)))
  | .post maxt => some (s.unlockManager t (.exit (if pid = t then .test 0 maxt else .find 0 maxt)))
  | .test i maxt => some (s.goto t (if i < maxt then .exit (.testLive i maxt) else .done))
  | .testLive i maxt =>
    some (s.goto t (.exit (if (s.table i).live = false then .test (i + 1) maxt else .testJoinable i maxt)))
  | .testJoinable i maxt =>
    some (s.goto t (.exit (if (s.table i).pid = pid ∧ (s.table i).joinType = foothreadJoinable then .join i maxt
      else .waitAgain i maxt)))
  | .join i maxt => (semWait (s.table i).mutex).map fun v =>
    (s.setSlot i { s.table i with mutex := v }).goto t (.exit (.lock i maxt))
  | .lock i maxt => s.lockManager t (.exit (.free i maxt))
  | .free i maxt => some ((s.free (s.table i).stack).goto t (.exit (.clear i maxt)))
  | .clear i maxt => some ((s.setSlot i { s.table i with live := false }).goto t (.exit (.unlock i maxt)))
  | .unlock i maxt => some (s.unlockManager t (.exit (.waitAgain i maxt)))
  | .waitAgain i _ => s.lockManager t (.exit (.readAgain i))
  | .readAgain i => some (s.goto t (.exit (.postAgain i s.count)))
  | .postAgain i maxt => some (s.unlockManager t (.exit (.test (i + 1) maxt)))
  | .find i maxt => some (s.goto t (if i < maxt then .exit (.findLive i maxt) else .exit .missed))
  | .findLive i maxt =>
    some (s.goto t (.exit (if (s.table i).live = false then .find (i + 1) maxt else .findSelf i maxt)))
  | .findSelf i maxt =>
    some (s.goto t (.exit (if (s.table i).pid = pid ∧ (s.table i).tid = t then .signal i else .find (i + 1) maxt)))
  | .signal i => some ((s.setSlot i { s.table i with mutex := (s.table i).mutex + 1 }).goto t (.leave .exit))
  | .missed => some (s.goto t (.leave .exit))

/-- Thread `a.1` executes its next statement. -/
def next (pid : ℤ) (a : ℤ × Choice) (s : State) : Option State :=
  match (s.thread a.1).pc, a.2 with
  | .run, .create args =>
    if a.1 = pid ∨ (s.thread a.1).joinable = true then some (s.goto a.1 (.create args .init)) else none
  | .run, .exit => some (s.goto a.1 (.exit .init))
  | .create args p, c => foothreadCreate pid a.1 args s p c
  | .exit p, .go => foothreadExit pid a.1 s p
  | .leave .exit, .go => some (s.goto a.1 (.leave .routine))
  | .leave .routine, .go => some (s.goto a.1 (.leave .start))
  | .leave .start, .go => some (s.goto a.1 .gone)
  | _, _ => none

/-- Only main runs, and the manager is not initialised. -/
def start (pid : ℤ) : State where
  initDone := false
  managerMutex := 0
  count := 0
  table _ := emptySlot
  blocks := 0
  freed _ := false
  thread t := ⟨if t = pid then .run else .none, false, 0, 0⟩

end Manager
end OsLab
