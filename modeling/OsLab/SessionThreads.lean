import OsLab.SessionTurn
import OsLab.Reach
/-!
# SessionThreads — main, the doctor and the visitors, one synchronisation point at a time

The threads of `session.c` (Assignment 6) over their two mutexes, the condition variables and the flags.  A step is a lock,
an unlock, a wait, a signal, a broadcast, a create or a join, with the code up to the next of them; a thread that waits may
also wake up by itself.  Main alone is `turn`; here the doctor and the visitors print their own lines.

At its end main destroys the mutexes and the condition variables, whether or not the doctor has left.  Nobody locks a mutex
that main has been over, and main does not get past a condition variable while a thread waits for it: either is undefined, and
glibc's `pthread_cond_destroy` does wait.
-/
namespace OsLab
namespace Session

open DecimalText (int32)

inductive Mutex where
  | mutex
  | docMutex
  deriving DecidableEq, Repr

/-- `doc_cond`, `doc_done`, `patient_cond` and the like, `patient_init` and the like. -/
inductive Cond where
  | docCond
  | docDone
  | kindCond (k : Kind)
  | kindInit (k : Kind)
  deriving DecidableEq, Repr

/-- What main destroys. -/
inductive Resource where
  | mutex (m : Mutex)
  | cond (c : Cond)
  deriving DecidableEq, Repr

/-- All of it, in main's order. -/
def resources : List Resource :=
  [.mutex .mutex, .mutex .docMutex, .cond .docCond, .cond .docDone, .cond (.kindCond .patient), .cond (.kindCond .reporter),
    .cond (.kindCond .salesrep), .cond (.kindInit .patient), .cond (.kindInit .reporter), .cond (.kindInit .salesrep)]

/-- `doc_state`: 0, 1 and -1. -/
inductive DocState where
  | notBusy
  | busy
  | leaving
  deriving DecidableEq, Repr

/-- `param` -/
structure Param where
  e : Event
  id : ℕ
  deriving DecidableEq, Repr

/-- A thread; a visitor's by its kind and number. -/
inductive Party where
  | main
  | doctor
  | visitor (who : Kind × ℕ)
  deriving DecidableEq, Repr

/-- Where a thread is in `pthread_mutex_lock(&m); while(..) pthread_cond_wait(&c, &m);`.  Who is woken up takes the mutex back
and looks again, so he is at `lock`. -/
inductive WaitPc where
  | lock
  | wait
  | asleep
  deriving DecidableEq, Repr

/-- The statement of `main` that comes next, with what it remembers: the event, the parameter of the thread it creates, the
visitor it calls, his number and the time; at the end, what is still to be destroyed. -/
inductive MainPc where
  | head
  | lockEvent (e : Event)
  | lockAgain
  | lockDocLast
  | signalLast
  | unlockDocLast
  | unlockLast
  | joinDoctor
  | unlockFree
  | unlockRefused
  | unlockAdmitted (k : Kind) (a : Param)
  | create (k : Kind) (a : Param)
  | awaitInit (w : WaitPc) (k : Kind) (a : Param)
  | unlockInit (k : Kind) (a : Param)
  | lockDispatch
  | unlockIdle
  | unlockChosen (k : Kind) (v : Event)
  | lockDoc (k : Kind) (v : Event)
  | signalDoc (k : Kind) (v : Event)
  | unlockDoc (k : Kind) (v : Event)
  | awaitDone (w : WaitPc) (k : Kind) (v : Event)
  | unlockDone (k : Kind) (v : Event)
  | lockCurr (k : Kind) (v : Event)
  | broadcast (k : Kind) (v : Event) (id : ℕ)
  | unlockCurr (k : Kind) (v : Event) (id : ℕ) (time : ℤ)
  | join (k : Kind) (v : Event) (id : ℕ) (time : ℤ)
  | destroy (left : List Resource)
  | finished
  deriving DecidableEq, Repr

inductive DoctorPc where
  | await (w : WaitPc)
  | lockMutex
  | unlockLast
  | unlockDocLast
  | unlockMutex
  | signalDone
  | unlockDoc
  | finished
  deriving DecidableEq, Repr

/-- A visitor's thread: `absent` before it is created, `lost` when its parameter was gone before it could be read. -/
inductive VisitorPc where
  | absent
  | start
  | lost
  | lockInit (a : Param)
  | signalInit (a : Param)
  | unlockInit (a : Param)
  | await (w : WaitPc) (a : Param)
  | unlockTurn
  | finished
  deriving DecidableEq, Repr

/-- Main has left its loop. -/
def MainPc.closing : MainPc → Bool
  | .destroy _ | .finished => true
  | _ => false

/-- Main has been over the mutex. -/
def MainPc.destroyed (m : Mutex) : MainPc → Bool
  | .destroy left => .mutex m ∉ left
  | .finished => true
  | _ => false

def WaitPc.wake : WaitPc → WaitPc
  | .asleep => .lock
  | w => w

/-- The signals that main may wait for. -/
def MainPc.wakeInit (k : Kind) : MainPc → MainPc
  | .awaitInit w j a => .awaitInit (if j = k then w.wake else w) j a
  | pc => pc

def MainPc.wakeDone : MainPc → MainPc
  | .awaitDone w k v => .awaitDone w.wake k v
  | pc => pc

def DoctorPc.wake : DoctorPc → DoctorPc
  | .await w => .await w.wake
  | pc => pc

def VisitorPc.wake : VisitorPc → VisitorPc
  | .await w a => .await w.wake a
  | pc => pc

structure State where
  vars : Vars
  /-- Who has a mutex. -/
  holder : Mutex → Option Party
  docState : DocState
  /-- `patient_done`, `reporter_done` and `salesrep_done` -/
  initDone : Kind → Bool
  /-- `new_patient`, `new_reporter` and `new_salesrep` on main's stack, inside of their blocks. -/
  newParam : Kind → Option Param
  tids : Kind → ℕ → Option (Kind × ℕ)
  main : MainPc
  doctor : DoctorPc
  visitor : Kind × ℕ → VisitorPc

/-- The doctor's thread has just been created. -/
def State.init (file : List Event) (Q : ℕ → Event) : State where
  vars := Vars.init file Q
  holder _ := none
  docState := .notBusy
  initDone _ := false
  newParam _ := none
  tids _ _ := none
  main := .head
  doctor := .await .lock
  visitor _ := .absent

namespace State

def lock (s : State) (m : Mutex) (p : Party) : Option State :=
  if s.holder m = none ∧ s.main.destroyed m = false then
    some { s with holder := Function.update s.holder m (some p) }
  else none

def unlock (s : State) (m : Mutex) (p : Party) : Option State :=
  if s.holder m = some p then some { s with holder := Function.update s.holder m none } else none

/-- `pthread_mutex_lock(&m); while(!ready) pthread_cond_wait(&c, &m);` and what follows. -/
def await (s : State) (m : Mutex) (p : Party) (ready : Bool) (goto : WaitPc → State → State) (go : State → State) :
    WaitPc → Option State
  | .lock => (s.lock m p).map (fun s => if ready then go s else goto .wait s)
  | .wait => (s.unlock m p).map (goto .asleep)
  | .asleep => none

def goMain (s : State) (pc : MainPc) : State := { s with main := pc }

def goDoctor (s : State) (pc : DoctorPc) : State := { s with doctor := pc }

def goVisitor (s : State) (who : Kind × ℕ) (pc : VisitorPc) : State :=
  { s with visitor := Function.update s.visitor who pc }

/-- Somebody waits at the condition variable.  Nobody but main waits at `doc_done` and for the start of a visitor. -/
def waits (s : State) : Cond → Bool
  | .docCond => s.doctor = .await .asleep
  | .kindCond k => (List.range (s.vars.cnt k + 1)).any fun i =>
    match s.visitor (k, i) with
    | .await .asleep _ => true
    | _ => false
  | .docDone | .kindInit _ => false

/-- Main from `curr_time = newevent.time` on. -/
def event (s : State) (e : Event) : State :=
  let v := s.vars.setTime e.time
  match letterOf e.type with
  | .done => { s with vars := v.free, main := if v.free.sessionOver then .lockDocLast else .unlockFree }
  | .visitor k =>
    match (v.arrive k e).refusal k with
    | some l => { s with vars := (v.arrive k e).print l, main := .unlockRefused }
    | none =>
      { s with
        vars := (v.arrive k e).letIn k
        initDone := Function.update s.initDone k false
        main := .unlockAdmitted k ⟨e, (v.arrive k e).cnt k⟩ }
  | .other => { s with vars := v, main := .lockAgain }

/-- Main from the test of `doc_free` and `doc_session_end` on. -/
def dispatch (s : State) : State :=
  match s.vars.choose with
  | some k => { s with vars := s.vars.dispatch k, main := .unlockChosen k (s.vars.visitor k) }
  | none => s.goMain .unlockIdle

end State

/-- A step of `main`. -/
def mainStep (s : State) : MainPc → Option State
  | .head =>
    some (if emptyQ s.vars.E then s.goMain (.destroy resources)
      else { s with vars := s.vars.pop, main := .lockEvent (nextevent s.vars.E) })
  | .lockEvent e => (s.lock .mutex .main).map (·.event e)
  | .lockAgain => (s.lock .mutex .main).map (·.dispatch)
  | .lockDocLast => (s.lock .docMutex .main).map (fun s => { s with docState := .leaving, main := .signalLast })
  | .signalLast => some { s with doctor := s.doctor.wake, main := .unlockDocLast }
  | .unlockDocLast =>
    (s.unlock .docMutex .main).map (fun s => { s with vars := s.vars.endSession, main := .unlockLast })
  | .unlockLast => (s.unlock .mutex .main).map (·.goMain .joinDoctor)
  | .joinDoctor => if s.doctor = .finished then some (s.goMain .head) else none
  | .unlockFree => (s.unlock .mutex .main).map (·.goMain .lockDispatch)
  | .unlockRefused => (s.unlock .mutex .main).map (·.goMain .head)
  | .unlockAdmitted k a =>
    (s.unlock .mutex .main).map
      (fun s => { s with newParam := Function.update s.newParam k (some a), main := .create k a })
  | .create k a =>
    if s.visitor (k, a.id) = .absent then some ((s.goVisitor (k, a.id) .start).goMain (.awaitInit .lock k a)) else none
  | .awaitInit w k a =>
    s.await .mutex .main (s.initDone k) (fun w s => s.goMain (.awaitInit w k a))
      (fun s => { s with initDone := Function.update s.initDone k false, main := .unlockInit k a }) w
  | .unlockInit k a =>
    (s.unlock .mutex .main).map (fun s =>
      { s with
        vars := s.vars.enqueue k a.id a.e
        tids := Function.update s.tids k (Function.update (s.tids k) (a.id - 1) (some (k, a.id)))
        newParam := Function.update s.newParam k none
        main := .lockDispatch })
  | .lockDispatch => (s.lock .mutex .main).map (·.dispatch)
  | .unlockIdle => (s.unlock .mutex .main).map (·.goMain .head)
  | .unlockChosen k v => (s.unlock .mutex .main).map (·.goMain (.lockDoc k v))
  | .lockDoc k v => (s.lock .docMutex .main).map (fun s => { s with docState := .busy, main := .signalDoc k v })
  | .signalDoc k v => some { s with doctor := s.doctor.wake, main := .unlockDoc k v }
  | .unlockDoc k v => (s.unlock .docMutex .main).map (·.goMain (.awaitDone .lock k v))
  | .awaitDone w k v =>
    s.await .docMutex .main (s.docState ≠ .busy) (fun w s => s.goMain (.awaitDone w k v)) (·.goMain (.unlockDone k v)) w
  | .unlockDone k v => (s.unlock .docMutex .main).map (·.goMain (.lockCurr k v))
  | .lockCurr k v =>
    (s.lock .mutex .main).map
      (fun s => { s with vars := s.vars.advance k, main := .broadcast k v ((s.vars.advance k).curr k) })
  | .broadcast k v id =>
    some { s with
      visitor := fun who => if who.1 = k then (s.visitor who).wake else s.visitor who
      main := .unlockCurr k v id s.vars.currTime }
  | .unlockCurr k v id time => (s.unlock .mutex .main).map (·.goMain (.join k v id time))
  | .join k v id time =>
    (s.tids k (id - 1)).bind (fun who =>
      if s.visitor who = .finished then some { s with vars := s.vars.addDone (int32 (time + v.duration)), main := .head }
      else none)
  | .destroy [] => some (s.goMain .finished)
  | .destroy (.mutex _ :: left) => some (s.goMain (.destroy left))
  | .destroy (.cond c :: left) => if s.waits c then none else some (s.goMain (.destroy left))
  | .finished => none

/-- A step of `doctor`. -/
def doctor (s : State) : DoctorPc → Option State
  | .await w =>
    s.await .docMutex .doctor (s.docState ≠ .notBusy) (fun w s => s.goDoctor (.await w)) (·.goDoctor .lockMutex) w
  | .lockMutex =>
    (s.lock .mutex .doctor).map (fun s =>
      if s.docState = .leaving then { s with vars := s.vars.leave, doctor := .unlockLast }
      else { s with vars := s.vars.callIn, doctor := .unlockMutex })
  | .unlockLast => (s.unlock .mutex .doctor).map (·.goDoctor .unlockDocLast)
  | .unlockDocLast => (s.unlock .docMutex .doctor).map (·.goDoctor .finished)
  | .unlockMutex =>
    (s.unlock .mutex .doctor).map (fun s => { s with docState := .notBusy, doctor := .signalDone })
  | .signalDone => some { s with main := s.main.wakeDone, doctor := .unlockDoc }
  | .unlockDoc => (s.unlock .docMutex .doctor).map (·.goDoctor (.await .lock))
  | .finished => none

/-- A step of the thread of visitor number `i` of a kind; the three functions differ in nothing else. -/
def visit (k : Kind) (i : ℕ) (s : State) : VisitorPc → Option State
  | .absent => none
  | .start =>
    match s.newParam k with
    | some a => some (s.goVisitor (k, i) (.lockInit a))
    | none => some (s.goVisitor (k, i) .lost)
  | .lost => none
  | .lockInit a =>
    (s.lock .mutex (.visitor (k, i))).map
      (fun s => { s.goVisitor (k, i) (.signalInit a) with initDone := Function.update s.initDone k true })
  | .signalInit a => some { s.goVisitor (k, i) (.unlockInit a) with main := s.main.wakeInit k }
  | .unlockInit a => (s.unlock .mutex (.visitor (k, i))).map (·.goVisitor (k, i) (.await .lock a))
  | .await w a =>
    s.await .mutex (.visitor (k, i)) (s.vars.curr k = a.id) (fun w s => s.goVisitor (k, i) (.await w a))
      (fun s => { s.goVisitor (k, i) .unlockTurn with vars := s.vars.enter k a.id a.e }) w
  | .unlockTurn => (s.unlock .mutex (.visitor (k, i))).map (·.goVisitor (k, i) .finished)
  | .finished => none

def patient (i : ℕ) (s : State) : VisitorPc → Option State := visit .patient i s

def reporter (i : ℕ) (s : State) : VisitorPc → Option State := visit .reporter i s

def salesrep (i : ℕ) (s : State) : VisitorPc → Option State := visit .salesrep i s

def visitorStep (s : State) : Kind × ℕ → VisitorPc → Option State
  | (.patient, i) => patient i s
  | (.reporter, i) => reporter i s
  | (.salesrep, i) => salesrep i s

/-- What happens next: a thread takes a step, or wakes up by itself. -/
inductive Act where
  | go (p : Party)
  | wake (p : Party)
  deriving DecidableEq, Repr

/-- A wake-up that nobody signalled. -/
def wakeUp (s : State) : Party → Option State
  | .main =>
    match s.main with
    | .awaitInit .asleep k a => some (s.goMain (.awaitInit .lock k a))
    | .awaitDone .asleep k v => some (s.goMain (.awaitDone .lock k v))
    | _ => none
  | .doctor => if s.doctor = .await .asleep then some (s.goDoctor (.await .lock)) else none
  | .visitor who =>
    match s.visitor who with
    | .await .asleep a => some (s.goVisitor who (.await .lock a))
    | _ => none

def next : Act → State → Option State
  | .go .main, s => mainStep s s.main
  | .go .doctor, s => doctor s s.doctor
  | .go (.visitor who), s => visitorStep s who (s.visitor who)
  | .wake p, s => wakeUp s p

end Session
end OsLab
