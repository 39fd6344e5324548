import OsLab.Mailbox
import OsLab.PagingMmu
import OsLab.PagingRefstr
import OsLab.Reach
/-!
# PagingSys — the scheduler, the MMU and the processes over three queues

The parties of Assignment 8 after master has started them.  Queue 1 carries ready entries (type 1) and wake-up messages
(type pid), queue 2 what the MMU tells the scheduler, queue 3 requests (type 1) and replies (type pid).  A step of a
party is one send or receive with the local code up to the next; a receive with no message of its type blocks.  master
has taken the MMU's first message (type 100) before it creates a process, so it is not part of the state.
-/
namespace OsLab
namespace Paging

variable {k : ℕ}

/-- A simulation: what master fixes, and each process's list of pages, of type `int`.  Pids are process ids of started
programs, so they exceed 1. -/
structure Config (k : ℕ) extends Setup k where
  refs : Fin k → List ℕ
  refs_int : ∀ p, ∀ page ∈ refs p, page < 2 ^ 31
  pid_gt : ∀ p, 1 < pid p

/-- The size of process.c's `refstr`. -/
def refstrSize : ℕ := 10010

/-- The string process `p` is started with. -/
def Config.refstr (c : Config k) (p : Fin k) : List Char := referenceStr (c.refs p)

/-! ## process.c -/

/-- What process.c prints, its pid left out. -/
inductive ProcLine where
  | started
  | illegalPage
  | pageFault
  | frameAllocated (frame page : Int)
  | gotAll
  | terminating
  deriving DecidableEq, Repr

/-- Where a process stands: before its ready entry, waiting for the first wake-up, at the head of its loop, waiting for
the reply, waiting for the page to be loaded, or gone. -/
inductive ProcPc where
  | sendReady
  | recvWake
  | loop
  | recvReply
  | recvLoaded
  | exited
  deriving DecidableEq, Repr

/-- The variables of process.c. -/
structure Proc where
  pc : ProcPc
  i : ℕ
  prevI : Int
  page : Int
  out : List ProcLine
  deriving DecidableEq, Repr

def procInit : Proc := { pc := .sendReady, i := 0, prevI := -1, page := 0, out := [] }

/-- The head of the loop (lines 84 to 111 and, past it, 137 to 143): the request it sends and the state after it. -/
def procLoop (refstr : List Char) (pid : Int) (s : Proc) : (Int × Int) × Proc :=
  if s.i < refstr.length then
    let r := readPage refstr s.i
    ((pid, r.1), { s with prevI := s.i, page := r.1, i := r.2, pc := .recvReply })
  else ((pid, -9), { s with out := s.out ++ [.gotAll, .terminating], pc := .exited })

/-- The branches on a reply (lines 116 to 134). -/
def procReply (pageFrame : Int) (s : Proc) : Proc :=
  if pageFrame = -2 then { s with out := s.out ++ [.illegalPage], pc := .exited }
  else if pageFrame = -1 then { s with out := s.out ++ [.pageFault], pc := .recvLoaded }
  else { s with out := s.out ++ [.frameAllocated pageFrame s.page], pc := .loop }

/-- The page is loaded: `i = prev_i`. -/
def procLoaded (s : Proc) : Proc := { s with i := s.prevI.toNat, pc := .loop }

/-! ## sched.c -/

/-- What sched.c prints. -/
inductive SchedLine where
  | scheduling (pid : Int)
  | addedToReady (pid : Int)
  | terminated (pid : Int)
  | exiting
  deriving DecidableEq, Repr

/-- The call sched.c stands before, with the pid it is about to send; or it has left its loop. -/
inductive SchedPc where
  | recvReady
  | sendWake (pid : Int)
  | recvMmu
  | sendReady (pid : Int)
  | done
  deriving DecidableEq, Repr

structure Sched where
  pc : SchedPc
  k : ℕ
  out : List SchedLine
  deriving DecidableEq, Repr

/-- The loop's test. -/
def schedLoop (s : Sched) : Sched :=
  if 0 < s.k then { s with pc := .recvReady } else { s with pc := .done, out := s.out ++ [.exiting] }

def schedInit (k : ℕ) : Sched := schedLoop { pc := .recvReady, k := k, out := [] }

/-- The branches on a message from the MMU (lines 84 to 95). -/
def schedMmu (mtype pid : Int) (s : Sched) : Sched :=
  if mtype = 1 then { s with pc := .sendReady pid, out := s.out ++ [.addedToReady pid] }
  else if mtype = 2 then schedLoop { s with k := s.k - 1, out := s.out ++ [.terminated pid] }
  else schedLoop s

/-! ## The system -/

/-- The three queues and the state of every party. -/
structure Sys (k : ℕ) where
  q1 : MsgQueue Int
  q2 : MsgQueue Int
  q3 : MsgQueue (Int × Int)
  sched : Sched
  mmu : Mmu k
  proc : Fin k → Proc

/-- The state with process `p` changed. -/
def Sys.setProc (s : Sys k) (p : Fin k) (pr : Proc) : Sys k := { s with proc := Function.update s.proc p pr }

inductive Party (k : ℕ) where
  | sched
  | mmu
  | proc (p : Fin k)
  deriving DecidableEq

/-- The next step of the scheduler. -/
def schedNext (s : Sys k) : Option (Sys k) :=
  match s.sched.pc with
  | .recvReady => (msgrcv 1 s.q1).map fun r =>
      { s with q1 := r.2, sched := { s.sched with pc := .sendWake r.1, out := s.sched.out ++ [SchedLine.scheduling r.1] } }
  | .sendWake pid => some { s with q1 := msgsnd s.q1 pid pid, sched := { s.sched with pc := .recvMmu } }
  | .recvMmu => (msgrcvAny s.q2).map fun r => { s with q2 := r.2, sched := schedMmu r.1.1 r.1.2 s.sched }
  | .sendReady pid => some { s with q1 := msgsnd s.q1 1 pid, sched := schedLoop s.sched }
  | .done => none

/-- The next step of the MMU. -/
def mmuNext (s : Sys k) : Option (Sys k) :=
  match s.mmu.pc with
  | .recv => (msgrcv 1 s.q3).map fun r => { s with q3 := r.2, mmu := mmuReceive s.mmu r.1.1 r.1.2 }
  | .post _ mtype => some { s with q2 := msgsnd s.q2 mtype s.mmu.msg3Pid, mmu := mmuAfterPost s.mmu }
  | .exited => none
  | _ => (mmuReply s.mmu).map fun r =>
      { s with q3 := msgsnd s.q3 s.mmu.msg3Pid (s.mmu.msg3Pid, r), mmu := mmuAfterReply s.mmu }

/-- The next step of process `p`. -/
def procNext (c : Config k) (p : Fin k) (s : Sys k) : Option (Sys k) :=
  match (s.proc p).pc with
  | .sendReady => some
      ({ s with q1 := msgsnd s.q1 1 (c.pid p) }.setProc p
        { s.proc p with out := (s.proc p).out ++ [ProcLine.started], pc := .recvWake })
  | .recvWake => (msgrcv (c.pid p) s.q1).map fun r =>
      { s with q1 := r.2 }.setProc p { s.proc p with pc := .loop }
  | .loop =>
      let r := procLoop (c.refstr p) (c.pid p) (s.proc p)
      some ({ s with q3 := msgsnd s.q3 1 r.1 }.setProc p r.2)
  | .recvReply => (msgrcv (c.pid p) s.q3).map fun r =>
      { s with q3 := r.2 }.setProc p (procReply r.1.2 (s.proc p))
  | .recvLoaded => (msgrcv (c.pid p) s.q1).map fun r =>
      { s with q1 := r.2 }.setProc p (procLoaded (s.proc p))
  | .exited => none

/-- The step relation of the whole simulation. -/
def next (c : Config k) : Party k → Sys k → Option (Sys k)
  | .sched, s => schedNext s
  | .mmu, s => mmuNext s
  | .proc p, s => procNext c p s

/-- The state when the parties have been started. -/
def sysInit (c : Config k) : Sys k :=
  { q1 := [], q2 := [], q3 := [], sched := schedInit k, mmu := mmuInit c.toSetup, proc := fun _ => procInit }

end Paging
end OsLab
