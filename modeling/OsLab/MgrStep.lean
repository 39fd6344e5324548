import OsLab.Reach
import Mathlib.Data.Fin.Basic
import Mathlib.Logic.Function.Basic
/-!
# MgrStep — the job manager, statement by statement

`mgr.c` (Assignment 2): `next` is one statement of `main`, or the signal handler, which may run before any of them.  What the
user types, what `fork` returns and how a job ends or stops is given from outside.  The three clean-ups on the way to an
exit are the loop of `kill_remaining_jobs`.
-/
namespace OsLab
namespace Mgr

/-- `process_status`, in its order. -/
inductive Status where
  | self
  | finished
  | terminated
  | suspended
  | killed
  deriving DecidableEq, Repr

/-- `process`. -/
structure Process where
  pid : ℤ
  pgid : ℤ
  status : Status
  name : String
  deriving DecidableEq, Repr

/-- The signals that mgr sends. -/
inductive Signal where
  | int
  | tstp
  | cont
  | kill
  deriving DecidableEq, Repr

/-- The two commands with a menu of the suspended jobs, `c` and `k`. -/
inductive Menu where
  | cont
  | kill
  deriving DecidableEq, Repr

def Menu.signal : Menu → Signal
  | .cont => .cont
  | .kill => .kill

/-- What is printed; `table` are the rows of `print_process_table`. -/
inductive Line where
  | prompt
  | help
  | table (rows : List (ℕ × Process))
  | tableFull
  | forkFailed
  | suspendedJobs (jobs : List ℕ)
  | notValid
  | enterValid
  deriving DecidableEq, Repr

/-- The statement of `main` that comes next.  `fork` to `insert` are the rest of `r`; `num` is `num_suspended` or `num_killed`
and `op` is `op_num`; `code` is that of the exit. -/
inductive Pc where
  | top
  | read
  | testFull
  | fork
  | setRunning (pid : ℤ) (letter : Fin 26)
  | wait (pid : ℤ) (letter : Fin 26)
  | reset (pid : ℤ) (letter : Fin 26) (st : Status)
  | insert (pid : ℤ) (letter : Fin 26) (st : Status)
  | collect (m : Menu)
  | choose (m : Menu) (num : ℕ)
  | pick (m : Menu) (op : ℕ)
  | send (m : Menu) (op : ℕ)
  | waitCont (op : ℕ)
  | resetCont (op : ℕ) (st : Status)
  | store (op : ℕ) (st : Status)
  | sweep (code : ℕ) (i : ℕ)
  | sweepKill (code : ℕ) (i : ℕ)
  | sweepStore (code : ℕ) (i : ℕ)
  | exited (code : ℕ)
  deriving DecidableEq, Repr

structure State where
  pc : Pc
  jobId : ℕ
  PT : ℕ → Process
  temp : ℕ → ℕ
  runningJobPid : ℤ
  /-- The calls of `kill`. -/
  sent : List (ℤ × Signal)
  out : List Line

def State.goto (s : State) (pc : Pc) : State := { s with pc := pc }

def State.print (s : State) (l : Line) : State := { s with out := s.out ++ [l] }

def State.kill (s : State) (pid : ℤ) (sig : Signal) : State := { s with sent := s.sent ++ [(pid, sig)] }

def State.setStatus (s : State) (i : ℕ) (st : Status) : State :=
  { s with PT := Function.update s.PT i { s.PT i with status := st } }

def setNewProcess (s : State) (p : Process) : State :=
  { s with PT := Function.update s.PT s.jobId p, jobId := s.jobId + 1 }

/-- The name that `r` gives to a job. -/
def jobName (letter : Fin 26) : String := "job " ++ String.ofList [Char.ofNat (65 + letter)]

/-- `signal_handler`. -/
def signalHandler (s : State) (sig : Signal) : State :=
  if s.runningJobPid = -1 then s.print .prompt else s.kill s.runningJobPid sig

/-- The loop that fills `temp` with the suspended jobs, over the indices `is`; with it the number found. -/
def collect (PT : ℕ → Process) : List ℕ → (ℕ → ℕ) × ℕ → (ℕ → ℕ) × ℕ
  | [], r => r
  | i :: is, r =>
    collect PT is (if (PT i).status = .suspended then (Function.update r.1 r.2 i, r.2 + 1) else r)

/-- The status that the three tests on what `waitpid` reports give. -/
inductive Outcome where
  | exited
  | signaled
  | stopped
  deriving DecidableEq, Repr

def Outcome.status : Outcome → Status
  | .exited => .finished
  | .signaled => .terminated
  | .stopped => .suspended

/-- What comes from outside: nothing, a signal (SIGTSTP or SIGINT), a command, a number at the menu, the result of `fork`
and the letter drawn, what `waitpid` reports. -/
inductive Event where
  | go
  | signal (tstp : Bool)
  | command (c : Char)
  | number (op : ℤ)
  | forked (pid : ℤ) (letter : Fin 26)
  | outcome (o : Outcome)
  deriving DecidableEq, Repr

/-- What `main` does with a command. -/
def command (s : State) (c : Char) : State :=
  if c = 'h' then (s.print .help).goto .top
  else if c = 'p' then (s.print (.table ((List.range s.jobId).map fun i => (i, s.PT i)))).goto .top
  else if c = 'r' then s.goto .testFull
  else if c = 'c' then s.goto (.collect .cont)
  else if c = 'k' then s.goto (.collect .kill)
  else if c = 'q' then s.goto (.sweep 0 0)
  else (s.print .enterValid).goto .top

/-- `fork` fails or returns a pid that mgr has not. -/
def ForkResult (s : State) (pid : ℤ) : Prop := pid = -1 ∨ 0 < pid ∧ pid ≠ (s.PT 0).pid

instance (s : State) (pid : ℤ) : Decidable (ForkResult s pid) := by unfold ForkResult; infer_instance

/-- The loop over the menu finds the number. -/
def State.listed (s : State) (num : ℕ) (op : ℤ) : Bool := (List.range num).any fun i => s.temp i = op

/-- A statement of `main`. -/
def mainStep (s : State) : Pc → Event → Option State
  | .top, .go => some ((s.print .prompt).goto .read)
  | .read, .command c => some (command s c)
  | .testFull, .go => some (if s.jobId = 11 then (s.print .tableFull).goto (.sweep 1 0) else s.goto .fork)
  | .fork, .forked pid letter => if ForkResult s pid then some (s.goto (.setRunning pid letter)) else none
  | .setRunning pid letter, .go =>
    some (if pid < 0 then ({ s with runningJobPid := pid }.print .forkFailed).goto (.sweep 1 0)
      else { s with runningJobPid := pid }.goto (.wait pid letter))
  | .wait pid letter, .outcome o => some (s.goto (.reset pid letter o.status))
  | .reset pid letter st, .go => some ({ s with runningJobPid := -1 }.goto (.insert pid letter st))
  | .insert pid letter st, .go => some ((setNewProcess s ⟨pid, pid, st, jobName letter⟩).goto .top)
  | .collect m, .go =>
    let r := collect s.PT (List.range s.jobId) (s.temp, 0)
    some (if r.2 = 0 then { s with temp := r.1 }.goto .top
      else ({ s with temp := r.1 }.print (.suspendedJobs ((List.range r.2).map r.1))).goto (.choose m r.2))
  | .choose m num, .number op =>
    some (if s.listed num op then s.goto (.pick m op.toNat) else (s.print .notValid).goto .top)
  | .pick m op, .go => some ({ s with runningJobPid := (s.PT op).pid }.goto (.send m op))
  | .send m op, .go =>
    some ((s.kill s.runningJobPid m.signal).goto (match m with
      | .cont => .waitCont op
      | .kill => .store op .killed))
  | .waitCont op, .outcome o => some (s.goto (.resetCont op o.status))
  | .resetCont op st, .go => some ({ s with runningJobPid := -1 }.goto (.store op st))
  | .store op st, .go => some ((s.setStatus op st).goto .top)
  | .sweep code i, .go =>
    some (s.goto (if i < s.jobId then (if (s.PT i).status = .suspended then .sweepKill code i else .sweep code (i + 1))
      else .exited code))
  | .sweepKill code i, .go => some ((s.kill (s.PT i).pid .kill).goto (.sweepStore code i))
  | .sweepStore code i, .go => some ((s.setStatus i .killed).goto (.sweep code (i + 1)))
  | _, _ => none

/-- The next statement, or the handler before it. -/
def next (e : Event) (s : State) : Option State :=
  match s.pc, e with
  | .exited _, _ => none
  | _, .signal tstp => some (signalHandler s (if tstp then .tstp else .int))
  | pc, e => mainStep s pc e

/-- The table holds mgr itself. -/
def start (pid pgid : ℤ) : State :=
  setNewProcess ⟨.top, 0, fun _ => ⟨0, 0, .self, ""⟩, fun _ => 0, -1, [], []⟩ ⟨pid, pgid, .self, "mgr"⟩

end Mgr
end OsLab
