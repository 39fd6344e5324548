import OsLab.DecimalText
import OsLab.EventQueue
/-!
# SessionTurn — main's event loop, one turn at a time

What `main` of `session.c` (Assignment 6) does with one event, the doctor's and the visitor's thread included as if each
did its part at once; how the threads really interleave is for later.  The three kinds of visitors are handled alike, each
with its own counters, queue and quota.  `came` and `visits` are read by nothing: they record who arrived and who was seen.
The end of a visit is the sum of two `int`s, in the visitor's line and in the doctor event, and wraps round as they do.
-/
namespace OsLab
namespace Session

open DecimalText (int32)

inductive Kind where
  | patient
  | reporter
  | salesrep
  deriving DecidableEq, Repr

namespace Kind

def letter : Kind → Char
  | patient => 'P'
  | reporter => 'R'
  | salesrep => 'S'

/-- How many may be seen in a session; any number of reporters. -/
def quota : Kind → Option ℕ
  | patient => some 25
  | reporter => none
  | salesrep => some 3

/-- `patient_cnt > 25`, `salesrep_cnt > 3` -/
def quotaFull (k : Kind) (cnt : ℕ) : Bool :=
  match k.quota with
  | some q => q < cnt
  | none => false

end Kind

/-- What the letter of an event is for main. -/
inductive Letter where
  | done
  | visitor (k : Kind)
  | other
  deriving DecidableEq, Repr

def letterOf (c : Char) : Letter :=
  if c = 'D' then .done
  else if c = 'P' then .visitor .patient
  else if c = 'R' then .visitor .reporter
  else if c = 'S' then .visitor .salesrep
  else .other

/-- The lines that are printed; times in minutes. -/
inductive Line where
  | arrives (time : ℤ) (k : Kind) (id : ℕ)
  | sessionOver (time : ℤ) (k : Kind) (id : ℕ)
  | quotaFull (time : ℤ) (k : Kind) (id : ℕ)
  | nextVisitor (time : ℤ)
  | inChamber (start stop : ℤ) (k : Kind) (id : ℕ)
  | doctorLeaves (time : ℤ)
  deriving DecidableEq, Repr

structure Visit where
  kind : Kind
  number : ℕ
  start : ℤ
  duration : ℤ
  deriving DecidableEq, Repr

/-- When the visit ends, which need not be an `int`. -/
def Visit.stop (v : Visit) : ℤ := v.start + v.duration

/-- The variables of the session. -/
structure Vars where
  E : EventQ
  currTime : ℤ
  cnt : Kind → ℕ
  wait : Kind → ℕ
  curr : Kind → ℕ
  docFree : Bool
  docSessionEnd : Bool
  /-- `patientQ`, `reporterQ` and `salesrepQ` -/
  queue : Kind → ℕ → Event
  out : List Line
  came : Kind → List Event
  visits : List Visit

/-- The event that says when the doctor is free; its duration is neither set nor read. -/
def doneEvent (time : ℤ) : Event := ⟨'D', time, 0⟩

/-- Before the loop; `Q` is what stands in memory before. -/
def Vars.init (file : List Event) (Q : ℕ → Event) : Vars where
  E := addevent (initEQ file Q) (doneEvent 0)
  currTime := -1000000000
  cnt _ := 0
  wait _ := 0
  curr _ := 0
  docFree := false
  docSessionEnd := false
  queue _ := Q
  out := []
  came _ := []
  visits := []

namespace Vars

def print (s : Vars) (l : Line) : Vars := { s with out := s.out ++ [l] }

/-- `newevent = nextevent(E); E = delevent(E);` and, with the lock, `curr_time = newevent.time;` -/
def pop (s : Vars) : Vars := { s with E := delevent s.E }

def setTime (s : Vars) (t : ℤ) : Vars := { s with currTime := t }

/-- The doctor's session is over when this holds as he becomes free. -/
def sessionOver (s : Vars) : Bool := s.curr .patient = 25 ∧ s.curr .salesrep = 3 ∧ s.wait .reporter = 0

def free (s : Vars) : Vars := { s with docFree := true }

/-- `doc_session_end = 1; doc_free = 0;` -/
def endSession (s : Vars) : Vars := { s with docSessionEnd := true, docFree := false }

/-- The doctor's last line. -/
def leave (s : Vars) : Vars := { s.print (.doctorLeaves s.currTime) with docSessionEnd := true }

/-- `patient_cnt++` and the line of the arrival. -/
def arrive (s : Vars) (k : Kind) (e : Event) : Vars :=
  { s with
    cnt := Function.update s.cnt k (s.cnt k + 1)
    out := s.out ++ [.arrives s.currTime k (s.cnt k + 1)]
    came := Function.update s.came k (s.came k ++ [e]) }

/-- The line of who is turned away, if he is. -/
def refusal (s : Vars) (k : Kind) : Option Line :=
  if s.docSessionEnd then some (.sessionOver s.currTime k (s.cnt k))
  else if k.quotaFull (s.cnt k) then some (.quotaFull s.currTime k (s.cnt k))
  else none

/-- `patient_wait++` -/
def letIn (s : Vars) (k : Kind) : Vars := { s with wait := Function.update s.wait k (s.wait k + 1) }

/-- `patientQ[curr_id-1] = newevent;` -/
def enqueue (s : Vars) (k : Kind) (id : ℕ) (e : Event) : Vars :=
  { s with queue := Function.update s.queue k (Function.update (s.queue k) (id - 1) e) }

/-- Whom main calls next. -/
def choose (s : Vars) : Option Kind :=
  if s.docFree = true ∧ s.docSessionEnd = false then
    if 0 < s.wait .reporter then some .reporter
    else if 0 < s.wait .patient then some .patient
    else if 0 < s.wait .salesrep then some .salesrep
    else none
  else none

/-- `visitor = patientQ[patient_curr];` -/
def visitor (s : Vars) (k : Kind) : Event := s.queue k (s.curr k)

/-- `patient_wait--; doc_free = 0;` -/
def dispatch (s : Vars) (k : Kind) : Vars :=
  { s with
    wait := Function.update s.wait k (s.wait k - 1)
    docFree := false
    visits := s.visits ++ [⟨k, s.curr k + 1, s.currTime, (s.visitor k).duration⟩] }

/-- The doctor's line. -/
def callIn (s : Vars) : Vars := s.print (.nextVisitor s.currTime)

/-- `patient_curr++` -/
def advance (s : Vars) (k : Kind) : Vars := { s with curr := Function.update s.curr k (s.curr k + 1) }

/-- The visitor's line. -/
def enter (s : Vars) (k : Kind) (id : ℕ) (e : Event) : Vars :=
  s.print (.inChamber s.currTime (int32 (s.currTime + e.duration)) k id)

/-- The event of the end of the visit. -/
def addDone (s : Vars) (time : ℤ) : Vars := { s with E := addevent s.E (doneEvent time) }

/-- A visit from the dispatch to the event of its end. -/
def see (s : Vars) (k : Kind) : Vars :=
  ((((s.dispatch k).callIn.advance k).enter k (s.curr k + 1) (s.visitor k)).addDone
    (int32 (s.currTime + (s.visitor k).duration)))

/-- The end of a turn. -/
def dispatchNext (s : Vars) : Vars :=
  match s.choose with
  | some k => s.see k
  | none => s

/-- What main does with an arrival. -/
def receive (s : Vars) (k : Kind) (e : Event) : Vars :=
  let s := s.arrive k e
  match s.refusal k with
  | some l => s.print l
  | none => ((s.letIn k).enqueue k (s.cnt k) e).dispatchNext

/-- What main does with a doctor event. -/
def doctorFree (s : Vars) : Vars := if s.free.sessionOver then s.free.endSession.leave else s.free.dispatchNext

end Vars

/-- A turn of the loop; an event of any other letter has main lock `mutex` twice. -/
def turn (s : Vars) : Option Vars :=
  if emptyQ s.E then none
  else
    let e := nextevent s.E
    let s := s.pop.setTime e.time
    match letterOf e.type with
    | .done => some s.doctorFree
    | .visitor k => some (s.receive k e)
    | .other => none

/-- Main alone, as a system of one party. -/
def mainLoop : Unit → Vars → Option Vars := fun _ => turn

end Session
end OsLab
