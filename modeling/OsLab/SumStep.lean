import OsLab.RootedTree
import OsLab.Reach
import Mathlib.Data.BitVec
/-!
# SumStep — the threads of computesum, statement by statement

`readTree` is how main reads the tree (Assignment 7, computesum.c), `computeSum` one statement of the function that every
node's thread runs, and `next` the system of main and the threads it has created.  A barrier is a rendezvous: it counts
who arrives and lets an arrival pass when its round is full.  A mutex is a lock: it has a holder or none.
-/
namespace OsLab
namespace Sum

variable {n : ℕ}

/-- `parent`, `num_child` and `root_node`. -/
structure Tree (n : ℕ) where
  parent : Fin n → Fin n
  numChild : Fin n → ℕ
  rootNode : Fin n

/-- What main does with one line of the file, a node and its parent. -/
def readLine (t : Tree n) (line : Fin n × Fin n) : Tree n :=
  let t := { t with parent := Function.update t.parent line.1 line.2 }
  if line.1 ≠ line.2 then { t with numChild := Function.update t.numChild line.2 (t.numChild line.2 + 1) }
  else { t with rootNode := line.1 }

/-- The tree after the loop over the lines; the array of children counts starts with zeros. -/
def readTree (t : Tree n) (lines : List (Fin n × Fin n)) : Tree n :=
  lines.foldl readLine { t with numChild := fun _ => 0 }

/-- `foothread_barrier_t` as a rendezvous: how many meet, and how many have arrived so far. -/
structure Rendezvous where
  size : ℕ
  arrivals : ℕ
  deriving DecidableEq, Repr

def Rendezvous.arrive (b : Rendezvous) : Rendezvous := { b with arrivals := b.arrivals + 1 }

/-- The round of the arrival number `k` is full. -/
def Rendezvous.full (b : Rendezvous) (k : ℕ) : Bool := (k / b.size + 1) * b.size ≤ b.arrivals

/-- The lines that are printed. -/
inductive Line (n : ℕ) where
  | prompt (node : Fin n)
  | partialSum (node : Fin n) (sum : BitVec 32)
  | total (root : Fin n) (sum : BitVec 32)
  deriving DecidableEq, Repr

/-- The statement of `compute_sum` that comes next; `k` is the number of the thread's arrival at the barrier. -/
inductive Pc where
  | arrive
  | pass (k : ℕ)
  | lockExec
  | testLeaf
  | scan
  | lockSum (leafVal : Option (BitVec 32))
  | work (leafVal : Option (BitVec 32))
  | unlockSum
  | unlockExec
  | lockParent
  | testRoot
  | loadOwn
  | loadParent (own : BitVec 32)
  | storeParent (sum : BitVec 32)
  | unlockParent
  | testDone
  | arriveDone
  | passDone (k : ℕ)
  | arriveUp
  | passUp (k : ℕ)
  | finished
  deriving DecidableEq, Repr

/-- The statement of `main` that comes next, from the creation of the threads to the printed sum. -/
inductive MainPc where
  | create (i : ℕ)
  | arriveDone
  | passDone (k : ℕ)
  | print
  | finished
  deriving DecidableEq, Repr

structure State (n : ℕ) where
  main : MainPc
  thread : Fin n → Pc
  barrier : Fin n → Rendezvous
  computationDone : Rendezvous
  funcExec : Option (Fin n)
  mutexSum : Fin n → Option (Fin n)
  sum : Fin n → BitVec 32
  totalSum : BitVec 32
  out : List (Line n)
  /-- How often each node has added its sum to its parent's. -/
  adds : Fin n → ℕ

variable (t : Tree n) (leafVal : Fin n → BitVec 32)

/-- After main has read the tree and initialised the rest. -/
def start : State n where
  main := .create 0
  thread _ := .arrive
  barrier v := ⟨t.numChild v + 1, 0⟩
  computationDone := ⟨2, 0⟩
  funcExec := none
  mutexSum _ := none
  sum _ := 0
  totalSum := 0
  out := []
  adds _ := 0

def State.goto (s : State n) (v : Fin n) (pc : Pc) : State n := { s with thread := Function.update s.thread v pc }

def State.lockExec (s : State n) (v : Fin n) : Option (State n) :=
  if s.funcExec = none then some { s with funcExec := some v } else none

def State.unlockExec (s : State n) (v : Fin n) : Option (State n) :=
  if s.funcExec = some v then some { s with funcExec := none } else none

def State.lockSum (s : State n) (v x : Fin n) : Option (State n) :=
  if s.mutexSum x = none then some { s with mutexSum := Function.update s.mutexSum x (some v) } else none

def State.unlockSum (s : State n) (v x : Fin n) : Option (State n) :=
  if s.mutexSum x = some v then some { s with mutexSum := Function.update s.mutexSum x none } else none

def State.arrive (s : State n) (x : Fin n) : State n :=
  { s with barrier := Function.update s.barrier x (s.barrier x).arrive }

def State.arriveDone (s : State n) : State n := { s with computationDone := s.computationDone.arrive }

def State.setSum (s : State n) (x : Fin n) (y : BitVec 32) : State n :=
  { s with sum := Function.update s.sum x y }

def State.print (s : State n) (l : Line n) : State n := { s with out := s.out ++ [l] }

/-- A statement of `compute_sum` by the thread of node `v`. -/
def computeSum (v : Fin n) (s : State n) : Pc → Option (State n)
  | .arrive => some ((s.arrive v).goto v (.pass (s.barrier v).arrivals))
  | .pass k => if (s.barrier v).full k then some (s.goto v .lockExec) else none
  | .lockExec => (s.lockExec v).map (·.goto v .testLeaf)
  | .testLeaf => some (s.goto v (if t.numChild v = 0 then .scan else .lockSum none))
  | .scan => some ((s.print (.prompt v)).goto v (.lockSum (some (leafVal v))))
  | .lockSum o => (s.lockSum v v).map (·.goto v (.work o))
  | .work (some x) => some ((s.setSum v x).goto v .unlockSum)
  | .work none => some ((s.print (.partialSum v (s.sum v))).goto v .unlockSum)
  | .unlockSum => (s.unlockSum v v).map (·.goto v .unlockExec)
  | .unlockExec => (s.unlockExec v).map (·.goto v .lockParent)
  | .lockParent => (s.lockSum v (t.parent v)).map (·.goto v .testRoot)
  | .testRoot => some (s.goto v (if v ≠ t.parent v then .loadOwn else .unlockParent))
  | .loadOwn => some (s.goto v (.loadParent (s.sum v)))
  | .loadParent x => some (s.goto v (.storeParent (s.sum (t.parent v) + x)))
  | .storeParent y =>
    some { (s.setSum (t.parent v) y).goto v .unlockParent with adds := Function.update s.adds v (s.adds v + 1) }
  | .unlockParent => (s.unlockSum v (t.parent v)).map (·.goto v .testDone)
  | .testDone =>
    some (if t.parent v = v then { s with totalSum := s.sum v }.goto v .arriveDone else s.goto v .arriveUp)
  | .arriveDone => some (s.arriveDone.goto v (.passDone s.computationDone.arrivals))
  | .passDone k => if s.computationDone.full k then some (s.goto v .finished) else none
  | .arriveUp => some ((s.arrive (t.parent v)).goto v (.passUp (s.barrier (t.parent v)).arrivals))
  | .passUp k => if (s.barrier (t.parent v)).full k then some (s.goto v .finished) else none
  | .finished => none

/-- A statement of `main`. -/
def mainStep (s : State n) : MainPc → Option (State n)
  | .create i => some { s with main := if i < n then .create (i + 1) else .arriveDone }
  | .arriveDone => some { s.arriveDone with main := .passDone s.computationDone.arrivals }
  | .passDone k => if s.computationDone.full k then some { s with main := .print } else none
  | .print => some { s.print (.total t.rootNode s.totalSum) with main := .finished }
  | .finished => none

/-- Main has created the thread of node `v`. -/
def MainPc.created (v : Fin n) : MainPc → Bool
  | .create i => v.val < i
  | _ => true

/-- The next statement of main (`none`) or of the thread of a node. -/
def next : Option (Fin n) → State n → Option (State n)
  | none, s => mainStep t s s.main
  | some v, s => if s.main.created v then computeSum t leafVal v s (s.thread v) else none

end Sum
end OsLab
