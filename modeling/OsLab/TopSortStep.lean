import OsLab.Reach
import Mathlib.Data.List.FinRange
import Mathlib.Data.Int.Notation
/-!
# TopSortStep — the boss and its workers, statement by statement

The parallel topological sort of Assignment 5 once the boss has set up the shared memory and the semaphores: `bossStep` is
one statement of boss.c, `workerStep` one of a worker (worker.c), and `next` the system of the boss and a worker for each
vertex.  A semaphore that has been removed is `none`: a call of `semop` then fails at once, and nobody looks at it.
-/
namespace OsLab
namespace TopSort

variable {n : ℕ}

abbrev Sem := Option ℕ

/-- `semop` with −1 waits until the value is positive. -/
def Sem.P : Sem → Option Sem
  | none => some none
  | some 0 => none
  | some (x + 1) => some (some x)

/-- `semop` with 1. -/
def Sem.V : Sem → Sem := Option.map (· + 1)

/-- `semop` with 0 goes on when the value is zero. -/
def Sem.isZero : Sem → Bool
  | none => true
  | some x => x = 0

/-- What the boss prints. -/
inductive Line (n : ℕ) where
  | setupDone
  | heading
  | entry (v : Option (Fin n))
  | wellDone
  | wrongOutput
  deriving DecidableEq, Repr

/-- The statement of the boss that comes next: the loop that hands out the turns, the sorting that is printed and
checked, the semaphores that are removed.  `wild`: it has read `indeg[-1]`. -/
inductive BossPc (n : ℕ) where
  | waitNtfy
  | signalMtx
  | test
  | heading
  | print (i : ℕ)
  | check (i : ℕ) (indeg : Fin n → ℤ)
  | verdict (correct : Bool)
  | rmNtfy
  | rmSync
  | rmMtx
  | finished
  | wild

/-- The statement of a worker that comes next. -/
inductive WorkerPc where
  | waitSync
  | waitMtx
  | loadIdx
  | store (idx : ℕ)
  | loadIdx'
  | storeIdx (idx : ℕ)
  | edge (j : ℕ)
  | signalNtfy
  | done
  deriving DecidableEq, Repr

structure State (n : ℕ) where
  boss : BossPc n
  worker : Fin n → WorkerPc
  mtx : Sem
  ntfy : Sem
  sync : Fin n → Sem
  /-- `none` is the −1 of an empty place. -/
  T : ℕ → Option (Fin n)
  idx : ℕ
  out : List (Line n)

variable (A : Fin n → Fin n → ℤ)

/-- The boss's count of the edges into each vertex. -/
def indegrees : Fin n → ℕ :=
  (List.finRange n).foldl (fun indeg i =>
    (List.finRange n).foldl (fun indeg j =>
      if A i j ≠ 0 then Function.update indeg j (indeg j + 1) else indeg) indeg) (fun _ => 0)

/-- After the boss's setup. -/
def setup : State n where
  boss := .waitNtfy
  worker _ := .waitSync
  mtx := some 0
  ntfy := some 1
  sync j := some (indegrees A j)
  T _ := none
  idx := 0
  out := [.setupDone]

def State.goto (s : State n) (i : Fin n) (pc : WorkerPc) : State n := { s with worker := Function.update s.worker i pc }

/-- A statement of the worker of vertex `i`. -/
def workerStep (i : Fin n) (s : State n) : WorkerPc → Option (State n)
  | .waitSync => if (s.sync i).isZero then some (s.goto i .waitMtx) else none
  | .waitMtx => s.mtx.P.map (fun mtx => { s with mtx := mtx }.goto i .loadIdx)
  | .loadIdx => some (s.goto i (.store s.idx))
  | .store k => some ({ s with T := Function.update s.T k (some i) }.goto i .loadIdx')
  | .loadIdx' => some (s.goto i (.storeIdx s.idx))
  | .storeIdx k => some ({ s with idx := k + 1 }.goto i (.edge 0))
  | .edge j =>
    if h : j < n then
      if A i ⟨j, h⟩ ≠ 0 then
        (s.sync ⟨j, h⟩).P.map (fun x => { s with sync := Function.update s.sync ⟨j, h⟩ x }.goto i (.edge (j + 1)))
      else some (s.goto i (.edge (j + 1)))
    else some (s.goto i .signalNtfy)
  | .signalNtfy => some ({ s with ntfy := s.ntfy.V }.goto i .done)
  | .done => none

/-- `if(A[T[i]][j]) indeg[j]--;` for all `j`. -/
def release (v : Fin n) (indeg : Fin n → ℤ) : Fin n → ℤ :=
  (List.finRange n).foldl (fun indeg j => if A v j ≠ 0 then Function.update indeg j (indeg j - 1) else indeg) indeg

/-- One turn of the loop of the boss's check. -/
def checkPlace (i : ℕ) (indeg : Fin n → ℤ) : Option (Fin n) → BossPc n
  | some v => if indeg v = 0 then .check (i + 1) (release A v indeg) else .verdict false
  | none => .wild

/-- A statement of the boss; of the check, one turn of its loop. -/
def bossStep (s : State n) : BossPc n → Option (State n)
  | .waitNtfy => s.ntfy.P.map (fun ntfy => { s with ntfy := ntfy, boss := .signalMtx })
  | .signalMtx => some { s with mtx := s.mtx.V, boss := .test }
  | .test => some { s with boss := if s.idx = n then .heading else .waitNtfy }
  | .heading => some { s with out := s.out ++ [.heading], boss := .print 0 }
  | .print i =>
    some (if i < n then { s with out := s.out ++ [.entry (s.T i)], boss := .print (i + 1) }
      else { s with boss := .check 0 (fun j => indegrees A j) })
  | .check i indeg => some { s with boss := if i < n then checkPlace A i indeg (s.T i) else .verdict true }
  | .verdict correct => some { s with out := s.out ++ [if correct then .wellDone else .wrongOutput], boss := .rmNtfy }
  | .rmNtfy => some { s with ntfy := none, boss := .rmSync }
  | .rmSync => some { s with sync := fun _ => none, boss := .rmMtx }
  | .rmMtx => some { s with mtx := none, boss := .finished }
  | .finished => none
  | .wild => none

/-- The next statement of the boss (`none`) or of the worker of a vertex. -/
def next : Option (Fin n) → State n → Option (State n)
  | none, s => bossStep A s s.boss
  | some i, s => workerStep A i s (s.worker i)

end TopSort
end OsLab
