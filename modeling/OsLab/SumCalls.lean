import OsLab.SumStep
import OsLab.MutexStep
/-!
# SumCalls — the threads of computesum inside the calls of the library

What main and the threads of computesum (Assignment 7) call, with every call taken statement by statement: a thread is the
list of the calls it has still to make and its place in the first of them.  `SumStep` has the sums; here are the barriers
and mutexes of foothread.c themselves, and main's destroying them.
-/
namespace OsLab
namespace SumCalls

open Foothread (Barrier foothreadBarrierInit foothreadBarrierWait)
open Mutex (FoothreadMutex foothreadMutexInit)

variable {n : ℕ}

/-- A call; `none` is `computation_done` among the barriers and `func_exec` among the mutexes. -/
inductive Call (n : ℕ) where
  | create (v : Fin n)
  | wait (b : Option (Fin n))
  | lock (m : Option (Fin n))
  | unlock (m : Option (Fin n))
  | destroyBarrier (b : Option (Fin n))
  | destroyMutex (m : Option (Fin n))
  deriving DecidableEq, Repr

instance : LawfulBEq (Call n) := inferInstance

/-- The barrier at which the thread of node `v` says that it is done. -/
def lastBarrier (t : Sum.Tree n) (v : Fin n) : Option (Fin n) := if t.parent v = v then none else some (t.parent v)

/-- The calls of `compute_sum` at node `v`: a leaf and an inner node make the same ones. -/
def computeSum (t : Sum.Tree n) (v : Fin n) : List (Call n) :=
  [.wait (some v), .lock none, .lock (some v), .unlock (some v), .unlock none, .lock (some (t.parent v)),
    .unlock (some (t.parent v)), .wait (lastBarrier t v)]

/-- What `main` destroys, in its order. -/
def cleanUp (n : ℕ) : List (Call n) :=
  ((List.finRange n).flatMap fun i => [.destroyBarrier (some i), .destroyMutex (some i)]) ++
    [.destroyBarrier none, .destroyMutex none]

def main (n : ℕ) : List (Call n) := (List.finRange n).map .create ++ .wait none :: cleanUp n

/-- The program of main, `none`, or of the thread of a node. -/
def program (t : Sum.Tree n) : Option (Fin n) → List (Call n)
  | none => main n
  | some v => computeSum t v

/-- `calls` are those still to be made; the first has been entered when one of the two places is not `out`. -/
structure Thread (n : ℕ) where
  calls : List (Call n)
  wait : Foothread.Pc
  mutex : Mutex.Pc

structure State (n : ℕ) where
  thread : Option (Fin n) → Thread n
  barrier : Option (Fin n) → Barrier
  mutex : Option (Fin n) → FoothreadMutex

/-- After main has read the tree and initialised the barriers and mutexes. -/
def start (t : Sum.Tree n) : State n where
  thread a := ⟨program t a, .out, .out⟩
  barrier
    | none => foothreadBarrierInit 2
    | some i => foothreadBarrierInit (t.numChild i + 1)
  mutex _ := foothreadMutexInit ⟨false, false, 0, 0, 0⟩

/-- A destroyed semaphore keeps its value: what a call finds in it is not defined. -/
def foothreadBarrierDestroy (b : Barrier) : Option Barrier :=
  if b.isLive then some { b with isLive := false } else none

def foothreadMutexDestroy (m : FoothreadMutex) : FoothreadMutex :=
  if m.isLive then { m with isLive := false, isLocked := false } else m

def State.goto (s : State n) (a : Option (Fin n)) (th : Thread n) : State n :=
  { s with thread := Function.update s.thread a th }

def State.setBarrier (s : State n) (b : Option (Fin n)) (x : Barrier) : State n :=
  { s with barrier := Function.update s.barrier b x }

def State.setMutex (s : State n) (m : Option (Fin n)) (x : FoothreadMutex) : State n :=
  { s with mutex := Function.update s.mutex m x }

/-- The thread behind a statement of `foothread_barrier_wait` that led to `pc`: back from the call it has one less to make. -/
def Thread.waited (th : Thread n) (pc : Foothread.Pc) : Thread n :=
  ⟨if pc = .out then th.calls.tail else th.calls, pc, th.mutex⟩

/-- The same for `foothread_mutex_lock` and `foothread_mutex_unlock`. -/
def Thread.locked (th : Thread n) (pc : Mutex.Pc) : Thread n :=
  ⟨if pc = .out then th.calls.tail else th.calls, th.wait, pc⟩

/-- The statement of thread `a` in the call `c`. -/
def statement (pid : ℤ) (tid : Option (Fin n) → ℤ) (a : Option (Fin n)) (s : State n) : Call n → Option (State n)
  | .create _ => some (s.goto a { s.thread a with calls := (s.thread a).calls.tail })
  | .wait b => (foothreadBarrierWait (s.barrier b) (s.thread a).wait).map fun r =>
      (s.setBarrier b r.1).goto a ((s.thread a).waited r.2)
  | .lock m => (Mutex.statement pid (tid a) .lock (s.mutex m) (s.thread a).mutex).map fun r =>
      (s.setMutex m r.1).goto a ((s.thread a).locked r.2)
  | .unlock m => (Mutex.statement pid (tid a) .unlock (s.mutex m) (s.thread a).mutex).map fun r =>
      (s.setMutex m r.1).goto a ((s.thread a).locked r.2)
  | .destroyBarrier b => (foothreadBarrierDestroy (s.barrier b)).map fun x =>
      (s.setBarrier b x).goto a { s.thread a with calls := (s.thread a).calls.tail }
  | .destroyMutex m => some ((s.setMutex m (foothreadMutexDestroy (s.mutex m))).goto a
      { s.thread a with calls := (s.thread a).calls.tail })

/-- Main has created the thread. -/
def State.created (s : State n) : Option (Fin n) → Bool
  | none => true
  | some v => .create v ∉ (s.thread none).calls

/-- The next statement of main, `none`, or of the thread of a node. -/
def next (pid : ℤ) (tid : Option (Fin n) → ℤ) (a : Option (Fin n)) (s : State n) : Option (State n) :=
  if s.created a then (s.thread a).calls.head?.bind (statement pid tid a s) else none

end SumCalls
end OsLab
