import Mathlib.Algebra.Group.Nat.Defs
import Mathlib.Data.List.FinRange
import Mathlib.Logic.Function.Basic
/-!
# PagingMmu — the memory management unit's request loop

The shared tables of Assignment 8 (`sm1`: a record with a page table per process; `sm2`: the frame list, 1 free, 0
occupied, -1 at its end) and what mmu.c does to them.  A turn of its loop is cut where it sends a message, since other
parties may run between two sends: `mmuReceive` is the code from the receipt of a request to the first send,
`mmuAfterReply` the code between a reply and the message to the scheduler.  `mmuHandle` is a whole turn.
-/
namespace OsLab
namespace Paging

/-- `INT_MAX`. -/
def intMax : Int := 2147483647

/-- `MAX_VIRTUAL_ADDR_SPACE`. -/
def maxVirtualAddrSpace : ℕ := 25

/-- `MAX_PROCESSES`. -/
def maxProcesses : ℕ := 100

/-- `++` on an `int` of 32 bits. -/
def intSucc (t : Int) : Int := (t + 1).bmod (2 ^ 32)

/-- A row of a page table: `pagetable[page][0]`, `[1]` and `[2]`. -/
structure Pte where
  frame : Int
  valid : Int
  timestamp : Int
  deriving DecidableEq, Repr

/-- The row of a page without a frame. -/
def noFrame : Pte := { frame := -1, valid := 0, timestamp := intMax }

/-- `struct SM1`; the page table by page number. -/
structure SM1 where
  pid : Int
  mi : ℕ
  pagetable : ℕ → Pte
  totalPageFaults : ℕ
  totalIllegalAccess : ℕ

/-- The two shared memory segments, for `k` processes. -/
structure Mem (k : ℕ) where
  sm1 : Fin k → SM1
  sm2 : List Int

/-- What mmu.c prints. -/
inductive MmuLine where
  | globalOrdering (timestamp : Int) (process : ℕ) (page : Int)
  | invalidPageReference (process : ℕ) (page : Int)
  | pageFaultSequence (process : ℕ) (page : Int)
  | noPageAvailable (process : ℕ) (page : Int)
  | pidNotFound
  deriving DecidableEq, Repr

/-- The send the loop stands before: a hit's frame, -2, -1, the message to the scheduler; or it waits for a request, or
has exited. -/
inductive MmuPc (k : ℕ) where
  | recv
  | hit (i : Fin k) (page : ℕ)
  | illegal (i : Fin k)
  | fault (i : Fin k) (page : ℕ)
  | post (i : Fin k) (mtype : Int)
  | exited
  deriving DecidableEq, Repr

/-- The state of mmu.c with the memory it shares; `msg3Pid` is `msg3.pid` of the last request. -/
structure Mmu (k : ℕ) where
  mem : Mem k
  timestamp : Int
  totalNumProcesses : ℕ
  msg3Pid : Int
  pc : MmuPc k
  out : List MmuLine

variable {k : ℕ}

/-- The memory with the record of process `i` changed. -/
def Mem.setSm1 (m : Mem k) (i : Fin k) (f : SM1 → SM1) : Mem k :=
  { m with sm1 := Function.update m.sm1 i (f (m.sm1 i)) }

/-- The record with a row of its page table changed. -/
def SM1.setPte (s : SM1) (page : ℕ) (e : Pte) : SM1 := { s with pagetable := Function.update s.pagetable page e }

/-- One turn of the loop that frees a process's frames (lines 162 and 189). -/
def freePage (st : (ℕ → Pte) × List Int) (i : ℕ) : (ℕ → Pte) × List Int :=
  if (st.1 i).frame ≠ -1 then (Function.update st.1 i noFrame, st.2.set (st.1 i).frame.toNat 1) else st

/-- The loop that frees the frames of process `i`. -/
def freeFrames (m : Mem k) (i : Fin k) : Mem k :=
  let r := (List.range (m.sm1 i).mi).foldl freePage ((m.sm1 i).pagetable, m.sm2)
  { sm1 := Function.update m.sm1 i { m.sm1 i with pagetable := r.1 }, sm2 := r.2 }

/-- The scan of the frame list (line 219): where it stops and the list after it; `none` if it runs past the array. -/
def scanFrames : List Int → Option (ℕ × List Int)
  | [] => none
  | v :: vs =>
    if v = -1 then some (0, v :: vs)
    else if v = 1 then some (0, 0 :: vs)
    else (scanFrames vs).map fun r => (r.1 + 1, v :: r.2)

/-- The variables of the victim loop: `min_time`, `idx`, `req_page`. -/
structure Victim where
  minTime : Int
  idx : Int
  reqPage : Int
  deriving DecidableEq, Repr

/-- One turn of the victim loop (line 241). -/
def victimStep (pt : ℕ → Pte) (v : Victim) (i : ℕ) : Victim :=
  if (pt i).frame ≠ -1 ∧ (pt i).timestamp < v.minTime then
    { minTime := (pt i).timestamp, idx := i, reqPage := (pt i).frame }
  else v

/-- The victim loop. -/
def lruVictim (pt : ℕ → Pte) (mi : ℕ) : Victim :=
  (List.range mi).foldl (victimStep pt) { minTime := intMax, idx := -1, reqPage := -1 }

/-- What a fault leads to: a free frame, the frame of a page of the same process, or neither. -/
inductive Service where
  | freeFrame
  | replaced
  | noPage
  deriving DecidableEq, Repr

/-- Lines 219 to 269: find a frame for `page` of process `i`. -/
def serveFault (m : Mem k) (i : Fin k) (page : ℕ) (timestamp : Int) : Option (Mem k × Service) :=
  (scanFrames m.sm2).map fun r =>
    let m := { m with sm2 := r.2 }
    if r.2.getD r.1 (-1) ≠ -1 then
      (m.setSm1 i fun s => s.setPte page { frame := r.1, valid := 1, timestamp := timestamp }, .freeFrame)
    else
      let v := lruVictim (m.sm1 i).pagetable (m.sm1 i).mi
      if v.idx ≠ -1 then
        (m.setSm1 i fun s =>
          (s.setPte page { frame := v.reqPage, valid := 1, timestamp := timestamp }).setPte v.idx.toNat noFrame,
          .replaced)
      else (m, .noPage)

/-- The loop that looks a pid up in `sm1` (line 143): its index, or none after `MAX_PROCESSES` entries. -/
def processIdx (m : Mem k) (pid : Int) : Option (Fin k) :=
  ((List.finRange k).find? fun i => decide ((m.sm1 i).pid = pid)).filter fun i => decide (i.val < maxProcesses)

/-- From the receipt of a request to the first send (lines 139 to 215). -/
def mmuReceive (s : Mmu k) (pid page : Int) : Mmu k :=
  let t := intSucc s.timestamp
  match processIdx s.mem pid with
  | none => { s with timestamp := t, msg3Pid := pid, pc := .exited, out := s.out ++ [MmuLine.pidNotFound] }
  | some i =>
    let s := { s with timestamp := t, msg3Pid := pid, out := s.out ++ [MmuLine.globalOrdering t (i + 1) page] }
    if page = -9 then
      { s with mem := freeFrames s.mem i, totalNumProcesses := s.totalNumProcesses + 1, pc := .post i 2 }
    else if page ≥ (s.mem.sm1 i).mi then
      { s with
        mem := s.mem.setSm1 i fun r => { r with totalIllegalAccess := r.totalIllegalAccess + 1 }
        totalNumProcesses := s.totalNumProcesses + 1
        out := s.out ++ [MmuLine.invalidPageReference (i + 1) page]
        pc := .illegal i }
    else
      let e := (s.mem.sm1 i).pagetable page.toNat
      if e.frame ≠ -1 ∧ e.valid = (1 : Int) then
        { s with mem := s.mem.setSm1 i fun r => r.setPte page.toNat { e with timestamp := t }, pc := .hit i page.toNat }
      else
        { s with
          mem := s.mem.setSm1 i fun r => { r with totalPageFaults := r.totalPageFaults + 1 }
          pc := .fault i page.toNat }

/-- The `page_frame` of the reply a state stands before. -/
def mmuReply (s : Mmu k) : Option Int :=
  match s.pc with
  | .hit i page => some ((s.mem.sm1 i).pagetable page).frame
  | .illegal _ => some (-2)
  | .fault _ _ => some (-1)
  | _ => none

/-- From a reply to the next blocking call (lines 188 to 270); `exited` stands for a scan past the array as well. -/
def mmuAfterReply (s : Mmu k) : Mmu k :=
  match s.pc with
  | .hit _ _ => { s with pc := .recv }
  | .illegal i => { s with mem := freeFrames s.mem i, pc := .post i 2 }
  | .fault i page =>
    let s := { s with out := s.out ++ [MmuLine.pageFaultSequence (i + 1) page] }
    match serveFault s.mem i page s.timestamp with
    | none => { s with pc := .exited }
    | some (m, .noPage) => { s with mem := m, pc := .post i 1, out := s.out ++ [MmuLine.noPageAvailable (i + 1) page] }
    | some (m, _) => { s with mem := m, pc := .post i 1 }
  | _ => s

/-- After the message to the scheduler the loop waits again. -/
def mmuAfterPost (s : Mmu k) : Mmu k :=
  match s.pc with
  | .post _ _ => { s with pc := .recv }
  | _ => s

/-- A whole turn of the request loop. -/
def mmuHandle (s : Mmu k) (pid page : Int) : Mmu k :=
  match s.pc with
  | .recv => mmuAfterPost (mmuAfterReply (mmuReceive s pid page))
  | _ => s

/-- The loop over a sequence of requests, each a pid and a page. -/
def mmuRun (s : Mmu k) (reqs : List (Int × Int)) : Mmu k := reqs.foldl (fun s r => mmuHandle s r.1 r.2) s

/-- What master fixes before the simulation: the frame count, the address space `m` and, for each of the `k` processes,
its pid and page count. -/
structure Setup (k : ℕ) where
  frames : ℕ
  m : ℕ
  pid : Fin k → Int
  mi : Fin k → ℕ
  pid_inj : Function.Injective pid
  mi_pos : ∀ p, 1 ≤ mi p
  mi_le : ∀ p, mi p ≤ m
  m_le : m ≤ maxVirtualAddrSpace

/-- The tables as master initialises them (master.c lines 142 to 160); rows at and past `m` stay zero. -/
def masterInit (c : Setup k) : Mem k where
  sm1 p :=
    { pid := c.pid p, mi := c.mi p
      pagetable := fun j => if j < c.m then noFrame else { frame := 0, valid := 0, timestamp := 0 }
      totalPageFaults := 0, totalIllegalAccess := 0 }
  sm2 := List.replicate c.frames 1 ++ [-1]

/-- mmu.c before its first request. -/
def mmuInit (c : Setup k) : Mmu k :=
  { mem := masterInit c, timestamp := 0, totalNumProcesses := 0, msg3Pid := 0, pc := .recv, out := [] }

end Paging
end OsLab
