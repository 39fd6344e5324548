import OsLab.PagingFrames
import OsLab.PagingProc
import OsLab.PagingToken
/-!
# PagingRefine — the code refines the token machine

`Sim` says what the queues, the places of the parties and the tables look like when the token machine is in a given
state.  `Move` lists what a step of any party can do under it (`next_move`), each such step is one of the token machine
or none (`Move.token`), and the relation survives it (`Move.sim`).
-/
namespace OsLab
namespace Paging

variable {k : ℕ}

/-! ## What a state of the token machine looks like -/

/-- The call the scheduler stands before. -/
def Ctl.schedPc (c : Config k) : Ctl k → SchedPc
  | .idle => .recvReady
  | .done => .done
  | .toWake p => .sendWake (c.pid p)
  | .toReady p => .sendReady (c.pid p)
  | _ => .recvMmu

/-- The call the MMU stands before. -/
def Ctl.mmuPc : Ctl k → MmuPc k
  | .answering p page => .hit p page
  | .faulting p page => .fault p page
  | .refusing p => .illegal p
  | .posting p n => .post p n.mtype
  | .lostAsk _ _ => .exited
  | .lostGone _ => .exited
  | _ => .recv

/-- Queue 2. -/
def Ctl.posts (c : Config k) : Ctl k → MsgQueue Int
  | .posted p n => [(n.mtype, c.pid p)]
  | _ => []

/-- The requests in queue 3. -/
def Ctl.requests (c : Config k) : Ctl k → List (Int × Int)
  | .asked p page => [(c.pid p, (page : Int))]
  | .gone p => [(c.pid p, -9)]
  | _ => []

/-- The pid the MMU keeps while it serves a process. -/
def Ctl.served : Ctl k → Option (Fin k)
  | .answering p _ => some p
  | .faulting p _ => some p
  | .refusing p => some p
  | .posting p _ => some p
  | .lostAsk p _ => some p
  | .lostGone p => some p
  | _ => none

/-- No page of the process has a frame. -/
def Unloaded (mi : ℕ) (r : SM1) : Prop := ∀ g < mi, r.pagetable g = noFrame

/-- What a process at a stage looks like: its place, its replies in queue 3 and its record. -/
def ProcAt (c : Config k) (p : Fin k) (st : Stage) (pr : Proc) (replies : List (Int × Int)) (r : SM1) : Prop :=
  match st with
  | .unstarted => pr.pc = .sendReady ∧ replies = [] ∧ r.totalIllegalAccess = 0 ∧ Unloaded (c.mi p) r
  | .waiting =>
    ((pr.pc = .recvWake ∨ pr.pc = .recvLoaded) ∧ replies = [] ∨ pr.pc = .recvReply ∧ replies = [(c.pid p, -1)]) ∧
      r.totalIllegalAccess = 0
  | .running => pr.pc = .loop ∧ replies = [] ∧ r.totalIllegalAccess = 0
  | .asking page => pr.pc = .recvReply ∧ pr.page = page ∧ replies = [] ∧ r.totalIllegalAccess = 0
  | .refusing => pr.pc = .recvReply ∧ (c.mi p : Int) ≤ pr.page ∧ replies = [] ∧ r.totalIllegalAccess = 1
  | .told =>
    pr.pc = .recvReply ∧ r.totalIllegalAccess = 0 ∧
      ∃ page f : ℕ, pr.page = page ∧ page < c.mi p ∧ (r.pagetable page).frame = f ∧ replies = [(c.pid p, (f : Int))]
  | .gone => pr.pc = .exited ∧ .gotAll ∈ pr.out ∧ replies = [] ∧ r.totalIllegalAccess = 0
  | .ended =>
    (pr.pc = .recvReply ∧ (c.mi p : Int) ≤ pr.page ∧ replies = [(c.pid p, -2)] ∧ r.totalIllegalAccess = 1 ∨
      pr.pc = .exited ∧ replies = [] ∧
        (.gotAll ∈ pr.out ∧ r.totalIllegalAccess = 0 ∨ .illegalPage ∈ pr.out ∧ r.totalIllegalAccess = 1)) ∧
      Unloaded (c.mi p) r

/-- The pid of a line that reports an end. -/
def SchedLine.terminated? : SchedLine → Option Int
  | .terminated pid => some pid
  | _ => none

/-- The pids the scheduler has reported as terminated, in order. -/
def Sched.reported (s : Sched) : List Int := s.out.filterMap SchedLine.terminated?

/-- **The state of the code when the token machine is in state `a`.** -/
structure Sim (c : Config k) (a : Abs k) (s : Sys k) : Prop where
  started : a.started.Nodup
  ready : chan 1 s.q1 = a.ready.map c.pid
  wake : ∀ p, chan (c.pid p) s.q1 = if a.ctl = .woken p then [c.pid p] else []
  posts : s.q2 = a.ctl.posts c
  requests : chan 1 s.q3 = a.ctl.requests c
  schedPc : s.sched.pc = a.ctl.schedPc c
  mmuPc : s.mmu.pc = a.ctl.mmuPc
  served : ∀ p, a.ctl.served = some p → s.mmu.msg3Pid = c.pid p
  left : s.sched.k + a.ended.length = k
  done : a.ctl = .done ↔ s.sched.k = 0
  reported : s.sched.reported = a.ended.map c.pid
  mmu : MmuInv c.toSetup (fun _ => True) s.mmu
  procInv : ∀ p, ProcInv c p (s.proc p)
  procAt : ∀ p, ProcAt c p (a.stage p) (s.proc p) (chan (c.pid p) s.q3) (s.mmu.mem.sm1 p)

theorem Config.pid_ne_one (c : Config k) (p : Fin k) : c.pid p ≠ 1 := by
  have := c.pid_gt p
  omega

theorem Config.pid_ne {c : Config k} {p q : Fin k} (h : q ≠ p) : c.pid q ≠ c.pid p := fun he => h (c.pid_inj he)

/-! ## What a step can do -/

/-- What a step does when the token machine is in state `a`, and the state that machine is in afterwards. -/
inductive Move (c : Config k) (a : Abs k) (s : Sys k) : Abs k → Sys k → Prop
  | arrive (p) (h : p ∉ a.started) (hpc : (s.proc p).pc = .sendReady) :
      Move c a s { a with ready := a.ready ++ [p] } ({ s with q1 := msgsnd s.q1 1 (c.pid p) }.setProc p
        { s.proc p with out := (s.proc p).out ++ [ProcLine.started], pc := .recvWake })
  | start (p) (q1) (h : a.ctl = .woken p) (hpc : (s.proc p).pc = .recvWake)
      (hq : msgrcv (c.pid p) s.q1 = some (c.pid p, q1)) :
      Move c a s { a with ctl := .running p } ({ s with q1 := q1 }.setProc p { s.proc p with pc := .loop })
  | resume (p) (q1) (h : a.ctl = .woken p) (hpc : (s.proc p).pc = .recvLoaded)
      (hq : msgrcv (c.pid p) s.q1 = some (c.pid p, q1)) :
      Move c a s { a with ctl := .running p } ({ s with q1 := q1 }.setProc p (procLoaded (s.proc p)))
  | ask (p) (page : ℕ) (h : a.ctl = .running p) (hpage : (c.refs p)[(s.proc p).served.length]? = some page) :
      Move c a s { a with ctl := .asked p page } ({ s with q3 := msgsnd s.q3 1 (c.pid p, (page : Int)) }.setProc p
        { s.proc p with
          prevI := (s.proc p).i, page := page, i := offset (c.refs p) ((s.proc p).served.length + 1), pc := .recvReply })
  | finish (p) (h : a.ctl = .running p) (hn : (s.proc p).served.length = (c.refs p).length) :
      Move c a s { a with ctl := .gone p } ({ s with q3 := msgsnd s.q3 1 (c.pid p, -9) }.setProc p
        { s.proc p with out := (s.proc p).out ++ [ProcLine.gotAll, ProcLine.terminating], pc := .exited })
  | readFault (p) (q3) (h : a.stage p = .waiting) (hpc : (s.proc p).pc = .recvReply)
      (hq : msgrcv (c.pid p) s.q3 = some ((c.pid p, -1), q3)) :
      Move c a s a ({ s with q3 := q3 }.setProc p (procReply (-1) (s.proc p)))
  | readIllegal (p) (q3) (h : a.stage p = .ended) (hpc : (s.proc p).pc = .recvReply)
      (hq : msgrcv (c.pid p) s.q3 = some ((c.pid p, -2), q3)) :
      Move c a s a ({ s with q3 := q3 }.setProc p (procReply (-2) (s.proc p)))
  | readFrame (p) (q3) (f : ℕ) (h : a.ctl = .told p) (hq : msgrcv (c.pid p) s.q3 = some ((c.pid p, (f : Int)), q3)) :
      Move c a s { a with ctl := .running p } ({ s with q3 := q3 }.setProc p (procReply f (s.proc p)))
  | pick (p) (rest) (q1) (h : a.ctl = .idle) (hr : a.ready = p :: rest) (hq : msgrcv 1 s.q1 = some (c.pid p, q1)) :
      Move c a s { a with ctl := .toWake p, ready := rest } { s with
        q1 := q1
        sched := { s.sched with pc := .sendWake (c.pid p), out := s.sched.out ++ [SchedLine.scheduling (c.pid p)] } }
  | wake (p) (h : a.ctl = .toWake p) :
      Move c a s { a with ctl := .woken p }
        { s with q1 := msgsnd s.q1 (c.pid p) (c.pid p), sched := { s.sched with pc := .recvMmu } }
  | note (p) (h : a.ctl = .posted p .loaded) :
      Move c a s { a with ctl := .toReady p } { s with
        q2 := []
        sched := { s.sched with
          pc := .sendReady (c.pid p), out := s.sched.out ++ [SchedLine.addedToReady (c.pid p)] } }
  | report (p) (h : a.ctl = .posted p .ended) :
      Move c a s { a with ctl := if 0 < s.sched.k - 1 then .idle else .done, ended := a.ended ++ [p] } { s with
        q2 := []
        sched := schedLoop { s.sched with
          k := s.sched.k - 1, out := s.sched.out ++ [SchedLine.terminated (c.pid p)] } }
  | requeue (p) (h : a.ctl = .toReady p) :
      Move c a s { a with ctl := .idle, ready := a.ready ++ [p] }
        { s with q1 := msgsnd s.q1 1 (c.pid p), sched := { s.sched with pc := .recvReady } }
  | hit (p) (page : ℕ) (q3) (m) (h : a.ctl = .asked p page) (hq : msgrcv 1 s.q3 = some ((c.pid p, (page : Int)), q3))
      (hm : Received c.toSetup s.mmu p page m) (hpc : m.pc = .hit p page) :
      Move c a s { a with ctl := .answering p page } { s with q3 := q3, mmu := m }
  | fault (p) (page : ℕ) (q3) (m) (h : a.ctl = .asked p page)
      (hq : msgrcv 1 s.q3 = some ((c.pid p, (page : Int)), q3)) (hm : Received c.toSetup s.mmu p page m)
      (hpc : m.pc = .fault p page) :
      Move c a s { a with ctl := .faulting p page } { s with q3 := q3, mmu := m }
  | refuse (p) (page : ℕ) (q3) (m) (h : a.ctl = .asked p page)
      (hq : msgrcv 1 s.q3 = some ((c.pid p, (page : Int)), q3)) (hm : Received c.toSetup s.mmu p page m)
      (hpc : m.pc = .illegal p) :
      Move c a s { a with ctl := .refusing p } { s with q3 := q3, mmu := m }
  | release (p) (q3) (m) (h : a.ctl = .gone p) (hq : msgrcv 1 s.q3 = some ((c.pid p, -9), q3))
      (hm : Received c.toSetup s.mmu p (-9) m) :
      Move c a s { a with ctl := .posting p .ended } { s with q3 := q3, mmu := m }
  | lost (p) (page : Int) (t) (q3) (h : a.ctl.requests c = [(c.pid p, page)]) (ht : CtlStep a.ctl t)
      (hex : t.mmuPc = .exited) (hp : maxProcesses ≤ p.val) (hq : msgrcv 1 s.q3 = some ((c.pid p, page), q3)) :
      Move c a s { a with ctl := t } { s with q3 := q3, mmu := { s.mmu with
        timestamp := intSucc s.mmu.timestamp, msg3Pid := c.pid p, pc := .exited, out := s.mmu.out ++ [MmuLine.pidNotFound] } }
  | answer (p) (page : ℕ) (h : a.ctl = .answering p page) :
      Move c a s { a with ctl := .told p } { s with
        q3 := msgsnd s.q3 (c.pid p) (c.pid p, (s.mmu.mem.row p page).frame), mmu := { s.mmu with pc := .recv } }
  | turnAway (p) (h : a.ctl = .refusing p) :
      Move c a s { a with ctl := .posting p .ended } { s with
        q3 := msgsnd s.q3 (c.pid p) (c.pid p, -2)
        mmu := { s.mmu with mem := freeFrames s.mmu.mem p, pc := .post p 2 } }
  | load (p) (page : ℕ) (mem) (sv) (out) (h : a.ctl = .faulting p page)
      (hsv : Served c.toSetup s.mmu.mem p page s.mmu.timestamp mem sv) :
      Move c a s { a with ctl := .posting p .loaded } { s with
        q3 := msgsnd s.q3 (c.pid p) (c.pid p, -1), mmu := { s.mmu with mem := mem, pc := .post p 1, out := out } }
  | post (p) (n) (h : a.ctl = .posting p n) :
      Move c a s { a with ctl := .posted p n }
        { s with q2 := msgsnd s.q2 n.mtype (c.pid p), mmu := { s.mmu with pc := .recv } }

/-- **A step of the code is a step of the token machine, or none of its.** -/
theorem Move.token {c : Config k} {a a' : Abs k} {s s' : Sys k} (h : Move c a s a' s') : a' = a ∨ TokenStep a a' := by
  cases h with
  | arrive p h => exact Or.inr (.arrive p h)
  | start p q1 h => exact Or.inr (.ctl (h ▸ .run p))
  | resume p q1 h => exact Or.inr (.ctl (h ▸ .run p))
  | ask p page h => exact Or.inr (.ctl (h ▸ .ask p page))
  | finish p h => exact Or.inr (.ctl (h ▸ .finish p))
  | readFault p q3 h => exact Or.inl rfl
  | readIllegal p q3 h => exact Or.inl rfl
  | readFrame p q3 f h => exact Or.inr (.ctl (h ▸ .read p))
  | pick p rest q1 h hr => exact Or.inr (.pick p rest h hr)
  | wake p h => exact Or.inr (.ctl (h ▸ .wake p))
  | note p h => exact Or.inr (.ctl (h ▸ .note p))
  | report p h => exact Or.inr (.report p _ h (by split <;> simp))
  | requeue p h => exact Or.inr (.requeue p h)
  | hit p page q3 m h => exact Or.inr (.ctl (h ▸ .hit p page))
  | fault p page q3 m h => exact Or.inr (.ctl (h ▸ .fault p page))
  | refuse p page q3 m h => exact Or.inr (.ctl (h ▸ .refuse p page))
  | release p q3 m h => exact Or.inr (.ctl (h ▸ .release p))
  | lost p page t q3 h ht => exact Or.inr (.ctl ht)
  | answer p page h => exact Or.inr (.ctl (h ▸ .answer p page))
  | turnAway p h => exact Or.inr (.ctl (h ▸ .turnAway p))
  | load p page mem sv out h => exact Or.inr (.ctl (h ▸ .load p page))
  | post p n h => exact Or.inr (.ctl (h ▸ .post p n))

section Next

variable {c : Config k} {a : Abs k} {s s' : Sys k} {p : Fin k}

/-- A process without the token is unstarted, waiting or ended. -/
theorem holder_of_stage (hu : a.stage p ≠ .unstarted) (hw : a.stage p ≠ .waiting) (he : a.stage p ≠ .ended) :
    a.ctl.holder = some p := by
  by_contra hc
  unfold Abs.stage at hu hw he
  rw [if_neg hc] at hu hw he
  split at hw
  · exact hw rfl
  · rename_i hr
    rw [if_neg hr] at hu he
    split at hu
    · rename_i ho
      exact he (if_pos ho)
    · exact hu rfl

theorem ctl_of_running (h : a.stage p = .running) : a.ctl = .running p := by
  have hc : a.ctl.holder = some p := holder_of_stage (by simp [h]) (by simp [h]) (by simp [h])
  rw [stage_holder hc] at h
  cases hctl : a.ctl with
  | running q => rw [hctl] at hc; rw [Option.some.inj hc]
  | posting q n => rw [hctl] at h; cases n <;> cases h
  | posted q n => rw [hctl] at h; cases n <;> cases h
  | _ => rw [hctl] at h; cases h

theorem ctl_of_told (h : a.stage p = .told) : a.ctl = .told p := by
  have hc : a.ctl.holder = some p := holder_of_stage (by simp [h]) (by simp [h]) (by simp [h])
  rw [stage_holder hc] at h
  cases hctl : a.ctl with
  | told q => rw [hctl] at hc; rw [Option.some.inj hc]
  | posting q n => rw [hctl] at h; cases n <;> cases h
  | posted q n => rw [hctl] at h; cases n <;> cases h
  | _ => rw [hctl] at h; cases h

/-- A wake-up that can be received is the one the token machine shows. -/
theorem Sim.wake_up (h : Sim c a s) {b : Int} {q1 : MsgQueue Int} (hr : msgrcv (c.pid p) s.q1 = some (b, q1)) :
    a.ctl = .woken p ∧ b = c.pid p := by
  have hc := (msgrcv_eq_some hr).1
  rw [h.wake p] at hc
  split at hc
  · rename_i hctl
    exact ⟨hctl, (List.cons.inj hc).1.symm⟩
  · cases hc

theorem sched_move (h : Sim c a s) (hs : schedNext s = some s') : ∃ a', Move c a s a' s' := by
  have hpc := h.schedPc
  have hq := h.posts
  unfold schedNext at hs
  cases hctl : a.ctl with
  | idle =>
    rw [hctl] at hpc
    simp only [hpc, Ctl.schedPc] at hs
    obtain ⟨⟨b, q1⟩, hr, rfl⟩ := Option.map_eq_some_iff.1 hs
    have hc := (msgrcv_eq_some hr).1
    rw [h.ready] at hc
    obtain ⟨p, rest, hready, rfl, -⟩ := List.map_eq_cons_iff.1 hc
    exact ⟨_, .pick p rest q1 hctl hready hr⟩
  | done =>
    rw [hctl] at hpc
    simp only [hpc, Ctl.schedPc] at hs
    cases hs
  | toWake p =>
    rw [hctl] at hpc
    simp only [hpc, Ctl.schedPc] at hs
    obtain rfl := Option.some.inj hs
    exact ⟨_, .wake p hctl⟩
  | toReady p =>
    rw [hctl] at hpc
    simp only [hpc, Ctl.schedPc] at hs
    obtain rfl := Option.some.inj hs
    have hk : 0 < s.sched.k := by
      refine Nat.pos_of_ne_zero fun h0 => ?_
      rw [← h.done, hctl] at h0
      cases h0
    unfold schedLoop
    rw [if_pos hk]
    exact ⟨_, .requeue p hctl⟩
  | posted p n =>
    rw [hctl] at hpc hq
    simp only [hpc, Ctl.schedPc, hq, Ctl.posts, msgrcvAny, Option.map_some] at hs
    obtain rfl := Option.some.inj hs
    cases n with
    | loaded => exact ⟨_, .note p hctl⟩
    | ended => exact ⟨_, .report p hctl⟩
  | _ =>
    rw [hctl] at hpc hq
    simp only [hpc, Ctl.schedPc, hq, Ctl.posts, msgrcvAny, Option.map_none] at hs
    cases hs

theorem proc_move (h : Sim c a s) (hs : procNext c p s = some s') : ∃ a', Move c a s a' s' := by
  have hat := h.procAt p
  unfold procNext at hs
  cases hpc : (s.proc p).pc with
  | sendReady =>
    simp only [hpc] at hs
    obtain rfl := Option.some.inj hs
    refine ⟨_, .arrive p (stage_eq_unstarted.1 ?_) hpc⟩
    cases hst : a.stage p <;> rw [hst] at hat <;> simp [ProcAt, hpc] at hat ⊢
  | recvWake =>
    simp only [hpc] at hs
    obtain ⟨⟨b, q1⟩, hr, rfl⟩ := Option.map_eq_some_iff.1 hs
    obtain ⟨hctl, rfl⟩ := h.wake_up hr
    exact ⟨_, .start p q1 hctl hpc hr⟩
  | recvLoaded =>
    simp only [hpc] at hs
    obtain ⟨⟨b, q1⟩, hr, rfl⟩ := Option.map_eq_some_iff.1 hs
    obtain ⟨hctl, rfl⟩ := h.wake_up hr
    exact ⟨_, .resume p q1 hctl hpc hr⟩
  | loop =>
    have hrun : a.ctl = .running p := by
      apply ctl_of_running
      cases hst : a.stage p <;> rw [hst] at hat <;> simp [ProcAt, hpc] at hat ⊢
    simp only [hpc] at hs
    obtain rfl := Option.some.inj hs
    rcases procLoop_spec (h.procInv p) hpc with ⟨page, hn, he⟩ | ⟨hn, he⟩
    · rw [he]
      exact ⟨_, .ask p page hrun hn⟩
    · rw [he]
      exact ⟨_, .finish p hrun hn⟩
  | recvReply =>
    simp only [hpc] at hs
    obtain ⟨⟨b, q3⟩, hr, rfl⟩ := Option.map_eq_some_iff.1 hs
    have hc := (msgrcv_eq_some hr).1
    cases hst : a.stage p with
    | waiting =>
      rw [hst] at hat
      rcases hat.1 with ⟨hw, -⟩ | ⟨-, he⟩
      · simp [hpc] at hw
      · rw [he] at hc
        obtain rfl := (List.cons.inj hc).1
        exact ⟨_, .readFault p q3 hst hpc hr⟩
    | told =>
      rw [hst] at hat
      obtain ⟨-, -, page, f, -, -, -, he⟩ := hat
      rw [he] at hc
      obtain rfl := (List.cons.inj hc).1
      exact ⟨_, .readFrame p q3 f (ctl_of_told hst) hr⟩
    | ended =>
      rw [hst] at hat
      rcases hat.1 with ⟨-, -, he, -⟩ | ⟨hw, -⟩
      · rw [he] at hc
        obtain rfl := (List.cons.inj hc).1
        exact ⟨_, .readIllegal p q3 hst hpc hr⟩
      · rw [hpc] at hw; cases hw
    | unstarted => rw [hst] at hat; rw [hat.2.1] at hc; cases hc
    | running => rw [hst] at hat; rw [hat.2.1] at hc; cases hc
    | asking page => rw [hst] at hat; rw [hat.2.2.1] at hc; cases hc
    | refusing => rw [hst] at hat; rw [hat.2.2.1] at hc; cases hc
    | gone => rw [hst] at hat; rw [hat.2.2.1] at hc; cases hc
  | exited =>
    simp only [hpc] at hs
    cases hs

/-- The MMU can take the request that the token machine shows, and no other. -/
theorem request_taken {d : Int × Int} {f : (Int × Int) × MsgQueue (Int × Int) → Sys k} (hd : chan 1 s.q3 = [d])
    (hs : (msgrcv 1 s.q3).map f = some s') : ∃ q3, msgrcv 1 s.q3 = some (d, q3) ∧ f (d, q3) = s' := by
  obtain ⟨⟨b, q3⟩, hr, rfl⟩ := Option.map_eq_some_iff.1 hs
  have hc := (msgrcv_eq_some hr).1
  rw [hd] at hc
  obtain rfl := (List.cons.inj hc).1
  exact ⟨q3, hr, rfl⟩

theorem mmu_move (h : Sim c a s) (hs : mmuNext s = some s') : ∃ a', Move c a s a' s' := by
  have hpc := h.mmuPc
  have hq := h.requests
  have hserved := h.served
  unfold mmuNext at hs
  cases hctl : a.ctl with
  | asked p page =>
    rw [hctl] at hpc hq
    simp only [hpc, Ctl.mmuPc] at hs
    obtain ⟨q3, hr, rfl⟩ := request_taken hq hs
    by_cases hp : p.val < maxProcesses
    · have hrec : Received c.toSetup s.mmu p page (mmuReceive s.mmu (c.pid p) page) :=
        mmuReceive_received h.mmu.tables hp (Or.inr (by omega))
      rcases hrec.pc_cases rfl with hm | hm | hm
      · exact ⟨_, .hit p page q3 _ hctl hr hrec hm⟩
      · exact ⟨_, .fault p page q3 _ hctl hr hrec hm⟩
      · exact ⟨_, .refuse p page q3 _ hctl hr hrec hm⟩
    · have he := mmuReceive_unknown (c := c.toSetup) (s := s.mmu) (p := p) page
        (by rw [processIdx_pid h.mmu.tables, if_neg hp])
      have ht : CtlStep a.ctl (.lostAsk p page) := hctl ▸ CtlStep.lostAsk p page
      simp only [he]
      exact ⟨_, .lost p page _ q3 (by rw [hctl]; rfl) ht rfl (not_lt.1 hp) hr⟩
  | gone p =>
    rw [hctl] at hpc hq
    simp only [hpc, Ctl.mmuPc] at hs
    obtain ⟨q3, hr, rfl⟩ := request_taken hq hs
    by_cases hp : p.val < maxProcesses
    · exact ⟨_, .release p q3 _ hctl hr (mmuReceive_received h.mmu.tables hp (Or.inl rfl))⟩
    · have he := mmuReceive_unknown (c := c.toSetup) (s := s.mmu) (p := p) (-9)
        (by rw [processIdx_pid h.mmu.tables, if_neg hp])
      have ht : CtlStep a.ctl (.lostGone p) := hctl ▸ CtlStep.lostGone p
      simp only [he]
      exact ⟨_, .lost p (-9) _ q3 (by rw [hctl]; rfl) ht rfl (not_lt.1 hp) hr⟩
  | answering p page =>
    rw [hctl] at hpc
    have hid := h.served p (by rw [hctl]; rfl)
    simp only [Ctl.mmuPc] at hpc
    have hrep : mmuReply s.mmu = some (s.mmu.mem.row p page).frame := by unfold mmuReply; rw [hpc]; rfl
    simp only [hpc, hrep, Option.map_some, mmuAfterReply_hit hpc] at hs
    obtain rfl := Option.some.inj hs
    have hm := Move.answer (s := s) (c := c) p page hctl
    rw [← hid] at hm
    exact ⟨_, hm⟩
  | faulting p page =>
    rw [hctl] at hpc
    have hid := h.served p (by rw [hctl]; rfl)
    simp only [Ctl.mmuPc] at hpc
    have hrep : mmuReply s.mmu = some (-1) := by unfold mmuReply; rw [hpc]
    obtain ⟨mem, sv, out, hsv, he⟩ := mmuAfterReply_fault h.mmu hpc
    simp only [hpc, hrep, Option.map_some, he] at hs
    obtain rfl := Option.some.inj hs
    have hm := Move.load (c := c) p page mem sv out hctl hsv
    rw [← hid] at hm
    exact ⟨_, hm⟩
  | refusing p =>
    rw [hctl] at hpc
    have hid := h.served p (by rw [hctl]; rfl)
    simp only [Ctl.mmuPc] at hpc
    have hrep : mmuReply s.mmu = some (-2) := by unfold mmuReply; rw [hpc]
    simp only [hpc, hrep, Option.map_some, mmuAfterReply_illegal hpc] at hs
    obtain rfl := Option.some.inj hs
    have hm := Move.turnAway (s := s) (c := c) p hctl
    rw [← hid] at hm
    exact ⟨_, hm⟩
  | posting p n =>
    rw [hctl] at hpc
    have hid := h.served p (by rw [hctl]; rfl)
    simp only [Ctl.mmuPc] at hpc
    simp only [hpc, mmuAfterPost_post hpc] at hs
    obtain rfl := Option.some.inj hs
    have hm := Move.post (s := s) (c := c) p n hctl
    rw [← hid] at hm
    exact ⟨_, hm⟩
  | lostAsk p page =>
    rw [hctl] at hpc
    simp only [hpc, Ctl.mmuPc] at hs
    cases hs
  | lostGone p =>
    rw [hctl] at hpc
    simp only [hpc, Ctl.mmuPc] at hs
    cases hs
  | _ =>
    rw [hctl] at hpc hq
    simp only [hpc, Ctl.mmuPc, msgrcv_eq_none.2 hq, Option.map_none] at hs
    cases hs

/-- **What any party can do.** -/
theorem next_move (h : Sim c a s) {x : Party k} (hs : next c x s = some s') : ∃ a', Move c a s a' s' := by
  cases x with
  | sched => exact sched_move h hs
  | mmu => exact mmu_move h hs
  | proc p => exact proc_move h hs

end Next

/-! ## The relation survives every step -/

@[simp] theorem setProc_q1 (s : Sys k) (p : Fin k) (pr : Proc) : (s.setProc p pr).q1 = s.q1 := rfl
@[simp] theorem setProc_q3 (s : Sys k) (p : Fin k) (pr : Proc) : (s.setProc p pr).q3 = s.q3 := rfl
@[simp] theorem setProc_sched (s : Sys k) (p : Fin k) (pr : Proc) : (s.setProc p pr).sched = s.sched := rfl
@[simp] theorem setProc_mmu (s : Sys k) (p : Fin k) (pr : Proc) : (s.setProc p pr).mmu = s.mmu := rfl

@[simp] theorem setProc_self (s : Sys k) (p : Fin k) (pr : Proc) : (s.setProc p pr).proc p = pr := by
  unfold Sys.setProc
  exact Function.update_self p pr s.proc

theorem setProc_ne (s : Sys k) {p q : Fin k} (pr : Proc) (h : q ≠ p) : (s.setProc p pr).proc q = s.proc q := by
  unfold Sys.setProc
  exact Function.update_of_ne h pr s.proc

section Frames

variable {c : Config k} {a : Abs k} {s s' : Sys k} {p : Fin k}

/-- The stage of the process the token is with. -/
theorem Sim.at_holder (h : Sim c a s) (hp : a.ctl.holder = some p) :
    ProcAt c p a.ctl.stage (s.proc p) (chan (c.pid p) s.q3) (s.mmu.mem.sm1 p) := by
  have := h.procAt p
  rwa [stage_holder hp] at this

/-- Everyone but `p` is as before. -/
theorem Sim.procAt_of_ne (h : Sim c a s) {a' : Abs k} (hst : ∀ q, q ≠ p → a'.stage q = a.stage q)
    (hpr : ∀ q, q ≠ p → s'.proc q = s.proc q) (hch : ∀ q, q ≠ p → chan (c.pid q) s'.q3 = chan (c.pid q) s.q3)
    (hsm : ∀ q, q ≠ p → s'.mmu.mem.sm1 q = s.mmu.mem.sm1 q)
    (hp : ProcAt c p (a'.stage p) (s'.proc p) (chan (c.pid p) s'.q3) (s'.mmu.mem.sm1 p)) (q : Fin k) :
    ProcAt c q (a'.stage q) (s'.proc q) (chan (c.pid q) s'.q3) (s'.mmu.mem.sm1 q) := by
  by_cases hq : q = p
  · subst hq; exact hp
  · rw [hst q hq, hpr q hq, hch q hq, hsm q hq]
    exact h.procAt q

/-- The token goes on with its process. -/
theorem Sim.procAt_ctl (h : Sim c a s) {t : Ctl k} (hold : a.ctl.holder = some p) (hold' : t.holder = some p)
    (hpr : ∀ q, q ≠ p → s'.proc q = s.proc q) (hch : ∀ q, q ≠ p → chan (c.pid q) s'.q3 = chan (c.pid q) s.q3)
    (hsm : ∀ q, q ≠ p → s'.mmu.mem.sm1 q = s.mmu.mem.sm1 q)
    (hp : ProcAt c p t.stage (s'.proc p) (chan (c.pid p) s'.q3) (s'.mmu.mem.sm1 p)) (q : Fin k) :
    ProcAt c q (Abs.stage { a with ctl := t } q) (s'.proc q) (chan (c.pid q) s'.q3) (s'.mmu.mem.sm1 q) := by
  refine h.procAt_of_ne (p := p) (fun q hq => ?_) hpr hch hsm ?_ q
  · refine stage_congr ?_ ?_ Iff.rfl Iff.rfl
    · rw [hold]; exact fun he => hq (Option.some.inj he).symm
    · simp only [hold']; exact fun he => hq (Option.some.inj he).symm
  · rw [stage_holder hold']
    exact hp

/-- Nobody's process invariant changes but that of `p`. -/
theorem Sim.procInv_setProc (h : Sim c a s) (s' : Sys k) {pr : Proc} (hs : s'.proc = s.proc) (hp : ProcInv c p pr)
    (q : Fin k) : ProcInv c q ((s'.setProc p pr).proc q) := by
  by_cases hq : q = p
  · subst hq; rw [setProc_self]; exact hp
  · rw [setProc_ne _ _ hq, hs]; exact h.procInv q

theorem wake_consumed {ready ended : List (Fin k)} (h : Sim c ⟨.woken p, ready, ended⟩ s) {b : Int} {q1 : MsgQueue Int}
    (hq : msgrcv (c.pid p) s.q1 = some (b, q1)) : chan 1 q1 = chan 1 s.q1 ∧ ∀ q, chan (c.pid q) q1 = [] := by
  obtain ⟨h1, h2⟩ := msgrcv_eq_some hq
  refine ⟨h2 1 (c.pid_ne_one p).symm, fun q => ?_⟩
  by_cases hqp : q = p
  · subst hqp
    rw [h.wake q, if_pos rfl] at h1
    exact (List.cons.inj h1).2.symm
  · rw [h2 _ (Config.pid_ne hqp), h.wake q, if_neg fun he => hqp (Ctl.woken.inj he).symm]

theorem reply_consumed {b : Int × Int} {q3 : MsgQueue (Int × Int)} (hq : msgrcv (c.pid p) s.q3 = some (b, q3))
    (hb : ∃ d, chan (c.pid p) s.q3 = [d]) :
    chan (c.pid p) q3 = [] ∧ chan 1 q3 = chan 1 s.q3 ∧ ∀ q, q ≠ p → chan (c.pid q) q3 = chan (c.pid q) s.q3 := by
  obtain ⟨h1, h2⟩ := msgrcv_eq_some hq
  obtain ⟨d, hd⟩ := hb
  rw [hd] at h1
  exact ⟨(List.cons.inj h1).2.symm, h2 1 (c.pid_ne_one p).symm, fun q hqp => h2 _ (Config.pid_ne hqp)⟩

theorem request_consumed {b d : Int × Int} {q3 : MsgQueue (Int × Int)} (hq : msgrcv 1 s.q3 = some (b, q3))
    (hd : chan 1 s.q3 = [d]) : chan 1 q3 = [] ∧ ∀ q, chan (c.pid q) q3 = chan (c.pid q) s.q3 := by
  obtain ⟨h1, h2⟩ := msgrcv_eq_some hq
  rw [hd] at h1
  exact ⟨(List.cons.inj h1).2.symm, fun q => h2 _ (c.pid_ne_one q)⟩

theorem chan_reply (c : Config k) (q3 : MsgQueue (Int × Int)) (p : Fin k) (b : Int × Int) :
    chan 1 (msgsnd q3 (c.pid p) b) = chan 1 q3 ∧ chan (c.pid p) (msgsnd q3 (c.pid p) b) = chan (c.pid p) q3 ++ [b] ∧
      ∀ q, q ≠ p → chan (c.pid q) (msgsnd q3 (c.pid p) b) = chan (c.pid q) q3 := by
  refine ⟨?_, ?_, fun q hq => ?_⟩
  · rw [chan_msgsnd, if_neg (c.pid_ne_one p)]
  · rw [chan_msgsnd, if_pos rfl]
  · rw [chan_msgsnd, if_neg (Config.pid_ne (Ne.symm hq))]

theorem chan_request (c : Config k) (q3 : MsgQueue (Int × Int)) (b : Int × Int) :
    chan 1 (msgsnd q3 1 b) = chan 1 q3 ++ [b] ∧ ∀ q, chan (c.pid q) (msgsnd q3 1 b) = chan (c.pid q) q3 := by
  refine ⟨?_, fun q => ?_⟩
  · rw [chan_msgsnd, if_pos rfl]
  · rw [chan_msgsnd, if_neg (c.pid_ne_one q).symm]

end Frames

theorem reported_append (sc : Sched) (l : SchedLine) (pc : SchedPc) (n : ℕ) :
    Sched.reported { pc := pc, k := n, out := sc.out ++ [l] } = sc.reported ++ l.terminated?.toList := by
  unfold Sched.reported
  cases l <;> simp [SchedLine.terminated?]

theorem schedLoop_pos {sc : Sched} (h : 0 < sc.k) : schedLoop sc = { sc with pc := .recvReady } := by
  unfold schedLoop
  rw [if_pos h]

theorem schedLoop_zero {sc : Sched} (h : ¬ 0 < sc.k) :
    schedLoop sc = { sc with pc := .done, out := sc.out ++ [SchedLine.exiting] } := by
  unfold schedLoop
  rw [if_neg h]

section Moves

variable {c : Config k} {a a' : Abs k} {s s' : Sys k} {p : Fin k}

theorem Sim.started_move (h : Sim c a s) (hm : Move c a s a' s') : a'.started.Nodup := by
  rcases hm.token with rfl | ht
  · exact h.started
  · exact ht.nodup h.started

/-- The token passes between a process and the MMU: the scheduler sees no difference. -/
structure Unseen (c : Config k) (t t' : Ctl k) : Prop where
  holder : t'.holder = t.holder
  posts : t'.posts c = t.posts c
  schedPc : t'.schedPc c = t.schedPc c
  woken : ∀ q, t' = .woken q ↔ t = .woken q
  done : t' = .done ↔ t = .done

/-- What such a step may change: queue 3, the MMU and the process `p` that has the token. -/
structure Handover (c : Config k) (p : Fin k) (t : Ctl k) (s s' : Sys k) : Prop where
  same : s'.q1 = s.q1 ∧ s'.q2 = s.q2 ∧ s'.sched = s.sched
  requests : chan 1 s'.q3 = t.requests c
  mmuPc : s'.mmu.pc = t.mmuPc
  served : ∀ q, t.served = some q → s'.mmu.msg3Pid = c.pid q
  mmu : MmuInv c.toSetup (fun _ => True) s'.mmu
  procInv : ∀ q, ProcInv c q (s'.proc q)
  proc : ∀ q, q ≠ p → s'.proc q = s.proc q
  replies : ∀ q, q ≠ p → chan (c.pid q) s'.q3 = chan (c.pid q) s.q3
  record : ∀ q, q ≠ p → s'.mmu.mem.sm1 q = s.mmu.mem.sm1 q
  procAt : ProcAt c p t.stage (s'.proc p) (chan (c.pid p) s'.q3) (s'.mmu.mem.sm1 p)

/-- **A handover between a process and the MMU keeps the relation.** -/
theorem Sim.handover {t t' : Ctl k} {ready ended : List (Fin k)} (h : Sim c ⟨t, ready, ended⟩ s) (hu : Unseen c t t')
    (hp : t.holder = some p) (ht : Handover c p t' s s') : Sim c ⟨t', ready, ended⟩ s' where
  started := by
    have := h.started
    simp only [Abs.started, hu.holder] at this ⊢
    exact this
  ready := by rw [ht.same.1]; exact h.ready
  wake q := by rw [ht.same.1, h.wake q]; simp only [hu.woken q]
  posts := by rw [ht.same.2.1]; exact h.posts.trans hu.posts.symm
  requests := ht.requests
  schedPc := by rw [ht.same.2.2]; exact h.schedPc.trans hu.schedPc.symm
  mmuPc := ht.mmuPc
  served := ht.served
  left := by rw [ht.same.2.2]; exact h.left
  done := by rw [ht.same.2.2]; exact hu.done.trans h.done
  reported := by rw [ht.same.2.2]; exact h.reported
  mmu := ht.mmu
  procInv := ht.procInv
  procAt := h.procAt_ctl hp (hu.holder.trans hp) ht.proc ht.replies ht.record ht.procAt

/-- The MMU takes the request of the process that has the token. -/
theorem Sim.received {t t' : Ctl k} {ready ended : List (Fin k)} {x : Int} {q3 : MsgQueue (Int × Int)} {m : Mmu k}
    (h : Sim c ⟨t, ready, ended⟩ s) (hu : Unseen c t t') (hp : t.holder = some p)
    (hd : t.requests c = [(c.pid p, x)]) (hq : msgrcv 1 s.q3 = some ((c.pid p, x), q3)) (hd' : t'.requests c = [])
    (hm : Received c.toSetup s.mmu p x m) (hpc : m.pc = t'.mmuPc) (hsv : t'.served = some p)
    (hrec : ∀ q, q ≠ p → m.mem.sm1 q = s.mmu.mem.sm1 q)
    (hat : ProcAt c p t'.stage (s.proc p) (chan (c.pid p) s.q3) (m.mem.sm1 p)) :
    Sim c ⟨t', ready, ended⟩ { s with q3 := q3, mmu := m } := by
  obtain ⟨h1, h2⟩ := request_consumed (c := c) hq (h.requests.trans hd)
  exact h.handover hu hp
    { same := ⟨rfl, rfl, rfl⟩, mmuPc := hpc, procInv := h.procInv, record := hrec
      requests := h1.trans hd'.symm
      served := fun q hq => by rw [hsv] at hq; cases hq; exact hm.msg3Pid
      mmu := MmuInv.received hm h.mmu.tables trivial
      proc := fun _ _ => rfl
      replies := fun q _ => h2 q
      procAt := by rw [h2 p]; exact hat }

/-- The process that is woken goes on. -/
theorem Sim.awake {ready ended : List (Fin k)} {q1 : MsgQueue Int} {pr : Proc} (h : Sim c ⟨.woken p, ready, ended⟩ s)
    (hq : msgrcv (c.pid p) s.q1 = some (c.pid p, q1)) (hpc : (s.proc p).pc ≠ .recvReply) (hi : ProcInv c p pr)
    (hpr : pr.pc = .loop) : Sim c ⟨.running p, ready, ended⟩ ({ s with q1 := q1 }.setProc p pr) := by
  obtain ⟨h1, h2⟩ := wake_consumed h hq
  obtain ⟨hw | hw, ht⟩ := h.at_holder (p := p) rfl
  · exact
      { started := h.started, posts := h.posts, requests := h.requests, schedPc := h.schedPc, mmuPc := h.mmuPc
        served := h.served, left := h.left, done := by simpa using h.done, reported := h.reported, mmu := h.mmu
        ready := h1.trans h.ready, wake := fun q => by simp [h2 q]
        procInv := h.procInv_setProc _ rfl hi
        procAt := h.procAt_ctl (p := p) rfl rfl (fun q hq => setProc_ne _ _ hq) (fun _ _ => rfl) (fun _ _ => rfl)
          ⟨by rw [setProc_self]; exact hpr, hw.2, ht⟩ }
  · exact absurd hw.1 hpc

/-- **The relation survives every step.** -/
theorem Move.sim (h : Sim c a s) (hm : Move c a s a' s') : Sim c a' s' := by
  have hn := h.started_move hm
  obtain ⟨ctl, ready, ended⟩ := a
  cases hm with
  | arrive p hp hpc =>
    have hat := h.procAt p
    rw [stage_eq_unstarted.2 hp] at hat
    rw [mem_started] at hp
    push Not at hp
    exact
      { started := hn, posts := h.posts, requests := h.requests, schedPc := h.schedPc, mmuPc := h.mmuPc
        served := h.served, left := h.left, done := h.done, reported := h.reported, mmu := h.mmu
        ready := by rw [setProc_q1, chan_msgsnd, if_pos rfl, h.ready, List.map_append]; rfl
        wake := fun q => by rw [setProc_q1, chan_msgsnd, if_neg (c.pid_ne_one q).symm]; exact h.wake q
        procInv := h.procInv_setProc _ rfl ((h.procInv p).arrive hpc)
        procAt := h.procAt_of_ne (p := p)
          (fun q hq => by
            by_cases hc : ctl.holder = some q
            · rw [stage_holder hc, stage_holder (a := ⟨ctl, ready, ended⟩) hc]
            · exact stage_congr hc hc (by simp [hq]) Iff.rfl)
          (fun q hq => setProc_ne _ _ hq) (fun _ _ => rfl) (fun _ _ => rfl)
          (by
            rw [stage_ready hn (by simp), setProc_self]
            exact ⟨Or.inl ⟨Or.inl rfl, hat.2.1⟩, hat.2.2.1⟩) }
  | start p q1 hctl hpc hq =>
    simp only at hctl
    subst hctl
    exact h.awake hq (by simp [hpc]) ((h.procInv p).start hpc) rfl
  | resume p q1 hctl hpc hq =>
    simp only at hctl
    subst hctl
    exact h.awake hq (by simp [hpc]) ((h.procInv p).resume hpc) rfl
  | ask p page hctl hpage =>
    simp only at hctl
    subst hctl
    obtain ⟨hpc, hch, ht⟩ := h.at_holder (p := p) rfl
    obtain ⟨h1, h2⟩ := chan_request c s.q3 (c.pid p, (page : Int))
    exact h.handover ⟨rfl, rfl, rfl, by simp, by simp⟩ rfl
      { same := ⟨rfl, rfl, rfl⟩, mmuPc := h.mmuPc, served := h.served, mmu := h.mmu
        requests := h1.trans (by rw [h.requests]; rfl)
        procInv := h.procInv_setProc _ rfl ((h.procInv p).ask hpc hpage)
        proc := fun q hq => setProc_ne _ _ hq
        replies := fun q _ => h2 q
        record := fun _ _ => rfl
        procAt := ⟨by rw [setProc_self], by rw [setProc_self], (h2 p).trans hch, ht⟩ }
  | finish p hctl hlen =>
    simp only at hctl
    subst hctl
    obtain ⟨hpc, hch, ht⟩ := h.at_holder (p := p) rfl
    obtain ⟨h1, h2⟩ := chan_request c s.q3 (c.pid p, -9)
    exact h.handover ⟨rfl, rfl, rfl, by simp, by simp⟩ rfl
      { same := ⟨rfl, rfl, rfl⟩, mmuPc := h.mmuPc, served := h.served, mmu := h.mmu
        requests := h1.trans (by rw [h.requests]; rfl)
        procInv := h.procInv_setProc _ rfl ((h.procInv p).finish hpc hlen)
        proc := fun q hq => setProc_ne _ _ hq
        replies := fun q _ => h2 q
        record := fun _ _ => rfl
        procAt := ⟨by rw [setProc_self], by rw [setProc_self]; simp, (h2 p).trans hch, ht⟩ }
  | readFault p q3 hst hpc hq =>
    have hat := h.procAt p
    rw [hst] at hat
    obtain ⟨hw | hw, ht⟩ := hat
    · rw [hpc] at hw; rcases hw.1 with hw | hw <;> cases hw
    · obtain ⟨h1, h2, h3⟩ := reply_consumed hq ⟨_, hw.2⟩
      exact
        { started := hn, ready := h.ready, wake := h.wake, posts := h.posts, schedPc := h.schedPc, mmuPc := h.mmuPc
          served := h.served, left := h.left, done := h.done, reported := h.reported, mmu := h.mmu
          requests := h2.trans h.requests
          procInv := h.procInv_setProc _ rfl ((h.procInv p).readFault hpc)
          procAt := h.procAt_of_ne (p := p) (fun _ _ => rfl) (fun q hq => setProc_ne _ _ hq) h3 (fun _ _ => rfl)
            (by rw [hst]; exact ⟨Or.inl ⟨Or.inr (by rw [setProc_self]; rfl), h1⟩, ht⟩) }
  | readIllegal p q3 hst hpc hq =>
    have hat := h.procAt p
    rw [hst] at hat
    obtain ⟨hw | hw, hu⟩ := hat
    · obtain ⟨h1, h2, h3⟩ := reply_consumed hq ⟨_, hw.2.2.1⟩
      exact
        { started := hn, ready := h.ready, wake := h.wake, posts := h.posts, schedPc := h.schedPc, mmuPc := h.mmuPc
          served := h.served, left := h.left, done := h.done, reported := h.reported, mmu := h.mmu
          requests := h2.trans h.requests
          procInv := h.procInv_setProc _ rfl ((h.procInv p).readIllegal hpc hw.2.1)
          procAt := h.procAt_of_ne (p := p) (fun _ _ => rfl) (fun q hq => setProc_ne _ _ hq) h3 (fun _ _ => rfl)
            (by
              rw [hst, setProc_self]
              exact ⟨Or.inr ⟨rfl, h1, Or.inr ⟨by simp [procReply], hw.2.2.2⟩⟩, hu⟩) }
    · rw [hpc] at hw; cases hw.1
  | readFrame p q3 f hctl hq =>
    simp only at hctl
    subst hctl
    obtain ⟨hpc, ht, page, f', hpage, hlt, hf, hch⟩ := h.at_holder (p := p) rfl
    obtain ⟨h1, h2, h3⟩ := reply_consumed hq ⟨_, hch⟩
    obtain ⟨hi, -, hpc'⟩ := (h.procInv p).readFrame (f := f) hpc (by rw [hpage]; exact_mod_cast hlt)
    exact h.handover ⟨rfl, rfl, rfl, by simp, by simp⟩ rfl
      { same := ⟨rfl, rfl, rfl⟩, mmuPc := h.mmuPc, served := h.served, mmu := h.mmu
        requests := h2.trans h.requests
        procInv := h.procInv_setProc _ rfl hi
        proc := fun q hq => setProc_ne _ _ hq
        replies := h3
        record := fun _ _ => rfl
        procAt := ⟨by rw [setProc_self]; exact hpc', h1, ht⟩ }
  | pick p rest q1 hctl hr hq =>
    simp only at hctl hr
    subst hctl hr
    obtain ⟨h1, h2⟩ := msgrcv_eq_some hq
    rw [h.ready, List.map_cons] at h1
    have hp := h.procAt p
    rw [stage_ready h.started List.mem_cons_self] at hp
    exact
      { started := hn, posts := h.posts, requests := h.requests, mmuPc := h.mmuPc, served := h.served, left := h.left
        mmu := h.mmu, procInv := h.procInv
        ready := (List.cons.inj h1).2.symm
        wake := fun q => by rw [h2 _ (c.pid_ne_one q), h.wake q]; simp
        schedPc := rfl
        done := by simpa using h.done
        reported := by simpa [reported_append, SchedLine.terminated?] using h.reported
        procAt := h.procAt_of_ne (p := p)
          (fun q hq => stage_congr (by simp [Ctl.holder]) (by simpa [Ctl.holder] using Ne.symm hq) (by simp [hq]) Iff.rfl)
          (fun _ _ => rfl) (fun _ _ => rfl) (fun _ _ => rfl) (by rw [stage_holder (p := p) rfl]; exact hp) }
  | wake p hctl =>
    simp only at hctl
    subst hctl
    exact
      { started := hn, posts := h.posts, requests := h.requests, mmuPc := h.mmuPc, served := h.served, left := h.left
        reported := h.reported, mmu := h.mmu, procInv := h.procInv
        ready := by rw [chan_msgsnd, if_neg (c.pid_ne_one p)]; exact h.ready
        wake := fun q => by
          rw [chan_msgsnd, h.wake q]
          by_cases hq : p = q
          · subst hq; simp
          · rw [if_neg (Config.pid_ne hq), if_neg (by simp), if_neg fun he => hq (Ctl.woken.inj he)]
        schedPc := rfl
        done := by simpa using h.done
        procAt := h.procAt_ctl (p := p) rfl rfl (fun _ _ => rfl) (fun _ _ => rfl) (fun _ _ => rfl)
          (h.at_holder (p := p) rfl) }
  | note p hctl =>
    simp only at hctl
    subst hctl
    exact
      { started := hn, ready := h.ready, requests := h.requests, mmuPc := h.mmuPc, served := h.served, left := h.left
        mmu := h.mmu, procInv := h.procInv
        wake := fun q => by have := h.wake q; simpa using this
        posts := rfl
        schedPc := rfl
        done := by simpa using h.done
        reported := by simpa [reported_append, SchedLine.terminated?] using h.reported
        procAt := h.procAt_ctl (p := p) rfl rfl (fun _ _ => rfl) (fun _ _ => rfl) (fun _ _ => rfl)
          (h.at_holder (p := p) rfl) }
  | report p hctl =>
    simp only at hctl
    subst hctl
    have hk : 0 < s.sched.k := Nat.pos_of_ne_zero fun h0 => by have := h.done.2 h0; simp at this
    have hp := h.at_holder (p := p) rfl
    have hleft := h.left
    have hrep : s.sched.reported ++ [c.pid p] = (ended ++ [p]).map c.pid := by rw [h.reported, List.map_append]; rfl
    have hstage : ∀ t : Ctl k, t.holder = none → ∀ q, q ≠ p →
        Abs.stage ⟨t, ready, ended ++ [p]⟩ q = Abs.stage ⟨.posted p .ended, ready, ended⟩ q := fun t ht q hq =>
      stage_congr (by simpa [Ctl.holder] using Ne.symm hq) (by rw [ht]; simp) Iff.rfl (by simp [hq])
    by_cases hk' : 0 < s.sched.k - 1
    · simp only [if_pos hk'] at hn ⊢
      rw [schedLoop_pos hk']
      exact
        { started := hn, ready := h.ready, requests := h.requests, mmuPc := h.mmuPc, served := by simp [Ctl.served]
          mmu := h.mmu, procInv := h.procInv
          wake := fun q => by have := h.wake q; simpa using this
          posts := rfl
          schedPc := rfl
          left := by simp only [List.length_append, List.length_singleton] at hleft ⊢; omega
          done := by simp only [reduceCtorEq, false_iff]; omega
          reported := by rw [reported_append]; exact hrep
          procAt := h.procAt_of_ne (p := p) (hstage .idle rfl) (fun _ _ => rfl) (fun _ _ => rfl) (fun _ _ => rfl)
            (by rw [stage_ended hn (by simp)]; exact hp) }
    · simp only [if_neg hk'] at hn ⊢
      rw [schedLoop_zero hk']
      exact
        { started := hn, ready := h.ready, requests := h.requests, mmuPc := h.mmuPc, served := by simp [Ctl.served]
          mmu := h.mmu, procInv := h.procInv
          wake := fun q => by have := h.wake q; simpa using this
          posts := rfl
          schedPc := rfl
          left := by simp only [List.length_append, List.length_singleton] at hleft ⊢; omega
          done := by simp only [true_iff]; omega
          reported := by
            rw [← hrep]
            simp [Sched.reported, SchedLine.terminated?]
          procAt := h.procAt_of_ne (p := p) (hstage .done rfl) (fun _ _ => rfl) (fun _ _ => rfl) (fun _ _ => rfl)
            (by rw [stage_ended hn (by simp)]; exact hp) }
  | requeue p hctl =>
    simp only at hctl
    subst hctl
    have hp := h.at_holder (p := p) rfl
    exact
      { started := hn, posts := h.posts, requests := h.requests, mmuPc := h.mmuPc, served := by simp [Ctl.served]
        left := h.left, reported := h.reported, mmu := h.mmu, procInv := h.procInv
        ready := by rw [chan_msgsnd, if_pos rfl, h.ready, List.map_append]; rfl
        wake := fun q => by rw [chan_msgsnd, if_neg (c.pid_ne_one q).symm, h.wake q]; simp
        schedPc := rfl
        done := by simpa using h.done
        procAt := h.procAt_of_ne (p := p)
          (fun q hq => stage_congr (by simpa [Ctl.holder] using Ne.symm hq) (by simp [Ctl.holder]) (by simp [hq]) Iff.rfl)
          (fun _ _ => rfl) (fun _ _ => rfl) (fun _ _ => rfl) (by rw [stage_ready hn (by simp)]; exact hp) }
  | hit p page q3 m hctl hq hm hpc =>
    simp only at hctl
    subst hctl
    obtain ⟨-, -, hg, hr, hmem⟩ := hm.of_hit hpc
    obtain ⟨hp1, hp2, hp3, hp4⟩ := h.at_holder (p := p) rfl
    refine h.received ⟨rfl, rfl, rfl, by simp, by simp⟩ rfl rfl hq rfl hm hpc rfl (fun q hq => ?_) ⟨hp1, hp2, hp3, ?_⟩
    · rw [hmem]
      exact sm1_setPte_ne _ _ _ _ _ hq
    · rw [hmem, illegal_setPte]
      exact hp4
  | fault p page q3 m hctl hq hm hpc =>
    simp only at hctl
    subst hctl
    obtain ⟨-, -, hg, hno, hmem⟩ := hm.of_fault hpc
    obtain ⟨hp1, hp2, hp3, hp4⟩ := h.at_holder (p := p) rfl
    refine h.received ⟨rfl, rfl, rfl, by simp, by simp⟩ rfl rfl hq rfl hm hpc rfl (fun q hq => ?_) ⟨hp1, hp2, hp3, ?_⟩
    · rw [hmem]
      exact sm1_setSm1_ne _ _ _ _ hq
    · rw [hmem, sm1_setSm1_self]
      exact hp4
  | refuse p page q3 m hctl hq hm hpc =>
    simp only at hctl
    subst hctl
    obtain ⟨-, hg, hmem⟩ := hm.of_illegal hpc
    obtain ⟨hp1, hp2, hp3, hp4⟩ := h.at_holder (p := p) rfl
    refine h.received ⟨rfl, rfl, rfl, by simp, by simp⟩ rfl rfl hq rfl hm hpc rfl (fun q hq => ?_)
      ⟨hp1, by rw [hp2]; exact hg, hp3, ?_⟩
    · rw [hmem]
      exact sm1_setSm1_ne _ _ _ _ hq
    · rw [hmem, sm1_setSm1_self]
      simp [hp4]
  | release p q3 m hctl hq hm =>
    simp only at hctl
    subst hctl
    obtain ⟨hpc, hmem⟩ := hm.of_ended rfl
    obtain ⟨hp1, hp2, hp3, hp4⟩ := h.at_holder (p := p) rfl
    have hfreed := freeFrames_freed h.mmu.tables p
    refine h.received ⟨rfl, rfl, rfl, by simp, by simp⟩ rfl rfl hq rfl hm hpc rfl (fun q hq => ?_)
      ⟨Or.inr ⟨hp1, hp3, Or.inl ⟨hp2, ?_⟩⟩, fun g hg => ?_⟩
    · rw [hmem]
      exact sm1_freeFrames_ne _ _ _ hq
    · rw [hmem, hfreed.illegal]
      exact hp4
    · rw [hmem]
      exact hfreed.gone g (List.mem_range.2 hg)
  | lost p page t q3 hctl ht hex hlt hq =>
    simp only at hctl ht
    obtain ⟨h1, h2⟩ := request_consumed (c := c) hq (h.requests.trans hctl)
    have hhold : ctl.holder = some p ∧ t.stage = ctl.stage ∧ t.served = some p ∧ t.requests c = [] := by
      cases ht <;> cases hex <;> simp only [Ctl.requests, List.cons.injEq, Prod.mk.injEq] at hctl <;>
        exact ⟨congrArg some (c.pid_inj hctl.1.1), rfl, congrArg some (c.pid_inj hctl.1.1), rfl⟩
    obtain ⟨hh, hst, hsv, hreq⟩ := hhold
    have hp := h.at_holder (p := p) hh
    exact h.handover (by cases ht <;> cases hex <;> exact ⟨rfl, rfl, rfl, by simp, by simp⟩) hh
      { same := ⟨rfl, rfl, rfl⟩, mmuPc := hex.symm, procInv := h.procInv
        requests := h1.trans hreq.symm
        served := fun q hq => by rw [hsv] at hq; cases hq; rfl
        mmu := .quiet h.mmu.tables (by simp) (by simp)
        proc := fun _ _ => rfl
        replies := fun q _ => h2 q
        record := fun _ _ => rfl
        procAt := by rw [hst, h2 p]; exact hp }
  | answer p page hctl =>
    simp only at hctl
    subst hctl
    obtain ⟨h1, h2, h3⟩ := chan_reply c s.q3 p (c.pid p, (s.mmu.mem.row p page).frame)
    obtain ⟨hg, hr⟩ := h.mmu.hit p page h.mmuPc
    obtain ⟨f, -, hf, -⟩ := h.mmu.tables.holds hg hr
    obtain ⟨hp1, hp2, hp3, hp4⟩ := h.at_holder (p := p) rfl
    exact h.handover ⟨rfl, rfl, rfl, by simp, by simp⟩ rfl
      { same := ⟨rfl, rfl, rfl⟩, mmuPc := rfl, procInv := h.procInv
        requests := h1.trans h.requests
        served := fun q hq => by cases hq
        mmu := by have := h.mmu.afterReply; rwa [mmuAfterReply_hit h.mmuPc] at this
        proc := fun _ _ => rfl
        replies := h3
        record := fun _ _ => rfl
        procAt :=
          ⟨hp1, hp4, page, f, hp2, hg, hf, by rw [h2, hp3, hf]; rfl⟩ }
  | turnAway p hctl =>
    simp only at hctl
    subst hctl
    obtain ⟨h1, h2, h3⟩ := chan_reply c s.q3 p (c.pid p, -2)
    obtain ⟨hp1, hp2, hp3, hp4⟩ := h.at_holder (p := p) rfl
    have hfreed := freeFrames_freed h.mmu.tables p
    exact h.handover ⟨rfl, rfl, rfl, by simp, by simp⟩ rfl
      { same := ⟨rfl, rfl, rfl⟩, mmuPc := rfl, procInv := h.procInv
        requests := h1.trans h.requests
        served := fun q hq => by cases hq; exact h.served p rfl
        mmu := by have := h.mmu.afterReply; rwa [mmuAfterReply_illegal h.mmuPc] at this
        proc := fun _ _ => rfl
        replies := h3
        record := fun q hq => sm1_freeFrames_ne _ _ _ hq
        procAt :=
          ⟨Or.inl ⟨hp1, hp2, by rw [h2, hp3]; rfl, by rw [hfreed.illegal]; exact hp4⟩,
            fun g hg => hfreed.gone g (List.mem_range.2 hg)⟩ }
  | load p page mem sv out hctl hsv =>
    simp only at hctl
    subst hctl
    obtain ⟨h1, h2, h3⟩ := chan_reply c s.q3 p (c.pid p, -1)
    obtain ⟨hp1, hp2, hp3, hp4⟩ := h.at_holder (p := p) rfl
    obtain ⟨hg, hno, -⟩ := h.mmu.fault p page h.mmuPc
    exact h.handover ⟨rfl, rfl, rfl, by simp, by simp⟩ rfl
      { same := ⟨rfl, rfl, rfl⟩, mmuPc := rfl, procInv := h.procInv
        requests := h1.trans h.requests
        served := fun q hq => by cases hq; exact h.served p rfl
        mmu := .quiet (hsv.inv h.mmu.tables hg hno trivial) (by simp) (by simp)
        proc := fun _ _ => rfl
        replies := h3
        record := fun q hq => hsv.sm1_ne hq
        procAt :=
          ⟨Or.inr ⟨hp1, by rw [h2, hp3]; rfl⟩, by rw [hsv.illegal]; exact hp4⟩ }
  | post p n hctl =>
    simp only at hctl
    subst hctl
    exact
      { started := hn, ready := h.ready, requests := h.requests, schedPc := h.schedPc, left := h.left
        reported := h.reported, procInv := h.procInv
        wake := fun q => by have := h.wake q; simpa using this
        posts := by rw [h.posts]; rfl
        mmuPc := rfl
        served := fun q hq => by cases hq
        done := by simpa using h.done
        mmu := .quiet h.mmu.tables (by simp) (by simp)
        procAt := h.procAt_ctl (p := p) rfl rfl (fun _ _ => rfl) (fun _ _ => rfl) (fun _ _ => rfl)
          (h.at_holder (p := p) rfl) }

end Moves

end Paging
end OsLab
