import OsLab.PagingProtocol
import OsLab.Tally
/-!
# PagingProgress — the simulation comes to rest

A request makes progress in one of two ways: the process is nearer its end (`work`), or, when it could not be given a
frame, the first process that owns one is nearer the head of the queue (`wait`).  `effort` weighs the two; it falls with
every turn of the MMU, and between two turns the token goes a bounded way (`rank`).
-/
namespace OsLab
namespace Paging

variable {k : ℕ}

/-- Process `p` holds a frame. -/
def Owns (c : Config k) (m : Mem k) (p : Fin k) : Prop := ∃ g, g < c.mi p ∧ (m.row p g).frame ≠ -1

instance (c : Config k) (m : Mem k) (p : Fin k) : Decidable (Owns c m p) :=
  inferInstanceAs (Decidable (∃ g, g < c.mi p ∧ (m.row p g).frame ≠ -1))

/-- Some frame is free. -/
def HasFree (c : Config k) (m : Mem k) : Prop := ∃ f, f < c.frames ∧ m.sm2[f]? = some 1

instance (c : Config k) (m : Mem k) : Decidable (HasFree c m) :=
  inferInstanceAs (Decidable (∃ f, f < c.frames ∧ m.sm2[f]? = some 1))

/-- The token's process while it has its turn. -/
def Ctl.before : Ctl k → Option (Fin k)
  | .posting _ _ => none
  | .posted _ _ => none
  | .toReady _ => none
  | t => t.holder

/-- The token's process when it is on its way back to the ready list. -/
def Ctl.behind : Ctl k → Option (Fin k)
  | .posting p .loaded => some p
  | .posted p .loaded => some p
  | .toReady p => some p
  | _ => none

/-- The processes in the order of their turns. -/
def Abs.queue (a : Abs k) : List (Fin k) := a.ctl.before.toList ++ (a.ready ++ a.ctl.behind.toList)

/-- How many processes stand before the first owner of a frame, while no frame is free. -/
def wait (c : Config k) (a : Abs k) (m : Mem k) : ℕ :=
  if HasFree c m then 0 else a.queue.findIdx fun p => decide (Owns c m p)

/-- The pages answered: those served, and the one whose frame is to be read. -/
def answered (a : Abs k) (s : Sys k) (p : Fin k) : ℕ := (s.proc p).served.length + if a.ctl = .told p then 1 else 0

/-- The page with number `n` of the list is in a frame. -/
def LoadedAt (c : Config k) (m : Mem k) (p : Fin k) (n : ℕ) : Prop :=
  ∃ g, g < c.mi p ∧ (c.refs p)[n]? = some g ∧ (m.row p g).frame ≠ -1

instance (c : Config k) (m : Mem k) (p : Fin k) (n : ℕ) : Decidable (LoadedAt c m p n) :=
  inferInstanceAs (Decidable (∃ g, g < c.mi p ∧ (c.refs p)[n]? = some g ∧ (m.row p g).frame ≠ -1))

/-- What process `p` still needs: two turns a page and its end, less the load that is done. -/
def work (c : Config k) (a : Abs k) (s : Sys k) (p : Fin k) : ℕ :=
  if a.stage p = .ended then 0
  else 2 * ((c.refs p).length - answered a s p) + 1 + if LoadedAt c s.mmu.mem p (answered a s p) then 0 else 1

/-- The turns of the MMU that can still come, at most. -/
def effort (c : Config k) (a : Abs k) (s : Sys k) : ℕ :=
  (∑ p, work c a s p + (k - a.started.length)) * (k + 1) + wait c a s.mmu.mem

/-- The way of the token to the next turn of the MMU. -/
def Ctl.rank : Ctl k → ℕ
  | .posting _ _ => 10
  | .posted _ _ => 9
  | .toReady _ => 8
  | .idle => 7
  | .toWake _ => 6
  | .woken _ => 5
  | .told _ => 5
  | .running _ => 4
  | .asked _ _ => 3
  | .gone _ => 3
  | .answering _ _ => 2
  | .faulting _ _ => 2
  | .refusing _ => 2
  | .lostAsk _ _ => 0
  | .lostGone _ => 0
  | .done => 0

/-- The processes with a reply to come or to read. -/
def replies (s : Sys k) : ℕ := tally (fun pr : Proc => if pr.pc = .recvReply then 1 else 0) s.proc

/-- The measure of a state. -/
def measure (c : Config k) (a : Abs k) (s : Sys k) : ℕ := effort c a s * (k + 21) + (2 * a.ctl.rank + replies s)

/-- The MMU is in a turn it has not answered. -/
def Ctl.mid : Ctl k → ℕ
  | .answering _ _ => 1
  | .faulting _ _ => 1
  | .refusing _ => 1
  | _ => 0

theorem rank_le (t : Ctl k) : t.rank ≤ 10 := by cases t <;> simp [Ctl.rank]

theorem replies_le (s : Sys k) : replies s ≤ k := by
  have h := tally_le (w := fun pr : Proc => if pr.pc = .recvReply then 1 else 0) (g := s.proc) (c := 1) fun pr => by
    split <;> simp
  unfold replies
  simpa using h

/-- The replies when one process moves. -/
theorem replies_setProc (s : Sys k) (p : Fin k) (pr : Proc) :
    replies (s.setProc p pr) + (if (s.proc p).pc = .recvReply then 1 else 0) =
      replies s + if pr.pc = .recvReply then 1 else 0 :=
  tally_update (fun pr : Proc => if pr.pc = .recvReply then 1 else 0) s.proc p pr

/-! ## When the effort stays and when it falls -/

section Effort

variable {c : Config k} {a a' : Abs k} {s s' : Sys k} {p : Fin k}

theorem wait_le (hn : a.started.Nodup) (m : Mem k) : wait c a m ≤ k := by
  unfold wait
  split
  · exact Nat.zero_le k
  · refine List.findIdx_le_length.trans ?_
    have hlen : a.queue.length ≤ a.started.length := by
      unfold Abs.queue Abs.started
      have : a.ctl.before.toList.length + a.ctl.behind.toList.length ≤ a.ctl.holder.toList.length := by
        cases a.ctl with
        | posting p n => cases n <;> simp [Ctl.before, Ctl.behind, Ctl.holder]
        | posted p n => cases n <;> simp [Ctl.before, Ctl.behind, Ctl.holder]
        | _ => simp [Ctl.before, Ctl.behind, Ctl.holder]
      simp only [List.length_append]
      omega
    have := hn.length_le_card
    rw [Fintype.card_fin] at this
    omega

theorem work_congr {q : Fin k} (hended : a'.stage q = .ended ↔ a.stage q = .ended) (hans : answered a' s' q = answered a s q)
    (hrow : ∀ g, (s'.mmu.mem.row q g).frame = (s.mmu.mem.row q g).frame) : work c a' s' q = work c a s q := by
  have hload : LoadedAt c s'.mmu.mem q (answered a s q) ↔ LoadedAt c s.mmu.mem q (answered a s q) := by
    unfold LoadedAt; simp only [hrow]
  unfold work
  rw [hans]
  exact if_congr hended rfl (congrArg _ (if_congr hload rfl rfl))

/-- The effort depends on who has ended, the pages answered, the frames and the order of turns only. -/
theorem effort_congr (hended : ∀ q, a'.stage q = .ended ↔ a.stage q = .ended) (hans : ∀ q, answered a' s' q = answered a s q)
    (hrow : ∀ q g, (s'.mmu.mem.row q g).frame = (s.mmu.mem.row q g).frame) (hsm2 : s'.mmu.mem.sm2 = s.mmu.mem.sm2)
    (hq : a'.queue = a.queue) (hst : a'.started.length = a.started.length) : effort c a' s' = effort c a s := by
  have hown : ∀ q, Owns c s'.mmu.mem q ↔ Owns c s.mmu.mem q := fun q => by unfold Owns; simp only [hrow]
  have hw : ∀ q, work c a' s' q = work c a s q := fun q => work_congr (hended q) (hans q) (hrow q)
  have hfree : HasFree c s'.mmu.mem ↔ HasFree c s.mmu.mem := by unfold HasFree; rw [hsm2]
  have hfun : (fun q => decide (Owns c s'.mmu.mem q)) = fun q => decide (Owns c s.mmu.mem q) :=
    funext fun q => decide_eq_decide.2 (hown q)
  have hwait : wait c a' s'.mmu.mem = wait c a s.mmu.mem := by
    unfold wait
    rw [hq, hfun]
    exact if_congr hfree rfl rfl
  unfold effort
  rw [hwait, hst, Finset.sum_congr rfl fun q _ => hw q]

/-- The effort falls when somebody has less to do. -/
theorem effort_lt_of_work (hn : a'.started.Nodup)
    (hw : ∑ q, work c a' s' q + (k - a'.started.length) < ∑ q, work c a s q + (k - a.started.length)) :
    effort c a' s' < effort c a s := by
  have hd := wait_le (c := c) hn s'.mmu.mem
  unfold effort
  have hmul := Nat.mul_le_mul_right (k + 1) hw
  rw [Nat.succ_mul] at hmul
  omega

/-- The effort falls when nobody has more to do and an owner comes nearer its turn. -/
theorem effort_lt_of_wait (hst : a'.started.length = a.started.length) (hw : ∀ q, work c a' s' q = work c a s q)
    (hwait : wait c a' s'.mmu.mem < wait c a s.mmu.mem) : effort c a' s' < effort c a s := by
  unfold effort
  rw [hst, Finset.sum_congr rfl fun q _ => hw q]
  exact Nat.add_lt_add_left hwait _

/-- The effort falls when one process has less to do and the others as much. -/
theorem effort_lt_of_one (hn : a'.started.Nodup) (hst : a'.started.length = a.started.length)
    (hw : ∀ q, q ≠ p → work c a' s' q = work c a s q) (hp : work c a' s' p < work c a s p) :
    effort c a' s' < effort c a s := by
  refine effort_lt_of_work hn ?_
  rw [hst]
  refine Nat.add_lt_add_right (Finset.sum_lt_sum (fun q _ => ?_) ⟨p, Finset.mem_univ p, hp⟩) _
  by_cases hq : q = p
  · subst hq; exact hp.le
  · exact (hw q hq).le

/-- Nobody ends when the token goes on without an end. -/
theorem ended_ctl {t : Ctl k} (hh : t.holder = a.ctl.holder) (hst : t.stage = .ended ↔ a.ctl.stage = .ended) (q : Fin k) :
    Abs.stage { a with ctl := t } q = .ended ↔ a.stage q = .ended := by
  unfold Abs.stage
  simp only [hh]
  split
  · exact hst
  · rfl

/-- A step of the machine that is not an MMU turn: the effort stays and the way to the next turn is shorter. -/
def Nearer (c : Config k) (a : Abs k) (s : Sys k) (a' : Abs k) (s' : Sys k) : Prop :=
  effort c a' s' = effort c a s ∧ 2 * a'.ctl.rank + replies s' < 2 * a.ctl.rank + replies s ∧
    s'.mmu.timestamp + a.ctl.mid = s.mmu.timestamp + a'.ctl.mid

/-- A turn of the MMU answered, or an arrival: the effort falls. -/
def Turn (c : Config k) (a : Abs k) (s : Sys k) (a' : Abs k) (s' : Sys k) : Prop :=
  effort c a' s' < effort c a s ∧ s'.mmu.timestamp + a.ctl.mid ≤ s.mmu.timestamp + 1 + a'.ctl.mid

/-- A process moves and the token goes from place to place with it. -/
theorem nearer_of_proc {s₀ : Sys k} (h₀ : s₀.proc = s.proc) (h₁ : s₀.mmu = s.mmu) {pr : Proc} {t : Ctl k}
    (hhold : t.holder = a.ctl.holder) (hst : t.stage = .ended ↔ a.ctl.stage = .ended) (hb : t.before = a.ctl.before)
    (hbh : t.behind = a.ctl.behind)
    (hans : pr.served.length + (if t = .told p then 1 else 0) =
      (s.proc p).served.length + if a.ctl = .told p then 1 else 0)
    (htold : ∀ q, q ≠ p → (t = .told q ↔ a.ctl = .told q)) (hmid : t.mid = a.ctl.mid)
    (hrank : 2 * t.rank + (if pr.pc = .recvReply then 1 else 0) <
      2 * a.ctl.rank + if (s.proc p).pc = .recvReply then 1 else 0) :
    Nearer c a s { a with ctl := t } (s₀.setProc p pr) := by
  have hrep := replies_setProc s₀ p pr
  have hrep₀ : replies s₀ = replies s := by unfold replies; rw [h₀]
  rw [hrep₀, h₀] at hrep
  refine ⟨effort_congr (ended_ctl hhold hst) (fun q => ?_) (fun q g => ?_) ?_ ?_ ?_, ?_, ?_⟩
  · unfold answered
    by_cases hq : q = p
    · subst hq
      rw [setProc_self]
      exact hans
    · rw [setProc_ne _ _ hq, h₀]
      exact congrArg _ (if_congr (htold q hq) rfl rfl)
  · rw [setProc_mmu, h₁]
  · rw [setProc_mmu, h₁]
  · unfold Abs.queue
    simp only [hb, hbh]
  · unfold Abs.started
    simp only [hhold]
  · simp only
    omega
  · rw [setProc_mmu, h₁, hmid]

/-- A process reads a reply while the token is elsewhere. -/
theorem nearer_of_reply {s₀ : Sys k} (h₀ : s₀.proc = s.proc) (h₁ : s₀.mmu = s.mmu) {pr : Proc}
    (hs : pr.served = (s.proc p).served) (hpc : (s.proc p).pc = .recvReply) (hpc' : pr.pc ≠ .recvReply) :
    Nearer c a s a (s₀.setProc p pr) := by
  have h := nearer_of_proc (c := c) (a := a) (p := p) (t := a.ctl) h₀ h₁ rfl Iff.rfl rfl rfl (by rw [hs])
    (fun _ _ => Iff.rfl) rfl (by simp [hpc, hpc'])
  exact h

/-- Another party moves the token on. -/
theorem nearer_of_ctl {t : Ctl k} (hpr : s'.proc = s.proc)
    (hrow : ∀ q g, (s'.mmu.mem.row q g).frame = (s.mmu.mem.row q g).frame) (hsm2 : s'.mmu.mem.sm2 = s.mmu.mem.sm2)
    (hhold : t.holder = a.ctl.holder) (hst : t.stage = .ended ↔ a.ctl.stage = .ended) (hb : t.before = a.ctl.before)
    (hbh : t.behind = a.ctl.behind) (htold : ∀ q, t = .told q ↔ a.ctl = .told q)
    (hmid : s'.mmu.timestamp + a.ctl.mid = s.mmu.timestamp + t.mid) (hrank : t.rank < a.ctl.rank) :
    Nearer c a s { a with ctl := t } s' := by
  refine ⟨effort_congr (ended_ctl hhold hst) (fun q => ?_) hrow hsm2 ?_ ?_, ?_, hmid⟩
  · unfold answered
    rw [hpr]
    exact congrArg _ (if_congr (htold q) rfl rfl)
  · unfold Abs.queue
    simp only [hb, hbh]
  · unfold Abs.started
    simp only [hhold]
  · have : replies s' = replies s := by unfold replies; rw [hpr]
    simp only
    omega

/-- The token goes on with process `p`, of which alone the rows may change. -/
theorem work_ctl {t : Ctl k} (hh : a.ctl.holder = some p) (hh' : t.holder = some p)
    (hpr : s'.proc = s.proc) (hsm : ∀ q, q ≠ p → s'.mmu.mem.sm1 q = s.mmu.mem.sm1 q) {q : Fin k} (hq : q ≠ p) :
    work c { a with ctl := t } s' q = work c a s q := by
  have hne : a.ctl.holder ≠ some q := by rw [hh]; exact fun he => hq (Option.some.inj he).symm
  have hne' : t.holder ≠ some q := by rw [hh']; exact fun he => hq (Option.some.inj he).symm
  have hst : Abs.stage { a with ctl := t } q = a.stage q := stage_congr hne hne' Iff.rfl Iff.rfl
  refine work_congr (by rw [hst]) ?_ fun g => ?_
  · unfold answered
    rw [hpr, if_neg, if_neg]
    · intro he; rw [he] at hne; exact hne rfl
    · intro he; simp only at he; rw [he] at hne'; exact hne' rfl
  · unfold Mem.row
    rw [hsm q hq]

theorem work_ended (h : a.stage p = .ended) : work c a s p = 0 := by
  unfold work
  rw [if_pos h]

theorem work_of_ne (h : a.stage p ≠ .ended) : work c a s p =
    2 * ((c.refs p).length - answered a s p) + 1 + if LoadedAt c s.mmu.mem p (answered a s p) then 0 else 1 := by
  unfold work
  rw [if_neg h]

theorem work_pos (h : a.stage p ≠ .ended) : 0 < work c a s p := by
  rw [work_of_ne h]
  omega

/-- A page answered is one turn less at least, also if the next one has to be loaded. -/
theorem work_lt_of_answer (h : a.stage p ≠ .ended) (h' : a'.stage p ≠ .ended)
    (hload : LoadedAt c s.mmu.mem p (answered a s p)) (hans : answered a' s' p = answered a s p + 1) :
    work c a' s' p < work c a s p := by
  have hload' := hload
  obtain ⟨g, -, hg, -⟩ := hload'
  have hlt := (List.getElem?_eq_some_iff.1 hg).1
  rw [work_of_ne h, work_of_ne h', hans, if_pos hload]
  split <;> omega

theorem work_lt_of_load (h : a.stage p ≠ .ended) (h' : a'.stage p ≠ .ended)
    (hload : ¬ LoadedAt c s.mmu.mem p (answered a s p)) (hload' : LoadedAt c s'.mmu.mem p (answered a s p))
    (hans : answered a' s' p = answered a s p) : work c a' s' p < work c a s p := by
  rw [work_of_ne h, work_of_ne h', hans, if_neg hload, if_pos hload']
  omega

/-- A turn of the MMU that leaves less to do for its process. -/
theorem turn_of_ctl (hn : a.started.Nodup) {t : Ctl k} (hh : a.ctl.holder = some p) (hh' : t.holder = some p)
    (hpr : s'.proc = s.proc) (hsm : ∀ q, q ≠ p → s'.mmu.mem.sm1 q = s.mmu.mem.sm1 q)
    (hp : work c { a with ctl := t } s' p < work c a s p)
    (hts : s'.mmu.timestamp + a.ctl.mid ≤ s.mmu.timestamp + 1 + t.mid) : Turn c a s { a with ctl := t } s' := by
  have hst : Abs.started { a with ctl := t } = a.started := by unfold Abs.started; simp only [hh, hh']
  exact ⟨effort_lt_of_one (by rw [hst]; exact hn) (by rw [hst]) (fun q hq => work_ctl hh hh' hpr hsm hq) hp, hts⟩

/-- While process `p` waits for an answer about `page`, that is the next page of its list. -/
theorem Sim.asking_at (h : Sim c a s) (page : ℕ) (hh : a.ctl.holder = some p) (hst : a.ctl.stage = .asking page)
    (hnt : a.ctl ≠ .told p) : (c.refs p)[answered a s p]? = some page := by
  have hp := h.at_holder hh
  rw [hst] at hp
  obtain ⟨page', hn, hpage⟩ := (h.procInv p).asking hp.1
  have he : page' = page := by have := hpage.symm.trans hp.2.1; exact_mod_cast this
  unfold answered
  rw [if_neg hnt, Nat.add_zero, ← he]
  exact hn

theorem findIdx_append_of_mem {α : Type*} {P : α → Bool} : ∀ {l : List α} (l' : List α), (∃ x ∈ l, P x = true) →
    (l ++ l').findIdx P = l.findIdx P
  | [], _, ⟨x, hx, _⟩ => by cases hx
  | y :: l, l', ⟨x, hx, hP⟩ => by
    rw [List.cons_append, List.findIdx_cons, List.findIdx_cons]
    cases hy : P y with
    | true => rfl
    | false =>
      have hx' : x ∈ l := by
        rcases List.mem_cons.1 hx with rfl | hx'
        · rw [hP] at hy; cases hy
        · exact hx'
      rw [findIdx_append_of_mem l' ⟨x, hx', hP⟩]

/-- When no frame is free, somebody in the queue other than a process without frames owns one. -/
theorem Sim.exists_owner (h : Sim c a s) (hF : 0 < c.frames) (hfull : ¬ HasFree c s.mmu.mem)
    (hh : a.ctl.holder = some p) (hnone : ¬ Owns c s.mmu.mem p) : ∃ q ∈ a.ready, Owns c s.mmu.mem q := by
  rcases h.mmu.tables.owned 0 hF with ⟨-, q, g, hg, hf⟩ | ⟨h1, -⟩
  · rw [h.mmu.tables.mi] at hg
    have hne : (s.mmu.mem.row q g).frame ≠ -1 := by rw [hf]; simp
    have hown : Owns c s.mmu.mem q := ⟨g, hg, hne⟩
    have hnu : ¬ Unloaded (c.mi q) (s.mmu.mem.sm1 q) := fun hu => hne (congrArg Pte.frame (hu g hg))
    refine ⟨q, ?_, hown⟩
    by_contra hr
    have hq : q ≠ p := by rintro rfl; exact hnone hown
    have hat := h.procAt q
    by_cases ho : q ∈ a.ended
    · rw [stage_ended h.started ho] at hat
      exact hnu hat.2
    · have hst : q ∉ a.started := by
        rw [mem_started, hh]
        rintro (he | he | he)
        · exact hq (Option.some.inj he).symm
        · exact hr he
        · exact ho he
      rw [stage_eq_unstarted.2 hst] at hat
      exact hnu hat.2.2.2
  · exact absurd ⟨0, hF, h1⟩ hfull

/-- **Every step brings the next turn nearer, or is one that lowers the effort.** -/
theorem Move.nearer (h : Sim c a s) (hF : 0 < c.frames) (hP : MmuInv c.toSetup (fun t => t < intMax) s.mmu)
    (ht : intSucc s.mmu.timestamp = s.mmu.timestamp + 1) (hm : Move c a s a' s') (hne : a'.ctl.mmuPc ≠ .exited) :
    Nearer c a s a' s' ∨ Turn c a s a' s' := by
  have hn := h.started_move hm
  have hsim := hm.sim h
  obtain ⟨ctl, ready, ended⟩ := a
  cases hm with
  | start p q1 hctl hpc hq =>
    simp only at hctl
    subst hctl
    exact Or.inl (nearer_of_proc rfl rfl rfl (by simp [Ctl.stage]) rfl rfl (by simp [Proc.served]) (by simp) rfl
      (by simp [Ctl.rank, hpc]))
  | resume p q1 hctl hpc hq =>
    simp only at hctl
    subst hctl
    exact Or.inl (nearer_of_proc rfl rfl rfl (by simp [Ctl.stage]) rfl rfl (by simp [Proc.served, procLoaded]) (by simp) rfl
      (by simp [Ctl.rank, hpc, procLoaded]))
  | ask p page hctl hpage =>
    simp only at hctl
    subst hctl
    obtain ⟨hpc, -⟩ := h.at_holder (p := p) rfl
    exact Or.inl (nearer_of_proc rfl rfl rfl (by simp [Ctl.stage]) rfl rfl (by simp [Proc.served]) (by simp) rfl
      (by simp [Ctl.rank, hpc]))
  | finish p hctl hlen =>
    simp only at hctl
    subst hctl
    obtain ⟨hpc, -⟩ := h.at_holder (p := p) rfl
    exact Or.inl (nearer_of_proc rfl rfl rfl (by simp [Ctl.stage]) rfl rfl (by simp [Proc.served, ProcLine.page?])
      (by simp) rfl (by simp [Ctl.rank, hpc]))
  | readFault p q3 hst hpc hq =>
    exact Or.inl (nearer_of_reply rfl rfl (by simp [Proc.served, procReply, ProcLine.page?]) hpc (by simp [procReply]))
  | readIllegal p q3 hst hpc hq =>
    exact Or.inl (nearer_of_reply rfl rfl (by simp [Proc.served, procReply, ProcLine.page?]) hpc (by simp [procReply]))
  | readFrame p q3 f hctl hq =>
    simp only at hctl
    subst hctl
    obtain ⟨hpc, ht, page, f', hpage, hlt, hf, hch⟩ := h.at_holder (p := p) rfl
    obtain ⟨-, hlen, hpc'⟩ := (h.procInv p).readFrame (f := f) hpc (by rw [hpage]; exact_mod_cast hlt)
    refine Or.inl (nearer_of_proc rfl rfl rfl (by simp [Ctl.stage]) rfl rfl ?_ (fun q hq => ?_) rfl
      (by simp [Ctl.rank, hpc, hpc']))
    · rw [hlen]; simp
    · simpa using Ne.symm hq
  | wake p hctl =>
    simp only at hctl
    subst hctl
    exact Or.inl (nearer_of_ctl rfl (fun _ _ => rfl) rfl rfl Iff.rfl rfl rfl (by simp) rfl (by simp [Ctl.rank]))
  | note p hctl =>
    simp only at hctl
    subst hctl
    exact Or.inl (nearer_of_ctl rfl (fun _ _ => rfl) rfl rfl Iff.rfl rfl rfl (by simp) rfl (by simp [Ctl.rank]))
  | post p n hctl =>
    simp only at hctl
    subst hctl
    exact Or.inl (nearer_of_ctl rfl (fun _ _ => rfl) rfl rfl Iff.rfl rfl (by cases n <;> rfl) (by simp) rfl
      (by simp [Ctl.rank]))
  | hit p page q3 m hctl hq hr hpc =>
    simp only at hctl
    subst hctl
    obtain ⟨-, -, hg, hf, hmem⟩ := hr.of_hit hpc
    refine Or.inl (nearer_of_ctl rfl (fun q g => ?_) ?_ rfl Iff.rfl rfl rfl (by simp) ?_ (by simp [Ctl.rank]))
    · simp only [hmem, row_setPte]
      split
      · rename_i hqg
        rw [hqg.1, hqg.2]
      · rfl
    · simp only [hmem, sm2_setPte]
    · simp [hr.timestamp, ht, Ctl.mid]
  | fault p page q3 m hctl hq hr hpc =>
    simp only at hctl
    subst hctl
    obtain ⟨-, -, hg, hno, hmem⟩ := hr.of_fault hpc
    refine Or.inl (nearer_of_ctl rfl (fun q g => ?_) ?_ rfl Iff.rfl rfl rfl (by simp) ?_ (by simp [Ctl.rank]))
    · simp only [hmem]
      rw [row_setSm1]
      exact fun _ => rfl
    · simp only [hmem, sm2_setSm1]
    · simp [hr.timestamp, ht, Ctl.mid]
  | refuse p page q3 m hctl hq hr hpc =>
    simp only at hctl
    subst hctl
    obtain ⟨-, hg, hmem⟩ := hr.of_illegal hpc
    refine Or.inl (nearer_of_ctl rfl (fun q g => ?_) ?_ rfl (by simp [Ctl.stage]) rfl rfl (by simp) ?_ (by simp [Ctl.rank]))
    · simp only [hmem]
      rw [row_setSm1]
      exact fun _ => rfl
    · simp only [hmem, sm2_setSm1]
    · simp [hr.timestamp, ht, Ctl.mid]
  | lost p page t q3 hctl ht hex => exact absurd hex hne
  | pick p rest q1 hctl hr hq =>
    simp only at hctl hr
    subst hctl hr
    refine Or.inl ⟨effort_congr (fun q => ?_) (fun q => by simp [answered]) (fun _ _ => rfl) rfl rfl rfl, ?_, rfl⟩
    · rw [stage_eq_ended hn, stage_eq_ended h.started]
      simp [Ctl.holder, Ctl.stage]
    · exact Nat.add_lt_add_right (by simp [Ctl.rank]) _
  | requeue p hctl =>
    simp only at hctl
    subst hctl
    refine Or.inl ⟨effort_congr (fun q => ?_) (fun q => by simp [answered]) (fun _ _ => rfl) rfl ?_ ?_, ?_, rfl⟩
    · rw [stage_eq_ended hn, stage_eq_ended h.started]
      simp [Ctl.holder, Ctl.stage]
    · simp [Abs.queue, Ctl.before, Ctl.behind, Ctl.holder]
    · simp [Abs.started, Ctl.holder, Nat.add_assoc]
    · exact Nat.add_lt_add_right (by simp [Ctl.rank]) _
  | report p hctl =>
    simp only at hctl
    subst hctl
    refine Or.inl ⟨effort_congr (fun q => ?_) (fun q => ?_) (fun _ _ => rfl) rfl ?_ ?_, ?_, ?_⟩
    · rw [stage_eq_ended hn, stage_eq_ended h.started]
      split <;> simp [Ctl.holder, Ctl.stage, Note.stage, eq_comm]
    · unfold answered; split <;> simp
    · split <;> simp [Abs.queue, Ctl.before, Ctl.behind, Ctl.holder]
    · split <;> simp [Abs.started, Ctl.holder, Nat.add_assoc]
    · refine Nat.add_lt_add_right ?_ _
      split <;> simp [Ctl.rank]
    · split <;> rfl
  | arrive p hp hpc =>
    have hcard := hn.length_le_card
    rw [Fintype.card_fin] at hcard
    have hlen : Abs.started ⟨ctl, ready ++ [p], ended⟩ = ctl.holder.toList ++ ((ready ++ [p]) ++ ended) := rfl
    have hlen' : Abs.started ⟨ctl, ready, ended⟩ = ctl.holder.toList ++ (ready ++ ended) := rfl
    have hw : ∀ q, work c ⟨ctl, ready ++ [p], ended⟩ (({ s with q1 := msgsnd s.q1 1 (c.pid p) } : Sys k).setProc p
        { s.proc p with out := (s.proc p).out ++ [ProcLine.started], pc := .recvWake }) q =
          work c ⟨ctl, ready, ended⟩ s q := fun q => by
      refine work_congr (by rw [stage_eq_ended hn, stage_eq_ended h.started]) ?_ fun _ => rfl
      unfold answered
      by_cases hq : q = p
      · subst hq
        rw [setProc_self]
        simp [Proc.served, ProcLine.page?]
      · rw [setProc_ne _ _ hq]
    refine Or.inr ⟨effort_lt_of_work hn ?_, by simp⟩
    refine Nat.add_lt_add_of_le_of_lt (Finset.sum_le_sum fun q _ => (hw q).le) ?_
    simp only [hlen, hlen', List.length_append, List.length_singleton] at hcard ⊢
    omega
  | release p q3 m hctl hq hr =>
    simp only at hctl
    subst hctl
    obtain ⟨hpc, hmem⟩ := hr.of_ended rfl
    refine Or.inr (turn_of_ctl (p := p) h.started rfl rfl rfl (fun q hq => ?_) ?_ ?_)
    · simp only [hmem]
      exact sm1_freeFrames_ne _ _ _ hq
    · rw [work_ended (by rw [stage_holder (p := p) rfl]; rfl)]
      exact work_pos (by rw [stage_holder (p := p) rfl]; simp [Ctl.stage])
    · simp [hr.timestamp, ht, Ctl.mid]
  | turnAway p hctl =>
    simp only at hctl
    subst hctl
    refine Or.inr (turn_of_ctl (p := p) h.started rfl rfl rfl (fun q hq => sm1_freeFrames_ne _ _ _ hq) ?_ ?_)
    · rw [work_ended (by rw [stage_holder (p := p) rfl]; rfl)]
      exact work_pos (by rw [stage_holder (p := p) rfl]; simp [Ctl.stage])
    · simp [Ctl.mid]
  | answer p page hctl =>
    simp only at hctl
    subst hctl
    have hn' := h.asking_at (p := p) page rfl rfl (by simp)
    obtain ⟨hg, hf⟩ := h.mmu.hit p page h.mmuPc
    refine Or.inr (turn_of_ctl (p := p) h.started rfl rfl rfl (fun _ _ => rfl) ?_ (by simp [Ctl.mid]))
    refine work_lt_of_answer ?_ ?_ ⟨page, hg, hn', hf⟩ (by simp [answered])
    · rw [stage_holder (p := p) rfl]; simp [Ctl.stage]
    · rw [stage_holder (p := p) rfl]; simp [Ctl.stage]
  | load p page mem sv out hctl hsv =>
    simp only at hctl
    subst hctl
    have hn' := h.asking_at (p := p) page rfl rfl (by simp)
    obtain ⟨hg, hno, -⟩ := h.mmu.fault p page h.mmuPc
    have hnl : ¬ LoadedAt c s.mmu.mem p (answered ⟨.faulting p page, ready, ended⟩ s p) := by
      rintro ⟨g, -, hg', hf⟩
      obtain rfl := Option.some.inj (hn'.symm.trans hg')
      exact hf (by rw [hno]; rfl)
    have hov : ∀ t : Ctl k, t.holder = some p → t.stage ≠ .ended → Abs.stage ⟨t, ready, ended⟩ p ≠ .ended := fun t ht hst => by
      rw [stage_holder ht]
      exact hst
    have hserved : ∀ (j f : ℕ) (m : Mem k), LoadedAt c (m.take p page f s.mmu.timestamp) p
        (answered ⟨.faulting p page, ready, ended⟩ s p) := fun j f m =>
      ⟨page, hg, hn', by rw [row_take, if_pos ⟨rfl, rfl⟩]; simp⟩
    have hsm := fun q hq => hsv.sm1_ne (q := q) hq
    cases hsv with
    | freeFrame f hf hfree hfst =>
      refine Or.inr (turn_of_ctl (p := p) h.started rfl rfl rfl hsm ?_ (by simp [Ctl.mid]))
      exact work_lt_of_load (hov _ rfl (by simp [Ctl.stage])) (hov _ rfl (by simp [Ctl.stage, Note.stage])) hnl
        (hserved 0 f _) (by simp [answered])
    | replaced j f hj hf he hfull hle =>
      refine Or.inr (turn_of_ctl (p := p) h.started rfl rfl rfl hsm ?_ (by simp [Ctl.mid]))
      exact work_lt_of_load (hov _ rfl (by simp [Ctl.stage])) (hov _ rfl (by simp [Ctl.stage, Note.stage])) hnl
        (hserved j f _) (by simp [answered])
    | noPage hfull hnone =>
      have hnf : ¬ HasFree c s.mmu.mem := by
        rintro ⟨f, hf, h1⟩
        rw [hfull f hf] at h1
        cases h1
      have hno' : ¬ Owns c s.mmu.mem p := by
        rintro ⟨g, hg', hr⟩
        have h1 := hnone g hg' hr
        rcases hP.tables.row p g hg' with hres | he
        · exact absurd hres.stamp (not_lt.2 h1)
        · rw [he] at hr; exact hr rfl
      obtain ⟨q, hq, hown⟩ := h.exists_owner (p := p) hF hnf rfl hno'
      have hwait : wait c ⟨.posting p .loaded, ready, ended⟩ s.mmu.mem + 1 =
          wait c ⟨.faulting p page, ready, ended⟩ s.mmu.mem := by
        unfold wait
        rw [if_neg hnf, if_neg hnf]
        have h1 : Abs.queue ⟨.posting p .loaded, ready, ended⟩ = ready ++ [p] := rfl
        have h2 : Abs.queue ⟨.faulting p page, ready, ended⟩ = p :: ready := by
          simp [Abs.queue, Ctl.before, Ctl.behind, Ctl.holder]
        rw [h1, h2, findIdx_append_of_mem [p] ⟨q, hq, decide_eq_true hown⟩, List.findIdx_cons, decide_eq_false hno']
        rfl
      have hw : ∀ q, work c ⟨.posting p .loaded, ready, ended⟩ { s with
          q3 := msgsnd s.q3 (c.pid p) (c.pid p, -1), mmu := { s.mmu with mem := s.mmu.mem, pc := .post p 1, out := out } } q =
            work c ⟨.faulting p page, ready, ended⟩ s q := fun q => by
        refine work_congr ?_ (by simp [answered]) fun _ => rfl
        rw [stage_eq_ended hn, stage_eq_ended h.started]
        simp [Ctl.holder, Ctl.stage, Note.stage]
      exact Or.inr ⟨effort_lt_of_wait rfl hw (Nat.lt_of_succ_le hwait.le), by simp [Ctl.mid]⟩

end Effort

end Paging
end OsLab
