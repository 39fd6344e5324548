import OsLab.PagingProgress
/-!
# PagingFinish — the simulation always ends

With at most `MAX_PROCESSES` processes, lists that fit process.c's buffer and a frame at least, no run is infinite and
the only states in which nobody can move are those where everybody is done (`simulation_finishes`).  The effort bounds
the turns of the MMU, so its `int` clock stays below `INT_MAX`, which the replacement loop relies on.
-/
namespace OsLab
namespace Paging

variable {k : ℕ}

/-- All processes have exited, the scheduler has left its loop and the MMU waits for a request. -/
def Final (s : Sys k) : Prop := (∀ p, (s.proc p).pc = .exited) ∧ s.sched.pc = .done ∧ s.mmu.pc = .recv

/-! ## A state where nobody can move -/

section Stuck

variable {c : Config k} {a : Abs k} {s : Sys k} {p : Fin k}

theorem proc_blocked (h : procNext c p s = none) : (s.proc p).pc = .exited ∨
    ((s.proc p).pc = .recvWake ∨ (s.proc p).pc = .recvLoaded) ∧ chan (c.pid p) s.q1 = [] ∨
      (s.proc p).pc = .recvReply ∧ chan (c.pid p) s.q3 = [] := by
  unfold procNext at h
  cases hpc : (s.proc p).pc <;> rw [hpc] at h <;> simp only [reduceCtorEq, Option.map_eq_none_iff] at h
  · exact Or.inr (Or.inl ⟨Or.inl rfl, msgrcv_eq_none.1 h⟩)
  · exact Or.inr (Or.inr ⟨rfl, msgrcv_eq_none.1 h⟩)
  · exact Or.inr (Or.inl ⟨Or.inr rfl, msgrcv_eq_none.1 h⟩)
  · exact Or.inl rfl

theorem sched_blocked (h : schedNext s = none) : s.sched.pc = .done ∨ s.sched.pc = .recvReady ∧ chan 1 s.q1 = [] ∨
    s.sched.pc = .recvMmu ∧ s.q2 = [] := by
  unfold schedNext at h
  cases hpc : s.sched.pc <;> rw [hpc] at h <;> simp only [reduceCtorEq, Option.map_eq_none_iff] at h
  · exact Or.inr (Or.inl ⟨rfl, msgrcv_eq_none.1 h⟩)
  · refine Or.inr (Or.inr ⟨rfl, ?_⟩)
    cases hq : s.q2 with
    | nil => rfl
    | cons m q => rw [hq] at h; cases h
  · exact Or.inl rfl

theorem mmu_blocked (h : mmuNext s = none) : s.mmu.pc = .recv ∧ chan 1 s.q3 = [] ∨ s.mmu.pc = .exited := by
  unfold mmuNext at h
  cases hpc : s.mmu.pc <;> rw [hpc] at h <;> simp only [reduceCtorEq, Option.map_eq_none_iff] at h
  · exact Or.inl ⟨rfl, msgrcv_eq_none.1 h⟩
  · unfold mmuReply at h; rw [hpc] at h; cases h
  · unfold mmuReply at h; rw [hpc] at h; cases h
  · unfold mmuReply at h; rw [hpc] at h; cases h
  · exact Or.inr rfl

/-- A waiting process that has its wake-up, or a reply to read, can move. -/
theorem Sim.waiting_moves (h : Sim c a s) (hctl : a.ctl = .woken p) : procNext c p s ≠ none := by
  intro hn
  have hw := h.wake p
  rw [if_pos hctl] at hw
  have hp := h.at_holder (p := p) (by rw [hctl]; rfl)
  rw [hctl] at hp
  rcases proc_blocked hn with hpc | ⟨-, he⟩ | ⟨hpc, he⟩
  · rcases hp.1 with ⟨hx | hx, -⟩ | ⟨hx, -⟩ <;> rw [hpc] at hx <;> cases hx
  · rw [hw] at he; cases he
  · rcases hp.1 with ⟨hx | hx, -⟩ | ⟨-, hx⟩
    · rw [hpc] at hx; cases hx
    · rw [hpc] at hx; cases hx
    · rw [he] at hx; cases hx

/-- **Where nobody can move everybody is done**, unless the MMU has exited. -/
theorem Sim.final_of_stuck (h : Sim c a s) (here : s.mmu.pc ≠ .exited) (hst : Stuck (next c) s) : Final s := by
  have hsched := sched_blocked (hst .sched)
  have hproc := fun p => proc_blocked (hst (.proc p))
  obtain ⟨hmmu, hq3⟩ := (mmu_blocked (hst .mmu)).resolve_right here
  have hpc := h.schedPc
  have hmpc := h.mmuPc
  have hreq := h.requests
  rw [hmmu] at hmpc
  rw [hq3] at hreq
  cases hctl : a.ctl with
  | done =>
    rw [hctl] at hpc
    refine ⟨fun p => ?_, hpc, hmmu⟩
    have hp := h.procAt p
    rw [stage_ended h.started (h.all_ended hpc p)] at hp
    rcases hp.1 with ⟨hx, -, he, -⟩ | ⟨hx, -⟩
    · rcases hproc p with hy | ⟨hy, -⟩ | ⟨-, hy⟩
      · exact hy
      · rw [hx] at hy; simp at hy
      · rw [he] at hy; cases hy
    · exact hx
  | idle =>
    rw [hctl] at hpc
    have hready : a.ready = [] := by
      rcases hsched with hx | ⟨-, hx⟩ | ⟨hx, -⟩
      · rw [hpc] at hx; cases hx
      · rw [h.ready] at hx; exact List.map_eq_nil_iff.1 hx
      · rw [hpc] at hx; cases hx
    have hk : s.sched.k ≠ 0 := by rw [ne_eq, ← h.done, hctl]; simp
    obtain ⟨p, hp⟩ : ∃ p, p ∉ a.ended := by
      by_contra hall
      push Not at hall
      have hcard : (Finset.univ : Finset (Fin k)).card ≤ a.ended.toFinset.card :=
        Finset.card_le_card fun p _ => List.mem_toFinset.2 (hall p)
      rw [Finset.card_univ, Fintype.card_fin] at hcard
      have := hcard.trans (List.toFinset_card_le _)
      have := h.left
      omega
    have hsend : (s.proc p).pc = .sendReady := by
      rw [h.sendReady_iff, mem_started, hctl, hready]
      rintro (hx | hx | hx)
      · cases hx
      · cases hx
      · exact hp hx
    rcases hproc p with hx | ⟨hx | hx, -⟩ | ⟨hx, -⟩ <;> rw [hsend] at hx <;> cases hx
  | toWake p =>
    rw [hctl] at hpc
    rcases hsched with hx | ⟨hx, -⟩ | ⟨hx, -⟩ <;> rw [hpc] at hx <;> cases hx
  | toReady p =>
    rw [hctl] at hpc
    rcases hsched with hx | ⟨hx, -⟩ | ⟨hx, -⟩ <;> rw [hpc] at hx <;> cases hx
  | woken p => exact absurd (hst (.proc p)) (h.waiting_moves hctl)
  | running p =>
    have hp := h.at_holder (p := p) (by rw [hctl]; rfl)
    rw [hctl] at hp
    rcases hproc p with hx | ⟨hx | hx, -⟩ | ⟨hx, -⟩ <;> rw [hp.1] at hx <;> cases hx
  | told p =>
    have hp := h.at_holder (p := p) (by rw [hctl]; rfl)
    rw [hctl] at hp
    obtain ⟨hr, -, page, f, -, -, -, he⟩ := hp
    rcases hproc p with hx | ⟨hx | hx, -⟩ | ⟨-, hx⟩
    · rw [hr] at hx; cases hx
    · rw [hr] at hx; cases hx
    · rw [hr] at hx; cases hx
    · rw [he] at hx; cases hx
  | asked p page => rw [hctl] at hreq; cases hreq
  | gone p => rw [hctl] at hreq; cases hreq
  | posted p n =>
    rw [hctl] at hpc
    rcases hsched with hx | ⟨hx, -⟩ | ⟨-, hx⟩
    · rw [hpc] at hx; cases hx
    · rw [hpc] at hx; cases hx
    · rw [h.posts, hctl] at hx; cases hx
  | _ => rw [hctl] at hmpc; cases hmpc

end Stuck

/-! ## The pace of the MMU's clock -/

/-- A state of a run in which the clock and the effort left stay within `B`. -/
structure Paced (c : Config k) (B : ℕ) (a : Abs k) (s : Sys k) : Prop where
  sim : Sim c a s
  here : a.ctl.mmuPc ≠ .exited
  stamps : MmuInv c.toSetup (fun t => t < intMax) s.mmu
  pos : 0 ≤ s.mmu.timestamp
  pace : s.mmu.timestamp + effort c a s ≤ B + a.ctl.mid

section Pace

variable {c : Config k} {a a' : Abs k} {s s' : Sys k} {B : ℕ}

theorem mid_le (t : Ctl k) : t.mid ≤ 1 := by cases t <;> simp [Ctl.mid]

/-- The MMU finds every process, since there are at most `MAX_PROCESSES`. -/
theorem Move.here (hm : Move c a s a' s') (hk : k ≤ maxProcesses) (h : a.ctl.mmuPc ≠ .exited) :
    a'.ctl.mmuPc ≠ .exited := by
  cases hm with
  | lost p page t q3 hctl ht hex hp => exact absurd p.isLt (by omega)
  | report p hctl => simp only; split <;> simp [Ctl.mmuPc]
  | arrive p => exact h
  | readFault p => exact h
  | readIllegal p => exact h
  | _ => simp [Ctl.mmuPc]

/-- The stamps stay within a bound the clock stays within. -/
theorem Move.stamps {P : Int → Prop} (h : Sim c a s) (hP : MmuInv c.toSetup P s.mmu) (hm : Move c a s a' s')
    (ht : P s'.mmu.timestamp) : MmuInv c.toSetup P s'.mmu := by
  have hrec : ∀ {p page m}, Received c.toSetup s.mmu p page m → P m.timestamp → MmuInv c.toSetup P m :=
    fun hr ht => MmuInv.received hr hP.tables (by rw [hr.timestamp] at ht; exact ht)
  cases hm with
  | hit p page q3 m hctl hq hr hpc => exact hrec hr ht
  | fault p page q3 m hctl hq hr hpc => exact hrec hr ht
  | refuse p page q3 m hctl hq hr hpc => exact hrec hr ht
  | release p q3 m hctl hq hr => exact hrec hr ht
  | lost p page t q3 => exact .quiet hP.tables (by simp) (by simp)
  | answer p page => exact .quiet hP.tables (by simp) (by simp)
  | turnAway p => exact .quiet (freeFrames_freed hP.tables p).inv (by simp) (by simp)
  | load p page mem sv out hctl hsv =>
    have hmpc := h.mmuPc
    rw [hctl] at hmpc
    obtain ⟨hg, hno, ht'⟩ := hP.fault p page hmpc
    exact .quiet (hsv.inv hP.tables hg hno ht') (by simp) (by simp)
  | post p n => exact .quiet hP.tables (by simp) (by simp)
  | _ => exact hP

theorem Move.clock (hm : Move c a s a' s') (ht : intSucc s.mmu.timestamp = s.mmu.timestamp + 1) :
    s.mmu.timestamp ≤ s'.mmu.timestamp := by
  cases hm with
  | hit p page q3 m hctl hq hr hpc => simp only [hr.timestamp, ht]; omega
  | fault p page q3 m hctl hq hr hpc => simp only [hr.timestamp, ht]; omega
  | refuse p page q3 m hctl hq hr hpc => simp only [hr.timestamp, ht]; omega
  | release p q3 m hctl hq hr => simp only [hr.timestamp, ht]; omega
  | lost p page t q3 => simp only [ht]; omega
  | _ => exact le_refl _

theorem measure_lt (h : Nearer c a s a' s' ∨ Turn c a s a' s') : measure c a' s' < measure c a s := by
  unfold measure
  rcases h with ⟨he, hr, -⟩ | ⟨he, -⟩
  · rw [he]; omega
  · have hmul := Nat.mul_le_mul_right (k + 21) he
    rw [Nat.succ_mul] at hmul
    have h1 := rank_le a'.ctl
    have h2 := replies_le s'
    omega

/-- **A step keeps the pace and lowers the measure.** -/
theorem Paced.step (h : Paced c B a s) (hk : k ≤ maxProcesses) (hF : 0 < c.frames) (hB : (B : Int) + 1 < intMax)
    {x : Party k} (hs : next c x s = some s') : ∃ a', Paced c B a' s' ∧ measure c a' s' < measure c a s := by
  obtain ⟨a', hm⟩ := next_move h.sim hs
  have hmid := mid_le a.ctl
  have hmid' := mid_le a'.ctl
  have hpace := h.pace
  have hpos := h.pos
  have hlt : s.mmu.timestamp < intMax := by omega
  have hnear := hm.nearer h.sim hF h.stamps (intSucc_of_lt h.pos hlt) (hm.here hk h.here)
  have hpace' : s'.mmu.timestamp + effort c a' s' ≤ B + a'.ctl.mid := by
    rcases hnear with ⟨he, -, ht⟩ | ⟨he, ht⟩
    · rw [he]; omega
    · omega
  have hpos' : 0 ≤ s'.mmu.timestamp := hpos.trans (hm.clock (intSucc_of_lt h.pos hlt))
  exact ⟨a', ⟨hm.sim h.sim, hm.here hk h.here, hm.stamps h.sim h.stamps (by omega), hpos', hpace'⟩, measure_lt hnear⟩

end Pace

/-- The effort before the first step, for lists whose strings fit process.c's buffer. -/
theorem effort_init_le (c : Config k) (hk : k ≤ maxProcesses) (hlen : ∀ p, (c.refstr p).length < refstrSize) (a : Abs k) :
    a.started.Nodup → effort c a (sysInit c) ≤ 101121300 := by
  intro hn
  have hwork : ∀ p ∈ Finset.univ, work c a (sysInit c) p ≤ 10011 := fun p _ => by
    have h1 := two_mul_length_le (c.refs p)
    have h2 := hlen p
    unfold Config.refstr refstrSize at h2
    unfold work
    split
    · omega
    · split <;> omega
  have hsum : ∑ p, work c a (sysInit c) p ≤ k * 10011 := by
    have h := Finset.sum_le_card_nsmul Finset.univ _ 10011 hwork
    rwa [Finset.card_univ, Fintype.card_fin, smul_eq_mul] at h
  have hwait := wait_le (c := c) hn (sysInit c).mmu.mem
  unfold maxProcesses at hk
  have hmul : (∑ p, work c a (sysInit c) p + (k - a.started.length)) * (k + 1) ≤ 1001200 * 101 :=
    Nat.mul_le_mul (by omega) (by omega)
  unfold effort
  omega

/-- **The simulation always finishes**: with at most `MAX_PROCESSES` processes, a frame, and lists that fit the buffer,
there is no infinite run, and where nobody can move all processes have exited, the scheduler is done and the MMU waits. -/
theorem simulation_finishes (c : Config k) (hk : 0 < k) (hk' : k ≤ maxProcesses) (hF : 0 < c.frames)
    (hlen : ∀ p, (c.refstr p).length < refstrSize) :
    ¬ InfiniteRun (next c) (sysInit c) ∧ ∀ s, Reachable (next c) (sysInit c) s → Stuck (next c) s → Final s := by
  have hinit : Paced c (101121300) ⟨.idle, [], []⟩ (sysInit c) := by
    refine ⟨sim_init c hk, by simp [Ctl.mmuPc], ?_, le_refl _, ?_⟩
    · exact .quiet (masterInit_inv c.toSetup _) (by simp [sysInit, mmuInit]) (by simp [sysInit, mmuInit])
    · have := effort_init_le c hk' hlen ⟨.idle, [], []⟩ List.nodup_nil
      have ht : (sysInit c).mmu.timestamp = 0 := rfl
      rw [ht]
      simp only [Ctl.mid]
      omega
  have hB : ((101121300 : ℕ) : Int) + 1 < intMax := by decide
  constructor
  · exact not_infinite_of_measure (R := Paced c (101121300)) hinit (measure c) fun x a s t h hs =>
      h.step hk' hF hB hs
  · intro s hr hst
    obtain ⟨a, h⟩ : ∃ a, Paced c (101121300) a s := by
      refine reachable_inv (fun s => ∃ a, Paced c (101121300) a s) ⟨_, hinit⟩ ?_ hr
      rintro x s t - ⟨a, h⟩ hs
      obtain ⟨a', h', -⟩ := h.step hk' hF hB hs
      exact ⟨a', h'⟩
    exact h.sim.final_of_stuck (by rw [h.sim.mmuPc]; exact h.here) hst

theorem simulation_finishes_two : ¬ InfiniteRun (next configTwo) (sysInit configTwo) :=
  (simulation_finishes configTwo (by decide) (by decide) (by decide) (by decide)).1

/-! ## One process more than the MMU can find -/

/-- 101 processes, one page each. -/
def configMany : Config 101 where
  frames := 1
  m := 1
  pid p := 100 + p.val
  mi _ := 1
  pid_inj p q h := by simp only at h; omega
  mi_pos _ := le_refl 1
  mi_le _ := le_refl 1
  m_le := by decide
  refs _ := [0]
  refs_int p page h := by rw [List.mem_singleton.1 h]; decide
  pid_gt p := by omega

/-- The last process asks for its page, and the MMU, which does not find it, exits. -/
def runMany : List (Party 101) := [.proc 100, .sched, .sched, .proc 100, .proc 100, .mmu]

theorem exited_stays {c : Config k} {s t : Sys k} (h : s.mmu.pc = .exited) (hr : Reachable (next c) s t) :
    t.mmu.pc = .exited := by
  refine reachable_inv (fun t => t.mmu.pc = .exited) h ?_ hr
  intro x u v _ hu hs
  cases x with
  | mmu =>
    simp only [next, mmuNext, hu] at hs
    cases hs
  | sched =>
    simp only [next, schedNext] at hs
    cases hpc : u.sched.pc <;> rw [hpc] at hs <;> simp only [reduceCtorEq, Option.map_eq_some_iff] at hs
    · obtain ⟨r, -, rfl⟩ := hs; exact hu
    · cases hs; exact hu
    · obtain ⟨r, -, rfl⟩ := hs; exact hu
    · cases hs; exact hu
  | proc p =>
    simp only [next, procNext] at hs
    cases hpc : (u.proc p).pc <;> rw [hpc] at hs <;> simp only [reduceCtorEq, Option.map_eq_some_iff] at hs
    · cases hs; exact hu
    · obtain ⟨r, -, rfl⟩ := hs; exact hu
    · cases hs; exact hu
    · obtain ⟨r, -, rfl⟩ := hs; exact hu
    · obtain ⟨r, -, rfl⟩ := hs; exact hu

/-- **With 101 processes it need not finish**: the MMU exits on a request of the last one. -/
theorem simulation_of_101_fails :
    0 < configMany.frames ∧ ¬ (¬ InfiniteRun (next configMany) (sysInit configMany) ∧
      ∀ s, Reachable (next configMany) (sysInit configMany) s → Stuck (next configMany) s → Final s) := by
  refine ⟨by decide, ?_⟩
  rintro ⟨hn, hfin⟩
  have hsome : (runSchedule (next configMany) runMany (sysInit configMany)).isSome = true := by decide +kernel
  have hr := reachable_getD runMany (sysInit configMany) hsome
  obtain ⟨t, ht, hst⟩ := exists_stuck hn hr
  have hex := exited_stays (by decide +kernel) ht
  rw [(hfin t (hr.trans ht) hst).2.2] at hex
  cases hex

end Paging
end OsLab
