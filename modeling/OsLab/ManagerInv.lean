import OsLab.ManagerStep
import OsLab.Semaphore
/-!
# ManagerInv — what is true of the manager in every reachable state

A thread is registered in the slot that was free when it was cloned: its creator holds the manager's semaphore from the
look at `count` to `count++`, and the new thread needs the same semaphore to call anything.  Main walks up the table;
what it has seen has signalled, and when it finds no slot beyond, nobody is left who could create one.
-/
namespace OsLab
namespace Manager

open Foothread (semWait semWait_some)

/-- Between `sem_wait` and `sem_post` of the manager's semaphore. -/
def Pc.inside : Pc → Bool
  | .create _ p => match p with
    | .init | .check | .malloc | .wait _ => false
    | _ => true
  | .exit p => match p with
    | .read | .post _ | .free _ _ | .clear _ _ | .unlock _ _ | .readAgain _ | .postAgain _ _ => true
    | _ => false
  | _ => false

/-- The thread that has been cloned and is not registered yet. -/
def Pc.pending : Pc → Option ℤ
  | .create _ (.write _ _ u) => some u
  | .create _ (.count _ u) => some u
  | _ => Option.none

/-- The thread has posted in `foothread_exit`. -/
def Pc.signalled : Pc → Bool
  | .leave _ | .gone => true
  | _ => false

/-- Main has seen the signal of slot `k` if its thread is joinable. -/
def Pc.Seen (k : ℕ) : Pc → Prop
  | .exit p => match p with
    | .test i _ | .testLive i _ | .testJoinable i _ | .join i _ => k < i
    | .lock i _ | .free i _ | .clear i _ | .unlock i _ | .waitAgain i _ | .readAgain i | .postAgain i _ => k ≤ i
    | _ => False
  | .done => True
  | _ => False

/-- Main knows of no slot that it has not seen. -/
def Pc.Closing : Pc → Prop
  | .exit p => match p with
    | .post m => m = 0
    | .test i m => i = m
    | .postAgain i m => i + 1 = m
    | _ => False
  | .done => True
  | _ => False

/-- The places of main while the manager may be uninitialised. -/
def Pc.early : Pc → Bool
  | .run | .create _ .init | .exit .init | .failed => true
  | _ => false

/-- A thread other than main. -/
def Child (pid : ℤ) (s : State) (t : ℤ) : Prop := t ≠ pid ∧ (s.thread t).pc ≠ .none

/-- What the place of thread `t` says of its local variables. -/
def Place (pid : ℤ) (s : State) (t : ℤ) : Pc → Prop
  | .none => t ≠ pid
  | .create _ _ => t = pid ∨ (s.thread t).joinable = true
  | .exit p => match p with
    | .read => t ≠ pid → (s.thread t).slot < s.count
    | .post m => m ≤ s.count ∧ (t ≠ pid → (s.thread t).slot < m)
    | .test i m => t = pid ∧ i ≤ m ∧ m ≤ s.count
    | .testLive i m | .testJoinable i m | .unlock i m | .waitAgain i m | .postAgain i m => t = pid ∧ i < m ∧ m ≤ s.count
    | .join i m | .lock i m | .free i m | .clear i m =>
      t = pid ∧ i < m ∧ m ≤ s.count ∧ (s.table i).joinType = foothreadJoinable
    | .readAgain i => t = pid ∧ i < s.count
    | .find i m | .findLive i m | .findSelf i m => t ≠ pid ∧ i ≤ (s.thread t).slot ∧ (s.thread t).slot < m ∧ m ≤ s.count
    | .signal i => t ≠ pid ∧ (s.thread t).slot = i ∧ i < s.count
    | .missed => False
    | _ => True
  | .leave _ | .gone => t ≠ pid
  | .done => t = pid
  | _ => True

/-- The entry of a registered thread. -/
structure Entry (pid : ℤ) (u : ℤ) (th : Thread) (e : Slot) : Prop where
  pid : e.pid = pid
  tid : e.tid = u
  joinType : e.joinType = foothreadJoinable ↔ th.joinable = true
  stack : e.stack = th.stack

/-- What has been written of the entry of a cloned thread before the statement at hand. -/
def Written (pid : ℤ) (u : ℤ) (th : Thread) (e : Slot) : Pc → Prop
  | .create a (.write f b _) => (th.joinable = true ↔ a.joinType = foothreadJoinable) ∧ th.stack = b ∧ match f with
    | .threads => True
    | .attrs => e.pid = pid ∧ e.tid = u
    | .mutex => (e.pid = pid ∧ e.tid = u) ∧ e.joinType = a.joinType
    | .stack => (e.pid = pid ∧ e.tid = u) ∧ e.joinType = a.joinType ∧ e.mutex = 0
    | .live => (e.pid = pid ∧ e.tid = u) ∧ e.joinType = a.joinType ∧ e.mutex = 0 ∧ e.stack = b
  | .create _ (.count _ _) => Entry pid u th e ∧ e.mutex = 0 ∧ e.live = true
  | _ => True

/-- The invariant, but for the semaphore of the manager. -/
structure Core (pid : ℤ) (s : State) : Prop where
  init : s.initDone = false → (∀ t, t ≠ pid → (s.thread t).pc = .none) ∧ (s.thread pid).pc.early = true
  place : ∀ t, Place pid s t (s.thread t).pc
  entry : ∀ t, Child pid s t → (s.thread t).slot < s.count → Entry pid t (s.thread t) (s.table (s.thread t).slot)
  signal : ∀ t, Child pid s t → (s.thread t).slot < s.count → 0 < (s.table (s.thread t).slot).mutex →
    (s.thread t).pc.signalled = true
  live : ∀ t, Child pid s t → (s.thread t).slot < s.count → (s.table (s.thread t).slot).live = false →
    (s.thread t).joinable = true ∧ (s.thread pid).pc.Seen (s.thread t).slot
  seen : ∀ t, Child pid s t → (s.thread t).joinable = true → (s.thread pid).pc.Seen (s.thread t).slot →
    (s.thread t).pc.signalled = true
  closing : (s.thread pid).pc.Closing → ∀ t, Child pid s t → (s.thread t).joinable = true →
    (s.thread t).pc.signalled = true
  pending : ∀ c u, (s.thread c).pc.pending = some u → Child pid s u ∧ (s.thread u).slot = s.count ∧
    Written pid u (s.thread u) (s.table s.count) (s.thread c).pc
  placed : ∀ t, Child pid s t → (s.thread t).slot < s.count ∨ ∃ c, (s.thread c).pc.pending = some t
  owner : ∀ i, i < s.count → ∃ t, Child pid s t ∧ (s.thread t).slot = i

/-- **The invariant of the manager.** -/
structure Inv (pid : ℤ) (s : State) : Prop extends Core pid s where
  guarded : Guarded (fun t => (s.thread t).pc.inside) s.managerMutex

/-- Neither the semaphore nor the blocks matter to the rest. -/
theorem Core.others {pid : ℤ} {s : State} (h : Core pid s) (v b : ℕ) (f : ℕ → Bool) :
    Core pid { s with managerMutex := v, blocks := b, freed := f } :=
  ⟨h.init, h.place, h.entry, h.signal, h.live, h.seen, h.closing, h.pending, h.placed, h.owner⟩

section Places

variable {pid : ℤ} {s : State} {t u : ℤ} {pc pc' : Pc} {v : ℕ}

@[simp] theorem goto_self (s : State) (t : ℤ) (pc : Pc) : ((s.goto t pc).thread t).pc = pc := by
  simp [State.goto]

theorem goto_of_ne (s : State) (pc : Pc) (h : u ≠ t) : (s.goto t pc).thread u = s.thread u :=
  Function.update_of_ne h _ _

@[simp] theorem goto_slot (s : State) (t u : ℤ) (pc : Pc) : ((s.goto t pc).thread u).slot = (s.thread u).slot := by
  by_cases h : u = t
  · simp [State.goto, h]
  · rw [goto_of_ne s pc h]

@[simp] theorem goto_joinable (s : State) (t u : ℤ) (pc : Pc) :
    ((s.goto t pc).thread u).joinable = (s.thread u).joinable := by
  by_cases h : u = t
  · simp [State.goto, h]
  · rw [goto_of_ne s pc h]

@[simp] theorem goto_stack (s : State) (t u : ℤ) (pc : Pc) : ((s.goto t pc).thread u).stack = (s.thread u).stack := by
  by_cases h : u = t
  · simp [State.goto, h]
  · rw [goto_of_ne s pc h]

/-- How a step goes into the region that the manager's semaphore guards, and out of it. -/
inductive LockStep (pc pc' : Pc) (v : ℕ) : ℕ → Prop
  | keep (h : pc'.inside = pc.inside) : LockStep pc pc' v v
  | take {w : ℕ} (h : v = w + 1) : LockStep pc pc' v w
  | give (h : pc.inside = true) (h' : pc'.inside = false) : LockStep pc pc' v (v + 1)

theorem LockStep.guarded {w : ℕ} (hl : LockStep (s.thread t).pc pc' v w)
    (h : Guarded (fun u => (s.thread u).pc.inside) v) : Guarded (fun u => ((s.goto t pc').thread u).pc.inside) w := by
  have hother' : ∀ u, u ≠ t → ((s.goto t pc').thread u).pc.inside = (s.thread u).pc.inside := fun u hu => by
    rw [goto_of_ne s pc' hu]
  cases hl with
  | keep hkeep =>
    refine h.keep (fun u => ?_)
    by_cases hu : u = t
    · rw [hu, goto_self, hkeep]
    · exact hother' u hu
  | take hv =>
    subst hv
    exact h.take hother'
  | give hin hout => exact h.give hin (by rw [goto_self]; exact hout) hother'

end Places

/-- What a step that only moves thread `t` has to show: where it goes says the truth, and if it is main, what it claims to
have seen has signalled. -/
structure Move (pid : ℤ) (s : State) (t : ℤ) (pc' : Pc) : Prop where
  old : (s.thread t).pc ≠ .none
  new : pc' ≠ .none
  oldPending : (s.thread t).pc.pending = none
  newPending : pc'.pending = none
  signalled : (s.thread t).pc.signalled = true → pc'.signalled = true
  early : s.initDone = false → pc'.early = true
  place : Place pid s t pc'
  grows : t = pid → ∀ k, (s.thread t).pc.Seen k → pc'.Seen k
  seen : t = pid → ∀ u, Child pid s u → (s.thread u).joinable = true → pc'.Seen (s.thread u).slot →
    (s.thread u).pc.signalled = true
  closing : t = pid → pc'.Closing → ∀ u, Child pid s u → (s.thread u).joinable = true →
    (s.thread u).pc.signalled = true

section Move

variable {pid : ℤ} {s : State} {t u : ℤ} {pc' : Pc} {v : ℕ}

theorem Move.child (hm : Move pid s t pc') (u : ℤ) : Child pid (s.goto t pc') u ↔ Child pid s u := by
  unfold Child
  by_cases h : u = t
  · subst h
    rw [goto_self]
    exact and_congr_right (fun _ => ⟨fun _ => hm.old, fun _ => hm.new⟩)
  · rw [goto_of_ne s pc' h]

theorem Move.signals (hm : Move pid s t pc') (h : (s.thread u).pc.signalled = true) :
    ((s.goto t pc').thread u).pc.signalled = true := by
  by_cases hu : u = t
  · rw [hu, goto_self]
    exact hm.signalled (hu ▸ h)
  · rw [goto_of_ne s pc' hu]
    exact h

theorem place_goto (s : State) (t u : ℤ) (pc' pc : Pc) : Place pid (s.goto t pc') u pc ↔ Place pid s u pc := by
  unfold Place
  rw [goto_slot, goto_joinable]
  rfl

theorem written_congr {th th' : Thread} {e : Slot} {pc : Pc} (hj : th'.joinable = th.joinable) (hs : th'.stack = th.stack) :
    Written pid u th' e pc ↔ Written pid u th e pc := by
  have hentry : Entry pid u th' e ↔ Entry pid u th e := by
    constructor
    · exact fun h => ⟨h.pid, h.tid, by rw [← hj]; exact h.joinType, by rw [← hs]; exact h.stack⟩
    · exact fun h => ⟨h.pid, h.tid, by rw [hj]; exact h.joinType, by rw [hs]; exact h.stack⟩
  unfold Written
  rw [hj, hs]
  split <;> simp [hentry]

theorem entry_goto {e : Slot} (h : Entry pid u (s.thread u) e) : Entry pid u ((s.goto t pc').thread u) e where
  pid := h.pid
  tid := h.tid
  joinType := by rw [goto_joinable]; exact h.joinType
  stack := by rw [goto_stack]; exact h.stack

/-- **A step that only moves a thread** keeps the invariant. -/
theorem Core.goto (h : Core pid s) (hm : Move pid s t pc') : Core pid (s.goto t pc') := by
  have hpc : ∀ u, u ≠ t → ((s.goto t pc').thread u).pc = (s.thread u).pc := fun u hu => by rw [goto_of_ne s pc' hu]
  have hmain : ∀ k, (s.thread pid).pc.Seen k → ((s.goto t pc').thread pid).pc.Seen k := fun k hk => by
    by_cases ht : t = pid
    · subst ht
      rw [goto_self]
      exact hm.grows rfl k hk
    · rw [goto_of_ne s pc' (fun e => ht e.symm)]
      exact hk
  constructor
  · intro hi
    obtain ⟨hnone, hearly⟩ := h.init hi
    have ht : t = pid := by
      by_contra ht
      exact hm.old (hnone t ht)
    refine ⟨fun u hu => ?_, ?_⟩
    · rw [hpc u (fun e => hu (e.trans ht)), hnone u hu]
    · rw [← ht, goto_self]
      exact hm.early hi
  · intro u
    rw [place_goto]
    by_cases hu : u = t
    · rw [hu, goto_self]; exact hm.place
    · rw [hpc u hu]; exact h.place u
  · intro u hc hslot
    rw [hm.child] at hc
    rw [goto_slot] at hslot ⊢
    exact entry_goto (h.entry u hc hslot)
  · intro u hc hslot hpos
    rw [hm.child] at hc
    rw [goto_slot] at hslot hpos
    exact hm.signals (h.signal u hc hslot hpos)
  · intro u hc hslot hlive
    rw [hm.child] at hc
    rw [goto_slot] at hslot hlive ⊢
    obtain ⟨hj, hseen⟩ := h.live u hc hslot hlive
    exact ⟨by rw [goto_joinable]; exact hj, hmain _ hseen⟩
  · intro u hc hj hseen
    rw [hm.child] at hc
    rw [goto_joinable] at hj
    rw [goto_slot] at hseen
    refine hm.signals ?_
    by_cases ht : t = pid
    · rw [← ht, goto_self] at hseen
      exact hm.seen ht u hc hj hseen
    · rw [goto_of_ne s pc' (fun e => ht e.symm)] at hseen
      exact h.seen u hc hj hseen
  · intro hclose u hc hj
    rw [hm.child] at hc
    rw [goto_joinable] at hj
    refine hm.signals ?_
    by_cases ht : t = pid
    · rw [← ht, goto_self] at hclose
      exact hm.closing ht hclose u hc hj
    · rw [goto_of_ne s pc' (fun e => ht e.symm)] at hclose
      exact h.closing hclose u hc hj
  · intro c u hpend
    have hc : c ≠ t := fun e => by
      rw [e, goto_self, hm.newPending] at hpend
      cases hpend
    rw [hpc c hc] at hpend ⊢
    obtain ⟨hchild, hslot, hwritten⟩ := h.pending c u hpend
    refine ⟨(hm.child u).2 hchild, by rw [goto_slot]; exact hslot, ?_⟩
    rw [written_congr (goto_joinable s t u pc') (goto_stack s t u pc')]
    exact hwritten
  · intro u hc
    rw [hm.child] at hc
    rw [goto_slot]
    rcases h.placed u hc with hslot | ⟨c, hpend⟩
    · exact Or.inl hslot
    · have hct : c ≠ t := fun e => by
        rw [e, hm.oldPending] at hpend
        cases hpend
      exact Or.inr ⟨c, by rw [hpc c hct]; exact hpend⟩
  · intro i hi
    obtain ⟨u, hc, hslot⟩ := h.owner i hi
    exact ⟨u, (hm.child u).2 hc, by rw [goto_slot]; exact hslot⟩

end Move

/-! ### The statements that change the table -/

section Table

variable {pid : ℤ} {s : State} {t u : ℤ} {a : CreateArgs} {b i : ℕ} {e : Slot}

/-- Only main exists. -/
theorem Core.alone (hnone : ∀ t, t ≠ pid → (s.thread t).pc = .none) (hcount : s.count = 0)
    (hplace : Place pid s pid (s.thread pid).pc) (hpend : (s.thread pid).pc.pending = none)
    (hearly : s.initDone = false → (s.thread pid).pc.early = true) : Core pid s := by
  have hno : ∀ t, ¬ Child pid s t := fun t ht => ht.2 (hnone t ht.1)
  constructor
  · exact fun hi => ⟨hnone, hearly hi⟩
  · intro t
    by_cases ht : t = pid
    · rw [ht]; exact hplace
    · rw [hnone t ht]; exact ht
  · exact fun t hc => absurd hc (hno t)
  · exact fun t hc => absurd hc (hno t)
  · exact fun t hc => absurd hc (hno t)
  · exact fun t hc => absurd hc (hno t)
  · exact fun _ t hc => absurd hc (hno t)
  · intro c u hc
    by_cases hct : c = pid
    · rw [hct, hpend] at hc; cases hc
    · rw [hnone c hct] at hc; cases hc
  · exact fun t hc => absurd hc (hno t)
  · intro i hi
    omega

/-- A write to the semaphore or the flag of a registered thread. -/
theorem Core.setSlot (h : Core pid s) (hi : i < s.count) (hpid : e.pid = (s.table i).pid) (htid : e.tid = (s.table i).tid)
    (hjoin : e.joinType = (s.table i).joinType) (hstack : e.stack = (s.table i).stack)
    (hsig : ∀ u, Child pid s u → (s.thread u).slot = i → 0 < e.mutex → (s.thread u).pc.signalled = true)
    (hlive : ∀ u, Child pid s u → (s.thread u).slot = i → e.live = false →
      (s.thread u).joinable = true ∧ (s.thread pid).pc.Seen i) : Core pid (s.setSlot i e) := by
  have htable : ∀ k, (s.setSlot i e).table k = if k = i then e else s.table k := fun k => by
    unfold State.setSlot
    exact Function.update_apply _ _ _ _
  constructor
  · exact h.init
  · intro u
    have hp := h.place u
    have hjt : ∀ k, ((s.setSlot i e).table k).joinType = (s.table k).joinType := fun k => by
      rw [htable]
      split
      · rename_i hk; rw [hk, hjoin]
      · rfl
    unfold Place at hp ⊢
    simp only [hjt]
    exact hp
  · intro u hc hslot
    have he := h.entry u hc hslot
    show Entry pid u (s.thread u) ((s.setSlot i e).table (s.thread u).slot)
    rw [htable]
    split
    · rename_i hk
      rw [hk] at he
      exact ⟨hpid.trans he.pid, htid.trans he.tid, by rw [hjoin]; exact he.joinType, hstack.trans he.stack⟩
    · exact he
  · intro u hc hslot hpos
    have hpos : 0 < ((s.setSlot i e).table (s.thread u).slot).mutex := hpos
    rw [htable] at hpos
    split at hpos
    · rename_i hk
      exact hsig u hc hk hpos
    · exact h.signal u hc hslot hpos
  · intro u hc hslot hl
    have hl : ((s.setSlot i e).table (s.thread u).slot).live = false := hl
    rw [htable] at hl
    split at hl
    · rename_i hk
      rw [show ((s.setSlot i e).thread u).slot = i from hk]
      exact hlive u hc hk hl
    · exact h.live u hc hslot hl
  · exact h.seen
  · exact h.closing
  · intro c u hpend
    obtain ⟨hc, hslot, hw⟩ := h.pending c u hpend
    refine ⟨hc, hslot, ?_⟩
    show Written pid u (s.thread u) ((s.setSlot i e).table s.count) (s.thread c).pc
    rw [htable, if_neg (by omega)]
    exact hw
  · exact h.placed
  · exact h.owner

theorem inside_of_pending {pc : Pc} (h : pc.pending = some u) : pc.inside = true := by
  cases pc with
  | create a p => cases p <;> first | rfl | cases h
  | _ => cases h

/-- Inside the region there is one creator at most. -/
theorem Inv.pending_eq (h : Inv pid s) (ht : (s.thread t).pc.inside = true) {c w : ℤ}
    (hc : (s.thread c).pc.pending = some w) : c = t :=
  h.guarded.one c t (inside_of_pending hc) ht

theorem Core.initialised (h : Core pid s) (hex : (s.thread t).pc ≠ .none) (he : (s.thread t).pc.early = false) :
    s.initDone = true := by
  by_contra hi
  obtain ⟨hnone, hearly⟩ := h.init (by simpa using hi)
  by_cases ht : t = pid
  · rw [← ht, he] at hearly
    cases hearly
  · exact hex (hnone t ht)

/-- While a thread is creating, main has not come to the end. -/
theorem Core.not_closing (h : Core pid s) {p : CreatePc} (hpc : (s.thread t).pc = .create a p) :
    ¬ (s.thread pid).pc.Closing := fun hclose => by
  have hp := h.place t
  rw [hpc] at hp
  have hsig : (s.thread t).pc.signalled = true := by
    by_cases ht : t = pid
    · rw [← ht, hpc] at hclose
      cases hclose
    · exact h.closing hclose t ⟨ht, by rw [hpc]; exact fun e => by cases e⟩ (hp.resolve_left ht)
  rw [hpc] at hsig
  cases hsig

/-- What main has seen is below `count`, unless it has come to the end. -/
theorem Core.seen_lt (h : Core pid s) (hclose : ¬ (s.thread pid).pc.Closing) {k : ℕ} (hk : (s.thread pid).pc.Seen k) :
    k < s.count := by
  have hp := h.place pid
  cases hpc : (s.thread pid).pc with
  | exit p =>
    rw [hpc] at hp hk
    cases p <;> simp only [Pc.Seen, Place] at hk hp <;> omega
  | done => rw [hpc] at hclose; exact absurd trivial hclose
  | _ => rw [hpc] at hk; exact hk.elim

end Table

end Manager
end OsLab
