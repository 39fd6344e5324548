import OsLab.ManagerRuns
/-!
# ManagerStacks — when main frees the stacks

A joinable thread signals in `foothread_exit` and then still has three returns to execute on its stack.  Main frees the
stack when it has the signal, and no other thread waits for these returns: every run of a program could be one in which
nobody has executed them (`stalled_reachable`).  So no program is safe in which main joins a thread (`stacks_outlive`).
-/
namespace OsLab
namespace Manager

open Foothread (semWait semWait_some)

/-- The block of a creator that has not cloned yet. -/
def Pc.held : Pc → Option ℕ
  | .create _ p => match p with
    | .wait b | .full b | .refuse b | .clone b => some b
    | _ => Option.none
  | _ => Option.none

/-- On the way out: the signal is given, a return is still to execute. -/
def Pc.leaving : Pc → Bool
  | .leave _ => true
  | _ => false

/-- Main is about to free the stack of a thread on its way out. -/
def Overrun (pid : ℤ) (s : State) : Bool :=
  match (s.thread pid).pc with
  | .exit (.free i _) => (s.thread (s.table i).tid).pc.leaving
  | _ => false

/-- Whoever runs on a freed stack has returned. -/
def Safe (pid : ℤ) (s : State) : Prop :=
  ∀ t, Child pid s t → s.freed (s.thread t).stack = true → (s.thread t).pc = .gone

/-- The blocks of the threads and of the creators are distinct, and the freed ones are nobody's who still runs. -/
structure Stacks (pid : ℤ) (s : State) : Prop where
  below : ∀ t, Child pid s t → (s.thread t).stack < s.blocks
  distinct : ∀ t u, Child pid s t → Child pid s u → (s.thread t).stack = (s.thread u).stack → t = u
  heldBelow : ∀ c b, (s.thread c).pc.held = some b → b < s.blocks
  heldOne : ∀ c d b, (s.thread c).pc.held = some b → (s.thread d).pc.held = some b → c = d
  heldOther : ∀ c b t, (s.thread c).pc.held = some b → Child pid s t → (s.thread t).stack ≠ b
  heldLive : ∀ c b, (s.thread c).pc.held = some b → s.freed b = false
  freedBelow : ∀ b, s.freed b = true → b < s.blocks
  safe : Safe pid s

/-- What a step by thread `t` does to the blocks. -/
inductive BlockStep (t : ℤ) (s : State) : State → Prop
  | walk {s' : State} (pc' : Pc) (hthread : s'.thread = (s.goto t pc').thread) (hblocks : s'.blocks = s.blocks)
      (hfreed : s'.freed = s.freed) (hex : (s.thread t).pc ≠ .none) (hgone : (s.thread t).pc ≠ .gone)
      (hex' : pc' ≠ .none) (hheld : pc'.held = none ∨ pc'.held = (s.thread t).pc.held) : BlockStep t s s'
  | malloc {s' : State} (pc' : Pc) (hthread : s'.thread = (s.goto t pc').thread) (hblocks : s'.blocks = s.blocks + 1)
      (hfreed : s'.freed = s.freed) (hex : (s.thread t).pc ≠ .none) (hgone : (s.thread t).pc ≠ .gone)
      (hex' : pc' ≠ .none) (hheld : pc'.held = some s.blocks) : BlockStep t s s'
  | refuse {s' : State} {b : ℕ} (hthread : s'.thread = (s.goto t .failed).thread) (hblocks : s'.blocks = s.blocks)
      (hfreed : s'.freed = Function.update s.freed b true) (hheld : (s.thread t).pc.held = some b)
      (hex : (s.thread t).pc ≠ .none) (hgone : (s.thread t).pc ≠ .gone) : BlockStep t s s'
  | clone {s' : State} {a : CreateArgs} {b : ℕ} {u : ℤ} (pc' : Pc)
      (hthread : s'.thread = ((s.spawn u a b).goto t pc').thread) (hblocks : s'.blocks = s.blocks)
      (hfreed : s'.freed = s.freed) (hheld : (s.thread t).pc.held = some b) (hheld' : pc'.held = none)
      (hex : (s.thread t).pc ≠ .none) (hgone : (s.thread t).pc ≠ .gone) (hex' : pc' ≠ .none)
      (hu : (s.thread u).pc = .none) : BlockStep t s s'
  | release {s' : State} {i m : ℕ} (hthread : s'.thread = (s.goto t (.exit (.clear i m))).thread)
      (hblocks : s'.blocks = s.blocks) (hfreed : s'.freed = Function.update s.freed (s.table i).stack true)
      (hpc : (s.thread t).pc = .exit (.free i m)) : BlockStep t s s'

section Blocks

variable {pid t : ℤ} {a : CreateArgs} {s s' : State} {pc pc' : Pc}

/-- A step from `pc` to `pc'` that neither takes a block nor frees one. -/
theorem BlockStep.of_goto (hpc : (s.thread t).pc = pc) (hex : pc ≠ .none) (hgone : pc ≠ .gone) (hex' : pc' ≠ .none)
    (hheld : pc'.held = none ∨ pc'.held = pc.held) (hthread : s'.thread = (s.goto t pc').thread)
    (hblocks : s'.blocks = s.blocks) (hfreed : s'.freed = s.freed) : BlockStep t s s' :=
  .walk pc' hthread hblocks hfreed (by rw [hpc]; exact hex) (by rw [hpc]; exact hgone) hex' (by rw [hpc]; exact hheld)

theorem blockStep_of_create {p : CreatePc} {c : Choice} (hpc : (s.thread t).pc = .create a p)
    (hst : foothreadCreate pid t a s p c = some s') : BlockStep t s s' := by
  have hex : (s.thread t).pc ≠ .none := by rw [hpc]; exact fun e => by cases e
  have hgone : (s.thread t).pc ≠ .gone := by rw [hpc]; exact fun e => by cases e
  have hwalk : ∀ {q : Pc} {u : State}, q ≠ .none → q.held = none ∨ q.held = (Pc.create a p).held →
      u.thread = (s.goto t q).thread → u.blocks = s.blocks → u.freed = s.freed → BlockStep t s u :=
    fun hex' hheld hthread hblocks hfreed =>
      .of_goto hpc (fun e => by cases e) (fun e => by cases e) hex' hheld hthread hblocks hfreed
  cases p with
  | init =>
    cases c with
    | go =>
      cases hst
      split <;> exact hwalk (fun e => by cases e) (Or.inl rfl) rfl rfl rfl
    | _ => cases hst
  | check =>
    cases c with
    | go =>
      simp only [foothreadCreate] at hst
      split at hst
      · cases hst
        exact hwalk (fun e => by cases e) (Or.inl rfl) rfl rfl rfl
      · split at hst <;> cases hst <;> exact hwalk (fun e => by cases e) (Or.inl rfl) rfl rfl rfl
    | _ => cases hst
  | malloc =>
    cases c with
    | go =>
      cases hst
      exact .malloc (.create a (.wait s.blocks)) rfl rfl rfl hex hgone (fun e => by cases e) rfl
    | fail =>
      cases hst
      exact hwalk (fun e => by cases e) (Or.inl rfl) rfl rfl rfl
    | _ => cases hst
  | wait b =>
    cases c with
    | go =>
      obtain ⟨v, -, rfl⟩ := Option.map_eq_some_iff.1 hst
      exact hwalk (q := .create a (.full b)) (fun e => by cases e) (Or.inr rfl) rfl rfl rfl
    | _ => cases hst
  | full b =>
    cases c with
    | go =>
      cases hst
      split
      · exact hwalk (q := .create a (.refuse b)) (fun e => by cases e) (Or.inr rfl) rfl rfl rfl
      · exact hwalk (q := .create a (.clone b)) (fun e => by cases e) (Or.inr rfl) rfl rfl rfl
    | _ => cases hst
  | refuse b =>
    cases c with
    | go =>
      cases hst
      exact .refuse (b := b) rfl rfl rfl (by rw [hpc]; rfl) hex hgone
    | _ => cases hst
  | clone b =>
    cases c with
    | tid u =>
      simp only [foothreadCreate] at hst
      split at hst
      · rename_i hu
        cases hst
        exact .clone (b := b) (.create a (.write .threads b u)) rfl rfl rfl (by rw [hpc]; rfl) rfl hex hgone
          (fun e => by cases e) hu.2
      · cases hst
    | fail =>
      cases hst
      exact .refuse (b := b) rfl rfl rfl (by rw [hpc]; rfl) hex hgone
    | _ => cases hst
  | write f b u =>
    cases c with
    | go =>
      cases hst
      exact hwalk (fun e => by cases e) (Or.inl (by cases f <;> rfl)) rfl rfl rfl
    | _ => cases hst
  | count b u =>
    cases c with
    | go =>
      cases hst
      exact hwalk (q := .create a .post) (fun e => by cases e) (Or.inl rfl) rfl rfl rfl
    | _ => cases hst
  | post =>
    cases c with
    | go =>
      cases hst
      exact hwalk (q := .run) (fun e => by cases e) (Or.inl rfl) rfl rfl rfl
    | _ => cases hst

theorem blockStep_of_exit {p : ExitPc} (hpc : (s.thread t).pc = .exit p) (hst : foothreadExit pid t s p = some s') :
    BlockStep t s s' := by
  have hwalk : ∀ {q : Pc} {u : State}, q ≠ .none → q.held = none → u.thread = (s.goto t q).thread →
      u.blocks = s.blocks → u.freed = s.freed → BlockStep t s u := fun hex' hheld hthread hblocks hfreed =>
    .of_goto hpc (fun e => by cases e) (fun e => by cases e) hex' (Or.inl hheld) hthread hblocks hfreed
  have hlock : ∀ {p' : ExitPc}, s.lockManager t (.exit p') = some s' → BlockStep t s s' := fun hl => by
    obtain ⟨v, -, rfl⟩ := Option.map_eq_some_iff.1 hl
    exact hwalk (fun e => by cases e) rfl rfl rfl rfl
  cases p with
  | wait | lock i m | waitAgain i m => exact hlock hst
  | join i m =>
    obtain ⟨v, -, rfl⟩ := Option.map_eq_some_iff.1 hst
    exact hwalk (q := .exit (.lock i m)) (fun e => by cases e) rfl rfl rfl rfl
  | free i m =>
    cases hst
    exact .release rfl rfl rfl hpc
  | init | post m | test i m | testLive i m | testJoinable i m | find i m | findLive i m | findSelf i m =>
    cases hst
    split <;> exact hwalk (fun e => by cases e) rfl rfl rfl rfl
  | read => cases hst; exact hwalk (q := .exit (.post s.count)) (fun e => by cases e) rfl rfl rfl rfl
  | clear i m => cases hst; exact hwalk (q := .exit (.unlock i m)) (fun e => by cases e) rfl rfl rfl rfl
  | unlock i m => cases hst; exact hwalk (q := .exit (.waitAgain i m)) (fun e => by cases e) rfl rfl rfl rfl
  | readAgain i => cases hst; exact hwalk (q := .exit (.postAgain i s.count)) (fun e => by cases e) rfl rfl rfl rfl
  | postAgain i m => cases hst; exact hwalk (q := .exit (.test (i + 1) m)) (fun e => by cases e) rfl rfl rfl rfl
  | signal i => cases hst; exact hwalk (q := .leave .exit) (fun e => by cases e) rfl rfl rfl rfl
  | missed => cases hst; exact hwalk (q := .leave .exit) (fun e => by cases e) rfl rfl rfl rfl

/-- **What a step does to the blocks.** -/
theorem blockStep_of_next {c : Choice} (hst : next pid (t, c) s = some s') : BlockStep t s s' := by
  cases hpc : (s.thread t).pc with
  | run =>
    have hwalk : ∀ {pc' : Pc}, pc' ≠ .none → pc'.held = none → BlockStep t s (s.goto t pc') := fun hex' hheld =>
      .of_goto hpc (fun e => by cases e) (fun e => by cases e) hex' (Or.inl hheld) rfl rfl rfl
    cases c with
    | create args =>
      simp only [next, hpc] at hst
      split at hst
      · cases hst
        exact hwalk (fun e => by cases e) rfl
      · cases hst
    | exit =>
      simp only [next, hpc] at hst
      cases hst
      exact hwalk (fun e => by cases e) rfl
    | _ => simp only [next, hpc] at hst; cases hst
  | create args p =>
    simp only [next, hpc] at hst
    exact blockStep_of_create hpc hst
  | exit p =>
    cases c with
    | go =>
      simp only [next, hpc] at hst
      exact blockStep_of_exit hpc hst
    | _ => simp only [next, hpc] at hst; cases hst
  | leave p =>
    cases c with
    | go =>
      cases p <;> simp only [next, hpc] at hst <;> cases hst <;>
        exact .of_goto hpc (fun e => by cases e) (fun e => by cases e) (fun e => by cases e) (Or.inl rfl) rfl rfl rfl
    | _ => simp only [next, hpc] at hst; cases hst
  | _ => simp only [next, hpc] at hst; cases hst

end Blocks

section Keep

variable {pid t : ℤ} {s s' : State} {pc' : Pc}

/-- What a step that moves the thread `t` leaves as it was. -/
theorem moved (hthread : s'.thread = (s.goto t pc').thread) (hex : (s.thread t).pc ≠ .none) :
    (∀ u, u ≠ t → (s'.thread u).pc = (s.thread u).pc) ∧ (∀ u, (s'.thread u).stack = (s.thread u).stack) ∧
      (s'.thread t).pc = pc' ∧ ∀ u, Child pid s' u → Child pid s u := by
  have hpc : ∀ u, u ≠ t → (s'.thread u).pc = (s.thread u).pc := fun u hu => by rw [hthread, goto_of_ne s pc' hu]
  refine ⟨hpc, fun u => by rw [hthread, goto_stack], by rw [hthread, goto_self], fun u hu => ?_⟩
  by_cases hut : u = t
  · exact ⟨hu.1, hut ▸ hex⟩
  · exact ⟨hu.1, by rw [← hpc u hut]; exact hu.2⟩

/-- A step that only moves a thread: what each thread holds, and who exists. -/
theorem Stacks.walk (h : Stacks pid s) (hthread : s'.thread = (s.goto t pc').thread) (hblocks : s'.blocks = s.blocks)
    (hex : (s.thread t).pc ≠ .none) (hheld : ∀ b, pc'.held = some b → (s.thread t).pc.held = some b)
    (hfreed : ∀ b, s'.freed b = true → b < s.blocks)
    (hlive : ∀ c b, (s.thread c).pc.held = some b → (c = t → pc'.held = some b) → s'.freed b = false)
    (hsafe : ∀ u, Child pid s u → s'.freed (s.thread u).stack = true →
      ((s.goto t pc').thread u).pc = .gone) : Stacks pid s' := by
  obtain ⟨hpc, hstack, hself, hchild⟩ := @moved pid t s s' pc' hthread hex
  have hold : ∀ c b, (s'.thread c).pc.held = some b → (s.thread c).pc.held = some b := fun c b hc => by
    by_cases hct : c = t
    · rw [hct] at hc ⊢
      rw [hself] at hc
      exact hheld b hc
    · rw [hpc c hct] at hc
      exact hc
  constructor
  · intro u hu
    rw [hstack, hblocks]
    exact h.below u (hchild u hu)
  · intro u w hu hw he
    rw [hstack, hstack] at he
    exact h.distinct u w (hchild u hu) (hchild w hw) he
  · intro c b hc
    rw [hblocks]
    exact h.heldBelow c b (hold c b hc)
  · exact fun c d b hc hd => h.heldOne c d b (hold c b hc) (hold d b hd)
  · intro c b u hc hu
    rw [hstack]
    exact h.heldOther c b u (hold c b hc) (hchild u hu)
  · intro c b hc
    refine hlive c b (hold c b hc) (fun hct => ?_)
    rw [hct, hself] at hc
    exact hc
  · intro b hb
    rw [hblocks]
    exact hfreed b hb
  · intro u hu hf
    rw [hstack] at hf
    rw [hthread]
    exact hsafe u (hchild u hu) hf

/-- A thread that is gone takes no step. -/
theorem Stacks.still_gone (h : Stacks pid s) (hgone : (s.thread t).pc ≠ .gone) {u : ℤ} (hu : Child pid s u)
    (hf : s.freed (s.thread u).stack = true) : ((s.goto t pc').thread u).pc = .gone := by
  have hug := h.safe u hu hf
  have hut : u ≠ t := fun e => by
    rw [e] at hug
    exact hgone hug
  rw [goto_of_ne s pc' hut]
  exact hug

theorem Stacks.malloc (h : Stacks pid s) (hthread : s'.thread = (s.goto t pc').thread)
    (hblocks : s'.blocks = s.blocks + 1) (hfreed : s'.freed = s.freed) (hex : (s.thread t).pc ≠ .none)
    (hgone : (s.thread t).pc ≠ .gone) (hheld : pc'.held = some s.blocks) : Stacks pid s' := by
  obtain ⟨hpc, hstack, hself, hchild⟩ := @moved pid t s s' pc' hthread hex
  -- what is held is the new block, or was held before by another thread
  have hold : ∀ c b, (s'.thread c).pc.held = some b → (c = t ∧ b = s.blocks) ∨ (c ≠ t ∧ (s.thread c).pc.held = some b) := by
    intro c b hc
    by_cases hct : c = t
    · rw [hct, hself, hheld] at hc
      exact Or.inl ⟨hct, (Option.some.inj hc).symm⟩
    · rw [hpc c hct] at hc
      exact Or.inr ⟨hct, hc⟩
  constructor
  · intro u hu
    rw [hstack, hblocks]
    exact Nat.lt_succ_of_lt (h.below u (hchild u hu))
  · intro u w hu hw he
    rw [hstack, hstack] at he
    exact h.distinct u w (hchild u hu) (hchild w hw) he
  · intro c b hc
    rw [hblocks]
    rcases hold c b hc with ⟨-, rfl⟩ | ⟨-, hc⟩
    · exact Nat.lt_succ_self _
    · exact Nat.lt_succ_of_lt (h.heldBelow c b hc)
  · intro c d b hc hd
    rcases hold c b hc with ⟨rfl, rfl⟩ | ⟨-, hc⟩ <;> rcases hold d _ hd with ⟨rfl, hb⟩ | ⟨-, hd⟩
    · rfl
    · exact absurd (h.heldBelow d _ hd) (Nat.lt_irrefl _)
    · rw [hb] at hc
      exact absurd (h.heldBelow c _ hc) (Nat.lt_irrefl _)
    · exact h.heldOne c d b hc hd
  · intro c b u hc hu
    rw [hstack]
    rcases hold c b hc with ⟨-, rfl⟩ | ⟨-, hc⟩
    · exact Nat.ne_of_lt (h.below u (hchild u hu))
    · exact h.heldOther c b u hc (hchild u hu)
  · intro c b hc
    rw [hfreed]
    rcases hold c b hc with ⟨-, rfl⟩ | ⟨-, hc⟩
    · by_contra hf
      exact absurd (h.freedBelow _ (by simpa using hf)) (Nat.lt_irrefl _)
    · exact h.heldLive c b hc
  · intro b hb
    rw [hfreed] at hb
    rw [hblocks]
    exact Nat.lt_succ_of_lt (h.freedBelow b hb)
  · intro u hu hf
    rw [hfreed, hstack] at hf
    rw [hthread]
    exact h.still_gone hgone (hchild u hu) hf

/-- The block goes from the creator to the new thread. -/
theorem Stacks.clone (h : Stacks pid s) {a : CreateArgs} {b : ℕ} {u : ℤ}
    (hthread : s'.thread = ((s.spawn u a b).goto t pc').thread)
    (hblocks : s'.blocks = s.blocks) (hfreed : s'.freed = s.freed) (hheld : (s.thread t).pc.held = some b)
    (hheld' : pc'.held = none) (hex : (s.thread t).pc ≠ .none) (hgone : (s.thread t).pc ≠ .gone)
    (hu : (s.thread u).pc = .none) : Stacks pid s' := by
  have hut : u ≠ t := fun e => hex (e ▸ hu)
  have hspawn : ∀ w, w ≠ u → (s.spawn u a b).thread w = s.thread w := fun w hw => Function.update_of_ne hw _ _
  have hnew : (s'.thread u).stack = b ∧ (s'.thread u).pc = .run := by
    rw [hthread, goto_of_ne _ _ hut]
    simp [State.spawn]
  have hpc : ∀ w, w ≠ t → w ≠ u → (s'.thread w).pc = (s.thread w).pc := fun w hw hwu => by
    rw [hthread, goto_of_ne _ _ hw, hspawn w hwu]
  have hstack : ∀ w, w ≠ u → (s'.thread w).stack = (s.thread w).stack := fun w hw => by
    rw [hthread, goto_stack, hspawn w hw]
  have hself : (s'.thread t).pc = pc' := by rw [hthread, goto_self]
  have hchild : ∀ w, w ≠ u → Child pid s' w → Child pid s w := fun w hwu hw => by
    by_cases hwt : w = t
    · exact ⟨hw.1, hwt ▸ hex⟩
    · exact ⟨hw.1, by rw [← hpc w hwt hwu]; exact hw.2⟩
  have hold : ∀ c k, (s'.thread c).pc.held = some k → c ≠ t ∧ (s.thread c).pc.held = some k := fun c k hc => by
    have hct : c ≠ t := fun e => by rw [e, hself, hheld'] at hc; cases hc
    have hcu : c ≠ u := fun e => by rw [e, hnew.2] at hc; cases hc
    rw [hpc c hct hcu] at hc
    exact ⟨hct, hc⟩
  constructor
  · intro w hw
    rw [hblocks]
    by_cases hwu : w = u
    · rw [hwu, hnew.1]
      exact h.heldBelow t b hheld
    · rw [hstack w hwu]
      exact h.below w (hchild w hwu hw)
  · intro w x hw hx he
    by_cases hwu : w = u <;> by_cases hxu : x = u
    · rw [hwu, hxu]
    · rw [hwu, hnew.1, hstack x hxu] at he
      exact absurd he.symm (h.heldOther t b x hheld (hchild x hxu hx))
    · rw [hxu, hnew.1, hstack w hwu] at he
      exact absurd he (h.heldOther t b w hheld (hchild w hwu hw))
    · rw [hstack w hwu, hstack x hxu] at he
      exact h.distinct w x (hchild w hwu hw) (hchild x hxu hx) he
  · intro c k hc
    rw [hblocks]
    exact h.heldBelow c k (hold c k hc).2
  · exact fun c d k hc hd => h.heldOne c d k (hold c k hc).2 (hold d k hd).2
  · intro c k w hc hw he
    obtain ⟨hct, hc⟩ := hold c k hc
    by_cases hwu : w = u
    · rw [hwu, hnew.1] at he
      exact hct (h.heldOne c t k hc (he ▸ hheld))
    · rw [hstack w hwu] at he
      exact h.heldOther c k w hc (hchild w hwu hw) he
  · intro c k hc
    rw [hfreed]
    exact h.heldLive c k (hold c k hc).2
  · intro k hk
    rw [hfreed] at hk
    rw [hblocks]
    exact h.freedBelow k hk
  · intro w hw hf
    rw [hfreed] at hf
    by_cases hwu : w = u
    · rw [hwu, hnew.1, h.heldLive t b hheld] at hf
      cases hf
    · rw [hstack w hwu] at hf
      have hwg := h.safe w (hchild w hwu hw) hf
      have hwt : w ≠ t := fun e => by
        rw [e] at hwg
        exact hgone hwg
      rw [hpc w hwt hwu]
      exact hwg

end Keep

theorem overrun_free {pid : ℤ} {s : State} {i m : ℕ} (hpc : (s.thread pid).pc = .exit (.free i m)) :
    Overrun pid s = (s.thread (s.table i).tid).pc.leaving := by
  unfold Overrun
  rw [hpc]

theorem free_of_overrun {pid : ℤ} {s : State} (h : Overrun pid s = true) :
    ∃ i m, (s.thread pid).pc = .exit (.free i m) := by
  unfold Overrun at h
  split at h
  · exact ⟨_, _, ‹_›⟩
  · cases h

/-- Before main frees the stack of a slot: the slot is that of a thread which has signalled. -/
theorem Inv.at_free {pid t : ℤ} {s : State} {i m : ℕ} (h : Inv pid s) (hpc : (s.thread t).pc = .exit (.free i m)) :
    t = pid ∧ ∃ w, Child pid s w ∧ Entry pid w (s.thread w) (s.table i) ∧ (s.thread w).pc.signalled = true := by
  have hplace := h.place t
  rw [hpc] at hplace
  obtain ⟨rfl, him, hm, hj⟩ := hplace
  obtain ⟨w, hw, rfl⟩ := h.owner i (by omega)
  have he := h.entry w hw (by omega)
  exact ⟨rfl, w, hw, he, h.seen w hw (he.joinType.1 hj) (by rw [hpc]; exact Nat.le_refl _)⟩

/-- **Every step keeps the stacks apart**, and safe unless it overruns a thread. -/
theorem Stacks.step {pid : ℤ} {a : ℤ × Choice} {s s' : State} (h : Stacks pid s) (hI : Inv pid s)
    (hok : ¬ (a.1 = pid ∧ Overrun pid s = true)) (hst : next pid a s = some s') : Stacks pid s' := by
  obtain ⟨t, c⟩ := a
  cases blockStep_of_next hst with
  | walk pc' hthread hblocks hfreed hex hgone hex' hheld =>
    refine h.walk hthread hblocks hex (fun b hb => ?_) (fun b hb => ?_) (fun c b hc _ => ?_) (fun u hu hf => ?_)
    · rcases hheld with e | e
      · rw [e] at hb; cases hb
      · rw [← e]; exact hb
    · rw [hfreed] at hb
      exact h.freedBelow b hb
    · rw [hfreed]
      exact h.heldLive c b hc
    · rw [hfreed] at hf
      exact h.still_gone hgone hu hf
  | malloc pc' hthread hblocks hfreed hex hgone hex' hheld => exact h.malloc hthread hblocks hfreed hex hgone hheld
  | @refuse b hthread hblocks hfreed hheld hex hgone =>
    refine h.walk hthread hblocks hex (fun _ hb => by cases hb) (fun k hk => ?_)
      (fun c k hc hct => ?_) (fun u hu hf => ?_)
    · rw [hfreed, Function.update_apply] at hk
      split at hk
      · rename_i hkb
        rw [hkb]
        exact h.heldBelow t b hheld
      · exact h.freedBelow k hk
    · -- another creator holds another block
      have hkb : k ≠ b := fun e => by
        have := hct (h.heldOne c t k hc (e ▸ hheld))
        cases this
      rw [hfreed, Function.update_of_ne hkb]
      exact h.heldLive c k hc
    · rw [hfreed, Function.update_of_ne (h.heldOther t b u hheld hu)] at hf
      exact h.still_gone hgone hu hf
  | clone pc' hthread hblocks hfreed hheld hheld' hex hgone hex' hu =>
    exact h.clone hthread hblocks hfreed hheld hheld' hex hgone hu
  | @release i m hthread hblocks hfreed hpc =>
    obtain ⟨rfl, w, hw, he, hsig⟩ := hI.at_free hpc
    have hwgone : (s.thread w).pc = .gone := by
      cases hwpc : (s.thread w).pc with
      | gone => rfl
      | leave p => exact absurd ⟨rfl, by rw [overrun_free hpc, he.tid, hwpc]; rfl⟩ hok
      | _ => rw [hwpc] at hsig; cases hsig
    have hgone : (s.thread t).pc ≠ .gone := by rw [hpc]; exact fun e => by cases e
    refine h.walk hthread hblocks (by rw [hpc]; exact fun e => by cases e) (fun _ hb => by cases hb)
      (fun k hk => ?_) (fun c k hc _ => ?_) (fun u hu hf => ?_)
    · rw [hfreed, Function.update_apply] at hk
      split at hk
      · rename_i hki
        rw [hki, he.stack]
        exact h.below w hw
      · exact h.freedBelow k hk
    · have hki : k ≠ (s.table i).stack := fun e => h.heldOther c k w hc hw (by rw [e, he.stack])
      rw [hfreed, Function.update_of_ne hki]
      exact h.heldLive c k hc
    · rw [hfreed, Function.update_apply] at hf
      split at hf
      · rename_i hstack
        obtain rfl := h.distinct u w hu hw (hstack.trans he.stack)
        rw [goto_of_ne s _ hu.1]
        exact hwgone
      · exact h.still_gone hgone hu hf

theorem start_stacks (pid : ℤ) : Stacks pid (start pid) := by
  have hno : ∀ t, ¬ Child pid (start pid) t := fun t ht => ht.2 (if_neg ht.1)
  have hheld : ∀ c b, ((start pid).thread c).pc.held ≠ some b := fun c b => by
    show Pc.held (if c = pid then Pc.run else Pc.none) ≠ some b
    split <;> exact fun e => by cases e
  exact {
    below := fun t ht => absurd ht (hno t)
    distinct := fun t _ ht => absurd ht (hno t)
    heldBelow := fun c b hc => absurd hc (hheld c b)
    heldOne := fun c _ b hc => absurd hc (hheld c b)
    heldOther := fun c b _ hc => absurd hc (hheld c b)
    heldLive := fun c b hc => absurd hc (hheld c b)
    freedBelow := fun _ hb => by cases hb
    safe := fun t ht => absurd ht (hno t) }

/-! ### Programs -/

/-- A program, as far as the manager sees it: which calls a thread may make, and what `malloc` and `clone` may answer, after
the calls and answers there have been. -/
abbrev Program := List (ℤ × Choice) → ℤ × Choice → Bool

/-- A run of a program: the calls and answers so far, and whether a thread has called `exit`, which ends the process. -/
structure Run where
  state : State
  calls : List (ℤ × Choice)
  ended : Bool

def Pc.exits : Pc → Bool
  | .done | .failed => true
  | _ => false

/-- What the program does not decide is the order of the steps. -/
def Program.step (P : Program) (pid : ℤ) (a : ℤ × Choice) (r : Run) : Option Run :=
  if r.ended = true ∨ (a.2 ≠ .go ∧ P r.calls a = false) then none
  else (next pid a r.state).map fun s =>
    ⟨s, if a.2 = .go then r.calls else r.calls ++ [a], (s.thread a.1).pc.exits⟩

def begin (pid : ℤ) : Run := ⟨start pid, [], false⟩

/-- The program joins a thread: in some run of it main gets to the `free` of its loop. -/
def Program.Joins (P : Program) (pid : ℤ) : Prop :=
  ∃ r i m, Reachable (P.step pid) (begin pid) r ∧ r.ended = false ∧ (r.state.thread pid).pc = .exit (.free i m)

/-- The thread has not come further than its signal. -/
def Pc.stalled : Pc → Pc
  | .leave _ | .gone => .leave .exit
  | pc => pc

/-- The same state, but for the returns of the threads that have signalled. -/
def State.stalled (s : State) : State := { s with thread := fun t => { s.thread t with pc := (s.thread t).pc.stalled } }

def Run.stalled (r : Run) : Run := { r with state := r.state.stalled }

section Stalled

variable {pid t : ℤ} {a : CreateArgs} {s s' : State} {pc : Pc}

theorem stalled_goto (s : State) (t : ℤ) (pc : Pc) : (s.goto t pc).stalled = s.stalled.goto t pc.stalled := by
  have hthread : (s.goto t pc).stalled.thread = (s.stalled.goto t pc.stalled).thread := by
    funext u
    by_cases hu : u = t
    · subst hu
      simp [State.stalled, State.goto]
    · simp [State.stalled, State.goto, hu]
  unfold State.stalled at hthread ⊢
  simp only [State.goto] at hthread ⊢
  rw [hthread]

theorem goto_stalled (s : State) (pc : Pc) (hpc : pc.stalled = pc) : s.stalled.goto t pc = (s.goto t pc).stalled := by
  rw [stalled_goto, hpc]

theorem stalled_spawn (s : State) (u : ℤ) (a : CreateArgs) (b : ℕ) : (s.spawn u a b).stalled = s.stalled.spawn u a b := by
  have hthread : (s.spawn u a b).stalled.thread = (s.stalled.spawn u a b).thread := by
    funext w
    by_cases hw : w = u
    · subst hw
      simp [State.stalled, State.spawn, Pc.stalled]
    · simp [State.stalled, State.spawn, hw]
  unfold State.stalled at hthread ⊢
  simp only [State.spawn] at hthread ⊢
  rw [hthread]

theorem stalled_none (s : State) (u : ℤ) : (s.stalled.thread u).pc = .none ↔ (s.thread u).pc = .none := by
  change (s.thread u).pc.stalled = .none ↔ _
  cases (s.thread u).pc <;> simp [Pc.stalled]

theorem lockManager_stalled (h : s.lockManager t pc = some s') : s.stalled.lockManager t pc.stalled = some s'.stalled := by
  obtain ⟨v, hv, rfl⟩ := Option.map_eq_some_iff.1 h
  refine Option.map_eq_some_iff.2 ⟨v, hv, ?_⟩
  rw [← stalled_goto]
  rfl

theorem unlockManager_stalled (s : State) (t : ℤ) (pc : Pc) :
    (s.unlockManager t pc).stalled = s.stalled.unlockManager t pc.stalled := by
  unfold State.unlockManager
  rw [← stalled_goto]
  rfl

theorem foothreadCreate_stalled {p : CreatePc} {c : Choice} (h : foothreadCreate pid t a s p c = some s') :
    foothreadCreate pid t a s.stalled p c = some s'.stalled := by
  cases p with
  | init =>
    cases c with
    | go =>
      cases h
      refine congrArg some ?_
      by_cases hdone : s.initDone = true
      · rw [if_pos hdone, if_pos (show s.stalled.initDone = true from hdone)]
        exact goto_stalled s _ rfl
      · rw [if_neg hdone, if_neg (show ¬ s.stalled.initDone = true from hdone)]
        exact goto_stalled s.initManager _ rfl
    | _ => cases h
  | check =>
    cases c with
    | go =>
      simp only [foothreadCreate] at h ⊢
      split at h
      · cases h
        rw [if_pos ‹_›]
        exact congrArg some (goto_stalled s _ rfl)
      · rw [if_neg ‹_›]
        split at h <;> cases h
        · rw [if_pos ‹_›]
          exact congrArg some (goto_stalled s _ rfl)
        · rw [if_neg ‹_›]
          exact congrArg some (goto_stalled s _ rfl)
    | _ => cases h
  | malloc =>
    cases c with
    | go =>
      cases h
      exact congrArg (fun u : State => some { u with blocks := s.blocks + 1 }) (goto_stalled s (.create a (.wait s.blocks)) rfl)
    | fail =>
      cases h
      exact congrArg some (goto_stalled s _ rfl)
    | _ => cases h
  | wait b =>
    cases c with
    | go => exact lockManager_stalled h
    | _ => cases h
  | full b =>
    cases c with
    | go =>
      cases h
      refine congrArg some ((goto_stalled s _ ?_))
      split <;> rfl
    | _ => cases h
  | refuse b =>
    cases c with
    | go =>
      cases h
      exact congrArg some (unlockManager_stalled (s.free b) t .failed).symm
    | _ => cases h
  | clone b =>
    cases c with
    | tid u =>
      simp only [foothreadCreate] at h ⊢
      split at h
      · rename_i hu
        cases h
        rw [if_pos ⟨hu.1, (stalled_none s u).2 hu.2⟩, ← stalled_spawn]
        exact congrArg some (goto_stalled (s.spawn u a b) _ rfl)
      · cases h
    | fail =>
      cases h
      exact congrArg some (unlockManager_stalled (s.free b) t .failed).symm
    | _ => cases h
  | write f b u =>
    cases c with
    | go =>
      cases h
      refine congrArg some (goto_stalled (s.setSlot s.count (f.write pid u a b (s.table s.count))) _ ?_)
      cases f <;> rfl
    | _ => cases h
  | count b u =>
    cases c with
    | go =>
      cases h
      exact congrArg (fun w : State => some { w with count := s.count + 1 }) (goto_stalled s (.create a .post) rfl)
    | _ => cases h
  | post =>
    cases c with
    | go =>
      cases h
      exact congrArg some (unlockManager_stalled s t .run).symm
    | _ => cases h

theorem foothreadExit_stalled {p : ExitPc} (h : foothreadExit pid t s p = some s') :
    foothreadExit pid t s.stalled p = some s'.stalled := by
  cases p with
  | wait | lock | waitAgain => exact lockManager_stalled h
  | post m =>
    cases h
    refine congrArg some ((congrArg (s.stalled.unlockManager t) ?_).trans (unlockManager_stalled s t _).symm)
    split <;> rfl
  | unlock | postAgain =>
    cases h
    exact congrArg some (unlockManager_stalled s t (.exit _)).symm
  | join i m =>
    obtain ⟨v, hv, rfl⟩ := Option.map_eq_some_iff.1 h
    exact Option.map_eq_some_iff.2 ⟨v, hv, goto_stalled (s.setSlot i { s.table i with mutex := v }) _ rfl⟩
  | free i m =>
    cases h
    exact congrArg some (goto_stalled (s.free (s.table i).stack) _ rfl)
  | clear i m =>
    cases h
    exact congrArg some (goto_stalled (s.setSlot i { s.table i with live := false }) _ rfl)
  | signal i =>
    cases h
    exact congrArg some (goto_stalled (s.setSlot i { s.table i with mutex := (s.table i).mutex + 1 }) _ rfl)
  | init | test | testLive | testJoinable | find | findLive | findSelf =>
    cases h
    refine congrArg some (goto_stalled s _ ?_)
    split <;> rfl
  | read | readAgain | missed =>
    cases h
    exact congrArg some (goto_stalled s _ rfl)

/-- **A return is of no account to the others**: a step is one of the state without the returns, or is a return. -/
theorem next_stalled {c : Choice} (h : next pid (t, c) s = some s') :
    next pid (t, c) s.stalled = some s'.stalled ∨ (∃ p, (s.thread t).pc = .leave p) ∧ c = .go ∧ s'.stalled = s.stalled := by
  have hsame : ∀ q, (s.thread t).pc = q → (s.stalled.thread t).pc = q.stalled := fun q hq => congrArg Pc.stalled hq
  have hreturn : ∀ p q, (s.thread t).pc = .leave p → q.stalled = Pc.leave .exit → (s.goto t q).stalled = s.stalled := by
    intro p q hpc hq
    rw [stalled_goto, hq]
    have hthread := hsame _ hpc
    unfold State.goto
    rw [show (Pc.leave LeavePc.exit) = (s.stalled.thread t).pc from hthread.symm, Function.update_eq_self]
  cases hpc : (s.thread t).pc with
  | run =>
    have hpc' := hsame _ hpc
    cases c with
    | create args =>
      simp only [next, hpc] at h
      split at h
      · rename_i hjoin
        cases h
        refine Or.inl ?_
        simp only [next, hpc', Pc.stalled]
        rw [if_pos (show t = pid ∨ (s.stalled.thread t).joinable = true from hjoin), stalled_goto]
        rfl
      · cases h
    | exit =>
      simp only [next, hpc] at h
      cases h
      refine Or.inl ?_
      simp only [next, hpc', Pc.stalled]
      rw [stalled_goto]
      rfl
    | _ => simp only [next, hpc] at h; cases h
  | create args p =>
    have hpc' := hsame _ hpc
    simp only [next, hpc] at h
    refine Or.inl ?_
    simp only [next, hpc', Pc.stalled]
    exact foothreadCreate_stalled h
  | exit p =>
    have hpc' := hsame _ hpc
    cases c with
    | go =>
      simp only [next, hpc] at h
      refine Or.inl ?_
      simp only [next, hpc', Pc.stalled]
      exact foothreadExit_stalled h
    | _ => simp only [next, hpc] at h; cases h
  | leave p =>
    cases c with
    | go =>
      cases p <;> simp only [next, hpc] at h <;> cases h <;> exact Or.inr ⟨⟨_, rfl⟩, rfl, hreturn _ _ hpc rfl⟩
    | _ => simp only [next, hpc] at h; cases h
  | _ => simp only [next, hpc] at h; cases h

theorem not_gone_stalled (s : State) (u : ℤ) : (s.stalled.thread u).pc ≠ .gone := by
  change (s.thread u).pc.stalled ≠ .gone
  cases (s.thread u).pc <;> simp [Pc.stalled]

theorem exits_stalled (s : State) (t : ℤ) : (s.stalled.thread t).pc.exits = (s.thread t).pc.exits := by
  change (s.thread t).pc.stalled.exits = _
  cases (s.thread t).pc <;> rfl

variable {P : Program} {r r' : Run} {x : ℤ × Choice}

theorem Program.step_some (h : P.step pid x r = some r') :
    r.ended = false ∧ (x.2 ≠ .go → P r.calls x = true) ∧ next pid x r.state = some r'.state ∧
      r'.calls = (if x.2 = .go then r.calls else r.calls ++ [x]) ∧ r'.ended = (r'.state.thread x.1).pc.exits := by
  unfold Program.step at h
  split at h
  · cases h
  · rename_i hok
    push Not at hok
    obtain ⟨u, hu, rfl⟩ := Option.map_eq_some_iff.1 h
    exact ⟨by simpa using hok.1, fun hgo => by simpa using hok.2 hgo, hu, rfl, rfl⟩

theorem Program.step_of (hend : r.ended = false) (hok : x.2 ≠ .go → P r.calls x = true) (h : next pid x r.state = some s) :
    P.step pid x r = some ⟨s, if x.2 = .go then r.calls else r.calls ++ [x], (s.thread x.1).pc.exits⟩ := by
  unfold Program.step
  rw [if_neg, h]
  · rfl
  · rintro (h | ⟨hgo, h⟩)
    · rw [hend] at h
      cases h
    · rw [hok hgo] at h
      cases h

theorem begin_stalled (pid : ℤ) : (begin pid).stalled = begin pid := by
  have hthread : (start pid).stalled.thread = (start pid).thread := by
    funext t
    by_cases ht : t = pid <;> simp [State.stalled, start, ht, Pc.stalled]
  unfold Run.stalled begin
  rw [show (start pid).stalled = { start pid with thread := (start pid).stalled.thread } from rfl, hthread]

/-- **Every run could be one in which nobody has returned**, with the same calls and answers. -/
theorem stalled_reachable (h : Reachable (P.step pid) (begin pid) r) : Reachable (P.step pid) (begin pid) r.stalled := by
  induction h with
  | refl =>
    rw [begin_stalled]
    exact Reachable.refl _ _
  | @tail r r' hr hst ih =>
    obtain ⟨⟨t, c⟩, hst⟩ := hst
    obtain ⟨hend, hok, hnext, hcalls, hended⟩ := Program.step_some hst
    rcases next_stalled hnext with hstep | ⟨⟨p, hpc⟩, rfl, hsame⟩
    · have hrun := ih.step (Program.step_of (r := r.stalled) hend hok hstep)
      rw [exits_stalled, ← hended] at hrun
      rw [show r.stalled.calls = r.calls from rfl, ← hcalls] at hrun
      exact hrun
    · have hended' : r'.ended = r.ended := by
        rw [hended, ← exits_stalled, hsame, exits_stalled, hpc, hend]
        rfl
      have hr' : r'.stalled = r.stalled := by
        change (⟨r'.state.stalled, r'.calls, r'.ended⟩ : Run) = ⟨r.state.stalled, r.calls, r.ended⟩
        rw [hsame, hcalls, hended', if_pos rfl]
      rw [hr']
      exact ih

theorem Program.state_reachable (h : Reachable (P.step pid) (begin pid) r) : Reachable (next pid) (start pid) r.state := by
  induction h with
  | refl => exact Reachable.refl _ _
  | tail _ hst ih =>
    obtain ⟨x, hst⟩ := hst
    exact ih.step (Program.step_some hst).2.2.1

/-- Without a join no stack is freed that somebody runs on. -/
theorem Program.safe_of_not_joins (hP : ¬ P.Joins pid) (h : Reachable (P.step pid) (begin pid) r) : Safe pid r.state := by
  have hboth : Inv pid r.state ∧ Stacks pid r.state := by
    refine reachable_inv (fun r => Inv pid r.state ∧ Stacks pid r.state) ⟨start_inv pid, start_stacks pid⟩
      (fun x r r' hr hI hst => ?_) h
    obtain ⟨hend, -, hnext, -⟩ := Program.step_some hst
    refine ⟨hI.1.step hnext, hI.2.step hI.1 (fun hover => hP ?_) hnext⟩
    obtain ⟨i, m, hpc⟩ := free_of_overrun hover.2
    exact ⟨r, i, m, hr, hend, hpc⟩
  exact hboth.2.safe

/-- With one, main frees the stack of a thread that has not returned. -/
theorem Program.unsafe_of_joins (hP : P.Joins pid) : ∃ r, Reachable (P.step pid) (begin pid) r ∧ ¬ Safe pid r.state := by
  obtain ⟨r, i, m, hr, hend, hpc⟩ := hP
  have hr' := stalled_reachable hr
  have hpc' : (r.stalled.state.thread pid).pc = .exit (.free i m) := congrArg Pc.stalled hpc
  obtain ⟨-, w, hw, he, -⟩ := (reachable_run (Program.state_reachable hr')).at_free hpc'
  have hst : next pid (pid, .go) r.stalled.state =
      some ((r.stalled.state.free (r.stalled.state.table i).stack).goto pid (.exit (.clear i m))) := by
    simp only [next, hpc', foothreadExit]
  refine ⟨_, hr'.step (Program.step_of hend (fun hgo => absurd rfl hgo) hst), fun hsafe => ?_⟩
  have hwpc : (((r.stalled.state.free (r.stalled.state.table i).stack).goto pid (.exit (.clear i m))).thread w).pc =
      (r.stalled.state.thread w).pc := by
    rw [goto_of_ne _ _ hw.1]
    rfl
  have hgone := hsafe w ⟨hw.1, by rw [hwpc]; exact hw.2⟩ (by
    rw [goto_stack]
    change Function.update r.stalled.state.freed (r.stalled.state.table i).stack true (r.stalled.state.thread w).stack = true
    rw [← he.stack, Function.update_self])
  rw [hwpc] at hgone
  exact not_gone_stalled r.state w hgone

end Stalled

/-- **No program that joins a thread is safe**: whoever runs on a freed stack has returned, in every state of every run of
the program, exactly when main never gets to free a stack.  In every other program the thread whose stack it is can still
have all its returns before it. -/
theorem stacks_outlive (pid : ℤ) (P : Program) :
    (∀ r, Reachable (P.step pid) (begin pid) r → Safe pid r.state) ↔ ¬ P.Joins pid := by
  refine ⟨fun hsafe hP => ?_, fun hP r hr => Program.safe_of_not_joins hP hr⟩
  obtain ⟨r, hr, hnot⟩ := Program.unsafe_of_joins hP
  exact hnot (hsafe r hr)

example : Program.Joins (fun _ _ => true) 1 :=
  ⟨_, 0, 1, reachable_getD (oneThread ++ List.replicate 8 (2, .go) ++ List.replicate 2 (1, .go)) (begin 1)
    (by decide +kernel), by decide +kernel, by decide +kernel⟩

/-- Thread 2 signals and main, which waits for it, frees its stack. -/
def joinedEarly : List (ℤ × Choice) := oneThread ++ List.replicate 8 (2, .go) ++ List.replicate 3 (1, .go)

/-- **A stack can be freed too early**: under a thread that has signalled and still has to return. -/
theorem stack_freed_early : ¬ ∀ (pid : ℤ) (s : State), Reachable (next pid) (start pid) s → Safe pid s := by
  intro h
  have hr : Reachable (next 1) (start 1) _ := reachable_getD joinedEarly (start 1) (by decide +kernel)
  exact absurd (h 1 _ hr 2 ⟨by decide, by decide +kernel⟩ (by decide +kernel)) (by decide +kernel)

end Manager
end OsLab
