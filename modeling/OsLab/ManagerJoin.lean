import OsLab.ManagerRuns
/-!
# ManagerJoin — main waits for nobody who has signalled

The semaphore of a thread that has signalled stays positive until main takes it, and main takes it once (`Open.kept`); the
manager's semaphore is taken only while somebody is inside, who can go on (`Open.held`).  So once all joinable threads have
signalled nothing holds main up in `foothread_exit` (`main_not_blocked`).
-/
namespace OsLab
namespace Manager

open Foothread (semWait semWait_some)

/-- No semaphore is zero for good. -/
structure Open (pid : ℤ) (s : State) : Prop where
  kept : ∀ w, Child pid s w → (s.thread w).pc.signalled = true → (s.thread w).slot < s.count ∧
    (0 < (s.table (s.thread w).slot).mutex ∨ (s.thread pid).pc.Seen (s.thread w).slot)
  held : s.initDone = true → s.managerMutex = 0 → ∃ t, (s.thread t).pc.inside = true

section Steps

variable {pid : ℤ} {s s' : State} {t u : ℤ} {a : CreateArgs} {q : Pc} {v b i : ℕ} {e : Slot}

/-- What main has seen it has seen after a step, too. -/
theorem seen_goto (hseen : ∀ k, (s.thread t).pc.Seen k → q.Seen k) (k : ℕ) (h : (s.thread pid).pc.Seen k) :
    ((s.goto t q).thread pid).pc.Seen k := by
  by_cases ht : pid = t
  · subst ht
    rw [goto_self]
    exact hseen k h
  · rw [goto_of_ne s q ht]
    exact h

theorem signalled_goto (hsig : q.signalled = true → (s.thread t).pc.signalled = true)
    (h : ((s.goto t q).thread u).pc.signalled = true) : (s.thread u).pc.signalled = true := by
  by_cases hu : u = t
  · rw [hu, goto_self] at h
    rw [hu]
    exact hsig h
  · rw [goto_of_ne s q hu] at h
    exact h

theorem ne_none_of_signalled (h : (s.thread u).pc.signalled = true) : (s.thread u).pc ≠ .none := fun e => by
  rw [e] at h
  cases h

/-- **A step that moves a thread**, and takes or gives the manager's semaphore as its places say. -/
theorem Open.move (h : Open pid s) (hsig : q.signalled = true → (s.thread t).pc.signalled = true)
    (hseen : ∀ k, (s.thread t).pc.Seen k → q.Seen k)
    (hl : v = s.managerMutex ∧ q.inside = (s.thread t).pc.inside ∨ q.inside = true ∨ v ≠ 0) (b : ℕ) (f : ℕ → Bool) :
    Open pid { s.goto t q with managerMutex := v, blocks := b, freed := f } where
  kept w hc hw := by
    have hold := signalled_goto hsig hw
    obtain ⟨hlt, hkept⟩ := h.kept w ⟨hc.1, ne_none_of_signalled hold⟩ hold
    have hslot := goto_slot s t w q
    refine ⟨hslot ▸ hlt, ?_⟩
    show 0 < (s.table ((s.goto t q).thread w).slot).mutex ∨ Pc.Seen ((s.goto t q).thread w).slot ((s.goto t q).thread pid).pc
    rw [hslot]
    exact hkept.imp_right (seen_goto hseen _)
  held hi hv := by
    have hself : ((s.goto t q).thread t).pc.inside = q.inside := by rw [goto_self]
    rcases hl with ⟨hvs, hin⟩ | hin | hpos
    · obtain ⟨w, hw⟩ := h.held hi (hvs.symm.trans hv)
      by_cases hwt : w = t
      · exact ⟨t, hself.trans (hin.trans (hwt ▸ hw))⟩
      · exact ⟨w, (congrArg (fun th : Thread => th.pc.inside) (goto_of_ne s q hwt)).trans hw⟩
    · exact ⟨t, hself.trans hin⟩
    · exact absurd hv hpos

theorem Open.walk (h : Open pid s) (hsig : q.signalled = true → (s.thread t).pc.signalled = true)
    (hseen : ∀ k, (s.thread t).pc.Seen k → q.Seen k) (hin : q.inside = (s.thread t).pc.inside) :
    Open pid (s.goto t q) :=
  h.move hsig hseen (Or.inl ⟨rfl, hin⟩) s.blocks s.freed

theorem Open.lock (h : Open pid s) (hsig : q.signalled = true → (s.thread t).pc.signalled = true)
    (hseen : ∀ k, (s.thread t).pc.Seen k → q.Seen k) (hin : q.inside = true) (hst : s.lockManager t q = some s') :
    Open pid s' := by
  obtain ⟨v, -, rfl⟩ := Option.map_eq_some_iff.1 hst
  exact h.move hsig hseen (Or.inr (Or.inl hin)) s.blocks s.freed

theorem Open.unlock (h : Open pid s) (hsig : q.signalled = true → (s.thread t).pc.signalled = true)
    (hseen : ∀ k, (s.thread t).pc.Seen k → q.Seen k) : Open pid (s.unlockManager t q) :=
  h.move hsig hseen (Or.inr (Or.inr (Nat.succ_ne_zero _))) s.blocks s.freed

/-- A write to an entry that leaves the semaphore positive, unless main has seen it or it is not counted. -/
theorem Open.setSlot (h : Open pid s)
    (hpos : i < s.count → 0 < (s.table i).mutex → 0 < e.mutex ∨ (s.thread pid).pc.Seen i) : Open pid (s.setSlot i e) where
  kept w hc hw := by
    obtain ⟨hlt, hkept⟩ := h.kept w hc hw
    refine ⟨hlt, ?_⟩
    show 0 < (Function.update s.table i e (s.thread w).slot).mutex ∨ (s.thread pid).pc.Seen (s.thread w).slot
    by_cases hi : (s.thread w).slot = i
    · rw [hi, Function.update_self]
      rw [hi] at hkept hlt
      exact hkept.elim (hpos hlt) Or.inr
    · rw [Function.update_of_ne hi]
      exact hkept
  held := h.held

theorem Open.spawn (h : Open pid s) (hu : (s.thread u).pc = .none) (hpid : u ≠ pid) : Open pid (s.spawn u a b) where
  kept w hc hw := by
    have hwu : w ≠ u := fun e => by
      have hrun : ((s.spawn u a b).thread w).pc = .run := by
        simp [e, State.spawn]
      rw [hrun] at hw
      cases hw
    have hsame : ∀ x, x ≠ u → (s.spawn u a b).thread x = s.thread x := fun x hx => Function.update_of_ne hx _ _
    unfold Child at hc
    rw [hsame w hwu] at hc hw ⊢
    rw [hsame pid hpid.symm]
    exact h.kept w hc hw
  held hi hv := by
    obtain ⟨w, hw⟩ := h.held hi hv
    have hwu : w ≠ u := fun e => by
      rw [e, hu] at hw
      cases hw
    exact ⟨w, (congrArg (fun th : Thread => th.pc.inside) (Function.update_of_ne hwu _ _)).trans hw⟩

/-- **A statement of `foothread_create`.** -/
theorem Open.createStep (h : Open pid s) (hI : Inv pid s) {p : CreatePc} {c : Choice} (hpc : (s.thread t).pc = .create a p)
    (hst : foothreadCreate pid t a s p c = some s') : Open pid s' := by
  have hsig : ∀ {q : Pc}, q.signalled = false → q.signalled = true → (s.thread t).pc.signalled = true :=
    fun hf ht => by rw [hf] at ht; cases ht
  have hseen : ∀ {q : Pc} k, (s.thread t).pc.Seen k → q.Seen k := fun k hk => by
    rw [hpc] at hk
    exact hk.elim
  have hin : ∀ {q : Pc}, q.inside = (Pc.create a p).inside → q.inside = (s.thread t).pc.inside := fun he => by
    rw [hpc]
    exact he
  cases p with
  | init =>
    cases c <;> cases hst
    cases hd : s.initDone with
    | true => exact h.walk (hsig rfl) hseen (hin rfl)
    | false =>
      rw [if_neg Bool.false_ne_true]
      obtain ⟨hnone, -⟩ := hI.init hd
      have ht : t = pid := by
        by_contra ht
        rw [hnone t ht] at hpc
        cases hpc
      refine ⟨fun w hc hw => ?_, fun _ hv => absurd hv Nat.one_ne_zero⟩
      have hwt : w ≠ t := fun e => hc.1 (e.trans ht)
      rw [goto_of_ne _ _ hwt, show (s.initManager.thread w).pc = .none from hnone w hc.1] at hw
      cases hw
  | check =>
    cases c <;> simp only [foothreadCreate, reduceCtorEq] at hst
    split at hst
    · cases hst
      exact h.walk (hsig rfl) hseen (hin rfl)
    · split at hst <;> cases hst <;> exact h.walk (hsig rfl) hseen (hin rfl)
  | malloc =>
    cases c with
    | go =>
      cases hst
      exact h.move (q := .create a (.wait s.blocks)) (hsig rfl) hseen (Or.inl ⟨rfl, hin rfl⟩) _ _
    | fail =>
      cases hst
      exact h.walk (hsig rfl) hseen (hin rfl)
    | _ => cases hst
  | wait b =>
    cases c <;> simp only [foothreadCreate, reduceCtorEq] at hst
    exact h.lock (hsig rfl) hseen rfl hst
  | full b =>
    cases c <;> cases hst
    split <;> exact h.walk (hsig rfl) hseen (hin rfl)
  | refuse b =>
    cases c <;> cases hst
    exact h.move (hsig rfl) hseen (Or.inr (Or.inr (Nat.succ_ne_zero _))) _ _
  | clone b =>
    cases c with
    | tid u =>
      simp only [foothreadCreate] at hst
      obtain ⟨⟨-, hu⟩, hst⟩ := Option.ite_none_right_eq_some.1 hst
      cases hst
      have hupid : u ≠ pid := by
        have hp := hI.place u
        rw [hu] at hp
        exact hp
      have hut : t ≠ u := fun e => by
        rw [← e, hpc] at hu
        cases hu
      have hpc' : ((s.spawn u a b).thread t).pc = .create a (.clone b) :=
        (congrArg Thread.pc (Function.update_of_ne hut _ _)).trans hpc
      refine (h.spawn hu hupid).walk (fun e => by cases e) (fun k hk => ?_) (by rw [hpc']; rfl)
      rw [hpc'] at hk
      exact hk.elim
    | fail =>
      cases hst
      exact h.move (hsig rfl) hseen (Or.inr (Or.inr (Nat.succ_ne_zero _))) _ _
    | _ => cases hst
  | write f b u =>
    cases c <;> cases hst
    have hopen := h.setSlot (i := s.count) (e := f.write pid u a b (s.table s.count)) (fun hlt => absurd hlt (Nat.lt_irrefl _))
    refine hopen.walk (fun e => by cases e) (fun k hk => ?_) ?_
    · rw [show ((s.setSlot s.count _).thread t).pc = .create a (.write f b u) from hpc] at hk
      exact hk.elim
    · rw [show ((s.setSlot s.count _).thread t).pc = .create a (.write f b u) from hpc]
      cases f <;> rfl
  | count b u =>
    cases c <;> cases hst
    have hgo : Open pid (s.goto t (.create a .post)) := h.walk (hsig rfl) hseen (hin rfl)
    exact ⟨fun w hc hw => (hgo.kept w hc hw).imp_left Nat.lt_succ_of_lt, hgo.held⟩
  | post =>
    cases c <;> cases hst
    exact h.unlock (hsig rfl) hseen

/-- **A statement of `foothread_exit`.** -/
theorem Open.exitStep (h : Open pid s) (hI : Inv pid s) {p : ExitPc} (hpc : (s.thread t).pc = .exit p)
    (hst : foothreadExit pid t s p = some s') : Open pid s' := by
  have hplace := hI.place t
  rw [hpc] at hplace
  have hsig : ∀ {p'}, (Pc.exit p').signalled = true → (s.thread t).pc.signalled = true := fun ht => by cases ht
  have hseen : ∀ {q : Pc}, (∀ k, (Pc.exit p).Seen k → q.Seen k) → ∀ k, (s.thread t).pc.Seen k → q.Seen k :=
    fun hs k hk => by
      rw [hpc] at hk
      exact hs k hk
  have hin : ∀ {q : Pc}, q.inside = (Pc.exit p).inside → q.inside = (s.thread t).pc.inside := fun he => by
    rw [hpc]
    exact he
  cases p with
  | init =>
    cases hst
    split
    · exact h.walk hsig (hseen fun _ hk => hk.elim) (hin rfl)
    · exact h.walk (fun e => nomatch e) (hseen fun _ hk => hk.elim) (hin rfl)
  | wait => exact h.lock hsig (hseen fun _ hk => hk.elim) rfl hst
  | read =>
    cases hst
    exact h.walk hsig (hseen fun _ hk => hk.elim) (hin rfl)
  | post m =>
    cases hst
    split <;> exact h.unlock hsig (hseen fun _ hk => hk.elim)
  | test i m =>
    cases hst
    split
    · exact h.walk hsig (hseen fun _ hk => hk) (hin rfl)
    · exact h.walk (fun e => nomatch e) (hseen fun _ _ => trivial) (hin rfl)
  | testLive i m =>
    cases hst
    split
    · exact h.walk hsig (hseen fun _ hk => Nat.lt_succ_of_lt hk) (hin rfl)
    · exact h.walk hsig (hseen fun _ hk => hk) (hin rfl)
  | testJoinable i m =>
    cases hst
    split
    · exact h.walk hsig (hseen fun _ hk => hk) (hin rfl)
    · exact h.walk hsig (hseen fun _ hk => Nat.le_of_lt hk) (hin rfl)
  | join i m =>
    -- what main takes, it has seen from here on
    obtain ⟨v, -, rfl⟩ := Option.map_eq_some_iff.1 hst
    have hmove : Open pid (s.goto t (.exit (.lock i m))) := h.walk hsig (hseen fun _ hk => Nat.le_of_lt hk) (hin rfl)
    refine hmove.setSlot (i := i) (e := { s.table i with mutex := v }) fun _ _ => Or.inr ?_
    rw [hplace.1, goto_self]
    exact Nat.le_refl i
  | lock i m => exact h.lock (q := .exit (.free i m)) hsig (hseen fun _ hk => hk) rfl hst
  | free i m =>
    cases hst
    exact h.move (q := .exit (.clear i m)) hsig (hseen fun _ hk => hk) (Or.inl ⟨rfl, hin rfl⟩) _ _
  | clear i m =>
    cases hst
    have hmove : Open pid (s.goto t (.exit (.unlock i m))) := h.walk hsig (hseen fun _ hk => hk) (hin rfl)
    exact hmove.setSlot (i := i) (e := { s.table i with live := false }) fun _ hpos => Or.inl hpos
  | unlock i m =>
    cases hst
    exact h.unlock hsig (hseen fun _ hk => hk)
  | waitAgain i m => exact h.lock (q := .exit (.readAgain i)) hsig (hseen fun _ hk => hk) rfl hst
  | readAgain i =>
    cases hst
    exact h.walk hsig (hseen fun _ hk => hk) (hin rfl)
  | postAgain i m =>
    cases hst
    exact h.unlock hsig (hseen fun _ hk => Nat.lt_succ_of_le hk)
  | find i m =>
    cases hst
    split <;> exact h.walk hsig (hseen fun _ hk => hk.elim) (hin rfl)
  | findLive i m =>
    cases hst
    split <;> exact h.walk hsig (hseen fun _ hk => hk.elim) (hin rfl)
  | findSelf i m =>
    cases hst
    split <;> exact h.walk hsig (hseen fun _ hk => hk.elim) (hin rfl)
  | signal i =>
    -- the thread's own semaphore is positive now
    cases hst
    obtain ⟨htpid, hslot, hi⟩ := hplace
    have hup : Open pid (s.setSlot i { s.table i with mutex := (s.table i).mutex + 1 }) :=
      h.setSlot fun _ _ => Or.inl (Nat.succ_pos _)
    refine ⟨fun w hc hw => ?_, fun hi hv => ?_⟩
    · by_cases hwt : w = t
      · subst hwt
        show ((s.goto w (.leave .exit)).thread w).slot < s.count ∧
          (0 < (Function.update s.table i _ ((s.goto w (.leave .exit)).thread w).slot).mutex ∨ _)
        rw [goto_slot, hslot, Function.update_self]
        exact ⟨hi, Or.inl (Nat.succ_pos _)⟩
      · have hsame := goto_of_ne (s.setSlot i { s.table i with mutex := (s.table i).mutex + 1 }) (.leave .exit) hwt
        have hmain := goto_of_ne (s.setSlot i { s.table i with mutex := (s.table i).mutex + 1 }) (.leave .exit)
          (Ne.symm htpid)
        have hcw : Child pid (s.setSlot i { s.table i with mutex := (s.table i).mutex + 1 }) w :=
          ⟨hc.1, fun e => hc.2 ((congrArg Thread.pc hsame).trans e)⟩
        have hkept := hup.kept w hcw (by rw [← hsame]; exact hw)
        rw [← hsame, ← hmain] at hkept
        exact hkept
    · obtain ⟨w, hw⟩ := h.held hi hv
      have hwt : w ≠ t := fun e => by
        rw [e, hpc] at hw
        cases hw
      exact ⟨w, (congrArg (fun th : Thread => th.pc.inside) (goto_of_ne s (.leave .exit) hwt)).trans hw⟩
  | missed => exact hplace.elim

theorem Open.step {a : ℤ × Choice} (h : Open pid s) (hI : Inv pid s) (hst : next pid a s = some s') : Open pid s' := by
  obtain ⟨t, c⟩ := a
  cases hpc : (s.thread t).pc with
  | run =>
    have hseen : ∀ {q : Pc} k, (s.thread t).pc.Seen k → q.Seen k := fun k hk => by
      rw [hpc] at hk
      exact hk.elim
    cases c <;> simp only [next, hpc, reduceCtorEq] at hst
    · cases (Option.ite_none_right_eq_some.1 hst).2
      exact h.walk (fun e => by cases e) hseen (by rw [hpc]; rfl)
    · cases hst
      exact h.walk (fun e => by cases e) hseen (by rw [hpc]; rfl)
  | create args p =>
    simp only [next, hpc] at hst
    exact h.createStep hI hpc hst
  | exit p =>
    cases c <;> simp only [next, hpc, reduceCtorEq] at hst
    exact h.exitStep hI hpc hst
  | leave p =>
    cases c <;> simp only [next, hpc, reduceCtorEq] at hst
    cases p <;> cases hst <;>
      exact h.walk (fun _ => by rw [hpc]; rfl) (fun k hk => by rw [hpc] at hk; exact hk.elim) (by rw [hpc]; rfl)
  | _ => cases c <;> simp only [next, hpc, reduceCtorEq] at hst

theorem start_open (pid : ℤ) : Open pid (start pid) where
  kept _ hc := absurd (if_neg hc.1) hc.2
  held h := nomatch h

theorem reachable_open (h : Reachable (next pid) (start pid) s) : Open pid s :=
  reachable_inv (Open pid) (start_open pid) (fun _ _ _ hr ho hst => ho.step (reachable_run hr) hst) h

/-- Who is inside the region of the manager's semaphore can go on: `clone` returns at least with an error. -/
theorem inside_moves (h : (s.thread t).pc.inside = true) :
    ∃ c, (c = .go ∨ c = .fail) ∧ (next pid (t, c) s).isSome = true := by
  cases hpc : (s.thread t).pc with
  | create a p =>
    rw [hpc] at h
    cases p with
    | clone b => exact ⟨.fail, Or.inr rfl, by simp [next, hpc, foothreadCreate]⟩
    | init | check | malloc | wait b => cases h
    | _ => exact ⟨.go, Or.inl rfl, by simp [next, hpc, foothreadCreate]⟩
  | exit p =>
    rw [hpc] at h
    refine ⟨.go, Or.inl rfl, ?_⟩
    cases p <;> first | cases h; done | simp [next, hpc, foothreadExit]
  | _ => rw [hpc] at h; cases h

/-- Where main waits for the manager's semaphore, another thread has it and goes on. -/
theorem Open.holder (h : Open pid s) (hinit : s.initDone = true) (hout : (s.thread pid).pc.inside = false)
    (hzero : s.managerMutex = 0) :
    ∃ t, t ≠ pid ∧ (s.thread t).pc.inside = true ∧ ∃ c, (c = .go ∨ c = .fail) ∧ (next pid (t, c) s).isSome = true := by
  obtain ⟨t, ht⟩ := h.held hinit hzero
  refine ⟨t, fun e => ?_, ht, inside_moves ht⟩
  rw [e, hout] at ht
  cases ht

/-- Main goes on, or it waits for the manager's semaphore, which another thread has that goes on. -/
def Unblocked (pid : ℤ) (s : State) : Prop :=
  (next pid (pid, .go) s).isSome = true ∨
    ∃ t, t ≠ pid ∧ (s.thread t).pc.inside = true ∧ ∃ c, (c = .go ∨ c = .fail) ∧ (next pid (t, c) s).isSome = true

/-- **Once all joinable threads have signalled, nothing holds main up in `foothread_exit`.** -/
theorem main_not_blocked (h : Reachable (next pid) (start pid) s)
    (hall : ∀ t, Child pid s t → (s.thread t).joinable = true → (s.thread t).pc.signalled = true) {p : ExitPc}
    (hpc : (s.thread pid).pc = .exit p) : Unblocked pid s := by
  have hI := reachable_run h
  have ho := reachable_open h
  have hplace := hI.place pid
  rw [hpc] at hplace
  have hinit : p ≠ .init → s.initDone = true := fun hp =>
    hI.initialised (t := pid) (by rw [hpc]; rintro ⟨⟩) (by rw [hpc]; cases p <;> first | rfl | exact absurd rfl hp)
  have hwaits : p ≠ .init → (Pc.exit p).inside = false →
      (0 < s.managerMutex → (next pid (pid, .go) s).isSome = true) → Unblocked pid s := fun hp hout hgo => by
    rcases Nat.eq_zero_or_pos s.managerMutex with hzero | hpos
    · exact Or.inr (ho.holder (hinit hp) (by rw [hpc]; exact hout) hzero)
    · exact Or.inl (hgo hpos)
  have hlock : ∀ {q : Pc}, 0 < s.managerMutex → (s.lockManager pid q).isSome = true := fun hpos => by
    obtain ⟨v, hv⟩ := Nat.exists_eq_succ_of_ne_zero hpos.ne'
    rw [State.lockManager, hv]
    rfl
  cases p with
  | wait => exact hwaits (by rintro ⟨⟩) rfl fun hpos => by simpa [next, hpc, foothreadExit] using hlock hpos
  | lock i m => exact hwaits (by rintro ⟨⟩) rfl fun hpos => by simpa [next, hpc, foothreadExit] using hlock hpos
  | waitAgain i m => exact hwaits (by rintro ⟨⟩) rfl fun hpos => by simpa [next, hpc, foothreadExit] using hlock hpos
  | join i m =>
    -- the thread of this slot has signalled, and main has not taken its signal yet
    obtain ⟨-, him, hm, hj⟩ := hplace
    obtain ⟨t, hc, rfl⟩ := hI.owner i (by omega)
    have hjoin := (hI.entry t hc (by omega)).joinType.1 hj
    have hpos := (ho.kept t hc (hall t hc hjoin)).2.resolve_right fun hseen => by
      rw [hpc] at hseen
      exact Nat.lt_irrefl _ hseen
    obtain ⟨v, hv⟩ := Nat.exists_eq_succ_of_ne_zero hpos.ne'
    exact Or.inl (by simp [next, hpc, foothreadExit, hv, semWait])
  | missed => exact hplace.elim
  | _ => exact Or.inl (by simp [next, hpc, foothreadExit])

end Steps

end Manager
end OsLab
