import OsLab.ManagerInv
/-!
# ManagerRuns — every step keeps the invariant

First the three kinds of statement by which a creator makes and registers a thread, then one statement after the other.
-/
namespace OsLab
namespace Manager

open Foothread (semWait semWait_some)

section Register

variable {pid : ℤ} {s : State} {t u : ℤ} {a : CreateArgs} {b : ℕ}

/-- Another creator's place does not matter to main. -/
theorem goto_create_main {p p' : CreatePc} (hpc : (s.thread t).pc = .create a p) (k : ℕ) :
    (((s.goto t (.create a p')).thread pid).pc.Seen k ↔ (s.thread pid).pc.Seen k) ∧
      (((s.goto t (.create a p')).thread pid).pc.Closing ↔ (s.thread pid).pc.Closing) := by
  by_cases ht : t = pid
  · rw [← ht, goto_self, hpc]
    exact ⟨Iff.rfl, Iff.rfl⟩
  · rw [goto_of_ne s _ (fun e => ht e.symm)]
    exact ⟨Iff.rfl, Iff.rfl⟩

theorem goto_create_child {p p' : CreatePc} (hpc : (s.thread t).pc = .create a p) (w : ℤ) :
    (Child pid (s.goto t (.create a p')) w ↔ Child pid s w) ∧
      ((s.goto t (.create a p')).thread w).pc.signalled = (s.thread w).pc.signalled := by
  unfold Child
  by_cases hw : w = t
  · rw [hw, goto_self, hpc]
    exact ⟨and_congr_right fun _ => iff_of_true (fun e => by cases e) (fun e => by cases e), rfl⟩
  · rw [goto_of_ne s _ hw]
    exact ⟨Iff.rfl, rfl⟩

/-- **One write of the new entry.** -/
theorem Inv.write (h : Inv pid s) {p p' : CreatePc} (hpc : (s.thread t).pc = .create a p)
    (hpend : (s.thread t).pc.pending = some u) (hpend' : (Pc.create a p').pending = some u) {e : Slot}
    (hw : Written pid u (s.thread u) e (.create a p')) :
    Core pid ((s.setSlot s.count e).goto t (.create a p')) := by
  have hin := inside_of_pending hpend
  have hmain := fun k => @goto_create_main pid (s.setSlot s.count e) t a p p' hpc k
  have hchild := fun w => @goto_create_child pid (s.setSlot s.count e) t a p p' hpc w
  have htable : ∀ k, k < s.count → (s.setSlot s.count e).table k = s.table k := fun k hk =>
    Function.update_of_ne (Nat.ne_of_lt hk) _ _
  constructor
  · intro hi
    have hi : s.initDone = false := hi
    rw [h.initialised (t := t) (by rw [hpc]; exact fun e => by cases e)
      (by rw [hpc]; cases p <;> first | rfl | (rw [hpc] at hpend; cases hpend))] at hi
    cases hi
  · intro w
    have hp := h.place w
    rw [place_goto]
    have hstep : ∀ pc, Place pid s w pc → Place pid (s.setSlot s.count e) w pc := fun pc hpl => by
      cases pc with
      | exit p =>
        cases p <;> first
          | exact hpl
          | exact ⟨hpl.1, hpl.2.1, hpl.2.2.1, by rw [htable _ (Nat.lt_of_lt_of_le hpl.2.1 hpl.2.2.1)]; exact hpl.2.2.2⟩
      | _ => exact hpl
    by_cases hwt : w = t
    · rw [hwt, goto_self]
      rw [hwt, hpc] at hp
      exact hp
    · rw [goto_of_ne _ _ hwt]
      exact hstep _ hp
  · intro w hc hslot
    rw [goto_slot] at hslot ⊢
    have hsame := htable (s.thread w).slot hslot
    exact entry_goto (hsame ▸ h.entry w ((hchild w).1.1 hc) hslot)
  · intro w hc hslot hpos
    rw [goto_slot] at hslot hpos
    rw [(hchild w).2]
    have hsame := htable (s.thread w).slot hslot
    exact h.signal w ((hchild w).1.1 hc) hslot (hsame ▸ hpos)
  · intro w hc hslot hlive
    rw [goto_slot] at hslot hlive ⊢
    rw [goto_joinable, (hmain _).1]
    have hsame := htable (s.thread w).slot hslot
    exact h.live w ((hchild w).1.1 hc) hslot (hsame ▸ hlive)
  · intro w hc hj hseen
    rw [goto_joinable] at hj
    rw [goto_slot, (hmain _).1] at hseen
    rw [(hchild w).2]
    exact h.seen w ((hchild w).1.1 hc) hj hseen
  · intro hclose w hc hj
    rw [goto_joinable] at hj
    rw [(hchild w).2]
    exact h.closing ((hmain 0).2.1 hclose) w ((hchild w).1.1 hc) hj
  · intro c w hc
    have hct : c = t := by
      by_contra hct
      rw [goto_of_ne _ _ hct] at hc
      exact hct (h.pending_eq hin hc)
    subst hct
    rw [goto_self, hpend'] at hc
    cases hc
    obtain ⟨hcu, hslot, -⟩ := h.pending c u hpend
    refine ⟨(hchild u).1.2 hcu, by rw [goto_slot]; exact hslot, ?_⟩
    rw [goto_self, written_congr (goto_joinable _ c u _) (goto_stack _ c u _)]
    show Written pid u (s.thread u) ((s.setSlot s.count e).table s.count) _
    rw [show (s.setSlot s.count e).table s.count = e from Function.update_self _ _ _]
    exact hw
  · intro w hc
    rw [goto_slot]
    refine (h.placed w ((hchild w).1.1 hc)).imp_right (fun ⟨c, hcw⟩ => ⟨t, ?_⟩)
    obtain rfl := h.pending_eq hin hcw
    rw [hpend] at hcw
    cases hcw
    rw [goto_self]
    exact hpend'
  · intro i hi
    obtain ⟨w, hc, hslot⟩ := h.owner i hi
    exact ⟨w, (hchild w).1.2 hc, by rw [goto_slot]; exact hslot⟩

theorem place_count {w : ℤ} {pc : Pc} (h : Place pid s w pc) : Place pid { s with count := s.count + 1 } w pc := by
  cases pc with
  | exit p =>
    cases p with
    | read => exact fun hw => Nat.lt_succ_of_lt (h hw)
    | post m => exact ⟨Nat.le_succ_of_le h.1, h.2⟩
    | test i m => exact ⟨h.1, h.2.1, Nat.le_succ_of_le h.2.2⟩
    | testLive i m | testJoinable i m | unlock i m | waitAgain i m | postAgain i m =>
      exact ⟨h.1, h.2.1, Nat.le_succ_of_le h.2.2⟩
    | join i m | lock i m | free i m | clear i m => exact ⟨h.1, h.2.1, Nat.le_succ_of_le h.2.2.1, h.2.2.2⟩
    | readAgain i => exact ⟨h.1, Nat.lt_succ_of_lt h.2⟩
    | find i m | findLive i m | findSelf i m => exact ⟨h.1, h.2.1, h.2.2.1, Nat.le_succ_of_le h.2.2.2⟩
    | signal i => exact ⟨h.1, h.2.1, Nat.lt_succ_of_lt h.2.2⟩
    | init | wait | missed => exact h
  | _ => exact h

/-- **The new entry is counted**: the thread it is for is registered. -/
theorem Inv.count (h : Inv pid s) (hpc : (s.thread t).pc = .create a (.count b u)) :
    Core pid { s.goto t (.create a .post) with count := s.count + 1 } := by
  have hpend : (s.thread t).pc.pending = some u := by rw [hpc]; rfl
  have hin := inside_of_pending hpend
  have hmain := fun k => @goto_create_main pid s t a _ .post hpc k
  have hchild := fun w => @goto_create_child pid s t a _ .post hpc w
  obtain ⟨hcu, hslotu, hw⟩ := h.pending t u hpend
  rw [hpc] at hw
  obtain ⟨hentry, hmutex, hlive⟩ := hw
  -- a registered thread was so before, or it is the new one
  have hreg : ∀ w, Child pid s w → (s.thread w).slot < s.count + 1 → (s.thread w).slot < s.count ∨ w = u := fun w hc _ => by
    refine (h.placed w hc).imp_right (fun ⟨c, hcw⟩ => ?_)
    obtain rfl := h.pending_eq hin hcw
    rw [hpend] at hcw
    exact (Option.some.inj hcw).symm
  constructor
  · intro hi
    have hi : s.initDone = false := hi
    rw [h.initialised (t := t) (by rw [hpc]; exact fun e => by cases e) (by rw [hpc]; rfl)] at hi
    cases hi
  · intro w
    have hp := h.place w
    have hgoal : Place pid (s.goto t (.create a .post)) w ((s.goto t (.create a .post)).thread w).pc := by
      rw [place_goto]
      by_cases hwt : w = t
      · rw [hwt, goto_self]
        rw [hwt, hpc] at hp
        exact hp
      · rw [goto_of_ne _ _ hwt]
        exact hp
    exact place_count hgoal
  · intro w hc hslot
    have hc := (hchild w).1.1 hc
    have hslot : ((s.goto t (.create a .post)).thread w).slot < s.count + 1 := hslot
    show Entry pid w ((s.goto t (.create a .post)).thread w) (s.table ((s.goto t (.create a .post)).thread w).slot)
    rw [goto_slot] at hslot ⊢
    refine entry_goto ?_
    rcases hreg w hc hslot with hlt | rfl
    · exact h.entry w hc hlt
    · rw [hslotu]; exact hentry
  · intro w hc hslot hpos
    have hc := (hchild w).1.1 hc
    have hslot : ((s.goto t (.create a .post)).thread w).slot < s.count + 1 := hslot
    have hpos : 0 < (s.table ((s.goto t (.create a .post)).thread w).slot).mutex := hpos
    show ((s.goto t (.create a .post)).thread w).pc.signalled = true
    rw [goto_slot] at hslot hpos
    rw [(hchild w).2]
    rcases hreg w hc hslot with hlt | rfl
    · exact h.signal w hc hlt hpos
    · rw [hslotu] at hpos; omega
  · intro w hc hslot hl
    have hc := (hchild w).1.1 hc
    have hslot : ((s.goto t (.create a .post)).thread w).slot < s.count + 1 := hslot
    have hl : (s.table ((s.goto t (.create a .post)).thread w).slot).live = false := hl
    show ((s.goto t (.create a .post)).thread w).joinable = true ∧
      Pc.Seen ((s.goto t (.create a .post)).thread w).slot ((s.goto t (.create a .post)).thread pid).pc
    rw [goto_slot] at hslot hl ⊢
    rw [goto_joinable, (hmain _).1]
    rcases hreg w hc hslot with hlt | rfl
    · exact h.live w hc hlt hl
    · rw [hslotu, hlive] at hl; cases hl
  · intro w hc hj hseen
    have hseen : Pc.Seen ((s.goto t (.create a .post)).thread w).slot ((s.goto t (.create a .post)).thread pid).pc := hseen
    have hj : ((s.goto t (.create a .post)).thread w).joinable = true := hj
    show ((s.goto t (.create a .post)).thread w).pc.signalled = true
    rw [goto_joinable] at hj
    rw [goto_slot, (hmain _).1] at hseen
    rw [(hchild w).2]
    exact h.seen w ((hchild w).1.1 hc) hj hseen
  · intro hclose
    exact absurd ((hmain 0).2.1 hclose) (h.not_closing hpc)
  · intro c w hc
    exfalso
    have hc : ((s.goto t (.create a .post)).thread c).pc.pending = some w := hc
    by_cases hct : c = t
    · rw [hct, goto_self] at hc; cases hc
    · rw [goto_of_ne _ _ hct] at hc
      exact hct (h.pending_eq hin hc)
  · intro w hc
    have hc := (hchild w).1.1 hc
    refine Or.inl ?_
    show ((s.goto t (.create a .post)).thread w).slot < s.count + 1
    rw [goto_slot]
    rcases h.placed w hc with hlt | ⟨c, hcw⟩
    · exact Nat.lt_succ_of_lt hlt
    · rw [(h.pending c w hcw).2.1]
      exact Nat.lt_succ_self _
  · intro i hi
    have hi : i < s.count + 1 := hi
    have hown : ∃ w, Child pid s w ∧ (s.thread w).slot = i := by
      by_cases hic : i < s.count
      · exact h.owner i hic
      · exact ⟨u, hcu, by omega⟩
    obtain ⟨w, hc, hslot⟩ := hown
    refine ⟨w, (hchild w).1.2 hc, ?_⟩
    show ((s.goto t (.create a .post)).thread w).slot = i
    rw [goto_slot]
    exact hslot

/-- **A thread is cloned**: its creator is about to fill in the slot it has. -/
theorem Inv.clone (h : Inv pid s) (hpc : (s.thread t).pc = .create a (.clone b)) (hu : (s.thread u).pc = .none) :
    Core pid ((s.spawn u a b).goto t (.create a (.write .threads b u))) := by
  have hut : u ≠ t := fun e => by rw [e, hpc] at hu; cases hu
  have hupid : u ≠ pid := by
    have := h.place u
    rw [hu] at this
    exact this
  have hin : (s.thread t).pc.inside = true := by rw [hpc]; rfl
  have hspawn : ∀ w, w ≠ u → (s.spawn u a b).thread w = s.thread w := fun w hw => Function.update_of_ne hw _ _
  have hself : (s.spawn u a b).thread u = ⟨.run, a.joinType = foothreadJoinable, s.count, b⟩ := Function.update_self _ _ _
  have hpc' : ((s.spawn u a b).thread t).pc = .create a (.clone b) := by rw [hspawn t hut.symm, hpc]
  have hmain := fun k => @goto_create_main pid (s.spawn u a b) t a _ (.write .threads b u) hpc' k
  have hchild := fun w => @goto_create_child pid (s.spawn u a b) t a _ (.write .threads b u) hpc' w
  -- the others are as they were; the new thread has the free slot
  have hold : ∀ w, w ≠ u → (Child pid (s.spawn u a b) w ↔ Child pid s w) := fun w hw => by
    unfold Child
    rw [hspawn w hw]
  have hpid : (s.spawn u a b).thread pid = s.thread pid := hspawn pid hupid.symm
  have hplace : ∀ w, w ≠ u → ∀ pc, Place pid s w pc → Place pid (s.spawn u a b) w pc := fun w hw pc hp => by
    unfold Place at hp ⊢
    rw [hspawn w hw]
    exact hp
  constructor
  · intro hi
    have hi : s.initDone = false := hi
    rw [h.initialised (t := t) (by rw [hpc]; exact fun e => by cases e) (by rw [hpc]; rfl)] at hi
    cases hi
  · intro w
    rw [place_goto]
    by_cases hwt : w = t
    · rw [hwt, goto_self]
      have hp := h.place t
      rw [hpc] at hp
      exact hplace t hut.symm _ hp
    · rw [goto_of_ne _ _ hwt]
      by_cases hwu : w = u
      · rw [hwu, hself]; trivial
      · rw [hspawn w hwu]
        exact hplace w hwu _ (h.place w)
  · intro w hc hslot
    rw [goto_slot] at hslot ⊢
    by_cases hwu : w = u
    · rw [hwu, hself] at hslot
      exact absurd hslot (Nat.lt_irrefl _)
    · have hc := (hold w hwu).1 ((hchild w).1.1 hc)
      rw [hspawn w hwu] at hslot ⊢
      refine entry_goto ?_
      rw [hspawn w hwu]
      exact h.entry w hc hslot
  · intro w hc hslot hpos
    rw [goto_slot] at hslot hpos
    rw [(hchild w).2]
    by_cases hwu : w = u
    · rw [hwu, hself] at hslot
      exact absurd hslot (Nat.lt_irrefl _)
    · have hc := (hold w hwu).1 ((hchild w).1.1 hc)
      rw [hspawn w hwu] at hslot hpos ⊢
      exact h.signal w hc hslot hpos
  · intro w hc hslot hl
    rw [goto_slot] at hslot hl ⊢
    rw [goto_joinable, (hmain _).1, hpid]
    by_cases hwu : w = u
    · rw [hwu, hself] at hslot
      exact absurd hslot (Nat.lt_irrefl _)
    · have hc := (hold w hwu).1 ((hchild w).1.1 hc)
      rw [hspawn w hwu] at hslot hl ⊢
      exact h.live w hc hslot hl
  · intro w hc hj hseen
    rw [goto_joinable] at hj
    rw [goto_slot, (hmain _).1, hpid] at hseen
    rw [(hchild w).2]
    by_cases hwu : w = u
    · rw [hwu, hself] at hseen
      exact absurd (h.seen_lt (h.not_closing hpc) hseen) (Nat.lt_irrefl _)
    · have hc := (hold w hwu).1 ((hchild w).1.1 hc)
      rw [hspawn w hwu] at hj hseen ⊢
      exact h.seen w hc hj hseen
  · intro hclose
    have hclose := (hmain 0).2.1 hclose
    rw [hpid] at hclose
    exact absurd hclose (h.not_closing hpc)
  · intro c w hc
    have hct : c = t := by
      by_contra hct
      rw [goto_of_ne _ _ hct] at hc
      by_cases hcu : c = u
      · rw [hcu, hself] at hc; cases hc
      · rw [hspawn c hcu] at hc
        exact hct (h.pending_eq hin hc)
    subst hct
    rw [goto_self] at hc
    cases hc
    have hchildu : Child pid (s.spawn u a b) u := ⟨hupid, by rw [hself]; exact fun e => by cases e⟩
    refine ⟨(hchild u).1.2 hchildu, by rw [goto_slot, hself]; rfl, ?_⟩
    rw [goto_self, written_congr (goto_joinable _ c u _) (goto_stack _ c u _), hself]
    exact ⟨by simp, rfl, trivial⟩
  · intro w hc
    rw [goto_slot]
    by_cases hwu : w = u
    · exact Or.inr ⟨t, by rw [goto_self, hwu]; rfl⟩
    · have hc := (hold w hwu).1 ((hchild w).1.1 hc)
      rw [hspawn w hwu]
      refine (h.placed w hc).imp_right (fun ⟨c, hcw⟩ => ?_)
      have hct := h.pending_eq hin hcw
      rw [hct, hpc] at hcw
      cases hcw
  · intro i hi
    obtain ⟨w, hc, hslot⟩ := h.owner i hi
    have hwu : w ≠ u := fun e => hc.2 (e ▸ hu)
    exact ⟨w, (hchild w).1.2 ((hold w hwu).2 hc), by rw [goto_slot, hspawn w hwu]; exact hslot⟩

end Register

/-! ### One statement after the other -/

section Steps

variable {pid : ℤ} {s s' : State} {t u : ℤ} {a : CreateArgs} {pc pc' : Pc} {v : ℕ}

/-- A move after which main has seen what it had seen. -/
theorem Move.same (h : Core pid s) (hpc : (s.thread t).pc = pc) (hold : pc ≠ .none) (hnew : pc' ≠ .none)
    (hpend : pc.pending = none) (hpend' : pc'.pending = none) (hsig : pc.signalled = true → pc'.signalled = true)
    (hinit : s.initDone = true ∨ pc'.early = true) (hplace : Place pid s t pc') (hseen : ∀ k, pc'.Seen k ↔ pc.Seen k)
    (hclose : pc'.Closing → pc.Closing) : Move pid s t pc' where
  old := by rw [hpc]; exact hold
  new := hnew
  oldPending := by rw [hpc]; exact hpend
  newPending := hpend'
  signalled := by rw [hpc]; exact hsig
  early hi := hinit.resolve_left (by rw [hi]; exact Bool.false_ne_true)
  place := hplace
  grows _ k hk := by
    rw [hpc] at hk
    exact (hseen k).2 hk
  seen ht u hc hj hs := by
    refine h.seen u hc hj ?_
    rw [← ht, hpc]
    exact (hseen _).1 hs
  closing ht hcl u hc hj := by
    refine h.closing ?_ u hc hj
    rw [← ht, hpc]
    exact hclose hcl

theorem Inv.move (h : Inv pid s) (hm : Move pid s t pc') (hl : LockStep (s.thread t).pc pc' s.managerMutex v)
    (b : ℕ) (f : ℕ → Bool) : Inv pid { s.goto t pc' with managerMutex := v, blocks := b, freed := f } :=
  ⟨(h.toCore.goto hm).others v b f, hl.guarded h.guarded⟩

/-- A step that only moves the thread. -/
theorem Inv.walk (h : Inv pid s) (hm : Move pid s t pc') (hin : pc'.inside = (s.thread t).pc.inside) :
    Inv pid (s.goto t pc') :=
  h.move hm (LockStep.keep hin) s.blocks s.freed

theorem Inv.lock (h : Inv pid s) (hm : Move pid s t pc') (hst : s.lockManager t pc' = some s') : Inv pid s' := by
  obtain ⟨v, hv, rfl⟩ := Option.map_eq_some_iff.1 hst
  exact h.move hm (LockStep.take (semWait_some.1 hv)) s.blocks s.freed

theorem Inv.unlock (h : Inv pid s) (hm : Move pid s t pc') (hin : (s.thread t).pc.inside = true)
    (hout : pc'.inside = false) : Inv pid (s.unlockManager t pc') :=
  h.move hm (LockStep.give hin hout) s.blocks s.freed

/-- While the semaphore is free, or its holder is not registering a thread, every thread is registered. -/
theorem Inv.registered (h : Inv pid s) (hc : Child pid s t)
    (hno : ∀ c w, (s.thread c).pc.pending = some w → False) : (s.thread t).slot < s.count := by
  rcases h.placed t hc with hlt | ⟨c, hcw⟩
  · exact hlt
  · exact (hno c t hcw).elim

theorem Inv.no_pending_of_free (h : Inv pid s) (hv : s.managerMutex = v + 1) {c w : ℤ}
    (hcw : (s.thread c).pc.pending = some w) : False := by
  have hg := h.guarded
  rw [hv] at hg
  have := hg.nobody c
  rw [inside_of_pending hcw] at this
  cases this

theorem Inv.no_pending_of_holder (h : Inv pid s) (hin : (s.thread t).pc.inside = true)
    (hpend : (s.thread t).pc.pending = none) {c w : ℤ} (hcw : (s.thread c).pc.pending = some w) : False := by
  rw [h.pending_eq hin hcw, hpend] at hcw
  cases hcw

/-- **A statement of `foothread_create`.** -/
theorem Inv.createStep (h : Inv pid s) {p : CreatePc} {c : Choice} (hpc : (s.thread t).pc = .create a p)
    (hst : foothreadCreate pid t a s p c = some s') : Inv pid s' := by
  have hplace : t = pid ∨ (s.thread t).joinable = true := by
    have := h.place t
    rw [hpc] at this
    exact this
  have hinit : p ≠ .init → s.initDone = true := fun hp =>
    h.initialised (t := t) (by rw [hpc]; exact fun e => by cases e) (by rw [hpc]; cases p <;> first | rfl | exact absurd rfl hp)
  have hstay : ∀ p', (Pc.create a p).pending = none → (Pc.create a p').pending = none → p ≠ .init →
      Move pid s t (.create a p') := fun p' hpend hpend' hp =>
    Move.same h.toCore hpc (fun e => by cases e) (fun e => by cases e) hpend hpend' (fun e => by cases e)
      (Or.inl (hinit hp)) hplace (fun _ => Iff.rfl) (fun e => e)
  have hleave : ∀ pc', pc' = .run ∨ pc' = .failed → (Pc.create a p).pending = none → Move pid s t pc' := fun pc' hpc' hpend => by
    rcases hpc' with rfl | rfl <;>
      exact Move.same h.toCore hpc (fun e => by cases e) (fun e => by cases e) hpend rfl (fun e => by cases e)
        (Or.inr rfl) trivial (fun _ => Iff.rfl) (fun e => e)
  have hinside : ∀ p', (Pc.create a p').inside = (Pc.create a p).inside →
      (Pc.create a p').inside = (s.thread t).pc.inside := fun p' hp' => by rw [hpc]; exact hp'
  cases p with
  | init =>
    cases c with
    | go =>
      cases hst
      cases hd : s.initDone with
      | true =>
        rw [if_pos rfl]
        refine h.walk ?_ (hinside .check rfl)
        exact Move.same h.toCore hpc (fun e => by cases e) (fun e => by cases e) rfl rfl (fun e => by cases e) (Or.inl hd)
          hplace (fun _ => Iff.rfl) (fun e => e)
      | false =>
        rw [if_neg Bool.false_ne_true]
        obtain ⟨hnone, hearly⟩ := h.init hd
        obtain rfl : t = pid := by
          by_contra ht
          rw [hnone t ht] at hpc
          cases hpc
        have hnone' : ∀ u, u ≠ t → ((s.initManager.goto t (.create a .check)).thread u).pc = .none := fun u hu => by
          rw [goto_of_ne _ _ hu]
          exact hnone u hu
        refine ⟨Core.alone hnone' rfl ?_ ?_ (fun e => by cases e), ⟨fun u w hu => ?_, Or.inr ⟨rfl, fun u => ?_⟩⟩⟩
        · rw [goto_self]
          exact Or.inl rfl
        · rw [goto_self]
          rfl
        all_goals
          by_cases hut : u = t
          · simp [hut, Pc.inside] at *
          · simp [hnone' u hut, Pc.inside] at *
    | _ => cases hst
  | check =>
    cases c with
    | go =>
      simp only [foothreadCreate] at hst
      have hfail := h.walk (hleave .failed (Or.inr rfl) rfl) (by rw [hpc]; rfl)
      split at hst
      · cases hst
        exact hfail
      · split at hst
        · cases hst
          exact h.walk (hstay .malloc rfl rfl (fun e => by cases e)) (hinside .malloc rfl)
        · cases hst
          exact hfail
    | _ => cases hst
  | malloc =>
    cases c with
    | go =>
      cases hst
      exact h.move (hstay (.wait s.blocks) rfl rfl (fun e => by cases e)) (LockStep.keep (hinside _ rfl)) _ _
    | fail =>
      cases hst
      exact h.walk (hleave .failed (Or.inr rfl) rfl) (by rw [hpc]; rfl)
    | _ => cases hst
  | wait b =>
    cases c with
    | go => exact h.lock (hstay (.full b) rfl rfl (fun e => by cases e)) hst
    | _ => cases hst
  | full b =>
    cases c with
    | go =>
      cases hst
      split
      · exact h.walk (hstay (.refuse b) rfl rfl (fun e => by cases e)) (hinside _ rfl)
      · exact h.walk (hstay (.clone b) rfl rfl (fun e => by cases e)) (hinside _ rfl)
    | _ => cases hst
  | refuse b =>
    cases c with
    | go =>
      cases hst
      exact h.move (hleave .failed (Or.inr rfl) rfl) (LockStep.give (by rw [hpc]; rfl) rfl) _ _
    | _ => cases hst
  | clone b =>
    cases c with
    | tid u =>
      simp only [foothreadCreate] at hst
      split at hst
      · rename_i hu
        cases hst
        refine ⟨h.clone hpc hu.2, h.guarded.keep (fun w => ?_)⟩
        have hut : u ≠ t := fun e => by
          have := hu.2
          rw [e, hpc] at this
          cases this
        by_cases hwt : w = t
        · rw [hwt, goto_self, hpc]; rfl
        · rw [goto_of_ne _ _ hwt]
          by_cases hwu : w = u
          · rw [hwu, hu.2]
            simp [State.spawn, Pc.inside]
          · rw [show (s.spawn u a b).thread w = s.thread w from Function.update_of_ne hwu _ _]
      · cases hst
    | fail =>
      cases hst
      exact h.move (hleave .failed (Or.inr rfl) rfl) (LockStep.give (by rw [hpc]; rfl) rfl) _ _
    | _ => cases hst
  | write f b u =>
    cases c with
    | go =>
      cases hst
      have hpend : (s.thread t).pc.pending = some u := by rw [hpc]; rfl
      obtain ⟨-, -, hw⟩ := h.pending t u hpend
      rw [hpc] at hw
      obtain ⟨hjoin, hstack, hw⟩ := hw
      refine ⟨h.write hpc hpend (by cases f <;> rfl) ?_, h.guarded.keep (fun w => ?_)⟩
      · cases f with
        | threads => exact ⟨hjoin, hstack, rfl, rfl⟩
        | attrs => exact ⟨hjoin, hstack, hw, rfl⟩
        | mutex => exact ⟨hjoin, hstack, hw.1, hw.2, rfl⟩
        | stack => exact ⟨hjoin, hstack, hw.1, hw.2.1, hw.2.2, rfl⟩
        | live =>
          obtain ⟨⟨h₁, h₂⟩, h₃, h₄, h₅⟩ := hw
          exact ⟨⟨h₁, h₂, by rw [hjoin]; exact ⟨fun e => h₃ ▸ e, fun e => h₃.trans e⟩, h₅.trans hstack.symm⟩, h₄, rfl⟩
      · by_cases hwt : w = t
        · rw [hwt, goto_self, hpc]
          cases f <;> rfl
        · rw [goto_of_ne _ _ hwt]
          rfl
    | _ => cases hst
  | count b u =>
    cases c with
    | go =>
      cases hst
      refine ⟨h.count hpc, h.guarded.keep (fun w => ?_)⟩
      show ((s.goto t (.create a .post)).thread w).pc.inside = _
      by_cases hwt : w = t
      · rw [hwt, goto_self, hpc]; rfl
      · rw [goto_of_ne _ _ hwt]
    | _ => cases hst
  | post =>
    cases c with
    | go =>
      cases hst
      exact h.unlock (hleave .run (Or.inl rfl) rfl) (by rw [hpc]; rfl) rfl
    | _ => cases hst

/-- A thread other than main moves on in `foothread_exit`. -/
theorem Move.child_exit {p p' : ExitPc} (hpc : (s.thread t).pc = .exit p) (ht : t ≠ pid)
    (hinit : s.initDone = true) (hplace : Place pid s t (.exit p')) : Move pid s t (.exit p') where
  old := by rw [hpc]; exact fun e => by cases e
  new := fun e => by cases e
  oldPending := by rw [hpc]; rfl
  newPending := rfl
  signalled := by rw [hpc]; exact fun e => by cases e
  early hi := by rw [hi] at hinit; cases hinit
  place := hplace
  grows e := absurd e ht
  seen e := absurd e ht
  closing e := absurd e ht

/-- Main moves on in `foothread_exit`. -/
theorem Move.main_exit {p : ExitPc} (hpc : (s.thread pid).pc = .exit p) (hinit : s.initDone = true)
    (hnew : pc' ≠ .none) (hpend : pc'.pending = none) (hplace : Place pid s pid pc')
    (hgrows : ∀ k, (Pc.exit p).Seen k → pc'.Seen k)
    (hseen : ∀ u, Child pid s u → (s.thread u).joinable = true → pc'.Seen (s.thread u).slot →
      (s.thread u).pc.signalled = true)
    (hclose : pc'.Closing → ∀ u, Child pid s u → (s.thread u).joinable = true → (s.thread u).pc.signalled = true) :
    Move pid s pid pc' where
  old := by rw [hpc]; exact fun e => by cases e
  new := hnew
  oldPending := by rw [hpc]; rfl
  newPending := hpend
  signalled := by rw [hpc]; exact fun e => by cases e
  early hi := by rw [hi] at hinit; cases hinit
  place := hplace
  grows _ k hk := by
    rw [hpc] at hk
    exact hgrows k hk
  seen _ := hseen
  closing _ := hclose

/-- **A statement of `foothread_exit`.** -/
theorem Inv.exitStep (h : Inv pid s) {p : ExitPc} (hpc : (s.thread t).pc = .exit p)
    (hst : foothreadExit pid t s p = some s') : Inv pid s' := by
  have hplace := h.place t
  rw [hpc] at hplace
  have hex : (s.thread t).pc ≠ .none := by rw [hpc]; exact fun e => by cases e
  have hinit : p ≠ .init → s.initDone = true := fun hp =>
    h.initialised hex (by rw [hpc]; cases p <;> first | rfl | exact absurd rfl hp)
  -- the region is left or entered as the two places say
  have hkeep : ∀ p', (Pc.exit p').inside = (Pc.exit p).inside → (Pc.exit p').inside = (s.thread t).pc.inside :=
    fun p' hp' => by rw [hpc]; exact hp'
  have hcl : ∀ {p'}, (Pc.exit p').Closing → (Pc.exit p).Closing → t = pid → ∀ u, Child pid s u →
      (s.thread u).joinable = true → (s.thread u).pc.signalled = true := fun _ hc ht u hu hj =>
    h.closing (by rw [← ht, hpc]; exact hc) u hu hj
  have hseen : t = pid → ∀ u, Child pid s u → (s.thread u).joinable = true → (Pc.exit p).Seen (s.thread u).slot →
      (s.thread u).pc.signalled = true := fun ht u hu hj hs => h.seen u hu hj (by rw [← ht, hpc]; exact hs)
  cases p with
  | init =>
    cases hst
    split
    · rename_i hd
      refine h.walk ?_ (by rw [hpc]; rfl)
      exact Move.same h.toCore hpc (fun e => by cases e) (fun e => by cases e) rfl rfl (fun e => by cases e) (Or.inl hd)
        trivial (fun _ => Iff.rfl) (fun e => e)
    · refine h.walk ?_ (by rw [hpc]; rfl)
      exact Move.same h.toCore hpc (fun e => by cases e) (fun e => by cases e) rfl rfl (fun e => by cases e) (Or.inr rfl)
        trivial (fun _ => Iff.rfl) (fun e => e)
  | wait =>
    obtain ⟨v, hv, -⟩ := Option.map_eq_some_iff.1 hst
    have hfree := semWait_some.1 hv
    have hslot : t ≠ pid → (s.thread t).slot < s.count := fun ht =>
      h.registered ⟨ht, hex⟩ (fun _ _ => h.no_pending_of_free hfree)
    refine h.lock ?_ hst
    exact Move.same h.toCore hpc (fun e => by cases e) (fun e => by cases e) rfl rfl (fun e => by cases e)
      (Or.inl (hinit (fun e => by cases e))) hslot (fun _ => Iff.rfl) (fun e => e.elim)
  | read =>
    cases hst
    refine h.walk ?_ (by rw [hpc]; rfl)
    by_cases ht : t = pid
    · subst ht
      refine Move.main_exit hpc (hinit (fun e => by cases e)) (fun e => by cases e) rfl
        ⟨Nat.le_refl _, fun hne => absurd rfl hne⟩ (fun _ hk => hk.elim) (fun _ _ _ hs => hs.elim) (fun hzero u hu _ => ?_)
      have hlt := h.registered hu (fun _ _ => h.no_pending_of_holder (t := t) (by rw [hpc]; rfl) (by rw [hpc]; rfl))
      have hzero : s.count = 0 := hzero
      omega
    · exact Move.child_exit hpc ht (hinit (fun e => by cases e)) ⟨Nat.le_refl _, hplace⟩
  | post m =>
    cases hst
    by_cases ht : t = pid
    · subst ht
      rw [if_pos rfl]
      refine h.unlock ?_ (by rw [hpc]; rfl) rfl
      refine Move.main_exit hpc (hinit (fun e => by cases e)) (fun e => by cases e) rfl
        ⟨rfl, Nat.zero_le _, hplace.1⟩ (fun _ hk => hk.elim) (fun _ _ _ hs => absurd hs (Nat.not_lt_zero _)) (fun hzero => ?_)
      exact h.closing (by rw [hpc]; exact Eq.symm hzero)
    · rw [if_neg (fun e => ht e.symm)]
      refine h.unlock ?_ (by rw [hpc]; rfl) rfl
      exact Move.child_exit hpc ht (hinit (fun e => by cases e)) ⟨ht, Nat.zero_le _, hplace.2 ht, hplace.1⟩
  | test i m =>
    cases hst
    obtain ⟨rfl, him, hm⟩ := hplace
    split
    · rename_i hlt
      refine h.walk ?_ (by rw [hpc]; rfl)
      exact Move.main_exit hpc (hinit (fun e => by cases e)) (fun e => by cases e) rfl ⟨rfl, hlt, hm⟩ (fun _ hk => hk)
        (hseen rfl) (fun e => e.elim)
    · have hclose : ∀ u, Child t s u → (s.thread u).joinable = true → (s.thread u).pc.signalled = true :=
        h.closing (by rw [hpc]; show i = m; omega)
      refine h.walk ?_ (by rw [hpc]; rfl)
      exact Move.main_exit hpc (hinit (fun e => by cases e)) (fun e => by cases e) rfl rfl (fun _ _ => trivial)
        (fun u hu hj _ => hclose u hu hj) (fun _ => hclose)
  | testLive i m =>
    cases hst
    obtain ⟨rfl, him, hm⟩ := hplace
    have hlive : (s.table i).live ≠ false := fun hl => by
      obtain ⟨u, hu, rfl⟩ := h.owner i (by omega)
      have hs := (h.live u hu (by omega) hl).2
      rw [hpc] at hs
      exact Nat.lt_irrefl _ hs
    rw [if_neg hlive]
    refine h.walk ?_ (by rw [hpc]; rfl)
    exact Move.main_exit hpc (hinit (fun e => by cases e)) (fun e => by cases e) rfl ⟨rfl, him, hm⟩ (fun _ hk => hk)
      (hseen rfl) (fun e => e.elim)
  | testJoinable i m =>
    cases hst
    obtain ⟨rfl, him, hm⟩ := hplace
    split
    · rename_i hj
      refine h.walk ?_ (by rw [hpc]; rfl)
      exact Move.main_exit hpc (hinit (fun e => by cases e)) (fun e => by cases e) rfl ⟨rfl, him, hm, hj.2⟩
        (fun _ hk => hk) (hseen rfl) (fun e => e.elim)
    · rename_i hno
      refine h.walk ?_ (by rw [hpc]; rfl)
      refine Move.main_exit hpc (hinit (fun e => by cases e)) (fun e => by cases e) rfl ⟨rfl, him, hm⟩
        (fun _ hk => Nat.le_of_lt hk) (fun u hu hj hs => ?_) (fun e => e.elim)
      -- the thread of slot `i` is detached
      rcases Nat.lt_or_eq_of_le hs with hlt | heq
      · exact hseen rfl u hu hj hlt
      · have he := h.entry u hu (by omega)
        rw [heq] at he
        exact absurd ⟨he.pid, he.joinType.2 hj⟩ hno
  | join i m =>
    obtain ⟨v, hv, rfl⟩ := Option.map_eq_some_iff.1 hst
    have hpos := semWait_some.1 hv
    obtain ⟨rfl, him, hm, hj⟩ := hplace
    have hsig : ∀ u, Child t s u → (s.thread u).slot = i → (s.thread u).pc.signalled = true := fun u hu hslot =>
      h.signal u hu (by omega) (by rw [hslot]; omega)
    have hm' : Move t s t (.exit (.lock i m)) := by
      refine Move.main_exit hpc (hinit (fun e => by cases e)) (fun e => by cases e) rfl ⟨rfl, him, hm, hj⟩
        (fun _ hk => Nat.le_of_lt hk) (fun u hu hj hs => ?_) (fun e => e.elim)
      rcases Nat.lt_or_eq_of_le hs with hlt | heq
      · exact hseen rfl u hu hj hlt
      · exact hsig u hu heq
    have hg := h.walk hm' (by rw [hpc]; rfl)
    refine ⟨hg.toCore.setSlot (i := i) (by show i < s.count; omega) rfl rfl rfl rfl (fun u hu hslot _ => ?_)
      (fun u hu hslot hl => ?_), hg.guarded⟩
    · rw [goto_slot] at hslot
      exact hm'.signals (hsig u ((hm'.child u).1 hu) hslot)
    · obtain ⟨hju, hs⟩ := hg.live u hu (by rw [hslot]; show i < s.count; omega) (by rw [hslot]; exact hl)
      rw [hslot] at hs
      exact ⟨hju, hs⟩
  | lock i m =>
    obtain ⟨rfl, him, hm, hj⟩ := hplace
    refine h.lock ?_ hst
    exact Move.main_exit hpc (hinit (fun e => by cases e)) (fun e => by cases e) rfl ⟨rfl, him, hm, hj⟩ (fun _ hk => hk)
      (hseen rfl) (fun e => e.elim)
  | free i m =>
    cases hst
    obtain ⟨rfl, him, hm, hj⟩ := hplace
    refine h.move ?_ (LockStep.keep (by rw [hpc]; rfl)) _ _
    exact Move.main_exit hpc (hinit (fun e => by cases e)) (fun e => by cases e) rfl ⟨rfl, him, hm, hj⟩ (fun _ hk => hk)
      (hseen rfl) (fun e => e.elim)
  | clear i m =>
    cases hst
    obtain ⟨rfl, him, hm, hj⟩ := hplace
    have hm' : Move t s t (.exit (.unlock i m)) :=
      Move.main_exit hpc (hinit (fun e => by cases e)) (fun e => by cases e) rfl ⟨rfl, him, hm⟩ (fun _ hk => hk)
        (hseen rfl) (fun e => e.elim)
    have hg := h.walk hm' (by rw [hpc]; rfl)
    refine ⟨hg.toCore.setSlot (i := i) (by show i < s.count; omega) rfl rfl rfl rfl (fun u hu hslot hpos => ?_)
      (fun u hu hslot _ => ⟨?_, ?_⟩), hg.guarded⟩
    · exact hg.signal u hu (by rw [hslot]; show i < s.count; omega) (by rw [hslot]; exact hpos)
    · have he := hg.entry u hu (by rw [hslot]; show i < s.count; omega)
      rw [hslot] at he
      exact he.joinType.1 hj
    · rw [goto_self]
      exact Nat.le_refl i
  | unlock i m =>
    cases hst
    obtain ⟨rfl, him, hm⟩ := hplace
    refine h.unlock ?_ (by rw [hpc]; rfl) rfl
    exact Move.main_exit hpc (hinit (fun e => by cases e)) (fun e => by cases e) rfl ⟨rfl, him, hm⟩ (fun _ hk => hk)
      (hseen rfl) (fun e => e.elim)
  | waitAgain i m =>
    obtain ⟨rfl, him, hm⟩ := hplace
    refine h.lock ?_ hst
    exact Move.main_exit hpc (hinit (fun e => by cases e)) (fun e => by cases e) rfl ⟨rfl, by omega⟩ (fun _ hk => hk)
      (hseen rfl) (fun e => e.elim)
  | readAgain i =>
    cases hst
    obtain ⟨rfl, hi⟩ := hplace
    refine h.walk ?_ (by rw [hpc]; rfl)
    refine Move.main_exit hpc (hinit (fun e => by cases e)) (fun e => by cases e) rfl ⟨rfl, hi, Nat.le_refl _⟩
      (fun _ hk => hk) (hseen rfl) (fun hlast u hu hj => hseen rfl u hu hj ?_)
    -- every thread there is has a slot below `count`, and main has seen the last of them
    have hlt := h.registered hu (fun _ _ => h.no_pending_of_holder (t := t) (by rw [hpc]; rfl) (by rw [hpc]; rfl))
    have hlast : i + 1 = s.count := hlast
    show (s.thread u).slot ≤ i
    omega
  | postAgain i m =>
    cases hst
    obtain ⟨rfl, him, hm⟩ := hplace
    refine h.unlock ?_ (by rw [hpc]; rfl) rfl
    exact Move.main_exit hpc (hinit (fun e => by cases e)) (fun e => by cases e) rfl ⟨rfl, him, hm⟩
      (fun _ hk => Nat.lt_succ_of_le hk) (fun u hu hj hs => hseen rfl u hu hj (Nat.le_of_lt_succ hs))
      (fun hlast => h.closing (by rw [hpc]; exact hlast))
  | find i m =>
    cases hst
    obtain ⟨ht, hi, hslot, hm⟩ := hplace
    rw [if_pos (by omega)]
    exact h.walk (Move.child_exit hpc ht (hinit (fun e => by cases e)) ⟨ht, hi, hslot, hm⟩) (hkeep _ rfl)
  | findLive i m =>
    cases hst
    obtain ⟨ht, hi, hslot, hm⟩ := hplace
    split
    · rename_i hl
      -- a slot that main has given up is that of a thread that has signalled
      have hne : i ≠ (s.thread t).slot := fun e => by
        obtain ⟨hj, hs⟩ := h.live t ⟨ht, hex⟩ (by omega) (e ▸ hl)
        have hsig := h.seen t ⟨ht, hex⟩ hj hs
        rw [hpc] at hsig
        cases hsig
      exact h.walk (Move.child_exit hpc ht (hinit (fun e => by cases e)) ⟨ht, by omega, hslot, hm⟩) (hkeep _ rfl)
    · exact h.walk (Move.child_exit hpc ht (hinit (fun e => by cases e)) ⟨ht, hi, hslot, hm⟩) (hkeep _ rfl)
  | findSelf i m =>
    cases hst
    obtain ⟨ht, hi, hslot, hm⟩ := hplace
    split
    · rename_i hself
      have hown : (s.thread t).slot = i := by
        obtain ⟨u, hu, rfl⟩ := h.owner i (by omega)
        have he := (h.entry u hu (by omega)).tid
        rw [hself.2] at he
        rw [he]
      exact h.walk (Move.child_exit hpc ht (hinit (fun e => by cases e)) ⟨ht, hown, by omega⟩) (hkeep _ rfl)
    · rename_i hno
      have hne : i ≠ (s.thread t).slot := fun e => by
        have he := h.entry t ⟨ht, hex⟩ (by omega)
        rw [← e] at he
        exact hno ⟨he.pid, he.tid⟩
      exact h.walk (Move.child_exit hpc ht (hinit (fun e => by cases e)) ⟨ht, by omega, hslot, hm⟩) (hkeep _ rfl)
  | signal i =>
    cases hst
    obtain ⟨ht, hslot, hi⟩ := hplace
    have hm' : Move pid s t (.leave .exit) := {
      old := hex
      new := fun e => by cases e
      oldPending := by rw [hpc]; rfl
      newPending := rfl
      signalled := fun _ => rfl
      early := fun hi => by rw [hinit (fun e => by cases e)] at hi; cases hi
      place := ht
      grows := fun e => absurd e ht
      seen := fun e => absurd e ht
      closing := fun e => absurd e ht }
    have hg := h.walk hm' (by rw [hpc]; rfl)
    refine ⟨hg.toCore.setSlot (i := i) hi rfl rfl rfl rfl (fun u hu hu' _ => ?_) (fun u hu hu' hl => ?_), hg.guarded⟩
    · -- the slot is the thread's own
      have hut : u = t := by
        rw [goto_slot] at hu'
        have he := h.entry u ((hm'.child u).1 hu) (by omega)
        have he' := h.entry t ⟨ht, hex⟩ (by omega)
        rw [hu', ← hslot] at he
        exact he.tid.symm.trans he'.tid
      rw [hut, goto_self]
      rfl
    · obtain ⟨hj, hs⟩ := hg.live u hu (by rw [hu']; exact hi) (by rw [hu']; exact hl)
      rw [hu'] at hs
      exact ⟨hj, hs⟩
  | missed => exact hplace.elim

end Steps

theorem start_inv (pid : ℤ) : Inv pid (start pid) where
  toCore := by
    have hpid : ((start pid).thread pid).pc = .run := if_pos rfl
    refine Core.alone (fun t ht => if_neg ht) rfl ?_ ?_ (fun _ => ?_)
    · rw [hpid]; trivial
    · rw [hpid]; rfl
    · rw [hpid]; rfl
  guarded := by
    have hout : ∀ t, ((start pid).thread t).pc.inside = false := fun t => by
      show Pc.inside (if t = pid then Pc.run else Pc.none) = false
      split <;> rfl
    refine ⟨fun t _ ht => ?_, Or.inl rfl⟩
    rw [hout t] at ht
    cases ht

/-- **What every step keeps.** -/
theorem Inv.step {pid : ℤ} {a : ℤ × Choice} {s s' : State} (h : Inv pid s) (hst : next pid a s = some s') : Inv pid s' := by
  obtain ⟨t, c⟩ := a
  have hplace := h.place t
  -- the last three steps of a thread only take it further
  have hreturn : ∀ pc', (s.thread t).pc.signalled = true → pc' = .leave .routine ∨ pc' = .leave .start ∨ pc' = .gone →
      (s.thread t).pc ≠ .gone → Inv pid (s.goto t pc') := fun pc' hsig hpc' hgone => by
    cases hpc : (s.thread t).pc with
    | leave p =>
      have hinit := h.initialised (t := t) (by rw [hpc]; exact fun e => by cases e) (by rw [hpc]; rfl)
      rw [hpc] at hplace
      rcases hpc' with rfl | rfl | rfl <;>
        exact h.walk (Move.same h.toCore hpc (fun e => by cases e) (fun e => by cases e) rfl rfl (fun _ => rfl)
          (Or.inl hinit) hplace (fun _ => Iff.rfl) (fun e => e)) (by rw [hpc]; rfl)
    | gone => exact absurd hpc hgone
    | _ => rw [hpc] at hsig; cases hsig
  cases hpc : (s.thread t).pc with
  | run =>
    cases c with
    | create args =>
      simp only [next, hpc] at hst
      split at hst
      · rename_i hjoin
        cases hst
        refine h.walk ?_ (by rw [hpc]; rfl)
        exact Move.same h.toCore hpc (fun e => by cases e) (fun e => by cases e) rfl rfl (fun e => by cases e) (Or.inr rfl)
          hjoin (fun _ => Iff.rfl) (fun e => e)
      · cases hst
    | exit =>
      simp only [next, hpc] at hst
      cases hst
      refine h.walk ?_ (by rw [hpc]; rfl)
      exact Move.same h.toCore hpc (fun e => by cases e) (fun e => by cases e) rfl rfl (fun e => by cases e) (Or.inr rfl)
        trivial (fun _ => Iff.rfl) (fun e => e)
    | _ => simp only [next, hpc] at hst; cases hst
  | create args p =>
    simp only [next, hpc] at hst
    exact h.createStep hpc hst
  | exit p =>
    cases c with
    | go =>
      simp only [next, hpc] at hst
      exact h.exitStep hpc hst
    | _ => simp only [next, hpc] at hst; cases hst
  | leave p =>
    rw [hpc] at hreturn
    cases c with
    | go =>
      cases p <;> simp only [next, hpc] at hst <;> cases hst <;>
        exact hreturn _ rfl (by simp) (fun e => by cases e)
    | _ => simp only [next, hpc] at hst; cases hst
  | _ => simp only [next, hpc] at hst; cases hst

theorem reachable_run {pid : ℤ} {s : State} (h : Reachable (next pid) (start pid) s) : Inv pid s :=
  reachable_inv (Inv pid) (start_inv pid) (fun _ _ _ _ hi hst => hi.step hst) h

/-- **Main leaves last**: at `exit(EXIT_SUCCESS)` every joinable thread there is, whoever created it, has signalled in
`foothread_exit`; and no thread ever searches the table for its slot in vain. -/
theorem main_leaves_last {pid : ℤ} {s : State} (h : Reachable (next pid) (start pid) s) :
    ((s.thread pid).pc = .done → ∀ t, t ≠ pid → (s.thread t).pc ≠ .none → (s.thread t).joinable = true →
      (s.thread t).pc.signalled = true) ∧ ∀ t, (s.thread t).pc ≠ .exit .missed := by
  have hI := reachable_run h
  refine ⟨fun hdone t ht hex hj => ?_, fun t hpc => ?_⟩
  · exact hI.closing (by rw [hdone]; trivial) t ⟨ht, hex⟩ hj
  · have hp := hI.place t
    rw [hpc] at hp
    exact hp

/-- Main creates the joinable thread 2 and waits for it; thread 2 has called `foothread_exit`. -/
def oneThread : List (ℤ × Choice) :=
  (1, .create ⟨true, some 26⟩) :: List.replicate 5 (1, .go) ++ (1, .tid 2) :: List.replicate 7 (1, .go) ++
    (1, .exit) :: List.replicate 7 (1, .go) ++ [(2, .exit)]

/-- Main has come to its end, and thread 2 is on its way out. -/
def mainDone : State :=
  (runSchedule (next 1) (oneThread ++ List.replicate 8 (2, .go) ++ List.replicate 9 (1, .go)) (start 1)).getD (start 1)

theorem main_leaves_last_one : (mainDone.thread 1).pc = .done ∧ ((mainDone.thread 1).pc = .done →
    ∀ t, t ≠ 1 → (mainDone.thread t).pc ≠ .none → (mainDone.thread t).joinable = true →
      (mainDone.thread t).pc.signalled = true) ∧ ∀ t, (mainDone.thread t).pc ≠ .exit .missed :=
  ⟨by decide +kernel, main_leaves_last (reachable_getD _ _ (by decide +kernel))⟩

end Manager
end OsLab
