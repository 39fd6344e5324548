import OsLab.ProdConsStep
/-!
# ProdConsInv — what the producer records and what the consumers take

Whatever the order of the accesses, an addressed consumer takes exactly one item for each that the producer records for it:
`booked` is the producer's account with the item that is about to be written, `taken` the consumer's with the one it is
about to read, and the two have the same count (`reachable_itemCnt`).  Their checksums need more: the producer writes the
address before the item, and a consumer that is quicker reads the item before (`early_read`).  Where no consumer does,
the accounts agree (`accounts_agree`).
-/
namespace OsLab
namespace ProdCons

variable {n : ℕ} {s t : State n} {c : Fin n}

theorem address_inj {c d : Fin n} (h : address c = address d) : c = d := by
  unfold address at h
  omega

theorem address_ne_zero (c : Fin n) : address c ≠ 0 := by
  unfold address
  omega

theorem address_ne_end (c : Fin n) : address c ≠ -1 := by
  unfold address
  omega

/-! ### Where the processes are -/

/-- What `M[0]` says about the places of the processes. -/
structure Places (s : State n) : Prop where
  addressed : ∀ c, (s.consumer c).pc = .read ∨ (s.consumer c).pc = .clear → s.M0 = address c
  empty : ∀ x, s.producer = .writeAddr x → s.M0 = 0
  emptied : s.producer = .writeEnd → s.M0 = 0
  ended : ∀ i, s.producer = .reap i ∨ s.producer = .finished → s.M0 = -1

theorem reapFrom_cases (n i : ℕ) : reapFrom n i = .reap i ∨ reapFrom n i = .finished := by
  unfold reapFrom
  split
  · exact Or.inl rfl
  · exact Or.inr rfl

/-- Nobody is about to read or to clear while nobody is addressed. -/
theorem Places.nobody (h : Places s) (h0 : ∀ c : Fin n, s.M0 ≠ address c) (c : Fin n) :
    (s.consumer c).pc ≠ .read ∧ (s.consumer c).pc ≠ .clear :=
  ⟨fun hc => h0 c (h.addressed c (Or.inl hc)), fun hc => h0 c (h.addressed c (Or.inr hc))⟩

/-- **What a step of a consumer is**: it tests, it reads the item, or it clears `M[0]`. -/
theorem consumptionLoop_cases (h : consumptionLoop c s = some t) :
    (∃ pc, t = s.go c pc (s.consumer c).account ∧ pc ≠ .clear ∧ (pc = .read → s.M0 = address c) ∧
      (s.consumer c).pc ≠ .clear) ∨
    ((s.consumer c).pc = .read ∧ t = s.go c .clear ((s.consumer c).account.book s.M1)) ∨
    ((s.consumer c).pc = .clear ∧ t = { s.go c .testEnd (s.consumer c).account with M0 := 0 }) := by
  unfold consumptionLoop at h
  cases hpc : (s.consumer c).pc with
  | testEnd =>
    simp only [hpc] at h
    cases h
    refine Or.inl ⟨_, rfl, ?_, ?_, by decide⟩ <;> split <;> simp
  | testMine =>
    simp only [hpc] at h
    cases h
    refine Or.inl ⟨_, rfl, ?_, ?_, by decide⟩ <;> split <;> simp_all
  | testStop =>
    simp only [hpc] at h
    cases h
    refine Or.inl ⟨_, rfl, ?_, ?_, by decide⟩ <;> split <;> simp
  | read =>
    simp only [hpc] at h
    cases h
    exact Or.inr (Or.inl ⟨rfl, rfl⟩)
  | clear =>
    simp only [hpc] at h
    cases h
    exact Or.inr (Or.inr ⟨rfl, rfl⟩)
  | finished =>
    simp only [hpc] at h
    cases h

/-- **What a step of the producer is.** -/
theorem produce_cases (h : produce s = some t) :
    (s.producer = .await ∧ t = s) ∨
    (s.producer = .await ∧ s.M0 = 0 ∧ t = { s with producer := .writeEnd }) ∨
    (∃ x items, s.producer = .await ∧ s.M0 = 0 ∧ t = { s with producer := .writeAddr x, items := items }) ∨
    (∃ x, s.producer = .writeAddr x ∧ t = { s with M0 := address x.2, producer := .writeItem x }) ∨
    (∃ x, s.producer = .writeItem x ∧ t = s.record x) ∨
    (s.producer = .writeEnd ∧ t = { s with M0 := -1, producer := reapFrom n 0 }) ∨
    (∃ i, s.producer = .reap i ∧ t = { s with producer := reapFrom n (i + 1) }) := by
  unfold produce at h
  cases hpc : s.producer with
  | await =>
    simp only [hpc] at h
    split at h
    · rename_i h0
      cases hi : s.items with
      | nil =>
        rw [hi] at h
        cases h
        exact Or.inr (Or.inl ⟨rfl, h0, rfl⟩)
      | cons x items =>
        rw [hi] at h
        cases h
        exact Or.inr (Or.inr (Or.inl ⟨x, items, rfl, h0, rfl⟩))
    · cases h
      exact Or.inl ⟨rfl, rfl⟩
  | writeAddr x =>
    simp only [hpc] at h
    cases h
    exact Or.inr (Or.inr (Or.inr (Or.inl ⟨x, rfl, rfl⟩)))
  | writeItem x =>
    simp only [hpc] at h
    cases h
    exact Or.inr (Or.inr (Or.inr (Or.inr (Or.inl ⟨x, rfl, rfl⟩))))
  | writeEnd =>
    simp only [hpc] at h
    cases h
    exact Or.inr (Or.inr (Or.inr (Or.inr (Or.inr (Or.inl ⟨rfl, rfl⟩)))))
  | reap i =>
    simp only [hpc] at h
    cases (Option.ite_none_right_eq_some.1 h).2
    exact Or.inr (Or.inr (Or.inr (Or.inr (Or.inr (Or.inr ⟨i, rfl, rfl⟩)))))
  | finished =>
    simp only [hpc] at h
    cases h

theorem Places.produce (h : Places s) (hst : produce s = some t) : Places t := by
  rcases produce_cases hst with ⟨_, rfl⟩ | ⟨_, h0, rfl⟩ | ⟨x, items, _, h0, rfl⟩ | ⟨x, hpc, rfl⟩ | ⟨x, hpc, rfl⟩ |
    ⟨hpc, rfl⟩ | ⟨i, hpc, rfl⟩
  · exact h
  · exact ⟨h.addressed, nofun, fun _ => h0, nofun⟩
  · exact ⟨h.addressed, fun _ _ => h0, nofun, nofun⟩
  · have hnobody := h.nobody fun c => by
      rw [h.empty x hpc]
      exact (address_ne_zero c).symm
    exact ⟨fun c hc => absurd hc (not_or.2 (hnobody c)), nofun, nofun, nofun⟩
  · exact ⟨h.addressed, nofun, nofun, nofun⟩
  · have hnobody := h.nobody fun c => by
      rw [h.emptied hpc]
      exact (address_ne_zero c).symm
    refine ⟨fun c hc => absurd hc (not_or.2 (hnobody c)), fun x hx => ?_, fun he => ?_, fun _ _ => rfl⟩
    · rcases reapFrom_cases n 0 with hr | hr <;> cases hr.symm.trans hx
    · rcases reapFrom_cases n 0 with hr | hr <;> cases hr.symm.trans he
  · refine ⟨h.addressed, fun x hx => ?_, fun he => ?_, fun _ _ => h.ended i (Or.inl hpc)⟩
    · rcases reapFrom_cases n (i + 1) with hr | hr <;> cases hr.symm.trans hx
    · rcases reapFrom_cases n (i + 1) with hr | hr <;> cases hr.symm.trans he

theorem Places.go (h : Places s) {pc : ConsumerPc} {a : Account} (hpc : pc = .read ∨ pc = .clear → s.M0 = address c) :
    Places (s.go c pc a) := by
  refine ⟨fun d hd => ?_, h.empty, h.emptied, h.ended⟩
  by_cases hdc : d = c
  · subst hdc
    exact hpc (by simpa [State.go] using hd)
  · exact h.addressed d (by simpa [State.go, hdc] using hd)

theorem Places.consume (h : Places s) (hst : consumptionLoop c s = some t) : Places t := by
  rcases consumptionLoop_cases hst with ⟨pc, rfl, hnc, hread, -⟩ | ⟨hpc, rfl⟩ | ⟨hpc, rfl⟩
  · exact h.go fun hp => hread (hp.resolve_right hnc)
  · exact h.go fun _ => h.addressed c (Or.inl hpc)
  · have hc := h.addressed c (Or.inr hpc)
    refine ⟨fun d hd => ?_, fun _ _ => rfl, fun _ => rfl, fun i hi => ?_⟩
    · by_cases hdc : d = c
      · subst hdc
        simp [State.go] at hd
      · exact absurd (address_inj ((h.addressed d (by simpa [State.go, hdc] using hd)).symm.trans hc)) hdc
    · exact absurd (hc.symm.trans (h.ended i hi)) (address_ne_end c)

theorem Places.step (a : Option (Fin n)) (h : Places s) (hst : next a s = some t) : Places t := by
  cases a with
  | none => exact h.produce hst
  | some c => exact h.consume hst

theorem Places.start (items : List (Item n)) : Places (start items) where
  addressed _ h := by cases h <;> contradiction
  empty _ h := by cases h
  emptied h := by cases h
  ended _ h := by cases h <;> contradiction

/-! ### The accounts -/

/-- The producer's account of `c`, with the item that it is about to write. -/
def booked (s : State n) (c : Fin n) : Account :=
  match s.producer with
  | .writeItem x => if x.2 = c then (s.account c).book x.1 else s.account c
  | _ => s.account c

/-- The account of consumer `c`, with the item that it has yet to read. -/
def taken (s : State n) (c : Fin n) : Account :=
  if s.M0 = address c ∧ (s.consumer c).pc ≠ .clear then (s.consumer c).account.book s.item else (s.consumer c).account

theorem taken_of_ne (h : s.M0 ≠ address c) : taken s c = (s.consumer c).account := if_neg fun hc => h hc.1

/-- Once the item is in `M[1]`, it is the same one. -/
theorem taken_record {x : Item n} (hpc : s.producer = .writeItem x) (c : Fin n) : taken (s.record x) c = taken s c := by
  have hitem : (s.record x).item = s.item := by simp [State.item, State.record, hpc]
  unfold taken
  rw [hitem]
  rfl

theorem booked_record {x : Item n} (hpc : s.producer = .writeItem x) (c : Fin n) : booked (s.record x) c = booked s c := by
  have hold : booked s c = if x.2 = c then (s.account c).book x.1 else s.account c := by simp [booked, hpc]
  have hnew : booked (s.record x) c = Function.update s.account x.2 ((s.account x.2).book x.1) c := rfl
  rw [hold, hnew]
  by_cases hxc : x.2 = c
  · subst hxc
    rw [Function.update_self, if_pos rfl]
  · rw [Function.update_of_ne (Ne.symm hxc), if_neg hxc]

/-- What `f` shows of the two accounts is the same for every consumer. -/
def Balanced {β : Type*} (f : Account → β) (s : State n) : Prop := ∀ c, f (booked s c) = f (taken s c)

section Balance

variable {β : Type*} {f : Account → β}

theorem Balanced.produce (hf : ∀ a b v, f a = f b → f (a.book v) = f (b.book v)) (h : Balanced f s) (hp : Places s)
    (hst : produce s = some t) : Balanced f t := by
  rcases produce_cases hst with ⟨_, rfl⟩ | ⟨hpc, _, rfl⟩ | ⟨x, items, hpc, _, rfl⟩ | ⟨x, hpc, rfl⟩ | ⟨x, hpc, rfl⟩ |
    ⟨hpc, rfl⟩ | ⟨i, hpc, rfl⟩
  · exact h
  · intro c
    simpa [booked, taken, State.item, hpc] using h c
  · intro c
    simpa [booked, taken, State.item, hpc] using h c
  · -- the item is now both about to be booked and about to be read
    intro c
    have h0 := hp.empty x hpc
    have hold : f (s.account c) = f (s.consumer c).account := by
      have := h c
      rwa [taken_of_ne (by rw [h0]; exact (address_ne_zero c).symm), booked, hpc] at this
    have hclear : (s.consumer c).pc ≠ .clear :=
      (hp.nobody (fun d => by rw [h0]; exact (address_ne_zero d).symm) c).2
    by_cases hxc : x.2 = c
    · simpa [booked, taken, State.item, hxc, hclear] using hf _ _ x.1 hold
    · have hne : address x.2 ≠ address c := fun he => hxc (address_inj he)
      simpa [booked, taken, hxc, hne] using hold
  · intro c
    rw [booked_record hpc, taken_record hpc]
    exact h c
  · intro c
    have hold := h c
    rw [taken_of_ne (by rw [hp.emptied hpc]; exact (address_ne_zero c).symm)] at hold
    rw [taken_of_ne (address_ne_end c).symm]
    rcases reapFrom_cases n 0 with hr | hr <;> simpa [booked, hpc, hr] using hold
  · intro c
    rcases reapFrom_cases n (i + 1) with hr | hr <;> simpa [booked, taken, State.item, hpc, hr] using h c

theorem Balanced.consume (h : Balanced f s) (hp : Places s) (hst : consumptionLoop c s = some t)
    (hread : (s.consumer c).pc = .read → ∀ a : Account, f (a.book s.M1) = f (a.book s.item)) : Balanced f t := by
  intro d
  rcases consumptionLoop_cases hst with ⟨pc, rfl, hnc, -, hold⟩ | ⟨hpc, rfl⟩ | ⟨hpc, rfl⟩
  · by_cases hdc : d = c
    · subst hdc
      simpa [booked, taken, State.item, State.go, hnc, hold] using h d
    · simpa [booked, taken, State.item, State.go, hdc] using h d
  · by_cases hdc : d = c
    · subst hdc
      have hd := h d
      rw [taken, if_pos ⟨hp.addressed d (Or.inl hpc), by rw [hpc]; decide⟩, ← hread hpc] at hd
      simpa [booked, taken, State.go] using hd
    · simpa [booked, taken, State.item, State.go, hdc] using h d
  · have hc := hp.addressed c (Or.inr hpc)
    have hd := h d
    rw [taken_of_ne (address_ne_zero d).symm]
    by_cases hdc : d = c
    · subst hdc
      rw [taken, if_neg fun hn => hn.2 hpc] at hd
      simpa [booked, State.go] using hd
    · rw [taken_of_ne fun he => hdc (address_inj (he.symm.trans hc))] at hd
      simpa [booked, State.go, hdc] using hd

theorem Balanced.start (items : List (Item n)) : Balanced f (start items) := fun c => by
  rw [taken_of_ne (address_ne_zero c).symm]
  rfl

theorem Balanced.finished (h : Balanced f s) (hp : Places s) (hfin : s.allFinished) (c : Fin n) :
    f (s.consumer c).account = f (s.account c) := by
  have hc := h c
  rw [taken_of_ne (by rw [hp.ended 0 (Or.inr hfin.1)]; exact (address_ne_end c).symm), booked, hfin.1] at hc
  exact hc.symm

end Balance

/-! ### The runs -/

/-- **Counts always agree**, whatever the order of the accesses. -/
theorem itemCnts_agree (items : List (Item n)) (h : Reachable next (start items) s) (hfin : s.allFinished) (c : Fin n) :
    (s.consumer c).account.itemCnt = (s.account c).itemCnt := by
  have hinv : Places s ∧ Balanced Account.itemCnt s := by
    refine reachable_inv (fun s => Places s ∧ Balanced Account.itemCnt s) ⟨Places.start items, Balanced.start items⟩ ?_ h
    rintro a s t - ⟨hp, hb⟩ hst
    refine ⟨hp.step a hst, ?_⟩
    cases a with
    | none => exact hb.produce (fun a b v hab => congrArg (· + 1) hab) hp hst
    | some c => exact hb.consume hp hst fun _ _ => rfl
  exact hinv.2.finished hinv.1 hfin c

/-- **Where no consumer reads before the producer has written, the accounts agree**: count and checksum. -/
theorem accounts_agree (items : List (Item n)) (h : Reachable (restricted Settled next) (start items) s)
    (hfin : s.allFinished) (c : Fin n) : (s.consumer c).account = s.account c := by
  have hinv : Places s ∧ Balanced id s := by
    refine reachable_inv (fun s => Places s ∧ Balanced id s) ⟨Places.start items, Balanced.start items⟩ ?_ h
    rintro a s t - ⟨hp, hb⟩ hst
    obtain ⟨hok, hst⟩ := restricted_some.1 hst
    refine ⟨hp.step a hst, ?_⟩
    cases a with
    | none => exact hb.produce (fun a b v hab => by rw [show a = b from hab]) hp hst
    | some c => exact hb.consume hp hst fun hpc a => by rw [hok c rfl hpc]
  exact hinv.2.finished hinv.1 hfin c

/-- One consumer and one item. -/
def oneItem : List (Item 1) := [(100, 0)]

/-- The consumer waits for the item: each line is a part of the run. -/
def patient : List (Option (Fin 1)) :=
  [none, none, none,
   some 0, some 0, some 0, some 0,
   none, none, some 0, none]

/-- The consumer reads between the two writes of the producer. -/
def hasty : List (Option (Fin 1)) :=
  [none, none,
   some 0, some 0, some 0, some 0,
   none, none, none, some 0, none]

theorem itemCnts_agree_hasty :
    ∃ s, Reachable next (start oneItem) s ∧ s.allFinished ∧ (s.consumer 0).account = ⟨1, 0⟩ ∧
      (s.consumer 0).account.itemCnt = (s.account 0).itemCnt := by
  have hrun := @reachable_getD _ _ next hasty (start oneItem) (by decide)
  exact ⟨_, hrun, by decide, by decide, itemCnts_agree oneItem hrun (by decide) 0⟩

theorem accounts_agree_patient :
    ∃ s, Reachable (restricted Settled next) (start oneItem) s ∧ s.allFinished ∧ (s.consumer 0).account = ⟨1, 100⟩ ∧
      (s.consumer 0).account = s.account 0 := by
  have hrun := @reachable_getD _ _ (restricted Settled next) patient (start oneItem) (by decide)
  exact ⟨_, hrun, by decide, by decide, accounts_agree oneItem hrun (by decide) 0⟩

/-- **A consumer that is quicker than the producer reads the word before the item is in it.** -/
theorem early_read : ¬ ∀ (n : ℕ) (items : List (Item n)) (s : State n), 1 ≤ n → Reachable next (start items) s →
    s.allFinished → ∀ c, (s.consumer c).account = s.account c := by
  intro h
  have hrun := @reachable_getD _ _ next hasty (start oneItem) (by decide)
  exact absurd (h 1 oneItem _ (Nat.le_refl 1) hrun (by decide) 0) (by decide)

end ProdCons
end OsLab
