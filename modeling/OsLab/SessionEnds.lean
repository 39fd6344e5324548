import OsLab.SessionOrder
import OsLab.SessionBounds
import OsLab.Tally
/-!
# SessionEnds — no run goes on for ever

A weight for the place of each thread (`MainPc.weight`, `DoctorPc.weight`, `VisitorPc.weight`) falls at every step it takes;
who signals, broadcasts or creates has weight enough to pay for those it sets going.  With what main has still to do, this
makes a measure: no thread goes on for ever, unless it keeps waking up by itself (`session_ends`).
-/
namespace OsLab
namespace Session

instance kindFintype : Fintype Kind := ⟨{.patient, .reporter, .salesrep}, fun k => by cases k <;> decide⟩

/-! ### The weights -/

def WaitPc.weight : WaitPc → ℕ
  | .asleep => 1
  | .wait => 2
  | .lock => 3

/-- Main's place in its turn, or at its end; a broadcast costs `b`. -/
def MainPc.weight (b : ℕ) : MainPc → ℕ
  | .finished => 0
  | .destroy left => left.length + 1
  | .head => 12
  | .join _ _ _ _ | .unlockIdle | .unlockRefused | .joinDoctor => 13
  | .unlockCurr _ _ _ _ | .unlockLast => 14
  | .unlockDocLast => 15
  | .signalLast => 18
  | .lockDocLast => 36
  | .broadcast _ _ _ => b + 15
  | .lockCurr _ _ => b + 16
  | .unlockDone _ _ => b + 17
  | .awaitDone w _ _ => b + 17 + w.weight
  | .unlockDoc _ _ => b + 21
  | .signalDoc _ _ => b + 24
  | .lockDoc _ _ => b + 42
  | .unlockChosen _ _ => b + 43
  | .lockDispatch | .lockAgain => b + 44
  | .unlockFree => b + 45
  | .unlockInit _ _ => b + 46
  | .awaitInit w _ _ => b + 46 + w.weight
  | .create _ _ => b + 62
  | .unlockAdmitted _ _ => b + 63
  | .lockEvent _ => b + 64

/-- A call that the doctor has still to answer. -/
def DocState.due : DocState → ℕ
  | .notBusy => 0
  | .busy | .leaving => 17

/-- The doctor's place. -/
def DoctorPc.weight (d : DocState) : DoctorPc → ℕ
  | .finished => 0
  | .await w => w.weight + d.due
  | .unlockDoc => 6 + d.due
  | .signalDone => 10 + d.due
  | .unlockDocLast => 10
  | .unlockLast | .unlockMutex => 11
  | .lockMutex => 12

def VisitorPc.weight : VisitorPc → ℕ
  | .absent | .lost | .finished => 0
  | .unlockTurn => 2
  | .await w _ => 2 + w.weight
  | .unlockInit _ => 6
  | .signalInit _ => 10
  | .lockInit _ => 11
  | .start => 12

/-- The visitors with the numbers up to `N`. -/
def State.visitors (N : ℕ) (s : State) (x : Kind × Fin (N + 1)) : VisitorPc := s.visitor (x.1, x.2)

/-- The price of a broadcast to so many. -/
def price (N : ℕ) : ℕ := 6 * (N + 1)

/-- The places of all threads. -/
def State.weight (N : ℕ) (s : State) : ℕ :=
  s.main.weight (price N) + s.doctor.weight s.docState + tally VisitorPc.weight (s.visitors N)

/-- The measure of a run. -/
def State.effort (N : ℕ) (s : State) : ℕ := (price N + 65) * toDo (s.rest s.main) + s.weight N

section Weights

variable {s s' : State} {N b : ℕ} {k : Kind} {i : ℕ}

/-- Being woken up costs two steps at most. -/
theorem MainPc.weight_wakeInit (b : ℕ) (k : Kind) (pc : MainPc) : (pc.wakeInit k).weight b ≤ pc.weight b + 2 := by
  cases pc
  case awaitInit w j a =>
    simp only [MainPc.wakeInit, MainPc.weight]
    cases w <;> split <;> simp [WaitPc.wake, WaitPc.weight]
  all_goals exact Nat.le_add_right _ 2

theorem MainPc.weight_wakeDone (b : ℕ) (pc : MainPc) : pc.wakeDone.weight b ≤ pc.weight b + 2 := by
  cases pc
  case awaitDone w k v => cases w <;> simp [MainPc.wakeDone, MainPc.weight, WaitPc.wake, WaitPc.weight]
  all_goals exact Nat.le_add_right _ 2

theorem DoctorPc.weight_wake (d : DocState) (pc : DoctorPc) : pc.wake.weight d ≤ pc.weight d + 2 := by
  cases pc
  case await w =>
    cases w
    · exact Nat.le_add_right _ 2
    · exact Nat.le_add_right _ 2
    · change 3 + _ ≤ 1 + _ + 2
      omega
  all_goals exact Nat.le_add_right _ 2

/-- A call costs an answer. -/
theorem DoctorPc.weight_call (d d' : DocState) (pc : DoctorPc) : pc.weight d' ≤ pc.weight d + 17 := by
  have hdue : d'.due ≤ 17 := by cases d' <;> decide
  cases pc <;> simp only [DoctorPc.weight] <;> omega

theorem VisitorPc.weight_wake (pc : VisitorPc) : pc.wake.weight ≤ pc.weight + 2 := by
  cases pc
  case await w a => cases w <;> simp [VisitorPc.wake, VisitorPc.weight, WaitPc.wake, WaitPc.weight]
  all_goals exact Nat.le_add_right _ 2

/-- One visitor moves. -/
theorem visitors_move (hvis : s'.visitor = Function.update s.visitor (k, i) q) (hi : i ≤ N) :
    tally VisitorPc.weight (s'.visitors N) + (s.visitor (k, i)).weight = tally VisitorPc.weight (s.visitors N) + q.weight := by
  have hupdate : s'.visitors N = Function.update (s.visitors N) (k, ⟨i, by omega⟩) q := by
    funext x
    unfold State.visitors
    rw [hvis, Function.update_apply, Function.update_apply]
    refine if_congr ?_ rfl rfl
    rw [Prod.ext_iff, Prod.ext_iff, Fin.ext_iff]
  rw [hupdate]
  exact tally_update VisitorPc.weight (s.visitors N) (k, ⟨i, by omega⟩) q

theorem visitors_same (hvis : s'.visitor = s.visitor) : s'.visitors N = s.visitors N := by
  funext x
  unfold State.visitors
  rw [hvis]

/-! ### Main -/

/-- Main moves on, and nobody else. -/
theorem weight_main (hm : s'.main.weight (price N) < s.main.weight (price N)) (hd : s'.doctor = s.doctor)
    (hds : s'.docState = s.docState) (hvis : s'.visitor = s.visitor) : s'.weight N < s.weight N := by
  unfold State.weight
  rw [hd, hds, visitors_same hvis]
  omega

/-- Main does something to the doctor and can pay for it. -/
theorem weight_doctor {c : ℕ} (hm : s'.main.weight (price N) + c < s.main.weight (price N))
    (hd : s'.doctor.weight s'.docState ≤ s.doctor.weight s.docState + c) (hvis : s'.visitor = s.visitor) :
    s'.weight N < s.weight N := by
  unfold State.weight
  rw [visitors_same hvis]
  omega

/-- **A broadcast** wakes up as many as there can be. -/
theorem visitors_broadcast
    (hvis : s'.visitor = fun who => if who.1 = k then (s.visitor who).wake else s.visitor who) :
    tally VisitorPc.weight (s'.visitors N) ≤ tally VisitorPc.weight (s.visitors N) + price N := by
  have hle : ∀ x, (s'.visitors N x).weight ≤ (s.visitors N x).weight + 2 := fun x => by
    unfold State.visitors
    rw [hvis]
    simp only
    split
    · exact VisitorPc.weight_wake _
    · exact Nat.le_add_right _ 2
  refine (Finset.sum_le_sum fun x _ => hle x).trans ?_
  rw [Finset.sum_add_distrib, Finset.sum_const, Finset.card_univ, Fintype.card_prod, Fintype.card_fin]
  have hkinds : Fintype.card Kind = 3 := rfl
  rw [hkinds, smul_eq_mul, price]
  change tally VisitorPc.weight (s.visitors N) + _ ≤ _
  omega

theorem weight_broadcast (hm : s'.main.weight (price N) + price N < s.main.weight (price N)) (hd : s'.doctor = s.doctor)
    (hds : s'.docState = s.docState)
    (hvis : s'.visitor = fun who => if who.1 = k then (s.visitor who).wake else s.visitor who) :
    s'.weight N < s.weight N := by
  have hle := visitors_broadcast (N := N) hvis
  unfold State.weight
  rw [hd, hds]
  omega

/-- **A step of main** within its turn. -/
theorem weight_mainStep (hid : ∀ k a, s.main = .create k a → a.id ≤ N) (hhead : s.main ≠ .head)
    (hst : mainStep s s.main = some s') : s'.weight N < s.weight N := by
  cases hpc : s.main with
  | head => exact absurd hpc hhead
  | lockEvent e =>
    rw [hpc] at hst
    obtain ⟨-, rfl⟩ := lock_map hst
    obtain ⟨-, -, hs'⟩ | ⟨-, -, hs'⟩ | ⟨k, l, -, -, hs'⟩ | ⟨k, -, -, hs'⟩ | ⟨-, hs'⟩ := event_cases _ e
    all_goals
      rw [hs']
      refine weight_main ?_ rfl rfl rfl
      rw [hpc]
      simp only [MainPc.weight]
      omega
  | lockAgain | lockDispatch =>
    rw [hpc] at hst
    obtain ⟨-, rfl⟩ := lock_map hst
    obtain ⟨k, -, hs'⟩ | ⟨-, hs'⟩ := dispatch_cases { s with holder := Function.update s.holder .mutex (some .main) }
    all_goals
      rw [hs']
      refine weight_main ?_ rfl rfl rfl
      rw [hpc]
      simp only [State.goMain, MainPc.weight]
      omega
  | lockDocLast =>
    rw [hpc] at hst
    obtain ⟨-, rfl⟩ := lock_map hst
    refine weight_doctor ?_ (DoctorPc.weight_call _ _ _) rfl
    rw [hpc]
    exact (by decide : 18 + 17 < 36)
  | lockDoc k v =>
    rw [hpc] at hst
    obtain ⟨-, rfl⟩ := lock_map hst
    refine weight_doctor ?_ (DoctorPc.weight_call _ _ _) rfl
    rw [hpc]
    simp only [MainPc.weight]
    omega
  | signalLast =>
    rw [hpc] at hst
    cases hst
    refine weight_doctor ?_ (DoctorPc.weight_wake _ _) rfl
    rw [hpc]
    exact (by decide : 15 + 2 < 18)
  | signalDoc k v =>
    rw [hpc] at hst
    cases hst
    refine weight_doctor ?_ (DoctorPc.weight_wake _ _) rfl
    rw [hpc]
    simp only [MainPc.weight]
    omega
  | joinDoctor =>
    rw [hpc] at hst
    obtain ⟨-, hst⟩ := Option.ite_none_right_eq_some.1 hst
    cases hst
    refine weight_main ?_ rfl rfl rfl
    rw [hpc]
    exact Nat.lt_succ_self 12
  | unlockDocLast | unlockLast | unlockFree | unlockRefused | unlockAdmitted k a | unlockInit k a | unlockIdle
  | unlockChosen k v | unlockDoc k v | unlockDone k v | lockCurr k v | unlockCurr k v id time =>
    rw [hpc] at hst
    first
      | obtain ⟨-, rfl⟩ := lock_map hst
      | obtain ⟨-, rfl⟩ := unlock_map hst
    refine weight_main ?_ rfl rfl rfl
    rw [hpc]
    simp only [State.goMain, MainPc.weight, WaitPc.weight]
    omega
  | create k a =>
    rw [hpc] at hst
    obtain ⟨habsent, hst⟩ := Option.ite_none_right_eq_some.1 hst
    cases hst
    have hmove : tally _ (((s.goVisitor (k, a.id) .start).goMain (.awaitInit .lock k a)).visitors N) + _ = _ :=
      visitors_move rfl (hid k a hpc)
    rw [habsent] at hmove
    change tally VisitorPc.weight _ + 0 = _ + 12 at hmove
    unfold State.weight
    rw [hpc]
    change price N + 46 + 3 + s.doctor.weight s.docState + _ < price N + 62 + s.doctor.weight s.docState + _
    omega
  | awaitInit w k a =>
    rw [hpc, mainStep] at hst
    obtain ⟨rfl, -, -, rfl⟩ | ⟨rfl, -, -, rfl⟩ | ⟨rfl, -, rfl⟩ := await_some hst
    all_goals
      refine weight_main ?_ rfl rfl rfl
      rw [hpc]
      simp only [State.goMain, MainPc.weight, WaitPc.weight]
      omega
  | awaitDone w k v =>
    rw [hpc, mainStep] at hst
    obtain ⟨rfl, -, -, rfl⟩ | ⟨rfl, -, -, rfl⟩ | ⟨rfl, -, rfl⟩ := await_some hst
    all_goals
      refine weight_main ?_ rfl rfl rfl
      rw [hpc]
      simp only [State.goMain, MainPc.weight, WaitPc.weight]
      omega
  | broadcast k v id =>
    rw [hpc] at hst
    cases hst
    refine weight_broadcast (k := k) ?_ rfl rfl rfl
    rw [hpc]
    simp only [MainPc.weight]
    omega
  | join k v id time =>
    rw [hpc] at hst
    obtain ⟨who, -, hst⟩ := Option.bind_eq_some_iff.1 hst
    obtain ⟨-, hst⟩ := Option.ite_none_right_eq_some.1 hst
    cases hst
    refine weight_main ?_ rfl rfl rfl
    rw [hpc]
    exact Nat.lt_succ_self 12
  | destroy left =>
    rw [hpc] at hst
    obtain ⟨rfl, rfl⟩ | ⟨r, rest, rfl, rfl⟩ := destroy_some hst
    · exact weight_main (by rw [hpc]; exact Nat.zero_lt_one) rfl rfl rfl
    · exact weight_main (by rw [hpc]; exact Nat.lt_succ_self _) rfl rfl rfl
  | finished =>
    rw [hpc] at hst
    cases hst

/-! ### The doctor and the visitors -/

/-- The doctor moves on; what he does to main he can pay for. -/
theorem weight_move {c : ℕ} (hd : s'.doctor.weight s'.docState + c < s.doctor.weight s.docState)
    (hm : s'.main.weight (price N) ≤ s.main.weight (price N) + c) (hvis : s'.visitor = s.visitor) :
    s'.weight N < s.weight N := by
  unfold State.weight
  rw [visitors_same hvis]
  omega

/-- **A step of the doctor.** -/
theorem weight_doctorStep (hst : doctor s s.doctor = some s') : s'.weight N < s.weight N := by
  cases hpc : s.doctor with
  | await w =>
    rw [hpc, doctor] at hst
    obtain ⟨rfl, -, hready, rfl⟩ | ⟨rfl, -, -, rfl⟩ | ⟨rfl, -, rfl⟩ := await_some hst
    · -- he goes to answer, and the call no longer counts
      have hdue : s.docState.due = 17 := by
        have hcalled : s.docState ≠ .notBusy := of_decide_eq_true hready
        cases hd : s.docState
        · exact absurd hd hcalled
        · rfl
        · rfl
      refine weight_move (c := 0) ?_ (Nat.le_refl _) rfl
      rw [hpc]
      change 12 + 0 < 3 + s.docState.due
      omega
    · refine weight_move (c := 0) ?_ (Nat.le_refl _) rfl
      rw [hpc]
      change 2 + s.docState.due + 0 < 3 + s.docState.due
      omega
    · refine weight_move (c := 0) ?_ (Nat.le_refl _) rfl
      rw [hpc]
      change 1 + s.docState.due + 0 < 2 + s.docState.due
      omega
  | lockMutex =>
    rw [hpc] at hst
    obtain ⟨-, rfl⟩ := lock_map hst
    by_cases hleave : s.docState = .leaving
    · rw [if_pos hleave]
      exact weight_move (c := 0) (by rw [hpc]; exact Nat.lt_succ_self 11) (Nat.le_refl _) rfl
    · rw [if_neg hleave]
      exact weight_move (c := 0) (by rw [hpc]; exact Nat.lt_succ_self 11) (Nat.le_refl _) rfl
  | unlockLast | unlockMutex =>
    rw [hpc] at hst
    obtain ⟨-, rfl⟩ := unlock_map hst
    exact weight_move (c := 0) (by rw [hpc]; exact Nat.lt_succ_self 10) (Nat.le_refl _) rfl
  | unlockDocLast =>
    rw [hpc] at hst
    obtain ⟨-, rfl⟩ := unlock_map hst
    exact weight_move (c := 0) (by rw [hpc]; exact (by decide : 0 < 10)) (Nat.le_refl _) rfl
  | signalDone =>
    rw [hpc] at hst
    cases hst
    refine weight_move (c := 2) ?_ (MainPc.weight_wakeDone _ _) rfl
    rw [hpc]
    change 6 + s.docState.due + 2 < 10 + s.docState.due
    omega
  | unlockDoc =>
    rw [hpc] at hst
    obtain ⟨-, rfl⟩ := unlock_map hst
    refine weight_move (c := 0) ?_ (Nat.le_refl _) rfl
    rw [hpc]
    change 3 + s.docState.due + 0 < 6 + s.docState.due
    omega
  | finished =>
    rw [hpc] at hst
    cases hst

/-- A visitor moves on; what he does to main he can pay for. -/
theorem weight_visitor {q : VisitorPc} {c : ℕ} (hi : i ≤ N) (hvis : s'.visitor = Function.update s.visitor (k, i) q)
    (hq : q.weight + c < (s.visitor (k, i)).weight) (hm : s'.main.weight (price N) ≤ s.main.weight (price N) + c)
    (hd : s'.doctor = s.doctor) (hds : s'.docState = s.docState) : s'.weight N < s.weight N := by
  have hmove := visitors_move hvis hi
  unfold State.weight
  rw [hd, hds]
  omega

/-- **A step of a visitor.** -/
theorem weight_visit (hi : i ≤ N) (hst : visit k i s (s.visitor (k, i)) = some s') : s'.weight N < s.weight N := by
  cases hpc : s.visitor (k, i) with
  | start =>
    rw [hpc] at hst
    unfold visit at hst
    simp only at hst
    split at hst
    · cases hst
      exact weight_visitor (c := 0) hi rfl (by rw [hpc]; exact Nat.lt_succ_self 11) (Nat.le_refl _) rfl rfl
    · cases hst
      exact weight_visitor (c := 0) hi rfl (by rw [hpc]; decide) (Nat.le_refl _) rfl rfl
  | lockInit a =>
    rw [hpc] at hst
    obtain ⟨-, rfl⟩ := lock_map hst
    exact weight_visitor (c := 0) hi rfl (by rw [hpc]; exact Nat.lt_succ_self 10) (Nat.le_refl _) rfl rfl
  | signalInit a =>
    rw [hpc] at hst
    cases hst
    exact weight_visitor (c := 2) hi rfl (by rw [hpc]; exact (by decide : 6 + 2 < 10)) (MainPc.weight_wakeInit _ _ _) rfl rfl
  | unlockInit a =>
    rw [hpc] at hst
    obtain ⟨-, rfl⟩ := unlock_map hst
    exact weight_visitor (c := 0) hi rfl (by rw [hpc]; exact Nat.lt_succ_self 5) (Nat.le_refl _) rfl rfl
  | await w a =>
    rw [hpc, visit] at hst
    obtain ⟨rfl, -, -, rfl⟩ | ⟨rfl, -, -, rfl⟩ | ⟨rfl, -, rfl⟩ := await_some hst
    · exact weight_visitor (c := 0) hi rfl (by rw [hpc]; exact (by decide : 2 < 5)) (Nat.le_refl _) rfl rfl
    · exact weight_visitor (c := 0) hi rfl (by rw [hpc]; exact Nat.lt_succ_self 4) (Nat.le_refl _) rfl rfl
    · exact weight_visitor (c := 0) hi rfl (by rw [hpc]; exact Nat.lt_succ_self 3) (Nat.le_refl _) rfl rfl
  | unlockTurn =>
    rw [hpc] at hst
    obtain ⟨-, rfl⟩ := unlock_map hst
    exact weight_visitor (c := 0) hi rfl (by rw [hpc]; decide) (Nat.le_refl _) rfl rfl
  | _ =>
    rw [hpc] at hst
    cases hst

/-! ### The visitors there can be -/

/-- A step of main creates one thread, the one of `create`, and no other. -/
theorem mainStep_visitor (hst : mainStep s s.main = some s') :
    (∀ who, s.visitor who = .absent → s'.visitor who = .absent) ∨
      ∃ k a, s.main = .create k a ∧ s'.visitor = Function.update s.visitor (k, a.id) .start := by
  cases hpc : s.main with
  | create k a =>
    rw [hpc] at hst
    obtain ⟨-, hst⟩ := Option.ite_none_right_eq_some.1 hst
    cases hst
    exact Or.inr ⟨k, a, rfl, rfl⟩
  | broadcast k v id =>
    rw [hpc] at hst
    cases hst
    refine Or.inl fun who hwho => ?_
    change (if who.1 = k then (s.visitor who).wake else s.visitor who) = .absent
    rw [hwho]
    exact ite_self _
  | lockEvent e =>
    rw [hpc] at hst
    obtain ⟨-, rfl⟩ := lock_map hst
    obtain ⟨-, -, hs'⟩ | ⟨-, -, hs'⟩ | ⟨k, l, -, -, hs'⟩ | ⟨k, -, -, hs'⟩ | ⟨-, hs'⟩ := event_cases _ e
    all_goals
      rw [hs']
      exact Or.inl fun _ hwho => hwho
  | lockAgain | lockDispatch =>
    rw [hpc] at hst
    obtain ⟨-, rfl⟩ := lock_map hst
    obtain ⟨k, -, hs'⟩ | ⟨-, hs'⟩ := dispatch_cases { s with holder := Function.update s.holder .mutex (some .main) }
    all_goals
      rw [hs']
      exact Or.inl fun _ hwho => hwho
  | awaitInit w k a | awaitDone w k v =>
    rw [hpc, mainStep] at hst
    obtain ⟨rfl, -, -, rfl⟩ | ⟨rfl, -, -, rfl⟩ | ⟨rfl, -, rfl⟩ := await_some hst
    all_goals exact Or.inl fun _ hwho => hwho
  | joinDoctor =>
    rw [hpc] at hst
    obtain ⟨-, hst⟩ := Option.ite_none_right_eq_some.1 hst
    cases hst
    exact Or.inl fun _ hwho => hwho
  | join k v id time =>
    rw [hpc] at hst
    obtain ⟨who, -, hst⟩ := Option.bind_eq_some_iff.1 hst
    obtain ⟨-, hst⟩ := Option.ite_none_right_eq_some.1 hst
    cases hst
    exact Or.inl fun _ hwho => hwho
  | head =>
    rw [hpc, mainStep] at hst
    obtain rfl := Option.some.inj hst
    left
    intro who hwho
    split <;> exact hwho
  | signalLast | signalDoc k v =>
    rw [hpc] at hst
    cases hst
    exact Or.inl fun _ hwho => hwho
  | destroy left =>
    rw [hpc] at hst
    obtain ⟨-, rfl⟩ | ⟨r, rest, -, rfl⟩ := destroy_some hst
    all_goals exact Or.inl fun _ hwho => hwho
  | finished =>
    rw [hpc] at hst
    cases hst
  | _ =>
    rw [hpc] at hst
    first
      | obtain ⟨-, rfl⟩ := lock_map hst
      | obtain ⟨-, rfl⟩ := unlock_map hst
    exact Or.inl fun _ hwho => hwho

/-- No visitor has a number above `N`. -/
def Numbered (N : ℕ) (s : State) : Prop := ∀ who : Kind × ℕ, N < who.2 → s.visitor who = .absent

theorem Numbered.move {who : Kind × ℕ} {q : VisitorPc} (h : Numbered N s) (hwho : s.visitor who ≠ .absent)
    (hvis : s'.visitor = Function.update s.visitor who q) : Numbered N s' := fun x hx => by
  have hne : x ≠ who := fun hxw => hwho (hxw ▸ h x hx)
  rw [hvis, Function.update_of_ne hne]
  exact h x hx

/-- Where a visitor's own step leads. -/
theorem visit_visitor (hst : visit k i s (s.visitor (k, i)) = some s') :
    s.visitor (k, i) ≠ .absent ∧ ∃ q, s'.visitor = Function.update s.visitor (k, i) q := by
  cases hpc : s.visitor (k, i) with
  | start =>
    rw [hpc] at hst
    unfold visit at hst
    simp only at hst
    split at hst
    · cases hst
      exact ⟨by simp, _, rfl⟩
    · cases hst
      exact ⟨by simp, _, rfl⟩
  | signalInit a =>
    rw [hpc] at hst
    cases hst
    exact ⟨by simp, _, rfl⟩
  | lockInit a =>
    rw [hpc] at hst
    obtain ⟨-, rfl⟩ := lock_map hst
    exact ⟨by simp, _, rfl⟩
  | unlockInit a | unlockTurn =>
    rw [hpc] at hst
    obtain ⟨-, rfl⟩ := unlock_map hst
    exact ⟨by simp, _, rfl⟩
  | await w a =>
    rw [hpc, visit] at hst
    obtain ⟨rfl, -, -, rfl⟩ | ⟨rfl, -, -, rfl⟩ | ⟨rfl, -, rfl⟩ := await_some hst
    all_goals exact ⟨by simp, _, rfl⟩
  | _ =>
    rw [hpc] at hst
    cases hst

theorem doctor_visitor (hst : doctor s s.doctor = some s') : s'.visitor = s.visitor := by
  cases hpc : s.doctor with
  | await w =>
    rw [hpc, doctor] at hst
    obtain ⟨rfl, -, -, rfl⟩ | ⟨rfl, -, -, rfl⟩ | ⟨rfl, -, rfl⟩ := await_some hst
    all_goals rfl
  | lockMutex =>
    rw [hpc] at hst
    obtain ⟨-, rfl⟩ := lock_map hst
    split <;> rfl
  | signalDone =>
    rw [hpc] at hst
    cases hst
    rfl
  | finished =>
    rw [hpc] at hst
    cases hst
  | _ =>
    rw [hpc] at hst
    obtain ⟨-, rfl⟩ := unlock_map hst
    rfl

end Weights

/-! ### Every run -/

section Runs

variable {file : List Event} {Q : ℕ → Event} {s s' t : State} {k : Kind}

/-- Whoever is called was waiting. -/
theorem seated_dispatchNext (v : Vars) (k : Kind) :
    v.dispatchNext.curr k + v.dispatchNext.wait k = v.curr k + v.wait k := by
  unfold Vars.dispatchNext
  cases hc : v.choose with
  | none => rfl
  | some j =>
    obtain ⟨-, -, hwait, -⟩ := choose_some hc
    change Function.update v.curr j (v.curr j + 1) k + Function.update v.wait j (v.wait j - 1) k = _
    rw [Function.update_apply, Function.update_apply]
    split
    · rename_i hk
      rw [hk]
      omega
    · rfl

/-- A new visitor's number is that of a record. -/
theorem Good.create_le (hfile : Arrivals file) (h : Good file Q s) {a : Param} (hpc : s.main = .create k a) :
    a.id ≤ file.length := by
  have hstory := h.story
  have hplace := h.place
  rw [hpc] at hstory hplace
  obtain ⟨⟨-, hid⟩, -⟩ := hplace
  have hs := sound_of_reachable hfile hstory
  have hle := hs.inv.rooms.le k
  have hcnt := hs.conserved.cnt_le hs.inv.rooms.came k
  have hlen : ofKind k file ≤ file.length := List.countP_le_length
  change ((s.vars.enqueue k a.id a.e).dispatchNext).curr k + ((s.vars.enqueue k a.id a.e).dispatchNext).wait k ≤ _ at hle
  rw [seated_dispatchNext] at hle
  change s.vars.curr k + s.vars.wait k ≤ _ at hle
  change ((s.vars.enqueue k a.id a.e).dispatchNext).cnt k ≤ _ at hcnt
  change _ ≤ ((s.vars.enqueue k a.id a.e).dispatchNext).cnt k at hle
  omega

theorem Numbered.next (hfile : Arrivals file) (hg : Good file Q s) (h : Numbered file.length s) {a : Act}
    (hst : Session.next a s = some s') : Numbered file.length s' := by
  cases a with
  | go p =>
    cases p with
    | main =>
      obtain hsame | ⟨k, a, hpc, hvis⟩ := mainStep_visitor hst
      · exact fun who hwho => hsame who (h who hwho)
      · intro who hwho
        have hle := hg.create_le hfile hpc
        rw [hvis, Function.update_of_ne (by rintro rfl; exact absurd hwho (Nat.not_lt.2 hle))]
        exact h who hwho
    | doctor =>
      rw [Numbered, doctor_visitor hst]
      exact h
    | visitor who =>
      obtain ⟨hne, q, hvis⟩ := visit_visitor ((visitorStep_eq s who _).symm.trans hst)
      exact h.move hne hvis
  | wake p =>
    obtain ⟨-, k, a, -, rfl⟩ | ⟨-, k, v, -, rfl⟩ | ⟨-, -, rfl⟩ | ⟨who, a, -, hpc, rfl⟩ := wakeUp_cases hst
    · exact h
    · exact h
    · exact h
    · exact h.move (by rw [hpc]; simp) rfl

/-- **Every step lowers the effort**: main's next turn what is to do, any other step the weights. -/
theorem effort_lt (hfile : Arrivals file) (hg : Good file Q s) (h : Numbered file.length s) {p : Party}
    (hst : Session.next (.go p) s = some s') : s'.effort file.length < s.effort file.length := by
  unfold State.effort
  cases p with
  | main =>
    by_cases hhead : s.main = .head
    · change mainStep s s.main = some s' at hst
      rw [hhead, mainStep] at hst
      obtain rfl := Option.some.inj hst
      by_cases hE : emptyQ s.vars.E = true
      · rw [if_pos hE, hhead]
        have hlt : (s.goMain (.destroy resources)).weight file.length < s.weight file.length :=
          weight_main (by rw [hhead]; exact Nat.lt_succ_self 11) rfl rfl rfl
        exact Nat.add_lt_add_left hlt _
      · have hne : emptyQ s.vars.E = false := by simpa using hE
        have hlt : toDo (s.vars.pop.handle (nextevent s.vars.E)) < toDo s.vars :=
          toDo_turn (turn_handle hne (hg.event hfile hhead hne).1)
        have hmul := Nat.mul_le_mul_left (price file.length + 65) hlt
        rw [if_neg hE, hhead]
        change (price file.length + 65) * toDo (s.vars.pop.handle (nextevent s.vars.E)) +
          (price file.length + 64 + s.doctor.weight s.docState + tally VisitorPc.weight (s.visitors file.length)) <
          (price file.length + 65) * toDo s.vars + s.weight file.length
        rw [State.weight, hhead]
        change _ < _ + (12 + _ + _)
        rw [Nat.mul_succ] at hmul
        omega
    · have hrest := (rest_main hg.place hg.talk hst).resolve_right (fun hx => hhead hx.1)
      rw [hrest]
      exact Nat.add_lt_add_left (weight_mainStep (fun k a hpc => hg.create_le hfile hpc) hhead hst) _
  | doctor =>
    rw [rest_doctorStep hg.locked hg.talk hst]
    exact Nat.add_lt_add_left (weight_doctorStep hst) _
  | visitor who =>
    have hvisit := (visitorStep_eq s who _).symm.trans hst
    have hi : who.2 ≤ file.length := by
      by_contra hlt
      exact (visit_visitor hvisit).1 (h who (Nat.lt_of_not_le hlt))
    rw [rest_visit hg.locked hg.seats hg.place hvisit]
    exact Nat.add_lt_add_left (weight_visit hi hvisit) _

theorem numbered_of_reachable (hfile : Arrivals file) (h : Reachable Session.next (State.init file Q) s) :
    Numbered file.length s :=
  reachable_inv (Numbered file.length) (fun _ _ => rfl)
    (fun _ _ _ hr hs hst => hs.next hfile (good_of_reachable hfile hr) hst) h

/-- The threads' own steps. -/
def proceed (p : Party) : State → Option State := next (.go p)

theorem reachable_proceed {s₀ : State} (h : Reachable Session.next s₀ s) (ht : Reachable proceed s t) :
    Reachable Session.next s₀ t :=
  reachable_inv (fun t => Reachable Session.next s₀ t) h (fun p _ _ _ hr hst => hr.step (a := .go p) hst) ht

theorem effort_falls (hfile : Arrivals file) (hg : Good file Q s) (h : Numbered file.length s) : ¬ InfiniteRun proceed s :=
  not_infinite_of_lt (fun t => Good file Q t ∧ Numbered file.length t) ⟨hg, h⟩ (State.effort file.length)
    fun p _ _ hu hst => ⟨⟨hu.1.next hfile (a := .go p) hst, hu.2.next hfile hu.1 (a := .go p) hst⟩,
      effort_lt hfile hu.1 hu.2 hst⟩

end Runs

/-- One patient. -/
def oneArrival : List Event := [⟨'P', 3, 4⟩]

theorem oneArrival_ok : Arrivals oneArrival := by
  intro e he
  rw [List.mem_singleton.1 he]
  exact ⟨⟨.patient, rfl⟩, by decide⟩

end Session
end OsLab
