import OsLab.SessionLocks
import OsLab.SessionInv
import Mathlib.Data.Fintype.Basic
/-!
# SessionTalk — main and the doctor

`doc_state` and the doctor's place, for each place of main (`Talk`): while main does not call the doctor he waits for 0 to
change or has left; a call is 1 until he has printed his line, the last one is -1.
-/
namespace OsLab
namespace Session

/-- What main's place has to do with the doctor. -/
inductive Phase where
  | quiet
  | ringing
  | rung
  | await (w : WaitPc)
  | called
  | ringingLast
  | rungLast
  | leaving
  | joining
  deriving DecidableEq, Repr

def Phase.wake : Phase → Phase
  | .await w => .await w.wake
  | ph => ph

/-- Main has `doc_mutex`. -/
def Phase.holdsDoc : Phase → Bool
  | .ringing | .rung | .ringingLast | .rungLast => true
  | .await w => w.holds
  | _ => false

def MainPc.phase : MainPc → Phase
  | .signalDoc _ _ => .ringing
  | .unlockDoc _ _ => .rung
  | .awaitDone w _ _ => .await w
  | .unlockChosen _ _ | .lockDoc _ _ | .unlockDone _ _ | .lockCurr _ _ | .lockDocLast => .called
  | .signalLast => .ringingLast
  | .unlockDocLast => .rungLast
  | .unlockLast => .leaving
  | .joinDoctor => .joining
  | _ => .quiet

/-- The doctor waits to be called. -/
def DoctorPc.idle : DoctorPc → Bool
  | .await _ => true
  | _ => false

/-- The doctor has not printed the line of this call. -/
def DoctorPc.called : DoctorPc → Bool
  | .await .lock | .lockMutex => true
  | _ => false

/-- The doctor has printed his last line. -/
def DoctorPc.left : DoctorPc → Bool
  | .unlockLast | .unlockDocLast | .finished => true
  | _ => false

/-- What `doc_state`, the doctor's place and `doc_session_end` can be. -/
def Talk : Phase → DocState → DoctorPc → Bool → Bool
  | .quiet, d, p, ended => if ended then d = .leaving ∧ p = .finished else d = .notBusy ∧ p.idle
  | .called, d, p, ended => !ended ∧ d = .notBusy ∧ p.idle
  | .ringing, d, p, ended => !ended ∧ d = .busy ∧ (p = .await .lock ∨ p = .await .asleep)
  | .rung, d, p, ended => !ended ∧ d = .busy ∧ p = .await .lock
  | .await .lock, d, p, ended =>
    !ended ∧ (d = .busy ∧ (p.called ∨ p = .unlockMutex) ∨ d = .notBusy ∧ (p.idle ∨ p = .signalDone ∨ p = .unlockDoc))
  | .await .wait, d, p, ended => !ended ∧ d = .busy ∧ p = .await .lock
  | .await .asleep, d, p, ended =>
    !ended ∧ (d = .busy ∧ (p.called ∨ p = .unlockMutex) ∨ d = .notBusy ∧ p = .signalDone)
  | .ringingLast, d, p, ended => !ended ∧ d = .leaving ∧ (p = .await .lock ∨ p = .await .asleep)
  | .rungLast, d, p, ended => !ended ∧ d = .leaving ∧ p = .await .lock
  | .leaving, d, p, ended => ended ∧ d = .leaving ∧ p.called
  | .joining, d, p, ended => ended ∧ d = .leaving ∧ (p.called ∨ p.left)

def State.talk (s : State) : Bool := Talk s.main.phase s.docState s.doctor s.vars.docSessionEnd

section Talk

variable {s s' : State} {ph : Phase} {d : DocState} {p : DoctorPc} {ended : Bool}

/-! ### The table -/

instance : Fintype WaitPc := ⟨{.lock, .wait, .asleep}, fun w => by cases w <;> decide⟩

instance : Fintype DocState := ⟨{.notBusy, .busy, .leaving}, fun d => by cases d <;> decide⟩

instance : Fintype DoctorPc :=
  ⟨{.await .lock, .await .wait, .await .asleep, .lockMutex, .unlockLast, .unlockDocLast, .unlockMutex, .signalDone,
    .unlockDoc, .finished}, fun p => by rcases p with ⟨_ | _ | _⟩ | _ <;> decide⟩

instance : Fintype Phase :=
  ⟨{.quiet, .ringing, .rung, .await .lock, .await .wait, .await .asleep, .called, .ringingLast, .rungLast, .leaving,
    .joining}, fun p => by rcases p with _ | _ | _ | ⟨_ | _ | _⟩ | _ <;> decide⟩

theorem Talk.call : ∀ d p ended, Talk .quiet d p ended = true → ended = false → Talk .called d p ended = true := by decide

theorem Talk.quiet : ∀ d p ended, Talk .called d p ended = true → Talk .quiet d p ended = true := by decide

theorem Talk.ring : ∀ d p ended, Talk .called d p ended = true → p.holds .docMutex = false →
    Talk .ringing .busy p ended = true ∧ Talk .ringingLast .leaving p ended = true := by decide

theorem Talk.signal : ∀ d p ended, Talk .ringing d p ended = true → Talk .rung d p.wake ended = true := by decide

theorem Talk.signalLast : ∀ d p ended, Talk .ringingLast d p ended = true → Talk .rungLast d p.wake ended = true := by decide

theorem Talk.endSession : ∀ d p ended, Talk .rungLast d p ended = true → Talk .leaving d p true = true := by decide

theorem Talk.unlockLast : ∀ d p ended, Talk .leaving d p ended = true → Talk .joining d p ended = true := by decide

theorem Talk.join : ∀ d ended, Talk .joining d .finished ended = true → Talk .quiet d .finished ended = true := by decide

theorem Talk.unlock : ∀ d p ended, Talk .rung d p ended = true → Talk (.await .lock) d p ended = true := by decide

/-- Main looks at `doc_state`. -/
theorem Talk.look : ∀ d p ended, Talk (.await .lock) d p ended = true → p.holds .docMutex = false →
    (d ≠ .busy → Talk .called d p ended = true) ∧ (d = .busy → Talk (.await .wait) d p ended = true) := by decide

theorem Talk.sleep : ∀ d p ended, Talk (.await .wait) d p ended = true → Talk (.await .asleep) d p ended = true := by decide

theorem Talk.wake : ∀ d p ended, Talk (.await .asleep) d p ended = true → Talk (.await .lock) d p ended = true := by decide

/-- The doctor looks at `doc_state`. -/
theorem Talk.doctorLook : ∀ ph d ended, Talk ph d (.await .lock) ended = true → ph.holdsDoc = false →
    (d ≠ .notBusy → Talk ph d .lockMutex ended = true) ∧ (d = .notBusy → Talk ph d (.await .wait) ended = true) := by decide

theorem Talk.doctorSleep : ∀ ph d ended, Talk ph d (.await .wait) ended = true → Talk ph d (.await .asleep) ended = true := by
  decide

theorem Talk.doctorWake : ∀ ph d ended, Talk ph d (.await .asleep) ended = true → Talk ph d (.await .lock) ended = true := by
  decide

/-- The doctor has both mutexes: main waits for him. -/
theorem Talk.doctorLine : ∀ ph d ended, Talk ph d .lockMutex ended = true → ph ≠ .leaving →
    (d = .leaving → ph = .joining ∧ ended = true ∧ Talk ph d .unlockLast true = true) ∧
    (d ≠ .leaving → d = .busy ∧ ph.wake = .await .lock ∧ Talk ph d .unlockMutex ended = true) := by decide

theorem Talk.doctorLeaves : ∀ ph d ended, Talk ph d .unlockLast ended = true → Talk ph d .unlockDocLast ended = true := by
  decide

theorem Talk.doctorGone : ∀ ph d ended, Talk ph d .unlockDocLast ended = true → Talk ph d .finished ended = true := by decide

theorem Talk.doctorDone : ∀ ph d ended, Talk ph d .unlockMutex ended = true → Talk ph .notBusy .signalDone ended = true := by
  decide

theorem Talk.doctorSignal : ∀ ph d ended, Talk ph d .signalDone ended = true → Talk ph.wake d .unlockDoc ended = true := by
  decide

theorem Talk.doctorAgain : ∀ ph d ended, Talk ph d .unlockDoc ended = true → Talk ph d (.await .lock) ended = true := by decide

/-- What the doctor has not printed when main unlocks `doc_mutex`, and what he has printed when main has seen him. -/
theorem Talk.notLeft : ∀ d p ended, Talk .rungLast d p ended = true → p.left = false := by decide

theorem Talk.notPrinted : ∀ d p ended, Talk .rung d p ended = true → d = .busy ∧ p = .await .lock := by decide

theorem Talk.printed : ∀ d p ended, Talk (.await .lock) d p ended = true → d ≠ .busy → d = .notBusy := by decide

/-- Where the doctor can be while main cannot go on. -/
theorem Talk.waits : ∀ d p ended, Talk .called d p ended = true → p.holds .docMutex = true → p = .await .wait := by decide

theorem Talk.awake : ∀ d w ended, Talk .joining d (.await w) ended = true → w = .lock := by decide

theorem Talk.calling : ∀ d p ended, Talk (.await .asleep) d p ended = true → p = .await .lock ∨ p.holds .docMutex = true := by
  decide

/-! ### Every step -/

theorem MainPc.phase_wakeInit (pc : MainPc) (k : Kind) : (pc.wakeInit k).phase = pc.phase := by cases pc <;> rfl

theorem MainPc.phase_wakeDone (pc : MainPc) : pc.wakeDone.phase = pc.phase.wake := by cases pc <;> rfl

theorem MainPc.of_joining {pc : MainPc} (h : pc.phase = .joining) : pc = .joinDoctor := by
  cases pc <;> first | rfl | cases h

theorem MainPc.of_await {pc : MainPc} (h : pc.phase.wake = .await .lock) : ∃ w k v, pc = .awaitDone w k v := by
  cases pc <;> first | exact ⟨_, _, _, rfl⟩ | cases h

theorem MainPc.holds_of_phase {pc : MainPc} (h : pc.phase.holdsDoc = true) : pc.holds .docMutex = true := by
  cases pc <;> first | exact h | cases h

/-- Who takes a mutex that is free finds nobody in it. -/
theorem Locked.free (h : Locked s) {m : Mutex} (hfree : s.holder m = none) (u : Party) : s.inside m u = false := by
  have hm := h m
  rw [hfree] at hm
  exact hm.nobody u

theorem Locked.notLeaving (h : Locked s) (hfree : s.holder .mutex = none) : s.main.phase ≠ .leaving := fun hph => by
  have hin := h.free hfree .main
  cases hm : s.main <;> rw [hm] at hph <;> cases hph
  rw [inside_main hm] at hin
  cases hin

/-- **A step of main.**  When a doctor event comes the session has not ended. -/
theorem talk_main (hl : Locked s) (h : s.talk = true)
    (hdone : ∀ e, s.main = .lockEvent e → letterOf e.type = .done → s.vars.docSessionEnd = false)
    (hst : mainStep s s.main = some s') : s'.talk = true := by
  unfold State.talk at h
  cases hpc : s.main with
  | head =>
    rw [hpc] at hst h
    by_cases hE : emptyQ s.vars.E = true
    · rw [mainStep, if_pos hE] at hst
      cases hst
      exact h
    · rw [mainStep, if_neg hE] at hst
      cases hst
      exact h
  | lockEvent e =>
    have hend := hdone e hpc
    rw [hpc] at hst h
    obtain ⟨-, rfl⟩ := lock_map hst
    obtain ⟨hl, -, hs'⟩ | ⟨-, -, hs'⟩ | ⟨k, l, -, -, hs'⟩ | ⟨k, -, -, hs'⟩ | ⟨-, hs'⟩ := event_cases _ e
    · rw [hs']
      exact Talk.call _ _ _ h (hend hl)
    all_goals
      rw [hs']
      exact h
  | lockAgain =>
    rw [hpc] at hst
    obtain ⟨hfree, -⟩ := lock_map hst
    have hin := hl.free hfree .main
    rw [inside_main hpc] at hin
    cases hin
  | lockDocLast =>
    rw [hpc] at hst h
    obtain ⟨hfree, rfl⟩ := lock_map hst
    exact (Talk.ring _ _ _ h (hl.free hfree .doctor)).2
  | signalLast =>
    rw [hpc] at hst h
    cases hst
    exact Talk.signalLast _ _ _ h
  | unlockDocLast =>
    rw [hpc] at hst h
    obtain ⟨-, rfl⟩ := unlock_map hst
    exact Talk.endSession _ _ _ h
  | unlockLast =>
    rw [hpc] at hst h
    obtain ⟨-, rfl⟩ := unlock_map hst
    exact Talk.unlockLast _ _ _ h
  | joinDoctor =>
    rw [hpc] at hst h
    obtain ⟨hfin, hst⟩ := Option.ite_none_right_eq_some.1 hst
    cases hst
    rw [hfin] at h
    show Talk .quiet s.docState s.doctor s.vars.docSessionEnd = true
    rw [hfin]
    exact Talk.join _ _ h
  | unlockFree =>
    rw [hpc] at hst h
    obtain ⟨-, rfl⟩ := unlock_map hst
    exact h
  | unlockRefused =>
    rw [hpc] at hst h
    obtain ⟨-, rfl⟩ := unlock_map hst
    exact h
  | unlockAdmitted k a =>
    rw [hpc] at hst h
    obtain ⟨-, rfl⟩ := unlock_map hst
    exact h
  | create k a =>
    rw [hpc] at hst h
    obtain ⟨-, hst⟩ := Option.ite_none_right_eq_some.1 hst
    cases hst
    exact h
  | awaitInit w k a =>
    rw [hpc, mainStep] at hst
    rw [hpc] at h
    obtain ⟨rfl, -, -, rfl⟩ | ⟨rfl, -, -, rfl⟩ | ⟨rfl, -, rfl⟩ := await_some hst
    all_goals exact h
  | unlockInit k a =>
    rw [hpc] at hst h
    obtain ⟨-, rfl⟩ := unlock_map hst
    exact h
  | lockDispatch =>
    rw [hpc] at hst h
    obtain ⟨-, rfl⟩ := lock_map hst
    obtain ⟨k, hc, hs'⟩ | ⟨-, hs'⟩ := dispatch_cases _
    · rw [hs']
      exact Talk.call _ _ _ h (choose_some hc).2.1
    · rw [hs']
      exact h
  | unlockIdle =>
    rw [hpc] at hst h
    obtain ⟨-, rfl⟩ := unlock_map hst
    exact h
  | unlockChosen k v =>
    rw [hpc] at hst h
    obtain ⟨-, rfl⟩ := unlock_map hst
    exact h
  | lockDoc k v =>
    rw [hpc] at hst h
    obtain ⟨hfree, rfl⟩ := lock_map hst
    exact (Talk.ring _ _ _ h (hl.free hfree .doctor)).1
  | signalDoc k v =>
    rw [hpc] at hst h
    cases hst
    exact Talk.signal _ _ _ h
  | unlockDoc k v =>
    rw [hpc] at hst h
    obtain ⟨-, rfl⟩ := unlock_map hst
    exact Talk.unlock _ _ _ h
  | awaitDone w k v =>
    rw [hpc, mainStep] at hst
    rw [hpc] at h
    obtain ⟨rfl, hfree, hready, rfl⟩ | ⟨rfl, hfree, hready, rfl⟩ | ⟨rfl, -, rfl⟩ := await_some hst
    · exact (Talk.look _ _ _ h (hl.free hfree .doctor)).1 (of_decide_eq_true hready)
    · exact (Talk.look _ _ _ h (hl.free hfree .doctor)).2 (not_not.1 (of_decide_eq_false hready))
    · exact Talk.sleep _ _ _ h
  | unlockDone k v =>
    rw [hpc] at hst h
    obtain ⟨-, rfl⟩ := unlock_map hst
    exact h
  | lockCurr k v =>
    rw [hpc] at hst h
    obtain ⟨-, rfl⟩ := lock_map hst
    exact Talk.quiet _ _ _ h
  | broadcast k v id =>
    rw [hpc] at hst h
    cases hst
    exact h
  | unlockCurr k v id time =>
    rw [hpc] at hst h
    obtain ⟨-, rfl⟩ := unlock_map hst
    exact h
  | join k v id time =>
    rw [hpc] at hst h
    obtain ⟨who, -, hst⟩ := Option.bind_eq_some_iff.1 hst
    obtain ⟨-, hst⟩ := Option.ite_none_right_eq_some.1 hst
    cases hst
    exact h
  | destroy left =>
    rw [hpc] at hst h
    obtain ⟨-, rfl⟩ | ⟨r, rest, -, rfl⟩ := destroy_some hst
    all_goals exact h
  | finished =>
    rw [hpc] at hst
    cases hst

/-- **A step of the doctor.** -/
theorem talk_doctor (hl : Locked s) (h : s.talk = true)
    (hst : doctor s s.doctor = some s') : s'.talk = true := by
  unfold State.talk at h
  cases hpc : s.doctor with
  | await w =>
    rw [hpc, doctor] at hst
    rw [hpc] at h
    have hdoc : s.holder .docMutex = none → s.main.phase.holdsDoc = false := fun hfree => by
      have hin := hl.free hfree .main
      cases hh : s.main.phase.holdsDoc with
      | false => rfl
      | true =>
        rw [inside_main rfl, MainPc.holds_of_phase hh] at hin
        cases hin
    obtain ⟨rfl, hfree, hready, rfl⟩ | ⟨rfl, hfree, hready, rfl⟩ | ⟨rfl, -, rfl⟩ := await_some hst
    · exact (Talk.doctorLook _ _ _ h (hdoc hfree)).1 (of_decide_eq_true hready)
    · exact (Talk.doctorLook _ _ _ h (hdoc hfree)).2 (not_not.1 (of_decide_eq_false hready))
    · exact Talk.doctorSleep _ _ _ h
  | lockMutex =>
    rw [hpc] at hst h
    obtain ⟨hfree, rfl⟩ := lock_map hst
    obtain ⟨hleave, hcall⟩ := Talk.doctorLine _ _ _ h (hl.notLeaving hfree)
    by_cases hd : s.docState = .leaving
    · rw [if_pos hd]
      exact (hleave hd).2.2
    · rw [if_neg hd]
      exact (hcall hd).2.2
  | unlockLast =>
    rw [hpc] at hst h
    obtain ⟨-, rfl⟩ := unlock_map hst
    exact Talk.doctorLeaves _ _ _ h
  | unlockDocLast =>
    rw [hpc] at hst h
    obtain ⟨-, rfl⟩ := unlock_map hst
    exact Talk.doctorGone _ _ _ h
  | unlockMutex =>
    rw [hpc] at hst h
    obtain ⟨-, rfl⟩ := unlock_map hst
    exact Talk.doctorDone _ _ _ h
  | signalDone =>
    rw [hpc] at hst h
    cases hst
    show Talk s.main.wakeDone.phase _ _ _ = true
    rw [MainPc.phase_wakeDone]
    exact Talk.doctorSignal _ _ _ h
  | unlockDoc =>
    rw [hpc] at hst h
    obtain ⟨-, rfl⟩ := unlock_map hst
    exact Talk.doctorAgain _ _ _ h
  | finished =>
    rw [hpc] at hst
    cases hst

/-- **A step of a visitor** has nothing to do with it. -/
theorem talk_visit {k : Kind} {i : ℕ} (h : s.talk = true)
    (hst : visit k i s (s.visitor (k, i)) = some s') : s'.talk = true := by
  unfold State.talk at h
  cases hpc : s.visitor (k, i) with
  | start =>
    rw [hpc] at hst
    unfold visit at hst
    simp only at hst
    split at hst
    all_goals
      cases hst
      exact h
  | lockInit a =>
    rw [hpc] at hst
    obtain ⟨-, rfl⟩ := lock_map hst
    exact h
  | signalInit a =>
    rw [hpc] at hst
    cases hst
    show Talk (s.main.wakeInit k).phase _ _ _ = true
    rw [MainPc.phase_wakeInit]
    exact h
  | unlockInit a =>
    rw [hpc] at hst
    obtain ⟨-, rfl⟩ := unlock_map hst
    exact h
  | await w a =>
    rw [hpc, visit] at hst
    obtain ⟨rfl, -, -, rfl⟩ | ⟨rfl, -, -, rfl⟩ | ⟨rfl, -, rfl⟩ := await_some hst
    all_goals exact h
  | unlockTurn =>
    rw [hpc] at hst
    obtain ⟨-, rfl⟩ := unlock_map hst
    exact h
  | _ =>
    rw [hpc] at hst
    cases hst

theorem talk_wakeUp {q : Party} (h : s.talk = true)
    (hst : wakeUp s q = some s') : s'.talk = true := by
  unfold State.talk at h
  obtain ⟨-, k, a, hpc, rfl⟩ | ⟨-, k, v, hpc, rfl⟩ | ⟨-, hpc, rfl⟩ | ⟨who, a, -, hpc, rfl⟩ := wakeUp_cases hst
  · rw [hpc] at h
    exact h
  · rw [hpc] at h
    exact Talk.wake _ _ _ h
  · rw [hpc] at h
    exact Talk.doctorWake _ _ _ h
  · exact h

end Talk

end Session
end OsLab
