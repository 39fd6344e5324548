import OsLab.SessionSeats
import OsLab.SessionRuns
/-!
# SessionStory — every interleaving tells what main alone tells

`rest` is where the variables will be when main's turn is over, were main to do alone what is left of it.  Every step of every
thread keeps it, but for main's next turn, which is a `turn` (`rest_next`).
-/
namespace OsLab
namespace Session

open DecimalText (int32)

/-- What main alone does with an event. -/
def Vars.handle (s : Vars) (e : Event) : Vars :=
  match letterOf e.type with
  | .done => (s.setTime e.time).doctorFree
  | .visitor k => (s.setTime e.time).receive k e
  | .other => s

/-- A visit after the doctor's line. -/
def Vars.attend (s : Vars) (k : Kind) (v : Event) : Vars :=
  ((s.advance k).enter k (s.curr k + 1) v).addDone (int32 (s.currTime + v.duration))

/-- The variables at the end of main's turn. -/
def State.rest (s : State) : MainPc → Vars
  | .lockEvent e => s.vars.handle e
  | .lockDocLast | .signalLast | .unlockDocLast => s.vars.endSession.leave
  | .unlockLast | .joinDoctor => if s.doctor.left then s.vars else s.vars.leave
  | .unlockFree | .lockDispatch => s.vars.dispatchNext
  | .unlockAdmitted k a | .create k a | .awaitInit _ k a | .unlockInit k a => (s.vars.enqueue k a.id a.e).dispatchNext
  | .unlockChosen k v | .lockDoc k v | .signalDoc k v | .unlockDoc k v => s.vars.callIn.attend k v
  | .awaitDone _ k v => (if s.docState = .notBusy ∨ s.doctor = .unlockMutex then s.vars else s.vars.callIn).attend k v
  | .unlockDone k v | .lockCurr k v => s.vars.attend k v
  | .broadcast k v id => (s.vars.enter k id v).addDone (int32 (s.vars.currTime + v.duration))
  | .unlockCurr k v id time => (s.vars.enter k id v).addDone (int32 (time + v.duration))
  | .join k v id time =>
    (if (s.visitor (k, id)).entered then s.vars else s.vars.enter k id v).addDone (int32 (time + v.duration))
  | .head | .lockAgain | .unlockRefused | .unlockIdle | .destroy _ | .finished => s.vars

section Story

variable {s s' : State} {k : Kind} {i : ℕ}

theorem turn_handle {v : Vars} (hne : emptyQ v.E = false) (hl : letterOf (nextevent v.E).type ≠ .other) :
    turn v = some (v.pop.handle (nextevent v.E)) := by
  unfold turn Vars.handle
  rw [if_neg (by rw [hne]; exact Bool.false_ne_true)]
  cases h : letterOf (nextevent v.E).type with
  | done => simp only [h]
  | visitor k => simp only [h]
  | other => exact absurd h hl

/-! ### Main's steps -/

theorem handle_done {v : Vars} {e : Event} (h : letterOf e.type = .done) : v.handle e = (v.setTime e.time).doctorFree := by
  unfold Vars.handle
  rw [h]

theorem handle_visitor {v : Vars} {e : Event} (h : letterOf e.type = .visitor k) :
    v.handle e = (v.setTime e.time).receive k e := by
  unfold Vars.handle
  rw [h]

/-- **A step of main** is part of its turn, or begins the next one. -/
theorem rest_main (hp : Place s s.main) (ht : s.talk = true) (hst : mainStep s s.main = some s') :
    s'.rest s'.main = s.rest s.main ∨
      s.main = .head ∧ emptyQ s.vars.E = false ∧ s'.rest s'.main = s.vars.pop.handle (nextevent s.vars.E) := by
  unfold State.talk at ht
  cases hpc : s.main with
  | head =>
    rw [hpc] at hst
    by_cases hE : emptyQ s.vars.E = true
    · rw [mainStep, if_pos hE] at hst
      cases hst
      exact Or.inl rfl
    · rw [mainStep, if_neg hE] at hst
      cases hst
      exact Or.inr ⟨rfl, by simpa using hE, rfl⟩
  | lockEvent e =>
    left
    rw [hpc] at hst
    obtain ⟨-, rfl⟩ := lock_map hst
    show _ = s.vars.handle e
    obtain ⟨hl, hover, hs'⟩ | ⟨hl, hover, hs'⟩ | ⟨k, l, hl, href, hs'⟩ | ⟨k, hl, href, hs'⟩ | ⟨hl, hs'⟩ := event_cases _ e
    · rw [hs', handle_done hl, Vars.doctorFree, if_pos hover]
      rfl
    · rw [hs', handle_done hl, Vars.doctorFree, if_neg (by rw [hover]; exact Bool.false_ne_true)]
      rfl
    · rw [hs', handle_visitor hl, receive_refused href]
      rfl
    · rw [hs', handle_visitor hl, receive_admitted href]
      rfl
    · rw [hpc] at hp
      exact absurd hl hp.1
  | lockAgain =>
    rw [hpc] at hp
    exact hp.elim
  | unlockDocLast =>
    left
    rw [hpc] at hst ht
    obtain ⟨-, rfl⟩ := unlock_map hst
    have hleft : s.doctor.left = false := Talk.notLeft _ _ _ ht
    show (if s.doctor.left then _ else _) = _
    rw [hleft]
    rfl
  | joinDoctor =>
    left
    rw [hpc] at hst
    obtain ⟨hfin, hst⟩ := Option.ite_none_right_eq_some.1 hst
    cases hst
    show s.vars = if s.doctor.left then _ else _
    rw [hfin]
    rfl
  | create k a =>
    left
    rw [hpc] at hst
    obtain ⟨-, hst⟩ := Option.ite_none_right_eq_some.1 hst
    cases hst
    rfl
  | awaitInit w k a =>
    left
    rw [hpc, mainStep] at hst
    obtain ⟨-, -, -, rfl⟩ | ⟨-, -, -, rfl⟩ | ⟨-, -, rfl⟩ := await_some hst
    all_goals rfl
  | lockDispatch =>
    left
    rw [hpc] at hst
    obtain ⟨-, rfl⟩ := lock_map hst
    show _ = s.vars.dispatchNext
    unfold Vars.dispatchNext
    obtain ⟨k, hc, hs'⟩ | ⟨hc, hs'⟩ := dispatch_cases _
    · rw [hs', show s.vars.choose = some k from hc]
      rfl
    · rw [hs', show s.vars.choose = none from hc]
      rfl
  | signalLast =>
    rw [hpc] at hst
    cases hst
    exact Or.inl rfl
  | signalDoc k v =>
    rw [hpc] at hst
    cases hst
    exact Or.inl rfl
  | unlockDoc k v =>
    left
    rw [hpc] at hst ht
    obtain ⟨-, rfl⟩ := unlock_map hst
    obtain ⟨hd, hdoc⟩ := Talk.notPrinted _ _ _ ht
    show (if s.docState = .notBusy ∨ s.doctor = .unlockMutex then _ else _ : Vars).attend k v = _
    rw [hd, hdoc, if_neg (by decide)]
    rfl
  | awaitDone w k v =>
    left
    rw [hpc, mainStep] at hst
    rw [hpc] at ht
    obtain ⟨rfl, -, hready, rfl⟩ | ⟨-, -, -, rfl⟩ | ⟨-, -, rfl⟩ := await_some hst
    · have hd : s.docState = .notBusy := Talk.printed _ _ _ ht (of_decide_eq_true hready)
      show s.vars.attend k v = (if s.docState = .notBusy ∨ s.doctor = .unlockMutex then _ else _ : Vars).attend k v
      rw [if_pos (Or.inl hd)]
    · rfl
    · rfl
  | lockCurr k v =>
    left
    rw [hpc] at hst
    obtain ⟨-, rfl⟩ := lock_map hst
    show (((s.vars.advance k).enter k ((s.vars.advance k).curr k) v).addDone _) = _
    rw [show (s.vars.advance k).curr k = s.vars.curr k + 1 from Function.update_self _ _ _]
    rfl
  | broadcast k v id =>
    rw [hpc] at hst
    cases hst
    exact Or.inl rfl
  | unlockCurr k v id time =>
    left
    rw [hpc] at hst hp
    obtain ⟨-, rfl⟩ := unlock_map hst
    show (if (s.visitor (k, id)).entered then _ else _ : Vars).addDone _ = _
    rw [show s.visitor (k, id) = _ from hp.2.2]
    rfl
  | join k v id time =>
    left
    rw [hpc] at hst hp
    obtain ⟨who, hwho, hst⟩ := Option.bind_eq_some_iff.1 hst
    obtain ⟨hfin, hst⟩ := Option.ite_none_right_eq_some.1 hst
    cases hst
    rw [hp.1.2.2.2] at hwho
    cases hwho
    show s.vars.addDone _ = (if (s.visitor (k, id)).entered then _ else _ : Vars).addDone _
    rw [hfin]
    rfl
  | destroy left =>
    rw [hpc] at hst
    obtain ⟨-, rfl⟩ | ⟨r, rest, -, rfl⟩ := destroy_some hst
    all_goals exact Or.inl rfl
  | finished =>
    rw [hpc] at hst
    cases hst
  | lockDocLast | lockDoc k v =>
    rw [hpc] at hst
    obtain ⟨-, rfl⟩ := lock_map hst
    exact Or.inl rfl
  | _ =>
    rw [hpc] at hst
    obtain ⟨-, rfl⟩ := unlock_map hst
    exact Or.inl rfl

/-! ### The steps of the others -/

/-- What of the doctor is in the rest of a turn. -/
theorem rest_doctor {pc : MainPc} {p p' : DoctorPc} (hp : s.doctor = p) (hp' : s'.doctor = p') (hv : s'.vars = s.vars)
    (hd : s'.docState = s.docState) (hvis : s'.visitor = s.visitor) (hleft : p'.left = p.left)
    (hline : p' = .unlockMutex ↔ p = .unlockMutex) : s'.rest pc = s.rest pc := by
  unfold State.rest
  simp only [hp, hp', hv, hd, hvis, hleft, hline]

theorem rest_wakeDone (s : State) (pc : MainPc) : s.rest pc.wakeDone = s.rest pc := by cases pc <;> rfl

theorem rest_wakeInit (s : State) (k : Kind) (pc : MainPc) : s.rest (pc.wakeInit k) = s.rest pc := by cases pc <;> rfl

/-- **A step of the doctor**: what he prints is what main has left to him. -/
theorem rest_doctorStep (hl : Locked s) (ht : s.talk = true) (hst : doctor s s.doctor = some s') :
    s'.rest s'.main = s.rest s.main := by
  unfold State.talk at ht
  cases hpc : s.doctor with
  | lockMutex =>
    rw [hpc] at hst ht
    obtain ⟨hfree, rfl⟩ := lock_map hst
    obtain ⟨hleave, hcall⟩ := Talk.doctorLine _ _ _ ht (hl.notLeaving hfree)
    by_cases hd : s.docState = .leaving
    · rw [if_pos hd]
      obtain ⟨hjoin, -⟩ := hleave hd
      show State.rest _ s.main = _
      rw [MainPc.of_joining hjoin]
      show s.vars.leave = if s.doctor.left then s.vars else s.vars.leave
      rw [hpc]
      rfl
    · rw [if_neg hd]
      obtain ⟨hbusy, hwait, -⟩ := hcall hd
      show State.rest _ s.main = _
      obtain ⟨w, k, v, hm⟩ := MainPc.of_await hwait
      rw [hm]
      show (if s.docState = .notBusy ∨ DoctorPc.unlockMutex = .unlockMutex then s.vars.callIn
        else s.vars.callIn.callIn).attend k v =
        (if s.docState = .notBusy ∨ s.doctor = .unlockMutex then s.vars else s.vars.callIn).attend k v
      rw [if_pos (Or.inr rfl), hbusy, hpc, if_neg (by decide)]
  | unlockMutex =>
    rw [hpc] at hst
    obtain ⟨-, rfl⟩ := unlock_map hst
    show State.rest _ s.main = _
    cases hm : s.main with
    | awaitDone w k v =>
      show s.vars.attend k v = (if s.docState = .notBusy ∨ s.doctor = .unlockMutex then _ else _ : Vars).attend k v
      rw [if_pos (Or.inr hpc)]
    | unlockLast | joinDoctor =>
      show (if DoctorPc.left .signalDone then s.vars else s.vars.leave) = if s.doctor.left then s.vars else s.vars.leave
      rw [hpc]
      rfl
    | _ => rfl
  | await w =>
    rw [hpc, doctor] at hst
    obtain ⟨-, -, -, rfl⟩ | ⟨-, -, -, rfl⟩ | ⟨-, -, rfl⟩ := await_some hst
    all_goals exact rest_doctor hpc rfl rfl rfl rfl rfl (iff_of_false (fun e => by cases e) (fun e => by cases e))
  | signalDone =>
    rw [hpc] at hst
    cases hst
    show State.rest _ s.main.wakeDone = _
    rw [rest_wakeDone]
    exact rest_doctor hpc rfl rfl rfl rfl rfl (iff_of_false (fun e => by cases e) (fun e => by cases e))
  | finished =>
    rw [hpc] at hst
    cases hst
  | _ =>
    rw [hpc] at hst
    obtain ⟨-, rfl⟩ := unlock_map hst
    exact rest_doctor hpc rfl rfl rfl rfl rfl (iff_of_false (fun e => by cases e) (fun e => by cases e))

theorem rest_visitor {who : Kind × ℕ} {pc : MainPc} {q : VisitorPc} (hv : s'.vars = s.vars) (hd : s'.docState = s.docState)
    (hdoc : s'.doctor = s.doctor) (hvis : s'.visitor = Function.update s.visitor who q)
    (hq : q.entered = (s.visitor who).entered) : s'.rest pc = s.rest pc := by
  have hsame : ∀ x, (s'.visitor x).entered = (s.visitor x).entered := fun x => by
    rw [hvis, Function.update_apply]
    split
    · rename_i hx
      rw [hq, hx]
    · rfl
  unfold State.rest
  simp only [hv, hd, hdoc, hsame]

/-- **Who enters is the visitor main has called**, and with the record main has taken from the queue. -/
theorem Seats.enters {a : Param} (hl : Locked s) (h : Seats s s.main) (hp : Place s s.main) (hfree : s.holder .mutex = none)
    (hv : s.visitor (k, i) = .await .lock a) (hturn : s.vars.curr k = a.id) :
    ∃ v time, s.main = .join k v i time ∧ a = ⟨v, i⟩ ∧ time = s.vars.currTime := by
  have hout : s.main.holds .mutex = false := hl.free hfree .main
  obtain hx | hx | ⟨hlt, w, hw⟩ | ⟨hs, hi, -⟩ | ⟨hc, hi, -⟩ := h.cases k i
  · rw [hv] at hx
    cases hx
  · rw [hv] at hx
    cases hx
  · rw [hv] at hw
    cases hw
    exact absurd hturn (Nat.ne_of_lt hlt)
  · -- who starts has a number that is not called yet
    cases hm : s.main with
    | awaitInit w j b =>
      rw [hm] at hp hs hi
      cases hs
      obtain ⟨hn, -, hstart⟩ := hp
      rw [show i = b.id from hi.trans hn.2.symm] at hv
      rw [hv] at hstart
      obtain ⟨rfl, -⟩ := Starts.after (Or.inr ⟨_, hstart⟩)
      exact absurd hturn (Nat.ne_of_lt hn.1)
    | unlockAdmitted j b | unlockInit j b =>
      rw [hm] at hout
      cases hout
    | create j b =>
      rw [hm] at hp hs hi
      cases hs
      rw [show i = b.id from hi.trans hp.1.2.symm, hp.2.2.2] at hv
      cases hv
    | _ =>
      rw [hm] at hs
      cases hs
  · cases hm : s.main with
    | join j v id time =>
      rw [hm] at hp hc
      cases hc
      obtain ⟨hcalls, htime, hcalled⟩ := hp
      rw [show i = id from hi.trans hcalls.2.1.symm] at hv ⊢
      rw [hv] at hcalled
      obtain hcalled | hcalled := hcalled <;> cases hcalled
      exact ⟨v, time, rfl, rfl, htime⟩
    | broadcast j v id | unlockCurr j v id time =>
      rw [hm] at hout
      cases hout
    | _ =>
      rw [hm] at hc
      cases hc

/-- **A step of a visitor**: what he prints is what main has left to him. -/
theorem rest_visit (hl : Locked s) (h : Seats s s.main) (hp : Place s s.main)
    (hst : visit k i s (s.visitor (k, i)) = some s') : s'.rest s'.main = s.rest s.main := by
  cases hpc : s.visitor (k, i) with
  | start =>
    rw [hpc] at hst
    unfold visit at hst
    simp only at hst
    split at hst
    all_goals
      cases hst
      exact rest_visitor rfl rfl rfl rfl (by rw [hpc]; rfl)
  | lockInit a =>
    rw [hpc] at hst
    obtain ⟨-, rfl⟩ := lock_map hst
    exact rest_visitor rfl rfl rfl rfl (by rw [hpc]; rfl)
  | signalInit a =>
    rw [hpc] at hst
    cases hst
    show State.rest _ (s.main.wakeInit k) = _
    rw [rest_wakeInit]
    exact rest_visitor rfl rfl rfl rfl (by rw [hpc]; rfl)
  | unlockInit a =>
    rw [hpc] at hst
    obtain ⟨-, rfl⟩ := unlock_map hst
    exact rest_visitor rfl rfl rfl rfl (by rw [hpc]; rfl)
  | await w a =>
    rw [hpc, visit] at hst
    obtain ⟨rfl, hfree, hready, rfl⟩ | ⟨-, -, -, rfl⟩ | ⟨-, -, rfl⟩ := await_some hst
    · obtain ⟨v, time, hm, rfl, -⟩ := h.enters hl hp hfree hpc (of_decide_eq_true hready)
      show State.rest _ s.main = _
      rw [hm]
      show (if (Function.update s.visitor (k, i) .unlockTurn (k, i)).entered then s.vars.enter k i v
          else (s.vars.enter k i v).enter k i v).addDone (int32 (time + v.duration)) =
        (if (s.visitor (k, i)).entered then s.vars else s.vars.enter k i v).addDone (int32 (time + v.duration))
      rw [Function.update_self, hpc]
      rfl
    · exact rest_visitor rfl rfl rfl rfl (by rw [hpc]; rfl)
    · exact rest_visitor rfl rfl rfl rfl (by rw [hpc]; rfl)
  | unlockTurn =>
    rw [hpc] at hst
    obtain ⟨-, rfl⟩ := unlock_map hst
    exact rest_visitor rfl rfl rfl rfl (by rw [hpc]; rfl)
  | _ =>
    rw [hpc] at hst
    cases hst

theorem rest_wakeUp {p : Party} (hst : wakeUp s p = some s') : s'.rest s'.main = s.rest s.main := by
  obtain ⟨-, k, a, hpc, rfl⟩ | ⟨-, k, v, hpc, rfl⟩ | ⟨-, hpc, rfl⟩ | ⟨who, a, -, hpc, rfl⟩ := wakeUp_cases hst
  · rw [hpc]
    rfl
  · rw [hpc]
    rfl
  · exact rest_doctor hpc rfl rfl rfl rfl rfl (iff_of_false (fun e => by cases e) (fun e => by cases e))
  · exact rest_visitor rfl rfl rfl rfl (by rw [hpc]; rfl)

/-! ### Every run -/

/-- Everything that holds in every state that is reached. -/
structure Good (file : List Event) (Q : ℕ → Event) (s : State) : Prop where
  locked : Locked s
  talk : s.talk = true
  seats : Seats s s.main
  place : Place s s.main
  story : Reachable mainLoop (Vars.init file Q) (s.rest s.main)

variable {file : List Event} {Q : ℕ → Event}

theorem Good.init (file : List Event) (Q : ℕ → Event) : Good file Q (State.init file Q) where
  locked := locked_init file Q
  talk := rfl
  seats := by
    refine ⟨fun _ k => ?_, fun _ _ _ => rfl, fun k i hlt hle => ?_, fun k i hpos hle => ?_⟩
    · exact (Nat.le_zero.1 (admits_le k 0)).symm
    · change 0 < i at hlt
      change i + 0 ≤ 0 at hle
      omega
    · change i + 0 ≤ 0 at hle
      omega
  place := trivial
  story := Reachable.refl _ _

/-- The event main takes next. -/
theorem Good.event (hfile : Arrivals file) (h : Good file Q s) (hm : s.main = .head) (hne : emptyQ s.vars.E = false) :
    letterOf (nextevent s.vars.E).type ≠ .other ∧
      (letterOf (nextevent s.vars.E).type = .done → s.vars.docSessionEnd = false) := by
  have hstory := h.story
  rw [hm] at hstory
  have hinv : Inv s.vars := (sound_of_reachable hfile hstory).inv
  refine ⟨hinv.agenda.letters _ (next_mem hne), fun hl => ?_⟩
  exact (hinv.agenda.pop_done hne (isDone_of_done hl) 0).2.1

theorem Good.next (hfile : Arrivals file) {a : Act} (h : Good file Q s) (hst : Session.next a s = some s') :
    Good file Q s' := by
  have hlocked := locked_next h.locked hst
  cases a with
  | go p =>
    cases p with
    | main =>
      obtain ⟨hseats, hplace⟩ := seats_main h.locked h.seats h.place (h.event hfile) hst
      refine ⟨hlocked, talk_main h.locked h.talk (fun e he => ?_) hst, hseats, hplace, ?_⟩
      · have hp := h.place
        rw [he] at hp
        exact hp.2
      · obtain hrest | ⟨hm, hne, hrest⟩ := rest_main h.place h.talk hst
        · rw [hrest]
          exact h.story
        · have hstory := h.story
          rw [hm] at hstory
          rw [hrest]
          exact hstory.step (a := ()) (turn_handle hne (h.event hfile hm hne).1)
    | doctor =>
      obtain ⟨hseats, hplace⟩ := seats_doctor h.locked h.talk h.seats h.place hst
      exact ⟨hlocked, talk_doctor h.locked h.talk hst, hseats, hplace, by
        rw [rest_doctorStep h.locked h.talk hst]; exact h.story⟩
    | visitor who =>
      have hvisit := (visitorStep_eq s who _).symm.trans hst
      obtain ⟨hseats, hplace⟩ := seats_visit h.locked h.seats h.place hvisit
      exact ⟨hlocked, talk_visit h.talk hvisit, hseats, hplace, by
        rw [rest_visit h.locked h.seats h.place hvisit]; exact h.story⟩
  | wake p =>
    obtain ⟨hseats, hplace⟩ := seats_wakeUp h.seats h.place hst
    exact ⟨hlocked, talk_wakeUp h.talk hst, hseats, hplace, by rw [rest_wakeUp hst]; exact h.story⟩

theorem good_of_reachable (hfile : Arrivals file) (h : Reachable Session.next (State.init file Q) s) : Good file Q s :=
  reachable_inv (Good file Q) (Good.init file Q) (fun _ _ _ _ hs hst => hs.next hfile hst) h

end Story

end Session
end OsLab
