import OsLab.SessionTalk
/-!
# SessionSeats — main and the visitors

Where each visitor's thread is, by the counters of its kind (`Seats`): not yet created, waiting for its turn with the record
that is in the queue, or finished; two visitors may be in between, the one main has admitted and the one it has called.  What
these two and main's own variables can be at each place of main is `Place`.
-/
namespace OsLab
namespace Session

/-- The kind main has chosen from, while its counter has not moved yet. -/
def MainPc.chosen : MainPc → Option Kind
  | .unlockChosen k _ | .lockDoc k _ | .signalDoc k _ | .unlockDoc k _ | .awaitDone _ k _ | .unlockDone k _ | .lockCurr k _ =>
    some k
  | _ => none

/-- The kind main has admitted somebody of, while he is not in the queue yet. -/
def MainPc.starting : MainPc → Option Kind
  | .unlockAdmitted k _ | .create k _ | .awaitInit _ k _ | .unlockInit k _ => some k
  | _ => none

/-- The kind main has called somebody of, while he has not finished yet. -/
def MainPc.calling : MainPc → Option Kind
  | .broadcast k _ _ | .unlockCurr k _ _ _ | .join k _ _ _ => some k
  | _ => none

def one (o : Option Kind) (k : Kind) : ℕ := if o = some k then 1 else 0

/-- How many of a kind have been admitted. -/
def State.admitted (s : State) (pc : MainPc) (k : Kind) : ℕ := s.vars.curr k + s.vars.wait k + one pc.chosen k

structure Seats (s : State) (pc : MainPc) : Prop where
  admitted : s.vars.docSessionEnd = false → ∀ k, s.admitted pc k = k.admits (s.vars.cnt k)
  absent : ∀ k i, i = 0 ∨ s.admitted pc k < i → s.visitor (k, i) = .absent
  seated : ∀ k i, s.vars.curr k < i → i + one pc.starting k ≤ s.admitted pc k →
    s.tids k (i - 1) = some (k, i) ∧ ∃ w, s.visitor (k, i) = .await w ⟨s.vars.queue k (i - 1), i⟩
  gone : ∀ k i, 0 < i → i + one pc.calling k ≤ s.vars.curr k → s.visitor (k, i) = .finished

/-- The new thread has not set its flag. -/
def VisitorPc.fresh (a : Param) (pc : VisitorPc) : Prop := pc = .start ∨ pc = .lockInit a

/-- The new thread has set its flag. -/
def VisitorPc.set (a : Param) (pc : VisitorPc) : Prop := pc = .signalInit a ∨ pc = .unlockInit a ∨ ∃ w, pc = .await w a

/-- The called thread has not printed its line. -/
def VisitorPc.called (a : Param) (pc : VisitorPc) : Prop := pc = .await .lock a

/-- The called thread has printed its line. -/
def VisitorPc.entered (pc : VisitorPc) : Bool := pc = .unlockTurn ∨ pc = .finished

/-- Main waits for the flag of the new thread. -/
def Starts (a : Param) (done : Bool) (pc : VisitorPc) : WaitPc → Prop
  | .lock => done = false ∧ pc.fresh a ∨ done = true ∧ pc.set a
  | .wait => done = false ∧ pc.fresh a
  | .asleep => done = false ∧ pc.fresh a ∨ done = true ∧ pc = .signalInit a

/-- The number is the next of its kind. -/
def State.numbers (s : State) (k : Kind) (a : Param) : Prop := s.vars.curr k < a.id ∧ a.id = s.vars.curr k + s.vars.wait k

/-- The visitor that is called, with his record and his thread. -/
def State.calls (s : State) (k : Kind) (v : Event) (id : ℕ) : Prop :=
  0 < id ∧ id = s.vars.curr k ∧ v = s.vars.queue k (id - 1) ∧ s.tids k (id - 1) = some (k, id)

/-- What holds at each place of main. -/
def Place (s : State) : MainPc → Prop
  | .lockEvent e => letterOf e.type ≠ .other ∧ (letterOf e.type = .done → s.vars.docSessionEnd = false)
  | .lockAgain => False
  | .unlockAdmitted k a => s.numbers k a ∧ s.initDone k = false ∧ s.visitor (k, a.id) = .absent
  | .create k a => s.numbers k a ∧ s.initDone k = false ∧ s.newParam k = some a ∧ s.visitor (k, a.id) = .absent
  | .awaitInit w k a => s.numbers k a ∧ s.newParam k = some a ∧ Starts a (s.initDone k) (s.visitor (k, a.id)) w
  | .unlockInit k a => s.numbers k a ∧ (s.visitor (k, a.id)).set a
  | .unlockChosen k v | .lockDoc k v | .signalDoc k v | .unlockDoc k v | .awaitDone _ k v | .unlockDone k v | .lockCurr k v =>
    v = s.vars.visitor k
  | .broadcast k v id => s.calls k v id ∧ ∃ w, s.visitor (k, id) = .await w ⟨v, id⟩
  | .unlockCurr k v id time => s.calls k v id ∧ time = s.vars.currTime ∧ (s.visitor (k, id)).called ⟨v, id⟩
  | .join k v id time =>
    s.calls k v id ∧ time = s.vars.currTime ∧ ((s.visitor (k, id)).called ⟨v, id⟩ ∨ (s.visitor (k, id)).entered = true)
  | .destroy _ | .finished => emptyQ s.vars.E = true
  | _ => True

section Seats

variable {s s' : State} {pc : MainPc} {k : Kind} {i : ℕ}

theorem one_some_self (k : Kind) : one (some k) k = 1 := if_pos rfl

theorem one_some_ne {j k : Kind} (h : j ≠ k) : one (some j) k = 0 := if_neg (fun e => h (Option.some.inj e))

/-- **Where a visitor's thread can be.** -/
theorem Seats.cases (h : Seats s pc) (k : Kind) (i : ℕ) :
    s.visitor (k, i) = .absent ∨ s.visitor (k, i) = .finished ∨
    (s.vars.curr k < i ∧ ∃ w, s.visitor (k, i) = .await w ⟨s.vars.queue k (i - 1), i⟩) ∨
    (pc.starting = some k ∧ i = s.admitted pc k ∧ s.vars.curr k < i) ∨
    pc.calling = some k ∧ i = s.vars.curr k ∧ 0 < i := by
  by_cases h0 : i = 0
  · exact Or.inl (h.absent k i (Or.inl h0))
  by_cases hc : i ≤ s.vars.curr k
  · by_cases hcall : pc.calling = some k
    · by_cases hi : i = s.vars.curr k
      · exact Or.inr (Or.inr (Or.inr (Or.inr ⟨hcall, hi, by omega⟩)))
      · have hone : one pc.calling k = 1 := if_pos hcall
        exact Or.inr (Or.inl (h.gone k i (by omega) (by omega)))
    · have hone : one pc.calling k = 0 := if_neg hcall
      exact Or.inr (Or.inl (h.gone k i (by omega) (by omega)))
  by_cases ha : i ≤ s.admitted pc k
  · by_cases hstart : pc.starting = some k
    · by_cases hi : i = s.admitted pc k
      · exact Or.inr (Or.inr (Or.inr (Or.inl ⟨hstart, hi, by omega⟩)))
      · have hone : one pc.starting k = 1 := if_pos hstart
        exact Or.inr (Or.inr (Or.inl ⟨by omega, (h.seated k i (by omega) (by omega)).2⟩))
    · have hone : one pc.starting k = 0 := if_neg hstart
      exact Or.inr (Or.inr (Or.inl ⟨by omega, (h.seated k i (by omega) (by omega)).2⟩))
  · exact Or.inl (h.absent k i (Or.inr (by omega)))

/-- The visitor's thread is in between: the one that starts, the one that is called, or one that waits and goes on waiting. -/
def Moves (s : State) (pc : MainPc) (k : Kind) (i : ℕ) (q : VisitorPc) : Prop :=
  pc.starting = some k ∧ i = s.admitted pc k ∧ s.vars.curr k < i ∨ pc.calling = some k ∧ i = s.vars.curr k ∧ 0 < i ∨
    (∃ w, s.visitor (k, i) = .await w ⟨s.vars.queue k (i - 1), i⟩) ∧ ∃ w, q = .await w ⟨s.vars.queue k (i - 1), i⟩

theorem Seats.move {q : VisitorPc} (h : Seats s pc) (hq : Moves s pc k i q) : Seats (s.goVisitor (k, i) q) pc := by
  refine ⟨h.admitted, fun j n hn => ?_, fun j n hlt hle => ?_, fun j n hpos hle => ?_⟩
  · have hold := h.absent j n hn
    change Function.update s.visitor (k, i) q (j, n) = .absent
    rw [Function.update_of_ne (fun e => ?_), hold]
    cases e
    obtain ⟨-, hi, hc⟩ | ⟨-, hi, hc⟩ | ⟨⟨w, hw⟩, -⟩ := hq
    · change _ ∨ s.admitted pc k < i at hn
      omega
    · change _ ∨ s.admitted pc k < i at hn
      unfold State.admitted at hn
      omega
    · rw [hw] at hold
      cases hold
  · obtain ⟨htid, hold⟩ := h.seated j n hlt hle
    refine ⟨htid, ?_⟩
    show ∃ w, Function.update s.visitor (k, i) q (j, n) = _
    by_cases he : (j, n) = (k, i)
    · cases he
      rw [Function.update_self]
      obtain ⟨hs, hi, -⟩ | ⟨-, hi, -⟩ | ⟨-, hq⟩ := hq
      · change i + one pc.starting k ≤ s.admitted pc k at hle
        rw [hs, one_some_self] at hle
        omega
      · change s.vars.curr k < i at hlt
        omega
      · exact hq
    · rw [Function.update_of_ne he]
      exact hold
  · have hold := h.gone j n hpos hle
    change Function.update s.visitor (k, i) q (j, n) = .finished
    rw [Function.update_of_ne (fun e => ?_), hold]
    cases e
    obtain ⟨-, -, hc⟩ | ⟨hs, hi, -⟩ | ⟨⟨w, hw⟩, -⟩ := hq
    · change i + one pc.calling k ≤ s.vars.curr k at hle
      omega
    · change i + one pc.calling k ≤ s.vars.curr k at hle
      rw [hs, one_some_self] at hle
      omega
    · rw [hw] at hold
      cases hold

/-- Who is not the holder is not between lock and unlock. -/
theorem Locked.outside (h : Locked s) {m : Mutex} {p u : Party} (hheld : s.holder m = some p) (hu : u ≠ p) :
    s.inside m u = false := by
  by_contra hin
  have := (h m u).2 (by simpa using hin)
  rw [hheld] at this
  exact hu (Option.some.inj this).symm

/-! ### Main's steps -/

section Main

variable {e v : Event} {a : Param} {id : ℕ} {time : ℤ}

theorem Seats.refuse (h : Seats s (.lockEvent e)) {l : Line} (hv : s'.vars = ((s.vars.setTime e.time).arrive k e).print l)
    (ht : s'.tids = s.tids) (hvis : s'.visitor = s.visitor)
    (href : ((s.vars.setTime e.time).arrive k e).refusal k = some l) : Seats s' .unlockRefused := by
  have hadm : ∀ j, s'.admitted .unlockRefused j = s.admitted (.lockEvent e) j := fun j => by
    unfold State.admitted
    rw [hv]
    rfl
  refine ⟨fun hend j => ?_, fun j i hi => ?_, fun j i hlt hle => ?_, fun j i hpos hle => ?_⟩
  · rw [hv] at hend
    have hfull := (refusal_some href).resolve_left (fun hf => by
      rw [show (s.vars.setTime e.time).docSessionEnd = s.vars.docSessionEnd from rfl] at hf
      rw [show (((s.vars.setTime e.time).arrive k e).print l).docSessionEnd = s.vars.docSessionEnd from rfl, hf] at hend
      cases hend)
    rw [hadm, h.admitted hend, hv]
    show j.admits (s.vars.cnt j) = j.admits (Function.update s.vars.cnt k (s.vars.cnt k + 1) j)
    rw [Function.update_apply]
    split
    · rename_i hj
      rw [hj]
      exact (admits_succ_of_full hfull).symm
    · rfl
  · rw [hvis]
    exact h.absent j i (by rw [hadm] at hi; exact hi)
  · rw [hadm] at hle
    rw [hv] at hlt ⊢
    rw [hvis, ht]
    exact h.seated j i hlt hle
  · rw [hv] at hle
    rw [hvis]
    exact h.gone j i hpos hle

/-- **Somebody is admitted**: he has the next number of his kind. -/
theorem Seats.letIn (h : Seats s (.lockEvent e)) (hv : s'.vars = ((s.vars.setTime e.time).arrive k e).letIn k)
    (ht : s'.tids = s.tids) (hvis : s'.visitor = s.visitor) (hdone : s'.initDone k = false)
    (href : ((s.vars.setTime e.time).arrive k e).refusal k = none) (ha : a.id = s.vars.cnt k + 1) :
    Seats s' (.unlockAdmitted k a) ∧ Place s' (.unlockAdmitted k a) := by
  obtain ⟨hend, hfull⟩ := refusal_none href
  obtain ⟨hnew, hold⟩ := admits_succ_of_not_full hfull
  change s.vars.docSessionEnd = false at hend
  change k.admits (s.vars.cnt k + 1) = s.vars.cnt k + 1 at hnew
  have hall : s.vars.curr k + s.vars.wait k = s.vars.cnt k := (h.admitted hend k).trans hold
  have hadm : ∀ j, s'.admitted (.unlockAdmitted k a) j = s.admitted (.lockEvent e) j + one (some k) j := fun j => by
    unfold State.admitted
    rw [hv]
    show s.vars.curr j + Function.update s.vars.wait k (s.vars.wait k + 1) j + 0 = s.vars.curr j + s.vars.wait j + 0 + _
    rw [Function.update_apply]
    split
    · rename_i hj
      rw [hj, one_some_self]
      omega
    · rename_i hj
      rw [one_some_ne (Ne.symm hj)]
  refine ⟨⟨fun _ j => ?_, fun j i hi => ?_, fun j i hlt hle => ?_, fun j i hpos hle => ?_⟩, ?_, hdone, ?_⟩
  · rw [hadm, h.admitted hend, hv]
    show j.admits (s.vars.cnt j) + _ = j.admits (Function.update s.vars.cnt k (s.vars.cnt k + 1) j)
    rw [Function.update_apply]
    split
    · rename_i hj
      rw [hj, hnew, one_some_self, ← h.admitted hend k]
      exact congrArg (· + 1) hall
    · rename_i hj
      rw [one_some_ne (Ne.symm hj)]
      rfl
  · rw [hvis]
    refine h.absent j i (hi.imp_right (fun hlt => ?_))
    rw [hadm] at hlt
    omega
  · rw [hadm] at hle
    change i + one (some k) j ≤ _ at hle
    rw [hv] at hlt ⊢
    rw [hvis, ht]
    exact h.seated j i hlt (show i + 0 ≤ _ by omega)
  · rw [hv] at hle
    rw [hvis]
    exact h.gone j i hpos hle
  · unfold State.numbers
    rw [hv]
    show s.vars.curr k < a.id ∧ a.id = s.vars.curr k + Function.update s.vars.wait k (s.vars.wait k + 1) k
    rw [Function.update_self]
    omega
  · rw [hvis]
    exact h.absent k a.id (Or.inr (show s.vars.curr k + s.vars.wait k + 0 < a.id by omega))

/-- The new thread's record goes into the queue. -/
theorem Seats.enqueue (h : Seats s (.unlockInit k a)) (hn : s.numbers k a) (hv : s'.vars = s.vars.enqueue k a.id a.e)
    (ht : s'.tids = Function.update s.tids k (Function.update (s.tids k) (a.id - 1) (some (k, a.id))))
    (hvis : s'.visitor = s.visitor) (hnew : ∃ w, s.visitor (k, a.id) = .await w a) : Seats s' .lockDispatch := by
  obtain ⟨hlt, hid⟩ := hn
  have hadm : ∀ j, s'.admitted .lockDispatch j = s.admitted (.unlockInit k a) j := fun j => by
    unfold State.admitted
    rw [hv]
    rfl
  refine ⟨fun hend j => ?_, fun j i hi => ?_, fun j i hcurr hle => ?_, fun j i hpos hle => ?_⟩
  · rw [hv] at hend
    rw [hadm, h.admitted hend, hv]
    rfl
  · rw [hvis]
    exact h.absent j i (by rw [hadm] at hi; exact hi)
  · rw [hadm] at hle
    change i + 0 ≤ _ at hle
    rw [hv] at hcurr
    change s.vars.curr j < i at hcurr
    rw [hv, hvis, ht]
    show Function.update s.tids k _ j (i - 1) = _ ∧
      ∃ w, s.visitor (j, i) =
        .await w ⟨Function.update s.vars.queue k (Function.update (s.vars.queue k) (a.id - 1) a.e) j (i - 1), i⟩
    by_cases hj : j = k
    · rw [hj] at hcurr hle ⊢
      rw [Function.update_self, Function.update_self]
      by_cases hi : i = a.id
      · rw [hi, Function.update_self, Function.update_self]
        exact ⟨rfl, hnew⟩
      · have hne : i - 1 ≠ a.id - 1 := by omega
        rw [Function.update_of_ne hne, Function.update_of_ne hne]
        refine h.seated k i hcurr ?_
        show i + one (some k) k ≤ _
        rw [one_some_self]
        have hsum : s.admitted (.unlockInit k a) k = a.id := by rw [hid]; rfl
        omega
    · rw [Function.update_of_ne hj, Function.update_of_ne hj]
      refine h.seated j i hcurr ?_
      show i + one (some k) j ≤ _
      rw [one_some_ne (Ne.symm hj)]
      exact hle
  · rw [hv] at hle
    rw [hvis]
    exact h.gone j i hpos hle

/-- Main chooses the next visitor. -/
theorem Seats.choose (h : Seats s .lockDispatch) (hk : 0 < s.vars.wait k) (hv : s'.vars = s.vars.dispatch k)
    (ht : s'.tids = s.tids) (hvis : s'.visitor = s.visitor) : Seats s' (.unlockChosen k v) := by
  have hadm : ∀ j, s'.admitted (.unlockChosen k v) j = s.admitted .lockDispatch j := fun j => by
    unfold State.admitted
    rw [hv]
    show s.vars.curr j + Function.update s.vars.wait k (s.vars.wait k - 1) j + one (some k) j =
      s.vars.curr j + s.vars.wait j + 0
    rw [Function.update_apply]
    split
    · rename_i hj
      rw [hj, one_some_self]
      omega
    · rename_i hj
      rw [one_some_ne (Ne.symm hj)]
  refine ⟨fun hend j => ?_, fun j i hi => ?_, fun j i hlt hle => ?_, fun j i hpos hle => ?_⟩
  · rw [hv] at hend
    rw [hadm, h.admitted hend, hv]
    rfl
  · rw [hvis]
    exact h.absent j i (by rw [hadm] at hi; exact hi)
  · rw [hadm] at hle
    rw [hv] at hlt ⊢
    rw [hvis, ht]
    exact h.seated j i hlt hle
  · rw [hv] at hle
    rw [hvis]
    exact h.gone j i hpos hle

/-- **The visitor that is called**: the first of those who wait, with the record main has taken from the queue. -/
theorem Seats.call (h : Seats s (.lockCurr k v)) (hpv : v = s.vars.visitor k) (hv : s'.vars = s.vars.advance k)
    (ht : s'.tids = s.tids) (hvis : s'.visitor = s.visitor) (hid : id = s.vars.curr k + 1) :
    Seats s' (.broadcast k v id) ∧ Place s' (.broadcast k v id) := by
  have hcurr : ∀ j, s'.vars.curr j = s.vars.curr j + one (some k) j := fun j => by
    rw [hv]
    show Function.update s.vars.curr k (s.vars.curr k + 1) j = _
    rw [Function.update_apply]
    split
    · rename_i hj
      rw [hj, one_some_self]
    · rename_i hj
      rw [one_some_ne (Ne.symm hj)]
      rfl
  have hadm : ∀ j, s'.admitted (.broadcast k v id) j = s.admitted (.lockCurr k v) j := fun j => by
    unfold State.admitted
    rw [hcurr, hv]
    show s.vars.curr j + one (some k) j + s.vars.wait j + 0 = s.vars.curr j + s.vars.wait j + one (some k) j
    omega
  have hfirst := h.seated k id (by omega) (by
    show id + 0 ≤ s.vars.curr k + s.vars.wait k + one (some k) k
    rw [one_some_self]
    omega)
  rw [show id - 1 = s.vars.curr k by omega] at hfirst
  refine ⟨⟨fun hend j => ?_, fun j i hi => ?_, fun j i hlt hle => ?_, fun j i hpos hle => ?_⟩, ⟨?_, ?_, ?_, ?_⟩, ?_⟩
  · rw [hv] at hend
    rw [hadm, h.admitted hend, hv]
    rfl
  · rw [hvis]
    exact h.absent j i (by rw [hadm] at hi; exact hi)
  · rw [hadm] at hle
    rw [hcurr] at hlt
    rw [hv, hvis, ht]
    exact h.seated j i (by omega) hle
  · rw [hcurr] at hle
    change i + one (some k) j ≤ _ at hle
    rw [hvis]
    exact h.gone j i hpos (show i + 0 ≤ _ by omega)
  · omega
  · rw [hcurr, one_some_self, hid]
  · rw [hpv, hv, show id - 1 = s.vars.curr k by omega]
    rfl
  · rw [ht, show id - 1 = s.vars.curr k by omega]
    exact hfirst.1
  · rw [hvis, hpv]
    exact hfirst.2

/-- Who is asleep is woken up. -/
theorem Seats.broadcast (h : Seats s (.broadcast k v id)) (hv : s'.vars = s.vars) (ht : s'.tids = s.tids)
    (hvis : ∀ who, s'.visitor who = if who.1 = k then (s.visitor who).wake else s.visitor who) :
    Seats s' (.unlockCurr k v id time) := by
  refine ⟨fun hend j => ?_, fun j i hi => ?_, fun j i hlt hle => ?_, fun j i hpos hle => ?_⟩
  · rw [hv] at hend ⊢
    unfold State.admitted
    rw [hv]
    exact h.admitted hend j
  · unfold State.admitted at hi
    rw [hv] at hi
    rw [hvis, h.absent j i hi]
    split <;> rfl
  · unfold State.admitted at hle
    rw [hv] at hlt hle ⊢
    obtain ⟨htid, w, hw⟩ := h.seated j i hlt hle
    rw [ht, hvis, hw]
    refine ⟨htid, ?_⟩
    split
    · exact ⟨w.wake, rfl⟩
    · exact ⟨w, rfl⟩
  · rw [hv] at hle
    rw [hvis, h.gone j i hpos hle]
    split <;> rfl

/-- The called visitor has finished. -/
theorem Seats.join (h : Seats s (.join k v id time)) (hc : id = s.vars.curr k) (hfin : s.visitor (k, id) = .finished)
    {t : ℤ} (hv : s'.vars = s.vars.addDone t) (ht : s'.tids = s.tids) (hvis : s'.visitor = s.visitor) : Seats s' .head := by
  refine ⟨fun hend j => ?_, fun j i hi => ?_, fun j i hlt hle => ?_, fun j i hpos hle => ?_⟩
  · rw [hv] at hend ⊢
    unfold State.admitted
    rw [hv]
    exact h.admitted hend j
  · unfold State.admitted at hi
    rw [hv] at hi
    rw [hvis]
    exact h.absent j i hi
  · unfold State.admitted at hle
    rw [hv] at hlt hle ⊢
    rw [hvis, ht]
    exact h.seated j i hlt hle
  · rw [hv] at hle
    change i + 0 ≤ s.vars.curr j at hle
    rw [hvis]
    by_cases hj : j = k
    · by_cases hi : i = id
      · rw [hj, hi]
        exact hfin
      · refine h.gone j i hpos ?_
        rw [hj] at hle ⊢
        show i + one (some k) k ≤ _
        rw [one_some_self]
        omega
    · refine h.gone j i hpos ?_
      show i + one (some k) j ≤ _
      rw [one_some_ne (Ne.symm hj)]
      exact hle

/-- **A step of main**: the threads stay where the counters say. -/
theorem seats_main (hl : Locked s) (h : Seats s s.main) (hp : Place s s.main)
    (hnext : s.main = .head → emptyQ s.vars.E = false → letterOf (nextevent s.vars.E).type ≠ .other ∧
      (letterOf (nextevent s.vars.E).type = .done → s.vars.docSessionEnd = false))
    (hst : mainStep s s.main = some s') : Seats s' s'.main ∧ Place s' s'.main := by
  cases hpc : s.main with
  | head =>
    have hnext := hnext hpc
    rw [hpc] at hst h
    by_cases hE : emptyQ s.vars.E = true
    · rw [mainStep, if_pos hE] at hst
      cases hst
      exact ⟨⟨h.admitted, h.absent, h.seated, h.gone⟩, hE⟩
    · rw [mainStep, if_neg hE] at hst
      cases hst
      exact ⟨⟨h.admitted, h.absent, h.seated, h.gone⟩, hnext (by simpa using hE)⟩
  | lockEvent e =>
    rw [hpc] at hst h hp
    obtain ⟨-, rfl⟩ := lock_map hst
    obtain ⟨-, -, hs'⟩ | ⟨-, -, hs'⟩ | ⟨k, l, -, href, hs'⟩ | ⟨k, -, href, hs'⟩ | ⟨hother, -⟩ := event_cases _ e
    · rw [hs']
      exact ⟨⟨h.admitted, h.absent, h.seated, h.gone⟩, trivial⟩
    · rw [hs']
      exact ⟨⟨h.admitted, h.absent, h.seated, h.gone⟩, trivial⟩
    · rw [hs']
      exact ⟨h.refuse rfl rfl rfl href, trivial⟩
    · rw [hs']
      exact h.letIn rfl rfl rfl (Function.update_self _ _ _) href (cnt_arrive _ k e)
    · exact absurd hother hp.1
  | lockAgain =>
    rw [hpc] at hp
    exact hp.elim
  | lockDocLast =>
    rw [hpc] at hst h
    obtain ⟨-, rfl⟩ := lock_map hst
    exact ⟨⟨h.admitted, h.absent, h.seated, h.gone⟩, trivial⟩
  | signalLast =>
    rw [hpc] at hst h
    cases hst
    exact ⟨⟨h.admitted, h.absent, h.seated, h.gone⟩, trivial⟩
  | unlockDocLast =>
    rw [hpc] at hst h
    obtain ⟨-, rfl⟩ := unlock_map hst
    exact ⟨⟨fun hend => (by cases hend), h.absent, h.seated, h.gone⟩, trivial⟩
  | unlockLast =>
    rw [hpc] at hst h hp
    obtain ⟨-, rfl⟩ := unlock_map hst
    exact ⟨⟨h.admitted, h.absent, h.seated, h.gone⟩, trivial⟩
  | joinDoctor =>
    rw [hpc] at hst h
    obtain ⟨-, hst⟩ := Option.ite_none_right_eq_some.1 hst
    cases hst
    exact ⟨⟨h.admitted, h.absent, h.seated, h.gone⟩, trivial⟩
  | unlockFree =>
    rw [hpc] at hst h hp
    obtain ⟨-, rfl⟩ := unlock_map hst
    exact ⟨⟨h.admitted, h.absent, h.seated, h.gone⟩, trivial⟩
  | unlockRefused =>
    rw [hpc] at hst h hp
    obtain ⟨-, rfl⟩ := unlock_map hst
    exact ⟨⟨h.admitted, h.absent, h.seated, h.gone⟩, trivial⟩
  | unlockAdmitted k a =>
    rw [hpc] at hst h hp
    obtain ⟨-, rfl⟩ := unlock_map hst
    exact ⟨⟨h.admitted, h.absent, h.seated, h.gone⟩, hp.1, hp.2.1, Function.update_self _ _ _, hp.2.2⟩
  | create k a =>
    rw [hpc] at hst h hp
    obtain ⟨-, hst⟩ := Option.ite_none_right_eq_some.1 hst
    cases hst
    obtain ⟨hn, hdone, hparam, -⟩ := hp
    have h' := h.move (i := a.id) (q := .start) (Or.inl ⟨rfl, hn.2, hn.1⟩)
    exact ⟨⟨h'.admitted, h'.absent, h'.seated, h'.gone⟩, hn, hparam, Or.inl ⟨hdone, Or.inl (Function.update_self _ _ _)⟩⟩
  | awaitInit w k a =>
    rw [hpc, mainStep] at hst
    rw [hpc] at h hp
    obtain ⟨hn, hparam, hstart⟩ := hp
    obtain ⟨rfl, -, hdone, rfl⟩ | ⟨rfl, -, hdone, rfl⟩ | ⟨rfl, -, rfl⟩ := await_some hst
    · refine ⟨⟨h.admitted, h.absent, h.seated, h.gone⟩, hn, ?_⟩
      obtain ⟨hnot, -⟩ | ⟨-, hset⟩ := hstart
      · rw [hdone] at hnot
        cases hnot
      · exact hset
    · refine ⟨⟨h.admitted, h.absent, h.seated, h.gone⟩, hn, hparam, ?_⟩
      obtain hfresh | ⟨hset, -⟩ := hstart
      · exact hfresh
      · rw [hdone] at hset
        cases hset
    · exact ⟨⟨h.admitted, h.absent, h.seated, h.gone⟩, hn, hparam, Or.inl hstart⟩
  | unlockInit k a =>
    rw [hpc] at hst h hp
    obtain ⟨hheld, rfl⟩ := unlock_map hst
    obtain ⟨hn, hset⟩ := hp
    have hout := hl.outside hheld (u := .visitor (k, a.id)) (fun e => by cases e)
    refine ⟨h.enqueue hn rfl rfl rfl ?_, trivial⟩
    obtain hv | hv | hv := hset
    · rw [inside_visitor hv] at hout
      cases hout
    · rw [inside_visitor hv] at hout
      cases hout
    · exact hv
  | lockDispatch =>
    rw [hpc] at hst h
    obtain ⟨-, rfl⟩ := lock_map hst
    obtain ⟨k, hc, hs'⟩ | ⟨-, hs'⟩ := dispatch_cases _
    · rw [hs']
      exact ⟨Seats.choose ⟨h.admitted, h.absent, h.seated, h.gone⟩ (choose_some hc).2.2.1 rfl rfl rfl, rfl⟩
    · rw [hs']
      exact ⟨⟨h.admitted, h.absent, h.seated, h.gone⟩, trivial⟩
  | unlockIdle =>
    rw [hpc] at hst h hp
    obtain ⟨-, rfl⟩ := unlock_map hst
    exact ⟨⟨h.admitted, h.absent, h.seated, h.gone⟩, trivial⟩
  | unlockChosen k v =>
    rw [hpc] at hst h hp
    obtain ⟨-, rfl⟩ := unlock_map hst
    exact ⟨⟨h.admitted, h.absent, h.seated, h.gone⟩, hp⟩
  | lockDoc k v =>
    rw [hpc] at hst h hp
    obtain ⟨-, rfl⟩ := lock_map hst
    exact ⟨⟨h.admitted, h.absent, h.seated, h.gone⟩, hp⟩
  | signalDoc k v =>
    rw [hpc] at hst h hp
    cases hst
    exact ⟨⟨h.admitted, h.absent, h.seated, h.gone⟩, hp⟩
  | unlockDoc k v =>
    rw [hpc] at hst h hp
    obtain ⟨-, rfl⟩ := unlock_map hst
    exact ⟨⟨h.admitted, h.absent, h.seated, h.gone⟩, hp⟩
  | awaitDone w k v =>
    rw [hpc, mainStep] at hst
    rw [hpc] at h hp
    obtain ⟨rfl, -, -, rfl⟩ | ⟨rfl, -, -, rfl⟩ | ⟨rfl, -, rfl⟩ := await_some hst
    all_goals exact ⟨⟨h.admitted, h.absent, h.seated, h.gone⟩, hp⟩
  | unlockDone k v =>
    rw [hpc] at hst h hp
    obtain ⟨-, rfl⟩ := unlock_map hst
    exact ⟨⟨h.admitted, h.absent, h.seated, h.gone⟩, hp⟩
  | lockCurr k v =>
    rw [hpc] at hst h hp
    obtain ⟨-, rfl⟩ := lock_map hst
    exact h.call hp rfl rfl rfl (Function.update_self _ _ _)
  | broadcast k v id =>
    rw [hpc] at hst h hp
    obtain ⟨hc, w, hw⟩ := hp
    cases hst
    have hheld := (hl .mutex .main).2 (inside_main hpc .mutex)
    have hout := hl.outside hheld (u := .visitor (k, id)) (fun e => by cases e)
    rw [inside_visitor hw] at hout
    refine ⟨h.broadcast rfl rfl (fun _ => rfl), hc, rfl, ?_⟩
    show (if k = k then (s.visitor (k, id)).wake else s.visitor (k, id)) = _
    rw [if_pos rfl, hw]
    cases w with
    | wait => cases hout
    | _ => rfl
  | unlockCurr k v id time =>
    rw [hpc] at hst h hp
    obtain ⟨-, rfl⟩ := unlock_map hst
    exact ⟨⟨h.admitted, h.absent, h.seated, h.gone⟩, hp.1, hp.2.1, Or.inl hp.2.2⟩
  | join k v id time =>
    rw [hpc] at hst h hp
    obtain ⟨who, hwho, hst⟩ := Option.bind_eq_some_iff.1 hst
    obtain ⟨hfin, hst⟩ := Option.ite_none_right_eq_some.1 hst
    cases hst
    obtain ⟨⟨-, hid, -, htid⟩, -⟩ := hp
    rw [htid] at hwho
    cases hwho
    exact ⟨h.join hid hfin rfl rfl rfl, trivial⟩
  | destroy left =>
    rw [hpc] at hst h hp
    obtain ⟨-, rfl⟩ | ⟨r, rest, -, rfl⟩ := destroy_some hst
    all_goals exact ⟨⟨h.admitted, h.absent, h.seated, h.gone⟩, hp⟩
  | finished =>
    rw [hpc] at hst
    cases hst

end Main

/-! ### The visitors' steps -/

section Visitors

variable {q : VisitorPc} {w : WaitPc} {a : Param}

/-- The visitor is neither the one that starts nor the one that is called. -/
def Apart (s : State) (pc : MainPc) (k : Kind) (i : ℕ) : Prop :=
  ¬ (pc.starting = some k ∧ i = s.admitted pc k) ∧ ¬ (pc.calling = some k ∧ i = s.vars.curr k)

/-- What he does is not main's concern. -/
theorem Place.apart (hp : Place s pc) (h : Apart s pc k i) (q : VisitorPc) : Place (s.goVisitor (k, i) q) pc := by
  have hstart : ∀ j b, pc.starting = some j → s.numbers j b → s.admitted pc j = s.vars.curr j + s.vars.wait j →
      (s.goVisitor (k, i) q).visitor (j, b.id) = s.visitor (j, b.id) := fun j b hj hn hadm => by
    refine Function.update_of_ne (fun e => ?_) _ _
    cases e
    exact h.1 ⟨hj, hn.2.trans hadm.symm⟩
  have hcall : ∀ j v id, pc.calling = some j → s.calls j v id →
      (s.goVisitor (k, i) q).visitor (j, id) = s.visitor (j, id) := fun j v id hj hc => by
    refine Function.update_of_ne (fun e => ?_) _ _
    cases e
    exact h.2 ⟨hj, hc.2.1⟩
  cases pc with
  | unlockAdmitted j b => exact ⟨hp.1, hp.2.1, (hstart j b rfl hp.1 rfl).trans hp.2.2⟩
  | create j b => exact ⟨hp.1, hp.2.1, hp.2.2.1, (hstart j b rfl hp.1 rfl).trans hp.2.2.2⟩
  | awaitInit w j b => exact ⟨hp.1, hp.2.1, by rw [hstart j b rfl hp.1 rfl]; exact hp.2.2⟩
  | unlockInit j b => exact ⟨hp.1, by rw [hstart j b rfl hp.1 rfl]; exact hp.2⟩
  | broadcast j v id => exact ⟨hp.1, by rw [hcall j v id rfl hp.1]; exact hp.2⟩
  | unlockCurr j v id time => exact ⟨hp.1, hp.2.1, by rw [hcall j v id rfl hp.1]; exact hp.2.2⟩
  | join j v id time => exact ⟨hp.1, hp.2.1, by rw [hcall j v id rfl hp.1]; exact hp.2.2⟩
  | _ => exact hp

/-- Who waits for his turn goes on waiting. -/
theorem seats_apart (h : Seats s s.main) (hp : Place s s.main) (ha : Apart s s.main k i)
    (hst : visit k i s (s.visitor (k, i)) = some s') : Seats s' s'.main ∧ Place s' s'.main := by
  obtain hv | hv | ⟨hlt, w, hv⟩ | ⟨hs, hi, -⟩ | ⟨hc, hi, -⟩ := h.cases k i
  · rw [hv] at hst
    cases hst
  · rw [hv] at hst
    cases hst
  · rw [hv, visit] at hst
    have hmove : ∀ w', Seats (s.goVisitor (k, i) (.await w' ⟨s.vars.queue k (i - 1), i⟩)) s.main := fun w' =>
      h.move (Or.inr (Or.inr ⟨⟨w, hv⟩, w', rfl⟩))
    obtain ⟨rfl, -, hready, -⟩ | ⟨rfl, -, -, rfl⟩ | ⟨rfl, -, rfl⟩ := await_some hst
    · exact absurd (of_decide_eq_true hready) (Nat.ne_of_lt hlt)
    · have hseats := hmove .wait
      exact ⟨⟨hseats.admitted, hseats.absent, hseats.seated, hseats.gone⟩, hp.apart ha _⟩
    · have hseats := hmove .asleep
      exact ⟨⟨hseats.admitted, hseats.absent, hseats.seated, hseats.gone⟩, hp.apart ha _⟩
  · exact absurd ⟨hs, hi⟩ ha.1
  · exact absurd ⟨hc, hi⟩ ha.2

/-- Nobody else is between lock and unlock while main is. -/
theorem visit_outside (hl : Locked s) (hm : s.main.holds .mutex = true) (hst : visit k i s (s.visitor (k, i)) = some s') :
    s.visitor (k, i) = .start := by
  have hheld := (hl .mutex .main).2 hm
  have hout := hl.outside hheld (u := .visitor (k, i)) (fun e => by cases e)
  cases hpc : s.visitor (k, i) with
  | start => rfl
  | lockInit a =>
    rw [hpc] at hst
    rw [(lock_map hst).1] at hheld
    cases hheld
  | signalInit a =>
    rw [inside_visitor hpc] at hout
    cases hout
  | unlockInit a =>
    rw [inside_visitor hpc] at hout
    cases hout
  | await w a =>
    rw [hpc, visit] at hst
    obtain ⟨-, hfree, -⟩ | ⟨-, hfree, -⟩ | ⟨rfl, -⟩ := await_some hst
    · rw [hfree] at hheld
      cases hheld
    · rw [hfree] at hheld
      cases hheld
    · rw [inside_visitor hpc] at hout
      cases hout
  | unlockTurn =>
    rw [inside_visitor hpc] at hout
    cases hout
  | _ =>
    rw [hpc] at hst
    cases hst

theorem VisitorPc.fresh_or_set {d : Bool} (h : Starts a d q w) : d = false ∧ q.fresh a ∨ d = true ∧ q.set a := by
  cases w with
  | lock => exact h
  | wait => exact Or.inl h
  | asleep => exact h.imp_right (fun hs => ⟨hs.1, Or.inl hs.2⟩)

theorem Starts.read {d : Bool} (h : Starts a d .start w) : Starts a d (.lockInit a) w := by
  obtain ⟨hd, -⟩ | ⟨-, hs⟩ := VisitorPc.fresh_or_set h
  · cases w with
    | lock => exact Or.inl ⟨hd, Or.inr rfl⟩
    | wait => exact ⟨hd, Or.inr rfl⟩
    | asleep => exact Or.inl ⟨hd, Or.inr rfl⟩
  · obtain hs | hs | ⟨w', hs⟩ := hs <;> cases hs

theorem Starts.lock {d : Bool} {b : Param} (h : Starts a d (.lockInit b) w) (hw : w ≠ .wait) :
    b = a ∧ Starts a true (.signalInit b) w := by
  obtain ⟨-, hf⟩ | ⟨-, hs⟩ := VisitorPc.fresh_or_set h
  · obtain hf | hf := hf <;> cases hf
    refine ⟨rfl, ?_⟩
    cases w with
    | lock => exact Or.inr ⟨rfl, Or.inl rfl⟩
    | wait => exact absurd rfl hw
    | asleep => exact Or.inr ⟨rfl, rfl⟩
  · obtain hs | hs | ⟨w', hs⟩ := hs <;> cases hs

theorem Starts.signal {d : Bool} {b : Param} (h : Starts a d (.signalInit b) w) : Starts a d (.unlockInit b) w.wake := by
  cases w with
  | wait => obtain hf | hf := h.2 <;> cases hf
  | _ =>
    obtain ⟨-, hf⟩ | ⟨hd, hs⟩ := VisitorPc.fresh_or_set h
    · obtain hf | hf := hf <;> cases hf
    · obtain hs | hs | ⟨w', hs⟩ := hs <;> cases hs
      exact Or.inr ⟨hd, Or.inr (Or.inl rfl)⟩

/-- After the signal main is awake. -/
theorem Starts.after {d : Bool} {b : Param}
    (h : Starts a d (.unlockInit b) w ∨ ∃ w', Starts a d (.await w' b) w) : b = a ∧ ∀ w'', Starts a d (.await w'' b) w := by
  have hw : w = .lock ∧ d = true ∧ b = a := by
    obtain h | ⟨w', h⟩ := h
    all_goals
      obtain ⟨-, hf⟩ | ⟨hd, hs⟩ := VisitorPc.fresh_or_set h
      · obtain hf | hf := hf <;> cases hf
      · obtain hs | hs | ⟨w₁, hs⟩ := hs <;> cases hs
        refine ⟨?_, hd, rfl⟩
        cases w with
        | lock => rfl
        | wait => rw [h.1] at hd; cases hd
        | asleep =>
          obtain ⟨hn, -⟩ | ⟨-, hn⟩ := h
          · rw [hn] at hd; cases hd
          · cases hn
  obtain ⟨rfl, hd, rfl⟩ := hw
  exact ⟨rfl, fun w'' => Or.inr ⟨hd, Or.inr (Or.inr ⟨w'', rfl⟩)⟩⟩

theorem Seats.congr (h : Seats s pc) (hv : s'.vars = s.vars) (ht : s'.tids = s.tids) (hvis : s'.visitor = s.visitor) :
    Seats s' pc := by
  have hadm : s'.admitted pc = s.admitted pc := by
    unfold State.admitted
    rw [hv]
  refine ⟨?_, ?_, ?_, ?_⟩
  · rw [hadm, hv]
    exact h.admitted
  · rw [hadm, hvis]
    exact h.absent
  · rw [hadm, hv, ht, hvis]
    exact h.seated
  · rw [hv, hvis]
    exact h.gone

theorem Seats.starts {w' : WaitPc} (h : Seats s (.awaitInit w k a)) (hn : s.numbers k a) (hparam : s.newParam k = some a)
    (hv : s'.vars = s.vars) (ht : s'.tids = s.tids) (hnp : s'.newParam = s.newParam)
    (hvis : s'.visitor = Function.update s.visitor (k, a.id) q) (hm : s'.main = .awaitInit w' k a)
    (hstart : Starts a (s'.initDone k) q w') : Seats s' s'.main ∧ Place s' s'.main := by
  have hmove := h.move (q := q) (Or.inl ⟨rfl, hn.2, hn.1⟩)
  have hseats : Seats s' (.awaitInit w k a) := hmove.congr hv ht hvis
  rw [hm]
  refine ⟨⟨hseats.admitted, hseats.absent, hseats.seated, hseats.gone⟩, ?_, ?_, ?_⟩
  · unfold State.numbers
    rw [hv]
    exact hn
  · rw [hnp]
    exact hparam
  · rw [hvis, Function.update_self]
    exact hstart

/-- **The visitor that starts** sets his flag while main waits for it. -/
theorem seats_starts (hl : Locked s) (h : Seats s s.main) (hp : Place s s.main) (hs : s.main.starting = some k)
    (hi : i = s.admitted s.main k) (hst : visit k i s (s.visitor (k, i)) = some s') :
    Seats s' s'.main ∧ Place s' s'.main := by
  cases hpc : s.main with
  | awaitInit w j a =>
    rw [hpc] at h hp hs hi
    cases hs
    obtain ⟨hn, hparam, hstart⟩ := hp
    obtain rfl : i = a.id := hi.trans hn.2.symm
    have hwait : s.holder .mutex = none → w ≠ .wait := fun hfree hw => by
      have hin := hl.free hfree .main
      rw [inside_main hpc, hw] at hin
      cases hin
    cases hv : s.visitor (k, a.id) with
    | start =>
      rw [hv] at hst hstart
      simp only [visit, hparam] at hst
      cases hst
      exact h.starts hn hparam rfl rfl rfl rfl hpc hstart.read
    | lockInit b =>
      rw [hv] at hst hstart
      obtain ⟨hfree, rfl⟩ := lock_map hst
      refine h.starts hn hparam rfl rfl rfl rfl hpc ?_
      show Starts a (Function.update s.initDone k true k) _ w
      rw [Function.update_self]
      exact (hstart.lock (hwait hfree)).2
    | signalInit b =>
      rw [hv] at hst hstart
      cases hst
      refine h.starts hn hparam rfl rfl rfl rfl ?_ hstart.signal
      show s.main.wakeInit k = _
      rw [hpc, MainPc.wakeInit, if_pos rfl]
    | unlockInit b =>
      rw [hv] at hst hstart
      obtain ⟨-, rfl⟩ := unlock_map hst
      exact h.starts hn hparam rfl rfl rfl rfl hpc ((Starts.after (Or.inl hstart)).2 _)
    | await w' b =>
      rw [hv, visit] at hst
      rw [hv] at hstart
      obtain ⟨rfl, hstays⟩ := Starts.after (Or.inr ⟨w', hstart⟩)
      obtain ⟨-, -, hready, -⟩ | ⟨-, -, -, rfl⟩ | ⟨-, -, rfl⟩ := await_some hst
      · exact absurd (of_decide_eq_true hready) (Nat.ne_of_lt hn.1)
      · exact h.starts hn hparam rfl rfl rfl rfl hpc (hstays _)
      · exact h.starts hn hparam rfl rfl rfl rfl hpc (hstays _)
    | unlockTurn =>
      rw [hv] at hstart
      obtain ⟨-, hf | hf⟩ | ⟨-, hf | hf | ⟨w', hf⟩⟩ := VisitorPc.fresh_or_set hstart <;> cases hf
    | _ =>
      rw [hv] at hst
      cases hst
  | unlockAdmitted j a =>
    rw [hpc] at hp hs hi
    cases hs
    rw [show i = a.id from hi.trans hp.1.2.symm, hp.2.2] at hst
    cases hst
  | create j a =>
    rw [hpc] at hp hs hi
    cases hs
    rw [show i = a.id from hi.trans hp.1.2.symm, hp.2.2.2] at hst
    cases hst
  | unlockInit j a =>
    have hv := visit_outside hl (by rw [hpc]; rfl) hst
    rw [hpc] at hp hs hi
    cases hs
    rw [show i = a.id from hi.trans hp.1.2.symm] at hv
    obtain hset | hset | ⟨w, hset⟩ := hp.2
    all_goals
      rw [hv] at hset
      cases hset
  | _ =>
    rw [hpc] at hs
    cases hs

/-- **The visitor that is called** prints his line when main waits for him to finish. -/
theorem seats_called (hl : Locked s) (h : Seats s s.main) (hp : Place s s.main) (hc : s.main.calling = some k)
    (hi : i = s.vars.curr k) (hst : visit k i s (s.visitor (k, i)) = some s') :
    Seats s' s'.main ∧ Place s' s'.main := by
  cases hpc : s.main with
  | broadcast j v id =>
    have hv := visit_outside hl (by rw [hpc]; rfl) hst
    rw [hpc] at hp hc
    cases hc
    obtain ⟨hcalls, w, hw⟩ := hp
    rw [hi, ← hcalls.2.1, hw] at hv
    cases hv
  | unlockCurr j v id time =>
    have hv := visit_outside hl (by rw [hpc]; rfl) hst
    rw [hpc] at hp hc
    cases hc
    obtain ⟨hcalls, -, hw⟩ := hp
    rw [hi, ← hcalls.2.1, show s.visitor (k, id) = _ from hw] at hv
    cases hv
  | join j v id time =>
    rw [hpc] at h hp hc
    cases hc
    obtain ⟨hcalls, htime, hv⟩ := hp
    obtain rfl : i = id := hi.trans hcalls.2.1.symm
    have hmove : ∀ q, Seats (s.goVisitor (k, i) q) (.join k v i time) := fun q =>
      h.move (Or.inr (Or.inl ⟨rfl, hi, hcalls.1⟩))
    obtain hv | hv := hv
    · rw [show s.visitor (k, i) = _ from hv, visit] at hst
      obtain ⟨-, -, -, rfl⟩ | ⟨-, -, hready, -⟩ | ⟨hw, -⟩ := await_some hst
      · have h' := hmove .unlockTurn
        show Seats _ s.main ∧ Place _ s.main
        rw [hpc]
        exact ⟨⟨h'.admitted, h'.absent, h'.seated, h'.gone⟩, hcalls, htime, Or.inr (by
          show (Function.update s.visitor (k, i) .unlockTurn (k, i)).entered = true
          rw [Function.update_self]
          rfl)⟩
      · exact absurd hi.symm (of_decide_eq_false hready)
      · cases hw
    · obtain hv | hv := of_decide_eq_true hv
      · rw [hv] at hst
        obtain ⟨-, rfl⟩ := unlock_map hst
        have h' := hmove .finished
        show Seats _ s.main ∧ Place _ s.main
        rw [hpc]
        exact ⟨⟨h'.admitted, h'.absent, h'.seated, h'.gone⟩, hcalls, htime, Or.inr (by
          show (Function.update s.visitor (k, i) .finished (k, i)).entered = true
          rw [Function.update_self]
          rfl)⟩
      · rw [hv] at hst
        cases hst
  | _ =>
    rw [hpc] at hc
    cases hc

/-- **A step of a visitor.** -/
theorem seats_visit (hl : Locked s) (h : Seats s s.main) (hp : Place s s.main)
    (hst : visit k i s (s.visitor (k, i)) = some s') : Seats s' s'.main ∧ Place s' s'.main := by
  by_cases hs : s.main.starting = some k ∧ i = s.admitted s.main k
  · exact seats_starts hl h hp hs.1 hs.2 hst
  · by_cases hc : s.main.calling = some k ∧ i = s.vars.curr k
    · exact seats_called hl h hp hc.1 hc.2 hst
    · exact seats_apart h hp ⟨hs, hc⟩ hst

end Visitors

/-! ### The doctor's steps -/

theorem Seats.wakeDone (h : Seats s pc) : Seats s pc.wakeDone := by
  cases pc with
  | awaitDone w k v => exact ⟨h.admitted, h.absent, h.seated, h.gone⟩
  | _ => exact h

theorem Place.wakeDone (h : Place s pc) : Place s pc.wakeDone := by
  cases pc <;> exact h

/-- Neither the places of the doctor nor the mutexes are in `Place`. -/
theorem Place.same (h : Place s pc) (hv : s'.vars = s.vars) (hd : s'.initDone = s.initDone)
    (hnp : s'.newParam = s.newParam) (ht : s'.tids = s.tids) (hvis : s'.visitor = s.visitor) : Place s' pc := by
  obtain ⟨v', h', d', i', n', t', m', p', vis'⟩ := s'
  simp only at hv hd hnp ht hvis
  subst hv hd hnp ht hvis
  cases pc <;> exact h

/-- Nor is what has been printed. -/
theorem Place.congr (h : Place s pc) {l : Line} (hv : s'.vars = s.vars.print l) (hd : s'.initDone = s.initDone)
    (hnp : s'.newParam = s.newParam) (ht : s'.tids = s.tids) (hvis : s'.visitor = s.visitor) : Place s' pc := by
  obtain ⟨v', h', d', i', n', t', m', p', vis'⟩ := s'
  simp only at hv hd hnp ht hvis
  subst hv hd hnp ht hvis
  cases pc <;> exact h

/-- **A step of the doctor.** -/
theorem seats_doctor (hl : Locked s) (ht : s.talk = true) (h : Seats s s.main) (hp : Place s s.main)
    (hst : doctor s s.doctor = some s') : Seats s' s'.main ∧ Place s' s'.main := by
  unfold State.talk at ht
  cases hpc : s.doctor with
  | lockMutex =>
    rw [hpc] at hst ht
    obtain ⟨hfree, rfl⟩ := lock_map hst
    by_cases hd : s.docState = .leaving
    · rw [if_pos hd]
      obtain ⟨hjoin, -⟩ := (Talk.doctorLine _ _ _ ht (hl.notLeaving hfree)).1 hd
      have hm := MainPc.of_joining hjoin
      show Seats _ s.main ∧ Place _ s.main
      rw [hm] at h ⊢
      exact ⟨⟨fun hend => (by cases hend), h.absent, h.seated, h.gone⟩, trivial⟩
    · rw [if_neg hd]
      exact ⟨⟨h.admitted, h.absent, h.seated, h.gone⟩, hp.congr rfl rfl rfl rfl rfl⟩
  | await w =>
    rw [hpc, doctor] at hst
    obtain ⟨-, -, -, rfl⟩ | ⟨-, -, -, rfl⟩ | ⟨-, -, rfl⟩ := await_some hst
    all_goals exact ⟨⟨h.admitted, h.absent, h.seated, h.gone⟩, hp.same rfl rfl rfl rfl rfl⟩
  | signalDone =>
    rw [hpc] at hst
    cases hst
    have hw := h.wakeDone
    exact ⟨⟨hw.admitted, hw.absent, hw.seated, hw.gone⟩, hp.wakeDone.same rfl rfl rfl rfl rfl⟩
  | finished =>
    rw [hpc] at hst
    cases hst
  | _ =>
    rw [hpc] at hst
    obtain ⟨-, rfl⟩ := unlock_map hst
    exact ⟨⟨h.admitted, h.absent, h.seated, h.gone⟩, hp.same rfl rfl rfl rfl rfl⟩

/-- A visitor wakes up. -/
theorem seats_wakeVisitor {a : Param} (h : Seats s s.main) (hp : Place s s.main)
    (hv : s.visitor (k, i) = .await .asleep a) :
    Seats (s.goVisitor (k, i) (.await .lock a)) s.main ∧ Place (s.goVisitor (k, i) (.await .lock a)) s.main := by
  by_cases hs : s.main.starting = some k ∧ i = s.admitted s.main k
  · obtain ⟨hs, hi⟩ := hs
    cases hpc : s.main with
    | awaitInit w j b =>
      rw [hpc] at h hp hs hi
      cases hs
      obtain ⟨hn, hparam, hstart⟩ := hp
      obtain rfl : i = b.id := hi.trans hn.2.symm
      rw [hv] at hstart
      have hafter : Starts b (s.initDone k) (.await .lock a) w := (Starts.after (Or.inr ⟨_, hstart⟩)).2 _
      have hgo : Seats (s.goVisitor (k, b.id) (.await .lock a)) s.main ∧
          Place (s.goVisitor (k, b.id) (.await .lock a)) s.main :=
        h.starts hn hparam rfl rfl rfl rfl hpc hafter
      rw [hpc] at hgo
      exact hgo
    | unlockInit j b =>
      rw [hpc] at h hp hs hi
      cases hs
      obtain ⟨hn, hset⟩ := hp
      obtain rfl : i = b.id := hi.trans hn.2.symm
      rw [hv] at hset
      obtain hset | hset | ⟨w, hset⟩ := hset <;> cases hset
      refine ⟨h.move (Or.inl ⟨rfl, hn.2, hn.1⟩), hn, Or.inr (Or.inr ⟨.lock, Function.update_self _ _ _⟩)⟩
    | unlockAdmitted j b =>
      rw [hpc] at hp hs hi
      cases hs
      rw [show i = b.id from hi.trans hp.1.2.symm, hp.2.2] at hv
      cases hv
    | create j b =>
      rw [hpc] at hp hs hi
      cases hs
      rw [show i = b.id from hi.trans hp.1.2.symm, hp.2.2.2] at hv
      cases hv
    | _ =>
      rw [hpc] at hs
      cases hs
  by_cases hc : s.main.calling = some k ∧ i = s.vars.curr k
  · obtain ⟨hc, hi⟩ := hc
    cases hpc : s.main with
    | broadcast j v id =>
      rw [hpc] at h hp hc
      cases hc
      obtain ⟨hcalls, w, hw⟩ := hp
      obtain rfl : i = id := hi.trans hcalls.2.1.symm
      rw [hv] at hw
      cases hw
      exact ⟨h.move (Or.inr (Or.inl ⟨rfl, hi, hcalls.1⟩)), hcalls, .lock, Function.update_self _ _ _⟩
    | unlockCurr j v id time =>
      rw [hpc] at hp hc
      cases hc
      obtain ⟨hcalls, -, hw⟩ := hp
      rw [← hi.trans hcalls.2.1.symm, hv] at hw
      cases hw
    | join j v id time =>
      rw [hpc] at hp hc
      cases hc
      obtain ⟨hcalls, -, hw⟩ := hp
      rw [← hi.trans hcalls.2.1.symm, hv] at hw
      obtain hw | hw := hw <;> cases hw
    | _ =>
      rw [hpc] at hc
      cases hc
  · obtain hx | hx | ⟨-, w, hw⟩ | ⟨hx, hi, -⟩ | ⟨hx, hi, -⟩ := h.cases k i
    · rw [hv] at hx
      cases hx
    · rw [hv] at hx
      cases hx
    · have hold := hw
      rw [hv] at hw
      cases hw
      exact ⟨h.move (Or.inr (Or.inr ⟨⟨_, hold⟩, _, rfl⟩)), hp.apart ⟨hs, hc⟩ _⟩
    · exact absurd ⟨hx, hi⟩ hs
    · exact absurd ⟨hx, hi⟩ hc

/-- **A wake-up.** -/
theorem seats_wakeUp {p : Party} (h : Seats s s.main) (hp : Place s s.main) (hst : wakeUp s p = some s') :
    Seats s' s'.main ∧ Place s' s'.main := by
  obtain ⟨-, k, a, hpc, rfl⟩ | ⟨-, k, v, hpc, rfl⟩ | ⟨-, -, rfl⟩ | ⟨⟨k, i⟩, a, -, hv, rfl⟩ := wakeUp_cases hst
  · rw [hpc] at h hp
    obtain ⟨hn, hparam, hstart⟩ := hp
    refine ⟨⟨h.admitted, h.absent, h.seated, h.gone⟩, hn, hparam, ?_⟩
    exact hstart.imp_right (fun hs => ⟨hs.1, Or.inl hs.2⟩)
  · rw [hpc] at h hp
    exact ⟨⟨h.admitted, h.absent, h.seated, h.gone⟩, hp⟩
  · exact ⟨⟨h.admitted, h.absent, h.seated, h.gone⟩, hp.same rfl rfl rfl rfl rfl⟩
  · exact seats_wakeVisitor h hp hv

end Seats

end Session
end OsLab
