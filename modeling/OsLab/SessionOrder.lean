import OsLab.SessionStory
/-!
# SessionOrder — no deadlock but one, and one order of the lines

While main is in its loop some thread can always go on (`Good.alive`): who has `mutex` can, and the doctor waits for it only
while main does not have it.  At its end main can be stopped only by a doctor who is asleep at `doc_cond`.  What is printed is
what main alone prints, so every complete run prints the same (`end_same`).
-/
namespace OsLab
namespace Session

open DecimalText (int32)

section Alive

variable {file : List Event} {Q : ℕ → Event} {s s' : State} {m : Mutex} {p : Party}

/-- The thread can take its next step, without waking up by itself. -/
def CanGo (s : State) (p : Party) : Prop := (next (.go p) s).isSome = true

theorem lock_goes {f : State → State} (h : s.holder m = none) (hd : s.main.destroyed m = false) :
    ((s.lock m p).map f).isSome = true := by
  rw [lock_some.2 ⟨⟨h, hd⟩, rfl⟩]
  rfl

theorem unlock_goes {f : State → State} (h : s.holder m = some p) : ((s.unlock m p).map f).isSome = true := by
  rw [unlock_some.2 ⟨h, rfl⟩]
  rfl

theorem doctor_goes {pc : DoctorPc} (hpc : s.doctor = pc) (h : (doctor s pc).isSome = true) : CanGo s .doctor := by
  rw [← hpc] at h
  exact h

theorem visitor_goes {who : Kind × ℕ} {pc : VisitorPc} (hpc : s.visitor who = pc) (h : (visit who.1 who.2 s pc).isSome = true) :
    CanGo s (.visitor who) := by
  rw [← hpc, ← visitorStep_eq] at h
  exact h

theorem main_goes {pc : MainPc} (hpc : s.main = pc) (h : (mainStep s pc).isSome = true) : CanGo s .main := by
  rw [← hpc] at h
  exact h

/-- **Who has `mutex` can go on**, unless it is main. -/
theorem Locked.mutex (h : Locked s) (hm : s.main.holds .mutex = false) : s.holder .mutex = none ∨ ∃ p, CanGo s p := by
  cases hh : s.holder .mutex with
  | none => exact Or.inl rfl
  | some u =>
    right
    refine ⟨u, ?_⟩
    have hin := (h .mutex u).1 hh
    cases u with
    | main =>
      rw [show s.inside .mutex .main = s.main.holds .mutex from rfl, hm] at hin
      cases hin
    | doctor =>
      cases hpc : s.doctor <;> rw [inside_doctor hpc] at hin <;> try cases hin
      · exact doctor_goes hpc (unlock_goes hh)
      · exact doctor_goes hpc (unlock_goes hh)
    | visitor who =>
      cases hpc : s.visitor who with
      | signalInit a => exact visitor_goes hpc rfl
      | unlockInit a => exact visitor_goes hpc (unlock_goes hh)
      | unlockTurn => exact visitor_goes hpc (unlock_goes hh)
      | await w a =>
        rw [inside_visitor hpc] at hin
        obtain rfl : w = .wait := of_decide_eq_true hin
        exact visitor_goes hpc (unlock_goes hh)
      | _ =>
        rw [inside_visitor hpc] at hin
        cases hin

/-- **A doctor who has `doc_mutex` can go on**, or who has `mutex` can. -/
theorem Locked.doctor (h : Locked s) (hm : s.main.holds .mutex = false) (hthere : s.main.destroyed .mutex = false)
    (hd : s.doctor.holds .docMutex = true) : ∃ p, CanGo s p := by
  have hheld : s.holder .docMutex = some .doctor := (h .docMutex .doctor).2 hd
  cases hpc : s.doctor with
  | await w =>
    rw [hpc] at hd
    obtain rfl : w = .wait := of_decide_eq_true hd
    exact ⟨.doctor, doctor_goes hpc (unlock_goes hheld)⟩
  | lockMutex =>
    obtain hfree | hgo := h.mutex hm
    · exact ⟨.doctor, doctor_goes hpc (lock_goes hfree hthere)⟩
    · exact hgo
  | unlockLast => exact ⟨.doctor, doctor_goes hpc (unlock_goes ((h .mutex .doctor).2 (inside_doctor hpc .mutex)))⟩
  | unlockMutex => exact ⟨.doctor, doctor_goes hpc (unlock_goes ((h .mutex .doctor).2 (inside_doctor hpc .mutex)))⟩
  | signalDone => exact ⟨.doctor, doctor_goes hpc rfl⟩
  | unlockDocLast | unlockDoc => exact ⟨.doctor, doctor_goes hpc (unlock_goes hheld)⟩
  | finished =>
    rw [hpc] at hd
    cases hd

/-- `doc_mutex` is free, or main or the doctor has it. -/
theorem Locked.docMutex (h : Locked s) (hm : s.main.holds .docMutex = false) :
    s.holder .docMutex = none ∨ s.doctor.holds .docMutex = true := by
  cases hh : s.holder .docMutex with
  | none => exact Or.inl rfl
  | some u =>
    have hin := (h .docMutex u).1 hh
    cases u with
    | main =>
      rw [show s.inside .docMutex .main = s.main.holds .docMutex from rfl, hm] at hin
      cases hin
    | doctor => exact Or.inr hin
    | visitor who =>
      cases hpc : s.visitor who <;> rw [inside_visitor hpc] at hin <;> cases hin

/-- Main has left its loop where main alone has. -/
theorem Good.closed (h : Good file Q s) (hm : s.main.closing = true) :
    Reachable mainLoop (Vars.init file Q) s.vars ∧ emptyQ s.vars.E = true := by
  have hstory := h.story
  have hplace := h.place
  cases hpc : s.main with
  | destroy left | finished =>
    rw [hpc] at hstory hplace
    exact ⟨hstory, hplace⟩
  | _ =>
    rw [hpc] at hm
    cases hm

/-- **By then no visitor is left.** -/
theorem Good.visitors_gone (hfile : Arrivals file) (h : Good file Q s) (hm : s.main.closing = true) (k : Kind) (i : ℕ) :
    s.visitor (k, i) = .absent ∨ s.visitor (k, i) = .finished := by
  obtain ⟨hreach, hend⟩ := h.closed hm
  have hwait := (sound_of_reachable hfile hreach).inv.nobody_at_end hend k
  have hnot : s.main.chosen = none ∧ s.main.starting = none ∧ s.main.calling = none := by
    cases hpc : s.main with
    | destroy left | finished => exact ⟨rfl, rfl, rfl⟩
    | _ =>
      rw [hpc] at hm
      cases hm
  obtain ⟨hchosen, hstarting, hcalling⟩ := hnot
  obtain hv | hv | ⟨hlt, w, hv⟩ | ⟨hs, -⟩ | ⟨hc, -⟩ := h.seats.cases k i
  · exact Or.inl hv
  · exact Or.inr hv
  · refine Or.inl (h.seats.absent k i (Or.inr ?_))
    unfold State.admitted
    rw [hwait, hchosen]
    exact hlt
  · rw [hstarting] at hs
    cases hs
  · rw [hcalling] at hc
    cases hc

/-- So at a condition variable that main destroys only the doctor can be waiting. -/
theorem Good.waits (hfile : Arrivals file) (h : Good file Q s) (hm : s.main.closing = true) {c : Cond} (hc : c ≠ .docCond) :
    s.waits c = false := by
  cases c with
  | docCond => exact absurd rfl hc
  | kindCond k =>
    refine List.any_eq_false.2 (fun i _ => ?_)
    obtain hv | hv := h.visitors_gone hfile hm k i <;> rw [hv] <;> exact Bool.false_ne_true
  | docDone | kindInit k => rfl

/-- **No deadlock but one**: while main has not finished some thread can go on, unless main destroys `doc_cond` and the doctor
is asleep there. -/
theorem Good.alive (hfile : Arrivals file) (h : Good file Q s) (hne : s.main ≠ .finished)
    (hleft : ∀ left, s.main = .destroy (.cond .docCond :: left) → s.doctor ≠ .await .asleep) : ∃ p, CanGo s p := by
  have hplace := h.place
  have htalk := h.talk
  unfold State.talk at htalk
  have hlock : ∀ pc, s.main = pc → pc.holds .mutex = false → pc.destroyed .mutex = false →
      (s.holder .mutex = none → s.main.destroyed .mutex = false → (mainStep s pc).isSome = true) → ∃ p, CanGo s p :=
    fun pc hpc hm hd hgo => by
      obtain hfree | hothers := h.locked.mutex (by rw [hpc]; exact hm)
      · exact ⟨.main, main_goes hpc (hgo hfree (by rw [hpc]; exact hd))⟩
      · exact hothers
  cases hpc : s.main with
  | head => exact ⟨.main, main_goes hpc rfl⟩
  | lockEvent e => exact hlock _ hpc rfl rfl lock_goes
  | lockAgain =>
    rw [hpc] at hplace
    exact hplace.elim
  | lockDispatch => exact hlock _ hpc rfl rfl lock_goes
  | lockCurr k v => exact hlock _ hpc rfl rfl lock_goes
  | signalLast | signalDoc k v | broadcast k v id => exact ⟨.main, main_goes hpc rfl⟩
  | lockDocLast | lockDoc k v =>
    -- the doctor is not called yet, so if he has `doc_mutex` he is about to wait
    rw [hpc] at htalk
    obtain hfree | hd := h.locked.docMutex (by rw [hpc]; rfl)
    · exact ⟨.main, main_goes hpc (lock_goes hfree (by rw [hpc]; rfl))⟩
    · obtain hw := Talk.waits _ _ _ htalk hd
      exact ⟨.doctor, doctor_goes hw (unlock_goes ((h.locked .docMutex .doctor).2 hd))⟩
  | joinDoctor =>
    rw [hpc] at htalk
    have hmutex : s.main.holds .mutex = false := by rw [hpc]; rfl
    cases hdoc : s.doctor with
    | finished => exact ⟨.main, main_goes hpc (by simp only [mainStep, hdoc, if_true, Option.isSome_some])⟩
    | await w =>
      rw [hdoc] at htalk
      obtain rfl := Talk.awake _ _ _ htalk
      obtain hfree | hd := h.locked.docMutex (by rw [hpc]; rfl)
      · exact ⟨.doctor, doctor_goes hdoc (lock_goes hfree (by rw [hpc]; rfl))⟩
      · exact h.locked.doctor hmutex (by rw [hpc]; rfl) hd
    | _ => exact h.locked.doctor hmutex (by rw [hpc]; rfl) (by rw [hdoc]; rfl)
  | create k a =>
    rw [hpc] at hplace
    exact ⟨.main, main_goes hpc (by simp only [mainStep, hplace.2.2.2, if_true, Option.isSome_some])⟩
  | awaitInit w k a =>
    rw [hpc] at hplace
    obtain ⟨-, hparam, hstart⟩ := hplace
    cases w with
    | lock => exact hlock _ hpc rfl rfl lock_goes
    | wait => exact ⟨.main, main_goes hpc (unlock_goes ((h.locked .mutex .main).2 (inside_main hpc .mutex)))⟩
    | asleep =>
      have hmutex : s.main.holds .mutex = false := by rw [hpc]; rfl
      obtain ⟨-, hv | hv⟩ | ⟨-, hv⟩ := hstart
      · exact ⟨.visitor (k, a.id), visitor_goes hv (by simp only [visit, hparam, Option.isSome_some])⟩
      · obtain hfree | hothers := h.locked.mutex hmutex
        · exact ⟨.visitor (k, a.id), visitor_goes hv (lock_goes hfree (by rw [hpc]; rfl))⟩
        · exact hothers
      · exact ⟨.visitor (k, a.id), visitor_goes hv rfl⟩
  | awaitDone w k v =>
    rw [hpc] at htalk
    have hmutex : s.main.holds .mutex = false := by rw [hpc]; rfl
    cases w with
    | lock =>
      obtain hfree | hd := h.locked.docMutex (by rw [hpc]; rfl)
      · exact ⟨.main, main_goes hpc (lock_goes hfree (by rw [hpc]; rfl))⟩
      · exact h.locked.doctor hmutex (by rw [hpc]; rfl) hd
    | wait => exact ⟨.main, main_goes hpc (unlock_goes ((h.locked .docMutex .main).2 (inside_main hpc .docMutex)))⟩
    | asleep =>
      obtain hdoc | hd := Talk.calling _ _ _ htalk
      · obtain hfree | hd := h.locked.docMutex (by rw [hpc]; rfl)
        · exact ⟨.doctor, doctor_goes hdoc (lock_goes hfree (by rw [hpc]; rfl))⟩
        · exact h.locked.doctor hmutex (by rw [hpc]; rfl) hd
      · exact h.locked.doctor hmutex (by rw [hpc]; rfl) hd
  | join k v id time =>
    rw [hpc] at hplace
    obtain ⟨hcalls, -, hv⟩ := hplace
    obtain hv | hv := hv
    · obtain hfree | hothers := h.locked.mutex (by rw [hpc]; rfl)
      · exact ⟨.visitor (k, id), visitor_goes hv (lock_goes hfree (by rw [hpc]; rfl))⟩
      · exact hothers
    · obtain hv | hv := of_decide_eq_true hv
      · have hheld := (h.locked .mutex (.visitor (k, id))).2 (inside_visitor hv .mutex)
        exact ⟨.visitor (k, id), visitor_goes hv (unlock_goes hheld)⟩
      · exact ⟨.main, main_goes hpc (by
          simp only [mainStep, hcalls.2.2.2, Option.bind_some, hv, if_true, Option.isSome_some])⟩
  | destroy left =>
    refine ⟨.main, main_goes hpc ?_⟩
    cases left with
    | nil => rfl
    | cons r rest =>
      cases r with
      | mutex m => rfl
      | cond c =>
        have hnobody : s.waits c = false := by
          by_cases hc : c = .docCond
          · subst hc
            exact decide_eq_false (hleft rest hpc)
          · exact h.waits hfile (by rw [hpc]; rfl) hc
        rw [mainStep, hnobody]
        rfl
  | finished => exact absurd hpc hne
  | unlockDocLast | unlockDoc k v | unlockDone k v =>
    exact ⟨.main, main_goes hpc (unlock_goes ((h.locked .docMutex .main).2 (inside_main hpc .docMutex)))⟩
  | _ => exact ⟨.main, main_goes hpc (unlock_goes ((h.locked .mutex .main).2 (inside_main hpc .mutex)))⟩

end Alive

/-! ### What stands in memory -/

/-- The same session, whatever stands in the parts of the arrays that are not in use. -/
structure Vars.Same (s s' : Vars) : Prop where
  E : s.E.Same s'.E
  queue : ∀ k i, i < s.curr k + s.wait k → s'.queue k i = s.queue k i
  rest : s' = { s with E := s'.E, queue := s'.queue }

section Same

variable {s s' : Vars} {k : Kind}

theorem Vars.Same.see (h : s.Same s') (hk : 0 < s.wait k) : (s.see k).Same (s'.see k) := by
  obtain ⟨hE, hqueue, hrest⟩ := h
  have hvisitor : s'.visitor k = s.visitor k := by
    have hcurr : s'.curr = s.curr := by rw [hrest]
    unfold Vars.visitor
    rw [hcurr]
    exact hqueue k _ (by omega)
  have hsee : s'.see k = { s.see k with E := (s'.see k).E, queue := s'.queue } := by
    unfold Vars.see Vars.dispatch
    rw [hvisitor, hrest]
    rfl
  refine ⟨?_, fun j i hi => hqueue j i ?_, hsee⟩
  · have htime : s'.currTime = s.currTime := by rw [hrest]
    show (addevent s.E _).Same (addevent s'.E _)
    rw [htime, hvisitor]
    exact hE.addevent _
  · change i < Function.update s.curr k (s.curr k + 1) j + Function.update s.wait k (s.wait k - 1) j at hi
    rw [Function.update_apply, Function.update_apply] at hi
    split at hi
    · rename_i hj
      rw [hj]
      omega
    · exact hi

theorem Vars.Same.dispatchNext (h : s.Same s') : s.dispatchNext.Same s'.dispatchNext := by
  have hchoose : s'.choose = s.choose := by
    rw [h.rest]
    rfl
  unfold Vars.dispatchNext
  rw [hchoose]
  cases hc : s.choose with
  | none => exact h
  | some k => exact h.see (choose_some hc).2.2.1

theorem Vars.Same.receive (h : s.Same s') (hr : Rooms s) (k : Kind) (e : Event) : (s.receive k e).Same (s'.receive k e) := by
  have href : (s'.arrive k e).refusal k = (s.arrive k e).refusal k := by
    rw [h.rest]
    rfl
  cases hl : (s.arrive k e).refusal k with
  | some l =>
    rw [receive_refused hl, receive_refused (href.trans hl)]
    exact ⟨h.E, h.queue, by rw [h.rest]; rfl⟩
  | none =>
    rw [receive_admitted hl, receive_admitted (href.trans hl)]
    obtain ⟨hend, hfull⟩ := refusal_none hl
    have hall : s.curr k + s.wait k = s.cnt k := (hr.admitted hend k).trans (admits_succ_of_not_full hfull).2
    have hcnt : s'.cnt = s.cnt := by rw [h.rest]
    refine Vars.Same.dispatchNext ⟨h.E, fun j i hi => ?_, by rw [h.rest]; rfl⟩
    show Function.update s'.queue k (Function.update (s'.queue k) (Function.update s'.cnt k (s'.cnt k + 1) k - 1) e) j i =
      Function.update s.queue k (Function.update (s.queue k) (Function.update s.cnt k (s.cnt k + 1) k - 1) e) j i
    change i < s.curr j + Function.update s.wait k (s.wait k + 1) j at hi
    rw [hcnt, Function.update_self, Nat.add_sub_cancel]
    by_cases hj : j = k
    · rw [hj] at hi ⊢
      rw [Function.update_self] at hi
      rw [Function.update_self, Function.update_self, Function.update_apply, Function.update_apply]
      split
      · rfl
      · exact h.queue k i (by omega)
    · rw [Function.update_of_ne hj] at hi
      rw [Function.update_of_ne hj, Function.update_of_ne hj]
      exact h.queue j i hi

theorem Vars.Same.doctorFree (h : s.Same s') : s.doctorFree.Same s'.doctorFree := by
  have hover : s'.free.sessionOver = s.free.sessionOver := by
    rw [h.rest]
    rfl
  have hfree : s.free.Same s'.free := ⟨h.E, h.queue, by rw [h.rest]; rfl⟩
  unfold Vars.doctorFree
  rw [hover]
  split
  · exact ⟨h.E, h.queue, by rw [h.rest]; rfl⟩
  · exact hfree.dispatchNext

theorem Vars.Same.turn (h : s.Same s') (hr : Rooms s) {t : Vars} (hst : Session.turn s = some t) :
    ∃ t', Session.turn s' = some t' ∧ t.Same t' := by
  have hpop : ∀ time, (s.pop.setTime time).Same (s'.pop.setTime time) := fun time =>
    ⟨h.E.delevent, h.queue, by rw [h.rest]; rfl⟩
  obtain ⟨hne, hcases⟩ := turn_cases hst
  have hturn : Session.turn s' = some (s'.pop.handle (nextevent s'.E)) :=
    turn_handle (h.E.emptyQ.trans hne) (by
      rw [h.E.nextevent]
      obtain ⟨hl, -⟩ | ⟨k, hl, -⟩ := hcases <;> rw [hl] <;> exact fun e => by cases e)
  refine ⟨_, hturn, ?_⟩
  rw [h.E.nextevent]
  obtain ⟨hl, rfl⟩ | ⟨k, hl, rfl⟩ := hcases
  · rw [handle_done hl]
    exact (hpop _).doctorFree
  · rw [handle_visitor hl]
    exact (hpop _).receive ⟨hr.came, hr.durations, hr.queued, hr.admitted, hr.ended, hr.le⟩ k _

theorem same_init (file : List Event) (Q Q' : ℕ → Event) : (Vars.init file Q).Same (Vars.init file Q') where
  E := (same_initEQ file Q Q').addevent _
  queue _ i hi := absurd hi (Nat.not_lt_zero i)
  rest := rfl

/-- **Main alone prints one sequence of lines**, whatever stands in memory before. -/
theorem end_same {file : List Event} (hfile : Arrivals file) {Q Q' : ℕ → Event}
    (h : Reachable mainLoop (Vars.init file Q) s) (h' : Reachable mainLoop (Vars.init file Q') s')
    (he : emptyQ s.E = true) (he' : emptyQ s'.E = true) : s'.out = s.out := by
  -- the runs are the same turn by turn, and neither goes beyond the end of the other
  have hrun : ∀ t, Reachable mainLoop (Vars.init file Q) t →
      ∃ t', t.Same t' ∧ Reachable mainLoop t' s' := fun t ht => by
    induction ht with
    | refl => exact ⟨_, same_init file Q Q', h'⟩
    | @tail t u ht hst ih =>
      obtain ⟨t', hsame, hreach⟩ := ih
      obtain ⟨⟨⟩, hturn⟩ := hst
      obtain ⟨u', hturn', hsame'⟩ := hsame.turn (sound_of_reachable hfile ht).inv.rooms hturn
      refine ⟨u', hsame', ?_⟩
      obtain rfl | ⟨v, ⟨⟨⟩, hv⟩, hrest⟩ := Relation.ReflTransGen.cases_head hreach
      · rw [turn, if_pos he'] at hturn'
        cases hturn'
      · rw [mainLoop, hturn'] at hv
        cases hv
        exact hrest
  obtain ⟨t', hsame, hreach⟩ := hrun s h
  obtain rfl | ⟨v, ⟨⟨⟩, hv⟩, -⟩ := Relation.ReflTransGen.cases_head hreach
  · rw [hsame.rest]
  · rw [mainLoop, turn, if_pos (hsame.E.emptyQ.trans he)] at hv
    cases hv

end Same

/-! ### The lines of the visits -/

namespace Line

def calling : Line → Bool
  | nextVisitor _ => true
  | _ => false

end Line

/-- Each line of the doctor is followed by that of the visitor, one pair for each visit and in their order. -/
inductive Announced : List Line → List Visit → Prop where
  | nil : Announced [] []
  | line {l : Line} {out : List Line} {visits : List Visit} (hl : l.calling = false) (h : Announced out visits) :
    Announced (l :: out) visits
  | visit {out : List Line} {visits : List Visit} (v : Visit) (h : Announced out visits) :
    Announced (.nextVisitor v.start :: .inChamber v.start (int32 v.stop) v.kind v.number :: out) (v :: visits)

section Announced

variable {s s' : Vars} {out out' : List Line} {visits visits' : List Visit}

theorem Announced.append (h : Announced out visits) (h' : Announced out' visits') :
    Announced (out ++ out') (visits ++ visits') := by
  induction h with
  | nil => exact h'
  | line hl _ ih => exact ih.line hl
  | visit v _ ih => exact ih.visit v

theorem Announced.snoc (h : Announced out visits) {l : Line} (hl : l.calling = false) : Announced (out ++ [l]) visits := by
  have happ := h.append (Announced.nil.line hl)
  rwa [List.append_nil] at happ

/-- **The line after the doctor's** is that of the visitor he was told of. -/
theorem Announced.next (h : Announced out visits) {l₁ l₂ : List Line} {time : ℤ}
    (hout : out = l₁ ++ .nextVisitor time :: l₂) :
    ∃ v l₃, visits[l₁.countP Line.calling]? = some v ∧ time = v.start ∧
      l₂ = .inChamber v.start (int32 v.stop) v.kind v.number :: l₃ := by
  induction h generalizing l₁ with
  | nil => simp at hout
  | line hl _ ih =>
    cases l₁ with
    | nil =>
      cases hout
      cases hl
    | cons l l₁ =>
      obtain ⟨rfl, hrest⟩ := List.cons.inj hout
      rw [List.countP_cons_of_neg (by rw [hl]; exact Bool.false_ne_true)]
      exact ih hrest
  | visit v _ ih =>
    cases l₁ with
    | nil =>
      cases hout
      exact ⟨v, _, rfl, rfl, rfl⟩
    | cons l l₁ =>
      obtain ⟨rfl, hrest⟩ := List.cons.inj hout
      cases l₁ with
      | nil => cases hrest
      | cons l l₁ =>
        obtain ⟨rfl, hout'⟩ := List.cons.inj hrest
        rw [List.countP_cons_of_pos rfl, List.countP_cons_of_neg Bool.false_ne_true]
        exact ih hout'

theorem Announced.dispatchNext (h : Announced s.out s.visits) : Announced s.dispatchNext.out s.dispatchNext.visits := by
  unfold Vars.dispatchNext
  cases hc : s.choose with
  | none => exact h
  | some k =>
    have hvisit := h.append (Announced.nil.visit ⟨k, s.curr k + 1, s.currTime, (s.visitor k).duration⟩)
    show Announced (s.out ++ [.nextVisitor s.currTime] ++ [_]) _
    rw [List.append_assoc]
    exact hvisit

theorem Announced.turn (h : Announced s.out s.visits) (hst : Session.turn s = some s') : Announced s'.out s'.visits := by
  obtain ⟨-, ⟨-, rfl⟩ | ⟨k, -, rfl⟩⟩ := turn_cases hst
  · unfold Vars.doctorFree
    split
    · exact h.snoc rfl
    · exact Announced.dispatchNext (s := (s.pop.setTime (nextevent s.E).time).free) h
  · cases href : ((s.pop.setTime (nextevent s.E).time).arrive k (nextevent s.E)).refusal k with
    | some l =>
      rw [receive_refused href]
      refine (h.snoc (l := .arrives _ k _) rfl).snoc ?_
      unfold Vars.refusal at href
      split at href
      · cases href
        rfl
      · split at href
        · cases href
          rfl
        · cases href
    | none =>
      rw [receive_admitted href]
      exact Announced.dispatchNext (s := Vars.enqueue _ k _ _) (h.snoc (l := .arrives _ k _) rfl)

theorem announced_of_reachable {file : List Event} {Q : ℕ → Event} (h : Reachable mainLoop (Vars.init file Q) s) :
    Announced s.out s.visits :=
  reachable_inv (fun s : Vars => Announced s.out s.visits) Announced.nil (fun _ _ _ _ hs hst => hs.turn hst) h

end Announced

end Session
end OsLab
