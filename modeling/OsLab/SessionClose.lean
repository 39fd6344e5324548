import OsLab.SessionEnds
import OsLab.SessionSchedule
/-!
# SessionClose — the end of main, and every interleaving

A doctor who has left is no hindrance to main's end.  One who has not waits at `doc_cond`, and when main gets there both are
blocked (`left_behind`).  So whether the order of the threads matters depends on the file: it does not exactly when there are
visitors enough for a whole session, and no end of a visit overflows (`interleavings_iff`).
-/
namespace OsLab
namespace Session

open DecimalText (int32 IsInt int32_of_isInt isInt_int32)

section Close

variable {file : List Event} {Q : ℕ → Event} {s s' t : State} {v w : Vars}

theorem Talk.left : ∀ d p, Talk .quiet d p true = true → p = .finished := by decide

theorem Talk.stays : ∀ d p, Talk .quiet d p false = true → d = .notBusy ∧ ∃ w, p = .await w := by decide

theorem MainPc.phase_closing {pc : MainPc} (h : pc.closing = true) : pc.phase = .quiet := by
  cases pc <;> first | rfl | cases h

/-! ### When the loop has ended -/

/-- The end of a session that had visitors enough. -/
theorem Sound.all_seen {v : Vars} (h : Sound file v) (hend : emptyQ v.E = true) (hp : 25 ≤ ofKind .patient file)
    (hs : 3 ≤ ofKind .salesrep file) : v.docSessionEnd = true ∧ v.curr .patient = 25 ∧ v.curr .salesrep = 3 := by
  have hcnt := fun k => h.conserved.cnt_eq h.inv.rooms hend k
  have hcp : 25 ≤ v.cnt .patient := (hcnt .patient).symm ▸ hp
  have hcs : 3 ≤ v.cnt .salesrep := (hcnt .salesrep).symm ▸ hs
  cases he : v.docSessionEnd with
  | true =>
    obtain ⟨h25, h3, -⟩ := h.inv.rooms.ended he
    exact ⟨rfl, h25, h3⟩
  | false =>
    -- had he stayed, his last line would be missing
    have hleaves := h.leaves_iff hend
    rw [if_pos ⟨hcp, hcs⟩, List.countP_eq_zero.2 fun l hl => by rw [h.told.present he l hl]; exact Bool.false_ne_true] at hleaves
    cases hleaves

/-- The end of one that had not. -/
theorem Sound.stays (h : Sound file v) (hfew : ¬ (25 ≤ ofKind .patient file ∧ 3 ≤ ofKind .salesrep file)) :
    v.docSessionEnd = false := by
  cases he : v.docSessionEnd with
  | false => rfl
  | true =>
    obtain ⟨h25, h3, -⟩ := h.inv.rooms.ended he
    have hp := h.conserved.cnt_le h.inv.rooms.came .patient
    have hs := h.conserved.cnt_le h.inv.rooms.came .salesrep
    have hple := h.inv.rooms.le .patient
    have hsle := h.inv.rooms.le .salesrep
    omega

/-- **The doctor has left** when main ends, if there were visitors enough. -/
theorem Good.doctor_left (hfile : Arrivals file) (h : Good file Q s) (hm : s.main.closing = true)
    (hp : 25 ≤ ofKind .patient file) (hs : 3 ≤ ofKind .salesrep file) : s.doctor = .finished := by
  obtain ⟨hreach, hend⟩ := h.closed hm
  have htalk := h.talk
  unfold State.talk at htalk
  rw [MainPc.phase_closing hm, ((sound_of_reachable hfile hreach).all_seen hend hp hs).1] at htalk
  exact Talk.left _ _ htalk

/-- Otherwise he waits to be called. -/
theorem Good.doctor_stays (hfile : Arrivals file) (h : Good file Q s) (hm : s.main.closing = true)
    (hfew : ¬ (25 ≤ ofKind .patient file ∧ 3 ≤ ofKind .salesrep file)) :
    s.docState = .notBusy ∧ ∃ w, s.doctor = .await w := by
  have htalk := h.talk
  unfold State.talk at htalk
  rw [MainPc.phase_closing hm, (sound_of_reachable hfile (h.closed hm).1).stays hfew] at htalk
  exact Talk.stays _ _ htalk

/-! ### Main comes to its end -/

/-- Main leaves its loop at the head of it, and has then everything to destroy. -/
theorem closing_step (hst : mainStep s s.main = some s') (hm : s.main.closing = false) :
    s'.main.closing = false ∨ s'.main = .destroy resources := by
  cases hpc : s.main with
  | head =>
    rw [hpc, mainStep] at hst
    obtain rfl := Option.some.inj hst
    split
    · exact Or.inr rfl
    · exact Or.inl rfl
  | lockEvent e =>
    rw [hpc] at hst
    obtain ⟨-, rfl⟩ := lock_map hst
    obtain ⟨-, -, hs'⟩ | ⟨-, -, hs'⟩ | ⟨k, l, -, -, hs'⟩ | ⟨k, -, -, hs'⟩ | ⟨-, hs'⟩ := event_cases _ e
    all_goals
      rw [hs']
      exact Or.inl rfl
  | lockAgain | lockDispatch =>
    rw [hpc] at hst
    obtain ⟨-, rfl⟩ := lock_map hst
    obtain ⟨k, -, hs'⟩ | ⟨-, hs'⟩ := dispatch_cases { s with holder := Function.update s.holder .mutex (some .main) }
    all_goals
      rw [hs']
      exact Or.inl rfl
  | awaitInit w k a | awaitDone w k v =>
    rw [hpc, mainStep] at hst
    obtain ⟨rfl, -, -, rfl⟩ | ⟨rfl, -, -, rfl⟩ | ⟨rfl, -, rfl⟩ := await_some hst
    all_goals exact Or.inl rfl
  | joinDoctor | create k a =>
    rw [hpc] at hst
    obtain ⟨-, hst⟩ := Option.ite_none_right_eq_some.1 hst
    cases hst
    exact Or.inl rfl
  | join k v id time =>
    rw [hpc] at hst
    obtain ⟨who, -, hst⟩ := Option.bind_eq_some_iff.1 hst
    obtain ⟨-, hst⟩ := Option.ite_none_right_eq_some.1 hst
    cases hst
    exact Or.inl rfl
  | signalLast | signalDoc k v | broadcast k v id =>
    rw [hpc] at hst
    cases hst
    exact Or.inl rfl
  | destroy left | finished =>
    rw [hpc] at hm
    cases hm
  | _ =>
    rw [hpc] at hst
    first
      | obtain ⟨-, rfl⟩ := lock_map hst
      | obtain ⟨-, rfl⟩ := unlock_map hst
    exact Or.inl rfl

theorem MainPc.closing_wakeDone (pc : MainPc) : pc.wakeDone.closing = pc.closing := by cases pc <;> rfl

theorem MainPc.closing_wakeInit (pc : MainPc) (k : Kind) : (pc.wakeInit k).closing = pc.closing := by cases pc <;> rfl

/-- The others do not move main but for waking it up. -/
theorem closing_doctor (hst : doctor s s.doctor = some s') : s'.main.closing = s.main.closing := by
  cases hpc : s.doctor with
  | await w =>
    rw [hpc, doctor] at hst
    obtain ⟨rfl, -, -, rfl⟩ | ⟨rfl, -, -, rfl⟩ | ⟨rfl, -, rfl⟩ := await_some hst
    all_goals rfl
  | lockMutex =>
    rw [hpc] at hst
    obtain ⟨-, rfl⟩ := lock_map hst
    split <;> rfl
  | signalDone =>
    rw [hpc] at hst
    cases hst
    exact MainPc.closing_wakeDone _
  | finished =>
    rw [hpc] at hst
    cases hst
  | _ =>
    rw [hpc] at hst
    obtain ⟨-, rfl⟩ := unlock_map hst
    rfl

theorem closing_visit {k : Kind} {i : ℕ} (hst : visit k i s (s.visitor (k, i)) = some s') :
    s'.main.closing = s.main.closing := by
  cases hpc : s.visitor (k, i) with
  | start =>
    rw [hpc] at hst
    unfold visit at hst
    simp only at hst
    split at hst
    all_goals
      cases hst
      rfl
  | signalInit a =>
    rw [hpc] at hst
    cases hst
    exact MainPc.closing_wakeInit _ _
  | lockInit a =>
    rw [hpc] at hst
    obtain ⟨-, rfl⟩ := lock_map hst
    rfl
  | unlockInit a | unlockTurn =>
    rw [hpc] at hst
    obtain ⟨-, rfl⟩ := unlock_map hst
    rfl
  | await w a =>
    rw [hpc, visit] at hst
    obtain ⟨rfl, -, -, rfl⟩ | ⟨rfl, -, -, rfl⟩ | ⟨rfl, -, rfl⟩ := await_some hst
    all_goals rfl
  | _ =>
    rw [hpc] at hst
    cases hst

/-- **Main comes to the end of its loop**: with the threads stopped when it does, they stop. -/
theorem exists_close (hfile : Arrivals file) (Q : ℕ → Event) :
    ∃ s, Reachable Session.next (State.init file Q) s ∧ s.main = .destroy resources := by
  let untilEnd := restricted (fun (_ : Party) (s : State) => s.main.closing = false) proceed
  have hstep : ∀ p u u', untilEnd p u = some u' → u.main.closing = false ∧ Session.next (.go p) u = some u' :=
    fun p u u' hu => restricted_some.1 hu
  have hfinite : ¬ InfiniteRun untilEnd (State.init file Q) :=
    not_infinite_of_lt (fun t => Good file Q t ∧ Numbered file.length t) ⟨Good.init file Q, fun _ _ => rfl⟩
      (State.effort file.length) fun p u u' hu hst =>
        ⟨⟨hu.1.next hfile (hstep p u u' hst).2, hu.2.next hfile hu.1 (hstep p u u' hst).2⟩,
          effort_lt hfile hu.1 hu.2 (hstep p u u' hst).2⟩
  obtain ⟨t, ht, hstuck⟩ := exists_stuck hfinite (Reachable.refl _ _)
  have hreach : Reachable Session.next (State.init file Q) t :=
    reachable_inv (fun t => Reachable Session.next (State.init file Q) t) (Reachable.refl _ _)
      (fun p u u' _ hr hst => hr.step (hstep p u u' hst).2) ht
  have hclose : t.main.closing = true → t.main = .destroy resources := by
    refine reachable_inv (fun t : State => t.main.closing = true → t.main = .destroy resources) (fun h => by cases h)
      (fun p u u' _ _ hst h => ?_) ht
    obtain ⟨hopen, hst⟩ := hstep p u u' hst
    cases p with
    | main => exact (closing_step hst hopen).resolve_left (by rw [h]; exact Bool.false_ne_true.symm)
    | doctor =>
      rw [closing_doctor hst, hopen] at h
      cases h
    | visitor who =>
      rw [closing_visit ((visitorStep_eq u who _).symm.trans hst), hopen] at h
      cases h
  refine ⟨t, hreach, hclose ?_⟩
  by_contra hopen
  have hopen : t.main.closing = false := by simpa using hopen
  obtain ⟨p, hp⟩ := (good_of_reachable hfile hreach).alive hfile (fun hm => by rw [hm] at hopen; cases hopen)
    fun left hm => by rw [hm] at hopen; cases hopen
  have hstop : untilEnd p t = none := hstuck p
  change (if t.main.closing = false then next (.go p) t else none) = none at hstop
  rw [if_pos hopen] at hstop
  exact absurd hstop (Option.isSome_iff_ne_none.1 hp)

/-! ### A doctor who is left behind -/

/-- While main is about to destroy everything, a doctor who is not called falls asleep. -/
theorem falls_asleep (hfile : Arrivals file) (h : Reachable Session.next (State.init file Q) s)
    (hm : s.main = .destroy resources) (hfew : ¬ (25 ≤ ofKind .patient file ∧ 3 ≤ ofKind .salesrep file)) :
    ∃ t, Reachable Session.next (State.init file Q) t ∧ t.main = .destroy resources ∧ t.doctor = .await .asleep := by
  have hclosing : ∀ {u : State}, u.main = .destroy resources → u.main.closing = true := fun hu => by rw [hu]; rfl
  -- from `wait` he unlocks `doc_mutex` and sleeps
  have hwait : ∀ u, Reachable Session.next (State.init file Q) u → u.main = .destroy resources → u.doctor = .await .wait →
      ∃ t, Reachable Session.next (State.init file Q) t ∧ t.main = .destroy resources ∧ t.doctor = .await .asleep :=
    fun u hu hum hud => by
      have hheld := ((good_of_reachable hfile hu).locked .docMutex .doctor).2 (inside_doctor hud .docMutex)
      obtain ⟨t, ht⟩ := Option.isSome_iff_exists.1 (doctor_goes hud (unlock_goes hheld))
      have hst := ht
      change doctor u u.doctor = some t at hst
      rw [hud] at hst
      obtain ⟨-, rfl⟩ := unlock_map hst
      exact ⟨_, hu.step ht, hum, rfl⟩
  have hgood := good_of_reachable hfile h
  obtain ⟨hquiet, w, hdoc⟩ := hgood.doctor_stays hfile (hclosing hm) hfew
  cases w with
  | asleep => exact ⟨s, h, hm, hdoc⟩
  | wait => exact hwait s h hm hdoc
  | lock =>
    have hfree : s.holder .docMutex = none :=
      (hgood.locked.docMutex (by rw [hm]; rfl)).resolve_right (by rw [hdoc]; exact Bool.false_ne_true)
    obtain ⟨t, ht⟩ := Option.isSome_iff_exists.1 (doctor_goes hdoc (lock_goes hfree (by rw [hm]; rfl)))
    have hst := ht
    change doctor s s.doctor = some t at hst
    rw [hdoc] at hst
    obtain ⟨-, rfl⟩ := lock_map hst
    refine hwait _ (h.step ht) ?_ ?_
    · rw [hquiet]
      exact hm
    · rw [hquiet]
      rfl

/-- **A doctor who has not left is left behind**: he is asleep at `doc_cond` when main is to destroy it, and nobody goes on. -/
theorem left_behind (hfile : Arrivals file) (Q : ℕ → Event)
    (hfew : ¬ (25 ≤ ofKind .patient file ∧ 3 ≤ ofKind .salesrep file)) :
    ∃ s, Reachable Session.next (State.init file Q) s ∧ s.main ≠ .finished ∧ s.doctor = .await .asleep ∧ Stuck proceed s := by
  obtain ⟨s₀, h₀, hm₀⟩ := exists_close hfile Q
  obtain ⟨s, h, hm, hdoc⟩ := falls_asleep hfile h₀ hm₀ hfew
  have h₁ : Reachable Session.next (State.init file Q) (s.goMain (.destroy resources.tail)) :=
    h.step (a := .go .main) (by change mainStep s s.main = _; rw [hm]; rfl)
  have h₂ : Reachable Session.next (State.init file Q) (s.goMain (.destroy resources.tail.tail)) :=
    h₁.step (a := .go .main) rfl
  refine ⟨_, h₂, fun hm => (by cases hm), hdoc, fun p => ?_⟩
  cases p with
  | main =>
    change (if decide (s.doctor = .await .asleep) = true then none else _) = none
    rw [hdoc]
    rfl
  | doctor =>
    change doctor _ s.doctor = none
    rw [hdoc]
    rfl
  | visitor who =>
    obtain ⟨k, i⟩ := who
    have hgone := (good_of_reachable hfile h₂).visitors_gone hfile rfl k i
    refine (visitorStep_eq _ (k, i) _).trans ?_
    obtain hv | hv := hgone <;> rw [hv] <;> rfl

/-! ### The lines of a complete run -/

/-- The visits of main alone are those of its end. -/
theorem visits_end (hv : Reachable mainLoop (Vars.init file Q) v) (hw : Reachable mainLoop (Vars.init file Q) w)
    (hend : emptyQ w.E = true) {x : Visit} (hx : x ∈ v.visits) : x ∈ w.visits := by
  have hright : Relator.RightUnique (Steps mainLoop) := fun a b c hb hc => by
    obtain ⟨⟨⟩, hb⟩ := hb
    obtain ⟨⟨⟩, hc⟩ := hc
    exact Option.some.inj (hb.symm.trans hc)
  have hrun : Reachable mainLoop v w := by
    obtain hvw | hwv := Relation.ReflTransGen.total_of_right_unique hright hv hw
    · exact hvw
    · obtain rfl | ⟨u, ⟨⟨⟩, hu⟩, -⟩ := Relation.ReflTransGen.cases_head hwv
      · exact Reachable.refl _ _
      · rw [mainLoop, turn, if_pos hend] at hu
        cases hu
  refine reachable_inv (fun u : Vars => x ∈ u.visits) hx (fun _ u u' _ hu hst => ?_) hrun
  have hdispatch : ∀ u : Vars, x ∈ u.visits → x ∈ u.dispatchNext.visits := fun u hu => by
    unfold Vars.dispatchNext
    cases u.choose with
    | none => exact hu
    | some k => exact List.mem_append_left _ hu
  obtain ⟨-, ⟨-, rfl⟩ | ⟨k, -, rfl⟩⟩ := turn_cases hst
  · unfold Vars.doctorFree
    split
    · exact hu
    · exact hdispatch (u.pop.setTime (nextevent u.E).time).free hu
  · cases href : ((u.pop.setTime (nextevent u.E).time).arrive k (nextevent u.E)).refusal k with
    | some l =>
      rw [receive_refused href]
      exact hu
    | none =>
      rw [receive_admitted href]
      exact hdispatch (Vars.enqueue _ k _ _) hu

/-- Every visit has its two lines. -/
theorem Announced.of_visit {out : List Line} {visits : List Visit} (h : Announced out visits) {i : ℕ} {x : Visit}
    (hx : visits[i]? = some x) : ∃ l₁ l₂, l₁.countP Line.calling = i ∧
      out = l₁ ++ .nextVisitor x.start :: .inChamber x.start (int32 x.stop) x.kind x.number :: l₂ := by
  induction h generalizing i with
  | nil => cases hx
  | @line l out visits hl _ ih =>
    obtain ⟨l₁, l₂, hi, rfl⟩ := ih hx
    exact ⟨l :: l₁, l₂, by rw [List.countP_cons_of_neg (by rw [hl]; exact Bool.false_ne_true), hi], rfl⟩
  | @visit out visits y _ ih =>
    cases i with
    | zero =>
      cases hx
      exact ⟨[], out, rfl, rfl⟩
    | succ i =>
      obtain ⟨l₁, l₂, hi, rfl⟩ := ih hx
      refine ⟨.nextVisitor y.start :: .inChamber y.start (int32 y.stop) y.kind y.number :: l₁, l₂, ?_, rfl⟩
      rw [List.countP_cons_of_pos rfl, List.countP_cons_of_neg Bool.false_ne_true, hi]

end Close

/-- What is to hold in every state that the threads of a session come to.  Until main has finished some thread can go on; all
runs in which it finishes print the same lines, whatever stood in memory; and in them the line after the doctor's is the line
of the visitor that main has called, the visits in their order, from the time of the call for as long as the visitor's own
record says. -/
structure Orderly (file : List Event) (s : State) : Prop where
  goesOn : s.main ≠ .finished → ∃ p t, next (.go p) s = some t
  same : s.main = .finished → ∀ Q' t, Reachable next (State.init file Q') t → t.main = .finished → t.vars.out = s.vars.out
  announced : s.main = .finished → ∀ l₁ time l₂, s.vars.out = l₁ ++ Line.nextVisitor time :: l₂ →
    ∃ v l₃ e, s.vars.visits[l₁.countP Line.calling]? = some v ∧ time = v.start ∧
      l₂ = Line.inChamber v.start v.stop v.kind v.number :: l₃ ∧
      (s.vars.came v.kind)[v.number - 1]? = some e ∧ v.duration = e.duration

section Interleavings

variable {file : List Event} {Q : ℕ → Event} {s : State}

theorem orderly (hfile : Arrivals file) (hp : 25 ≤ ofKind .patient file) (hs : 3 ≤ ofKind .salesrep file)
    (hin : ∀ v, Reachable mainLoop (Vars.init file Q) v → InTime v.visits)
    (h : Reachable next (State.init file Q) s) : Orderly file s := by
  have hgood := good_of_reachable hfile h
  refine ⟨fun hne => ?_, fun hm Q' t ht htm => ?_, fun hm l₁ time l₂ hout => ?_⟩
  · obtain ⟨p, hgo⟩ := hgood.alive hfile hne fun left hm hdoc => by
      rw [hgood.doctor_left hfile (by rw [hm]; rfl) hp hs] at hdoc
      cases hdoc
    obtain ⟨t, ht⟩ := Option.isSome_iff_exists.1 hgo
    exact ⟨p, t, ht⟩
  · obtain ⟨hmain, hend⟩ := hgood.closed (by rw [hm]; rfl)
    obtain ⟨hmain', hend'⟩ := (good_of_reachable hfile ht).closed (by rw [htm]; rfl)
    exact end_same hfile hmain hmain' hend hend'
  · obtain ⟨hmain, -⟩ := hgood.closed (by rw [hm]; rfl)
    obtain ⟨v, l₃, hv, htime, hl₂⟩ := (announced_of_reachable hmain).next hout
    have hmem := List.mem_of_getElem? hv
    have hvisited := (sound_of_reachable hfile hmain).inv.visited
    have htimely := timely_of_reachable hfile (fun u hu x hx => hin u hu x (List.mem_of_mem_dropLast hx)) hmain
    obtain ⟨e, he, hd⟩ := (hvisited.duration v hmem).2
    have hlo : -2 ^ 31 ≤ v.stop := by
      have hstart := htimely.start v hmem
      have hdur := hvisited.duration_nonneg hmem
      change -2 ^ 31 ≤ v.start + v.duration
      omega
    rw [int32_of_isInt ⟨hlo, hin _ hmain v hmem⟩] at hl₂
    exact ⟨v, l₃, e, hv, htime, hl₂, he, hd⟩

/-- The line of a visit tells its end only if that is an `int`. -/
theorem Orderly.inTime (h : Orderly file s) (hm : s.main = .finished) (hgood : Good file Q s) {v : Vars}
    (hv : Reachable mainLoop (Vars.init file Q) v) : InTime v.visits := by
  intro x hx
  obtain ⟨hmain, hend⟩ := hgood.closed (by rw [hm]; rfl)
  obtain ⟨i, hi⟩ := List.getElem?_of_mem (visits_end hv hmain hend hx)
  obtain ⟨l₁, l₂, hcount, hout⟩ := (announced_of_reachable hmain).of_visit hi
  obtain ⟨y, l₃, e, hy, -, hline, -⟩ := h.announced hm l₁ x.start _ hout
  rw [hcount, hi] at hy
  cases hy
  have hstop : int32 x.stop = x.stop := by injection (List.cons.inj hline).1
  change x.stop < 2 ^ 31
  rw [← hstop]
  exact (isInt_int32 x.stop).2

/-- **When the order of the threads does not matter**, for every arrival file and every order of the steps, wake-ups without a
signal included: exactly when the file has patients and sales representatives enough for the doctor to leave, and no visitor
is called at a time from which his stay leads past the greatest `int`. -/
theorem interleavings_iff (hfile : Arrivals file) (Q : ℕ → Event) :
    (∀ s, Reachable next (State.init file Q) s → Orderly file s) ↔
      25 ≤ ofKind .patient file ∧ 3 ≤ ofKind .salesrep file ∧
        ∀ s, Reachable mainLoop (Vars.init file Q) s → ∀ v ∈ s.visits, v.start + v.duration < 2 ^ 31 := by
  refine ⟨fun h => ?_, fun h s hr => orderly hfile h.1 h.2.1 h.2.2 hr⟩
  have hblocked : ∀ s, Reachable next (State.init file Q) s → Stuck proceed s → s.main = .finished := fun s hs hstuck => by
    by_contra hne
    obtain ⟨p, t, ht⟩ := (h s hs).goesOn hne
    exact absurd ((hstuck p).symm.trans ht) (by simp)
  have hmany : 25 ≤ ofKind .patient file ∧ 3 ≤ ofKind .salesrep file := by
    by_contra hfew
    obtain ⟨s, hs, hne, -, hstuck⟩ := left_behind hfile Q hfew
    exact hne (hblocked s hs hstuck)
  -- some run is complete
  obtain ⟨s, hs, hstuck⟩ := exists_stuck
    (effort_falls hfile (Good.init file Q) (fun _ _ => rfl)) (Reachable.refl proceed _)
  have hreach := reachable_proceed (Reachable.refl next (State.init file Q)) hs
  exact ⟨hmany.1, hmany.2, fun v hv =>
    (h s hreach).inTime (hblocked s hreach hstuck) (good_of_reachable hfile hreach) hv⟩

end Interleavings

/-- As many patients and sales representatives as the doctor sees, all at nine and for a minute each. -/
def fullArrivals : List Event := List.replicate 25 ⟨'P', 0, 1⟩ ++ List.replicate 3 ⟨'S', 0, 1⟩

theorem fullArrivals_ok : Arrivals fullArrivals := by
  intro e he
  rcases List.mem_append.1 he with he | he
  · rw [List.eq_of_mem_replicate he]
    exact ⟨⟨.patient, rfl⟩, by decide⟩
  · rw [List.eq_of_mem_replicate he]
    exact ⟨⟨.salesrep, rfl⟩, by decide⟩

theorem interleavings_iff_full : (ofKind .patient fullArrivals = 25 ∧ ofKind .salesrep fullArrivals = 3) ∧
    ∀ s, Reachable next (State.init fullArrivals (fun _ => ⟨'x', 0, 0⟩)) s → Orderly fullArrivals s :=
  ⟨by decide, (interleavings_iff fullArrivals_ok _).2 ⟨by decide, by decide, fun _ hs =>
    inTime_of_total fullArrivals_ok (T := 0) (by decide) (by decide) (by decide) (by decide) hs⟩⟩

/-- One patient alone: the doctor sees him, and waits for the next for ever. -/
theorem doctor_left_waiting : ¬ ∀ s, Reachable next (State.init oneArrival (fun _ => ⟨'x', 0, 0⟩)) s → Orderly oneArrival s := by
  intro h
  obtain ⟨s, hs, hne, -, hstuck⟩ := left_behind oneArrival_ok (fun _ => ⟨'x', 0, 0⟩) (by decide)
  obtain ⟨p, t, ht⟩ := (h s hs).goesOn hne
  exact absurd ((hstuck p).symm.trans ht) (by simp)

end Session
end OsLab
