import OsLab.MgrStep
/-!
# MgrRuns — what mgr keeps over any sequence of commands

`Place` says what the statement at hand relies on, and every statement keeps it (`Inv.step`).  From it follow the life cycle
of the job table (`life_cycle`), and that mgr has no job to signal at its prompt unless `k` has left one there
(`prompt_quiet`).
-/
namespace OsLab
namespace Mgr

variable {s s' : State} {e : Event} {i op num code : ℕ} {m : Menu} {pid : ℤ} {letter : Fin 26} {st : Status}

/-! ### Steps -/

@[simp] theorem goto_pc (pc : Pc) : (s.goto pc).pc = pc := rfl

/-- **What a step is**: the handler, or a statement of `main`. -/
theorem next_cases (h : next e s = some s') :
    (∃ tstp, s' = signalHandler s (if tstp = true then .tstp else .int)) ∨ mainStep s s.pc e = some s' := by
  unfold next at h
  split at h
  · cases h
  · exact Or.inl ⟨_, (Option.some.inj h).symm⟩
  · exact Or.inr h

/-- The handler only prints or sends. -/
theorem signalHandler_frame (s : State) (sig : Signal) :
    (signalHandler s sig).pc = s.pc ∧ (signalHandler s sig).jobId = s.jobId ∧ (signalHandler s sig).PT = s.PT ∧
      (signalHandler s sig).temp = s.temp ∧ (signalHandler s sig).runningJobPid = s.runningJobPid := by
  unfold signalHandler
  split <;> exact ⟨rfl, rfl, rfl, rfl, rfl⟩

/-- `temp` holds suspended jobs of those looked at, as many as were found. -/
theorem collect_spec (PT : ℕ → Process) : ∀ (is : List ℕ) (r : (ℕ → ℕ) × ℕ),
    r.2 ≤ (collect PT is r).2 ∧ (collect PT is r).2 ≤ r.2 + is.length ∧
      (∀ k < r.2, (collect PT is r).1 k = r.1 k) ∧
      ∀ k, r.2 ≤ k → k < (collect PT is r).2 → (collect PT is r).1 k ∈ is ∧ (PT ((collect PT is r).1 k)).status = .suspended
  | [], r => ⟨Nat.le_refl _, Nat.le_refl _, fun _ _ => rfl, fun k hk hk' => absurd hk' (Nat.not_lt.2 hk)⟩
  | i :: is, r => by
    unfold collect
    split
    · rename_i hi
      obtain ⟨hle, hlen, hold, hnew⟩ := collect_spec PT is (Function.update r.1 r.2 i, r.2 + 1)
      have hat : (collect PT is (Function.update r.1 r.2 i, r.2 + 1)).1 r.2 = i :=
        (hold r.2 (Nat.lt_succ_self _)).trans (Function.update_self _ _ _)
      refine ⟨Nat.le_of_succ_le hle, ?_, fun k hk => ?_, fun k hk hk' => ?_⟩
      · rw [List.length_cons]
        simp only at hlen
        omega
      · exact (hold k (Nat.lt_succ_of_lt hk)).trans (Function.update_of_ne (Nat.ne_of_lt hk) _ _)
      · rcases Nat.eq_or_lt_of_le hk with rfl | hlt
        · rw [hat]
          exact ⟨List.mem_cons_self, hi⟩
        · obtain ⟨hmem, hst⟩ := hnew k hlt hk'
          exact ⟨List.mem_cons_of_mem _ hmem, hst⟩
    · obtain ⟨hle, hlen, hold, hnew⟩ := collect_spec PT is r
      refine ⟨hle, Nat.le_trans hlen (Nat.add_le_add_left (Nat.le_succ _) _), hold, fun k hk hk' => ?_⟩
      obtain ⟨hmem, hst⟩ := hnew k hk hk'
      exact ⟨List.mem_cons_of_mem _ hmem, hst⟩

/-! ### The invariant -/

/-- The entry `i` is that of a suspended job. -/
def State.isJob (s : State) (i : ℕ) : Prop := i < s.jobId ∧ (s.PT i).status = .suspended

/-- No job below `i` is suspended any more. -/
def State.swept (s : State) (i : ℕ) : Prop := ∀ j < i, j < s.jobId → (s.PT j).status ≠ .suspended

/-- What the statement at hand relies on. -/
def Place (s : State) : Pc → Prop
  | .fork => s.jobId < 11
  | .setRunning pid _ => s.jobId < 11 ∧ ForkResult s pid
  | .wait pid _ => s.jobId < 11 ∧ pid ≠ (s.PT 0).pid
  | .reset pid _ st | .insert pid _ st => s.jobId < 11 ∧ pid ≠ (s.PT 0).pid ∧ st ≠ .self
  | .choose _ num => num ≤ 11 ∧ ∀ k < num, s.isJob (s.temp k)
  | .pick _ op | .waitCont op => s.isJob op
  | .send _ op => s.isJob op ∧ s.runningJobPid = (s.PT op).pid
  | .resetCont op st | .store op st => s.isJob op ∧ st ≠ .self
  | .sweep _ i => s.swept i
  | .sweepKill _ i | .sweepStore _ i => s.swept i ∧ s.isJob i
  | .exited _ => s.swept s.jobId
  | _ => True

structure Inv (s : State) : Prop where
  pos : 1 ≤ s.jobId
  le : s.jobId ≤ 11
  self : (s.PT 0).status = .self
  jobs : ∀ i, 0 < i → i < s.jobId → (s.PT i).pid ≠ (s.PT 0).pid
  place : Place s s.pc

/-- mgr itself is no job. -/
theorem Inv.job_pos (h : Inv s) (hj : s.isJob i) : 0 < i := by
  refine Nat.pos_of_ne_zero fun h0 => ?_
  rw [h0, State.isJob, h.self] at hj
  cases hj.2

theorem place_congr {pc : Pc} (hid : s'.jobId = s.jobId) (hPT : s'.PT = s.PT) (htemp : s'.temp = s.temp)
    (hrun : s'.runningJobPid = s.runningJobPid) : Place s' pc ↔ Place s pc := by
  cases pc <;> simp only [Place, State.isJob, State.swept, ForkResult, hid, hPT, htemp, hrun]

/-- A statement that leaves the table alone. -/
theorem Inv.keep (h : Inv s) (hid : s'.jobId = s.jobId) (hPT : s'.PT = s.PT) (hplace : Place s' s'.pc) : Inv s' where
  pos := by rw [hid]; exact h.pos
  le := by rw [hid]; exact h.le
  self := by rw [hPT]; exact h.self
  jobs := by rw [hid, hPT]; exact h.jobs
  place := hplace

/-- A new status for a job: nothing else of the table changes. -/
theorem setStatus_frame (s : State) (op : ℕ) (st : Status) (i : ℕ) :
    ((s.setStatus op st).PT i).pid = (s.PT i).pid ∧ ((s.setStatus op st).PT i).pgid = (s.PT i).pgid ∧
      ((s.setStatus op st).PT i).name = (s.PT i).name ∧
      ((s.setStatus op st).PT i).status = if i = op then st else (s.PT i).status := by
  unfold State.setStatus
  by_cases hi : i = op
  · subst hi
    simp
  · simp [hi]

theorem Inv.setStatus (h : Inv s) (hj : s.isJob op) {pc : Pc} (hplace : Place ((s.setStatus op st).goto pc) pc) :
    Inv ((s.setStatus op st).goto pc) where
  pos := h.pos
  le := h.le
  self := by
    show ((s.setStatus op st).PT 0).status = .self
    rw [(setStatus_frame s op st 0).2.2.2, if_neg (h.job_pos hj).ne]
    exact h.self
  jobs k hk hkj := by
    show ((s.setStatus op st).PT k).pid ≠ ((s.setStatus op st).PT 0).pid
    rw [(setStatus_frame s op st k).1, (setStatus_frame s op st 0).1]
    exact h.jobs k hk hkj
  place := hplace

theorem Inv.handler (h : Inv s) (sig : Signal) : Inv (signalHandler s sig) := by
  obtain ⟨hpc, hid, hPT, htemp, hrun⟩ := signalHandler_frame s sig
  refine h.keep hid hPT ?_
  rw [hpc, place_congr hid hPT htemp hrun]
  exact h.place

theorem Inv.command (h : Inv s) (c : Char) : Inv (command s c) := by
  unfold Mgr.command
  split_ifs <;> exact h.keep rfl rfl (by first | trivial | exact fun _ hj => absurd hj (Nat.not_lt_zero _))

theorem Inv.insert (h : Inv s) (hlt : s.jobId < 11) {p : Process} (hp : p.pid ≠ (s.PT 0).pid) :
    Inv ((setNewProcess s p).goto .top) := by
  have hold : ∀ i, i < s.jobId → (setNewProcess s p).PT i = s.PT i := fun i hi =>
    Function.update_of_ne (Nat.ne_of_lt hi) _ _
  have hzero := hold 0 h.pos
  refine ⟨Nat.le_succ_of_le h.pos, hlt, ?_, fun i hi hlt => ?_, trivial⟩
  · show ((setNewProcess s p).PT 0).status = .self
    rw [hzero]
    exact h.self
  · show ((setNewProcess s p).PT i).pid ≠ ((setNewProcess s p).PT 0).pid
    rw [hzero]
    rcases Nat.lt_succ_iff_lt_or_eq.1 hlt with hlt | rfl
    · rw [hold i hlt]
      exact h.jobs i hi hlt
    · rw [show (setNewProcess s p).PT s.jobId = p from Function.update_self _ _ _]
      exact hp

theorem isJob_of_listed (h : s.listed num op = true) (hjobs : ∀ k < num, s.isJob (s.temp k)) : s.isJob op := by
  obtain ⟨k, hk, hop⟩ := List.any_eq_true.1 h
  have hop : (s.temp k : ℤ) = op := of_decide_eq_true hop
  rw [← Int.ofNat.inj hop]
  exact hjobs k (List.mem_range.1 hk)

theorem Outcome.status_ne (o : Outcome) : o.status ≠ .self := by cases o <;> decide

/-- **Every statement of `main` keeps the invariant.** -/
theorem Inv.main (h : Inv s) (hst : mainStep s s.pc e = some s') : Inv s' := by
  have hplace := h.place
  have hnone : ∀ {t : State}, t.swept 0 := fun j hj => absurd hj (Nat.not_lt_zero j)
  cases hpc : s.pc with
  | top =>
    rw [hpc] at hst
    cases e <;> cases hst
    exact h.keep rfl rfl trivial
  | read =>
    rw [hpc] at hst
    cases e <;> cases hst
    exact h.command _
  | testFull =>
    rw [hpc] at hst
    cases e <;> cases hst
    split
    · exact h.keep rfl rfl hnone
    · exact h.keep rfl rfl (Nat.lt_of_le_of_ne h.le ‹_›)
  | fork =>
    rw [hpc] at hst hplace
    cases e <;> try cases hst
    obtain ⟨hfork, hst⟩ := Option.ite_none_right_eq_some.1 hst
    cases hst
    exact h.keep rfl rfl ⟨hplace, hfork⟩
  | setRunning pid letter =>
    rw [hpc] at hst hplace
    cases e <;> cases hst
    split
    · exact h.keep rfl rfl hnone
    · rename_i hneg
      exact h.keep rfl rfl ⟨hplace.1, (hplace.2.resolve_left (by omega)).2⟩
  | wait pid letter =>
    rw [hpc] at hst hplace
    cases e <;> cases hst
    exact h.keep rfl rfl ⟨hplace.1, hplace.2, Outcome.status_ne _⟩
  | reset pid letter st =>
    rw [hpc] at hst hplace
    cases e <;> cases hst
    exact h.keep rfl rfl hplace
  | insert pid letter st =>
    rw [hpc] at hst hplace
    cases e <;> cases hst
    exact h.insert hplace.1 hplace.2.1
  | collect m =>
    rw [hpc] at hst
    cases e <;> cases hst
    obtain ⟨-, hlen, -, hnew⟩ := collect_spec s.PT (List.range s.jobId) (s.temp, 0)
    rw [List.length_range, Nat.zero_add] at hlen
    split
    · exact h.keep rfl rfl trivial
    · refine h.keep rfl rfl ⟨Nat.le_trans hlen h.le, fun k hk => ?_⟩
      obtain ⟨hmem, hst⟩ := hnew k (Nat.zero_le k) hk
      exact ⟨List.mem_range.1 hmem, hst⟩
  | choose m num =>
    rw [hpc] at hst hplace
    cases e with
    | number op =>
      cases hst
      split
      · rename_i hlisted
        obtain ⟨k, -, hop⟩ := List.any_eq_true.1 hlisted
        have hop : (s.temp k : ℤ) = op := of_decide_eq_true hop
        have hnat : ((op.toNat : ℕ) : ℤ) = op := Int.toNat_of_nonneg (by omega)
        rw [← hnat] at hlisted
        exact h.keep rfl rfl (isJob_of_listed hlisted hplace.2)
      · exact h.keep rfl rfl trivial
    | _ => cases hst
  | pick m op =>
    rw [hpc] at hst hplace
    cases e <;> cases hst
    exact h.keep rfl rfl ⟨hplace, rfl⟩
  | send m op =>
    rw [hpc] at hst hplace
    cases e <;> cases hst
    cases m with
    | cont => exact h.keep rfl rfl hplace.1
    | kill => exact h.keep rfl rfl ⟨hplace.1, by decide⟩
  | waitCont op =>
    rw [hpc] at hst hplace
    cases e <;> cases hst
    exact h.keep rfl rfl ⟨hplace, Outcome.status_ne _⟩
  | resetCont op st =>
    rw [hpc] at hst hplace
    cases e <;> cases hst
    exact h.keep rfl rfl hplace
  | store op st =>
    rw [hpc] at hst hplace
    cases e <;> cases hst
    exact h.setStatus hplace.1 trivial
  | sweep code i =>
    rw [hpc] at hst hplace
    cases e <;> cases hst
    refine h.keep rfl rfl ?_
    split
    · rename_i hi
      split
      · rename_i hs
        exact ⟨hplace, hi, hs⟩
      · rename_i hs
        intro j hj hlt
        rcases Nat.lt_succ_iff_lt_or_eq.1 hj with hj | rfl
        · exact hplace j hj hlt
        · exact hs
    · rename_i hi
      exact fun j hj hlt => hplace j (Nat.lt_of_lt_of_le hj (Nat.not_lt.1 hi)) hlt
  | sweepKill code i =>
    rw [hpc] at hst hplace
    cases e <;> cases hst
    exact h.keep rfl rfl hplace
  | sweepStore code i =>
    rw [hpc] at hst hplace
    cases e <;> cases hst
    refine h.setStatus hplace.2 fun j hj hlt => ?_
    show ((s.setStatus i .killed).PT j).status ≠ .suspended
    rw [(setStatus_frame s i .killed j).2.2.2]
    split
    · decide
    · exact hplace.1 j (Nat.lt_of_le_of_ne (Nat.le_of_lt_succ hj) ‹_›) hlt
  | exited code =>
    rw [hpc] at hst
    cases e <;> cases hst

theorem Inv.step (h : Inv s) (hst : next e s = some s') : Inv s' := by
  rcases next_cases hst with ⟨sig, rfl⟩ | hst
  · exact h.handler _
  · exact h.main hst

theorem start_inv (pid pgid : ℤ) : Inv (start pid pgid) where
  pos := Nat.le_refl 1
  le := (by decide : 1 ≤ 11)
  self := rfl
  jobs i hi hlt := absurd hlt (Nat.not_lt.2 hi)
  place := trivial

theorem reachable_run {pid pgid : ℤ} (h : Reachable next (start pid pgid) s) : Inv s :=
  reachable_inv Inv (start_inv pid pgid) (fun _ _ _ _ hi hst => hi.step hst) h

/-! ### The life cycle of the table -/

/-- The indices of `PT` that a statement uses. -/
def ptIndices (s : State) (e : Event) : List ℕ :=
  match s.pc with
  | .read => if e = .command 'p' then List.range s.jobId else []
  | .insert _ _ _ => [s.jobId]
  | .collect _ => List.range s.jobId
  | .pick _ op | .store op _ => [op]
  | .sweep _ i => if i < s.jobId then [i] else []
  | .sweepKill _ i | .sweepStore _ i => [i]
  | _ => []

/-- The indices of `temp` that a statement uses. -/
def tempIndices (s : State) : List ℕ :=
  match s.pc with
  | .collect _ => List.range (collect s.PT (List.range s.jobId) (s.temp, 0)).2
  | .choose _ num => List.range num
  | _ => []

/-- The job table in a state, in the next step and from there on: its indices are in range, mgr's own entry stays what it
is, an entry is never renamed, a status changes from SUSPENDED only, SIGCONT and SIGKILL go to suspended jobs only, and
none of these is left behind. -/
structure LifeCycle (s : State) : Prop where
  jobs : 1 ≤ s.jobId ∧ s.jobId ≤ 11
  indices : ∀ e, ∀ i ∈ ptIndices s e ++ tempIndices s, i < 11
  self : (s.PT 0).status = .self
  entries : ∀ t, Reachable next s t → s.jobId ≤ t.jobId ∧ ∀ i < s.jobId,
    (t.PT i).pid = (s.PT i).pid ∧ (t.PT i).pgid = (s.PT i).pgid ∧ (t.PT i).name = (s.PT i).name
  status : ∀ e t, next e s = some t → ∀ i < s.jobId, (t.PT i).status ≠ (s.PT i).status →
    (s.PT i).status = .suspended ∧ (t.PT i).status ∈ [.finished, .terminated, .suspended, .killed]
  signals : ∀ e t, next e s = some t → t.sent = s.sent ∨ ∃ p sig, t.sent = s.sent ++ [(p, sig)] ∧
    (sig = .cont ∨ sig = .kill → p ≠ (s.PT 0).pid ∧ ∃ i < s.jobId, (s.PT i).pid = p ∧ (s.PT i).status = .suspended)
  left : ∀ code, s.pc = .exited code → ∀ i < s.jobId, (s.PT i).status ≠ .suspended

/-- **What a step does to the table**: nothing, a new entry, or a new status for a job. -/
theorem Inv.table_step (h : Inv s) (hst : next e s = some s') :
    s'.jobId = s.jobId ∧ s'.PT = s.PT ∨
    (∃ p, s'.jobId = s.jobId + 1 ∧ s'.PT = Function.update s.PT s.jobId p) ∨
    ∃ op st, s.isJob op ∧ st ≠ .self ∧ s'.jobId = s.jobId ∧ s'.PT = (s.setStatus op st).PT := by
  have hplace := h.place
  rcases next_cases hst with ⟨sig, rfl⟩ | hst
  · obtain ⟨-, hid, hPT, -⟩ := signalHandler_frame s _
    exact Or.inl ⟨hid, hPT⟩
  cases hpc : s.pc with
  | insert pid letter st =>
    rw [hpc] at hst
    cases e <;> cases hst
    exact Or.inr (Or.inl ⟨_, rfl, rfl⟩)
  | store op st =>
    rw [hpc] at hst hplace
    cases e <;> cases hst
    exact Or.inr (Or.inr ⟨op, st, hplace.1, hplace.2, rfl, rfl⟩)
  | sweepStore code i =>
    rw [hpc] at hst hplace
    cases e <;> cases hst
    exact Or.inr (Or.inr ⟨i, .killed, hplace.2, by decide, rfl, rfl⟩)
  | fork =>
    rw [hpc] at hst
    cases e <;> try cases hst
    cases (Option.ite_none_right_eq_some.1 hst).2
    exact Or.inl ⟨rfl, rfl⟩
  | read =>
    rw [hpc] at hst
    cases e <;> cases hst
    left
    unfold Mgr.command
    split_ifs <;> exact ⟨rfl, rfl⟩
  | testFull | setRunning _ _ | collect _ | choose _ _ =>
    rw [hpc] at hst
    cases e <;> cases hst
    left
    split <;> exact ⟨rfl, rfl⟩
  | _ =>
    rw [hpc] at hst
    cases e <;> cases hst <;> exact Or.inl ⟨rfl, rfl⟩

/-- **What a step sends**: nothing, what the handler forwards, or SIGCONT or SIGKILL to a job. -/
theorem Inv.sent_step (h : Inv s) (hst : next e s = some s') :
    s'.sent = s.sent ∨ ∃ p sig, s'.sent = s.sent ++ [(p, sig)] ∧
      (sig = .cont ∨ sig = .kill → ∃ i, s.isJob i ∧ (s.PT i).pid = p) := by
  have hplace := h.place
  rcases next_cases hst with ⟨tstp, rfl⟩ | hst
  · unfold signalHandler
    split
    · exact Or.inl rfl
    · refine Or.inr ⟨_, _, rfl, fun hsig => ?_⟩
      cases tstp <;> exact absurd hsig (by decide)
  cases hpc : s.pc with
  | send m op =>
    rw [hpc] at hst hplace
    cases e <;> cases hst
    exact Or.inr ⟨_, _, rfl, fun _ => ⟨op, hplace.1, hplace.2.symm⟩⟩
  | sweepKill code i =>
    rw [hpc] at hst hplace
    cases e <;> cases hst
    exact Or.inr ⟨_, _, rfl, fun _ => ⟨i, hplace.2, rfl⟩⟩
  | fork =>
    rw [hpc] at hst
    cases e <;> try cases hst
    cases (Option.ite_none_right_eq_some.1 hst).2
    exact Or.inl rfl
  | read =>
    rw [hpc] at hst
    cases e <;> cases hst
    left
    unfold Mgr.command
    split_ifs <;> rfl
  | testFull | setRunning _ _ | collect _ | choose _ _ =>
    rw [hpc] at hst
    cases e <;> cases hst
    left
    split <;> rfl
  | _ =>
    rw [hpc] at hst
    cases e <;> cases hst <;> exact Or.inl rfl

/-- An entry keeps its pid, its pgid and its name. -/
theorem Inv.entries_step (h : Inv s) (hst : next e s = some s') :
    s.jobId ≤ s'.jobId ∧ ∀ i < s.jobId,
      (s'.PT i).pid = (s.PT i).pid ∧ (s'.PT i).pgid = (s.PT i).pgid ∧ (s'.PT i).name = (s.PT i).name := by
  rcases h.table_step hst with ⟨hid, hPT⟩ | ⟨p, hid, hPT⟩ | ⟨op, st, -, -, hid, hPT⟩
  · rw [hid, hPT]
    exact ⟨Nat.le_refl _, fun _ _ => ⟨rfl, rfl, rfl⟩⟩
  · rw [hid, hPT]
    refine ⟨Nat.le_succ _, fun i hi => ?_⟩
    rw [Function.update_of_ne (Nat.ne_of_lt hi)]
    exact ⟨rfl, rfl, rfl⟩
  · rw [hid, hPT]
    refine ⟨Nat.le_refl _, fun i _ => ?_⟩
    obtain ⟨hpid, hpgid, hname, -⟩ := setStatus_frame s op st i
    exact ⟨hpid, hpgid, hname⟩

theorem Inv.entries_run (h : Inv s) (hr : Reachable next s s') :
    Inv s' ∧ s.jobId ≤ s'.jobId ∧ ∀ i < s.jobId,
      (s'.PT i).pid = (s.PT i).pid ∧ (s'.PT i).pgid = (s.PT i).pgid ∧ (s'.PT i).name = (s.PT i).name := by
  refine reachable_inv (fun t => Inv t ∧ s.jobId ≤ t.jobId ∧ ∀ i < s.jobId,
    (t.PT i).pid = (s.PT i).pid ∧ (t.PT i).pgid = (s.PT i).pgid ∧ (t.PT i).name = (s.PT i).name)
    ⟨h, Nat.le_refl _, fun _ _ => ⟨rfl, rfl, rfl⟩⟩ ?_ hr
  rintro e t t' - ⟨ht, hle, hsame⟩ hst
  obtain ⟨hle', hsame'⟩ := ht.entries_step hst
  refine ⟨ht.step hst, Nat.le_trans hle hle', fun i hi => ?_⟩
  obtain ⟨hpid, hpgid, hname⟩ := hsame i hi
  obtain ⟨hpid', hpgid', hname'⟩ := hsame' i (Nat.lt_of_lt_of_le hi hle)
  exact ⟨hpid'.trans hpid, hpgid'.trans hpgid, hname'.trans hname⟩

theorem Inv.indices (h : Inv s) (e : Event) : ∀ i ∈ ptIndices s e ++ tempIndices s, i < 11 := by
  have hplace := h.place
  have hle := h.le
  intro i hi
  rw [List.mem_append] at hi
  unfold ptIndices tempIndices at hi
  cases hpc : s.pc <;> rw [hpc] at hplace <;> simp only [hpc, List.not_mem_nil, or_false, false_or, List.mem_range,
    List.mem_singleton] at hi
  case read =>
    split at hi
    · exact Nat.lt_of_lt_of_le (List.mem_range.1 hi) hle
    · cases hi
  case insert => exact hi ▸ hplace.1
  case collect =>
    obtain ⟨-, hlen, -⟩ := collect_spec s.PT (List.range s.jobId) (s.temp, 0)
    rw [List.length_range, Nat.zero_add] at hlen
    omega
  case choose => exact Nat.lt_of_lt_of_le hi hplace.1
  case pick => exact hi ▸ Nat.lt_of_lt_of_le hplace.1 hle
  case store => exact hi ▸ Nat.lt_of_lt_of_le hplace.1.1 hle
  case sweep =>
    split at hi
    · rw [List.mem_singleton] at hi
      omega
    · cases hi
  case sweepKill | sweepStore => exact hi ▸ Nat.lt_of_lt_of_le hplace.2.1 hle

/-- **The life cycle of the job table**, for every sequence of commands, choices and outcomes. -/
theorem life_cycle {pid pgid : ℤ} (h : Reachable next (start pid pgid) s) : LifeCycle s := by
  have hI := reachable_run h
  refine ⟨⟨hI.pos, hI.le⟩, hI.indices, hI.self, fun t hr => (hI.entries_run hr).2, fun e t hst i hi hne => ?_,
    fun e t hst => ?_, fun code hpc i hi => ?_⟩
  · rcases hI.table_step hst with ⟨-, hPT⟩ | ⟨p, -, hPT⟩ | ⟨op, st, hjob, hst, -, hPT⟩
    · rw [hPT] at hne
      exact absurd rfl hne
    · rw [hPT, Function.update_of_ne (Nat.ne_of_lt hi)] at hne
      exact absurd rfl hne
    · rw [hPT, (setStatus_frame s op st i).2.2.2] at hne ⊢
      split at hne
      · rename_i hio
        rw [if_pos hio]
        exact ⟨hio ▸ hjob.2, by cases st <;> simp at hst ⊢⟩
      · exact absurd rfl hne
  · refine (hI.sent_step hst).imp_right fun ⟨p, sig, hsent, hjob⟩ => ⟨p, sig, hsent, fun hsig => ?_⟩
    obtain ⟨i, hi, rfl⟩ := hjob hsig
    exact ⟨hI.jobs i (hI.job_pos hi) hi.1, i, hi.1, rfl, hi.2⟩
  · have hplace := hI.place
    rw [hpc] at hplace
    exact hplace i hi hi

/-- A job runs and is stopped, it is continued and ends; a second one is stopped, and mgr quits. -/
def twoJobs : List Event :=
  [.go, .command 'r', .go, .forked 50 0, .go, .signal true, .outcome .stopped, .go, .go,
   .go, .command 'c', .go, .number 1, .go, .go, .outcome .exited, .go, .go,
   .go, .command 'r', .go, .forked 51 3, .go, .outcome .stopped, .go, .go,
   .go, .command 'q', .go, .go, .go, .go, .go, .go]

theorem life_cycle_two : ∃ s, Reachable next (start 40 40) s ∧ s.pc = .exited 0 ∧
    s.sent = [(50, .tstp), (50, .cont), (51, .kill)] ∧ LifeCycle s := by
  have hrun := @reachable_getD _ _ next twoJobs (start 40 40) (by decide +kernel)
  exact ⟨_, hrun, by decide +kernel, by decide +kernel, life_cycle hrun⟩

/-! ### The prompt -/

/-- The places at which mgr has no job in the foreground, once it has forgotten the last. -/
def Pc.idle : Pc → Bool
  | .wait _ _ | .reset _ _ _ | .pick _ _ | .send _ _ | .waitCont _ | .resetCont _ _ => false
  | .sweep _ _ | .sweepKill _ _ | .sweepStore _ _ | .exited _ => false
  | _ => true

/-- The command `k` does not pick a suspended job. -/
def NoKill (e : Event) (s : State) : Prop :=
  match s.pc, e with
  | .choose .kill num, .number op => s.listed num op = false
  | _, _ => True

instance (e : Event) (s : State) : Decidable (NoKill e s) := by
  unfold NoKill
  split <;> infer_instance

/-- mgr is not about to kill a job, and knows of none while it is idle. -/
structure Quiet (s : State) : Prop where
  idle : s.pc.idle = true → s.runningJobPid = -1
  noKill : ∀ op, s.pc ≠ .pick .kill op ∧ s.pc ≠ .send .kill op

/-- A statement that goes to a place where a job may be known. -/
theorem Quiet.away (hpc : s'.pc.idle = false) (hno : ∀ op, s'.pc ≠ .pick .kill op ∧ s'.pc ≠ .send .kill op) : Quiet s' where
  idle h := by rw [hpc] at h; cases h
  noKill := hno

/-- A statement that goes on with what is known. -/
theorem Quiet.on (hrun : s'.runningJobPid = -1) (hpc : s'.pc.idle = true) : Quiet s' where
  idle _ := hrun
  noKill op := by
    constructor
    · intro e
      rw [e] at hpc
      cases hpc
    · intro e
      rw [e] at hpc
      cases hpc

theorem Quiet.command (hrun : s.runningJobPid = -1) (c : Char) : Quiet (command s c) := by
  unfold Mgr.command
  split_ifs <;> first | exact Quiet.on hrun rfl | exact Quiet.away rfl fun _ => ⟨nofun, nofun⟩

/-- **A statement of `main` leaves no job behind at the prompt**, unless it is a kill. -/
theorem Quiet.main (h : Quiet s) (hI : Inv s) (hok : NoKill e s) (hst : mainStep s s.pc e = some s') : Quiet s' := by
  have hplace := hI.place
  have hidle := h.idle
  cases hpc : s.pc with
  | read =>
    rw [hpc] at hst hidle
    cases e <;> cases hst
    exact Quiet.command (hidle rfl) _
  | testFull =>
    rw [hpc] at hst hidle
    cases e <;> cases hst
    split
    · exact Quiet.away rfl fun _ => ⟨nofun, nofun⟩
    · exact Quiet.on (hidle rfl) rfl
  | fork =>
    rw [hpc] at hst hidle
    cases e <;> try cases hst
    cases (Option.ite_none_right_eq_some.1 hst).2
    exact Quiet.on (hidle rfl) rfl
  | setRunning pid letter =>
    rw [hpc] at hst
    cases e <;> cases hst
    split <;> exact Quiet.away rfl fun _ => ⟨nofun, nofun⟩
  | reset pid letter st | resetCont op st =>
    rw [hpc] at hst
    cases e <;> cases hst
    exact Quiet.on rfl rfl
  | collect m =>
    rw [hpc] at hst hidle
    cases e <;> cases hst
    split <;> exact Quiet.on (hidle rfl) rfl
  | choose m num =>
    rw [hpc] at hst hidle
    cases e <;> cases hst
    split
    · rename_i op hlisted
      refine Quiet.away rfl fun op' => ⟨fun he => ?_, nofun⟩
      have hm : m = .kill := (Pc.pick.inj he).1
      unfold NoKill at hok
      simp only [hpc, hm] at hok
      rw [hok] at hlisted
      cases hlisted
    · exact Quiet.on (hidle rfl) rfl
  | pick m op =>
    rw [hpc] at hst
    cases e <;> cases hst
    refine Quiet.away rfl fun op' => ⟨nofun, fun he => ?_⟩
    exact (h.noKill op).1 (by rw [hpc, (Pc.send.inj he).1])
  | send m op =>
    rw [hpc] at hst
    cases e <;> cases hst
    cases m with
    | cont => exact Quiet.away rfl fun _ => ⟨nofun, nofun⟩
    | kill => exact absurd hpc (h.noKill op).2
  | sweep code i =>
    rw [hpc] at hst
    cases e <;> cases hst
    split
    · split <;> exact Quiet.away rfl fun _ => ⟨nofun, nofun⟩
    · exact Quiet.away rfl fun _ => ⟨nofun, nofun⟩
  | top | insert _ _ _ | store _ _ =>
    rw [hpc] at hst hidle
    cases e <;> cases hst
    exact Quiet.on (hidle rfl) rfl
  | wait _ _ | waitCont _ | sweepKill _ _ | sweepStore _ _ | exited _ =>
    rw [hpc] at hst
    cases e <;> cases hst <;> exact Quiet.away rfl fun _ => ⟨nofun, nofun⟩

theorem Quiet.step (h : Quiet s) (hI : Inv s) (hok : NoKill e s) (hst : next e s = some s') : Quiet s' := by
  rcases next_cases hst with ⟨tstp, rfl⟩ | hst
  · obtain ⟨hpc, -, -, -, hrun⟩ := signalHandler_frame s (if tstp = true then .tstp else .int)
    refine ⟨?_, ?_⟩
    · rw [hpc, hrun]
      exact h.idle
    · rw [hpc]
      exact h.noKill
  · exact h.main hI hok hst

/-- **At the prompt mgr knows of no job to signal**, as long as no `k` picks one: a signal only brings up the prompt
again. -/
theorem prompt_quiet {pid pgid : ℤ} (h : Reachable (restricted NoKill next) (start pid pgid) s) (hpc : s.pc = .read) :
    s.runningJobPid = -1 ∧ ∀ tstp, next (.signal tstp) s = some (s.print .prompt) := by
  have hinv : Inv s ∧ Quiet s := by
    refine reachable_inv (fun s => Inv s ∧ Quiet s) ⟨start_inv pid pgid, Quiet.on rfl rfl⟩ ?_ h
    rintro e s s' - ⟨hI, hQ⟩ hst
    obtain ⟨hok, hst⟩ := restricted_some.1 hst
    exact ⟨hI.step hst, hQ.step hI hok hst⟩
  have hrun : s.runningJobPid = -1 := hinv.2.idle (by rw [hpc]; rfl)
  refine ⟨hrun, fun tstp => ?_⟩
  simp [next, hpc, signalHandler, hrun]

/-- A job is stopped and continued, and mgr is back at its prompt. -/
def continued : List Event :=
  [.go, .command 'r', .go, .forked 50 0, .go, .outcome .stopped, .go, .go,
   .go, .command 'c', .go, .number 1, .go, .go, .outcome .stopped, .go, .go, .go]

/-- A job is stopped and killed, and mgr is back at its prompt. -/
def killed : List Event :=
  [.go, .command 'r', .go, .forked 50 0, .go, .outcome .stopped, .go, .go,
   .go, .command 'k', .go, .number 1, .go, .go, .go, .go]

theorem prompt_quiet_continued : ∃ s, Reachable (restricted NoKill next) (start 40 40) s ∧ s.pc = .read ∧ s.jobId = 2 ∧
    s.runningJobPid = -1 ∧ ∀ tstp, next (.signal tstp) s = some (s.print .prompt) := by
  have hrun := @reachable_getD _ _ (restricted NoKill next) continued (start 40 40) (by decide +kernel)
  exact ⟨_, hrun, by decide +kernel, by decide +kernel, prompt_quiet hrun (by decide +kernel)⟩

/-- **After `k` mgr still knows the job that it killed**: at the prompt SIGINT goes to it. -/
theorem prompt_after_kill : ¬ ∀ (pid pgid : ℤ) (s : State), Reachable next (start pid pgid) s → s.pc = .read →
    s.runningJobPid = -1 ∧ ∀ tstp, next (.signal tstp) s = some (s.print .prompt) := by
  intro h
  have hrun := @reachable_getD _ _ next killed (start 40 40) (by decide +kernel)
  exact absurd (h 40 40 _ hrun (by decide +kernel)).1 (by decide +kernel)

end Mgr
end OsLab
