import OsLab.ManagerStacks
import OsLab.ManagerJoin
/-!
# TidReuse — foothreads whose tids come again

The threads of `ManagerStep` under names of their own, none of which is used twice, and a tid for each name: `clone` may
return the tid of a thread that is no longer alive.  The only statement that looks at the tid of another thread is the test
of an entry in `foothread_exit`.  As long as that test finds no older thread's entry, a run is one of `ManagerStep`
(`sys_reachable`).
-/
namespace OsLab
namespace TidReuse

open Manager

/-- `sys` knows the threads by their names, and its table has these in the place of the tids. -/
structure Named where
  sys : Manager.State
  tid : ℤ → ℤ
  names : List ℤ
  /-- The start routine has returned, and the thread had not called `foothread_exit`. -/
  ended : ℤ → Bool

def Named.alive (s : Named) (u : ℤ) : Bool := (s.sys.thread u).pc ≠ .gone ∧ s.ended u = false

/-- What happens in a step: a statement, a `clone` that returns the tid `r` for the thread `u`, or the return from a start
routine without a call of `foothread_exit`. -/
inductive Act where
  | step (c : Choice)
  | clone (u r : ℤ)
  | ret
  deriving DecidableEq, Repr

/-- `if(foothread_manager.threads[i].pid == pid && foothread_manager.threads[i].tid == tid)` -/
def Named.isSelf (s : Named) (pid t : ℤ) (i : ℕ) : Bool :=
  (s.sys.table i).pid = pid ∧ s.tid (s.sys.table i).tid = s.tid t

/-- A statement that does not clone. -/
def statement (pid t : ℤ) (c : Choice) (s : Named) : Option Manager.State :=
  match (s.sys.thread t).pc, c with
  | .exit (.findSelf i maxt), .go =>
    some (s.sys.goto t (.exit (if s.isSelf pid t i then .signal i else .find (i + 1) maxt)))
  | .create _ (.clone _), .tid _ => none
  | _, c => Manager.next pid (t, c) s.sys

/-- Thread `a.1` takes a step. -/
def next (pid : ℤ) (a : ℤ × Act) (s : Named) : Option Named :=
  if s.ended a.1 then none else
  match a.2 with
  | .step c => (statement pid a.1 c s).map fun m => { s with sys := m }
  | .clone u r =>
    if r ≠ -1 ∧ ∀ w ∈ s.names, s.alive w → s.tid w ≠ r then
      (Manager.next pid (a.1, .tid u) s.sys).map fun m =>
        { s with sys := m, tid := Function.update s.tid u r, names := u :: s.names }
    else none
  | .ret =>
    if a.1 ≠ pid ∧ (s.sys.thread a.1).pc = .run then some { s with ended := Function.update s.ended a.1 true } else none

/-- Only main runs; its tid is the pid. -/
def start (pid : ℤ) : Named := ⟨Manager.start pid, id, [pid], fun _ => false⟩

/-- A thread that tests an entry in `foothread_exit` does not find its tid in the entry of another thread. -/
def OwnTid (a : ℤ × Act) (s : Named) : Prop :=
  match (s.sys.thread a.1).pc with
  | .exit (.findSelf i _) => s.tid (s.sys.table i).tid = s.tid a.1 → (s.sys.table i).tid = a.1
  | _ => True

instance (a : ℤ × Act) (s : Named) : Decidable (OwnTid a s) := by
  unfold OwnTid
  split <;> infer_instance

section Steps

variable {pid : ℤ} {s s' : Named} {a : ℤ × Act}

/-- **A step that finds no older entry is one of the system of names, or none.** -/
theorem sys_step (hok : OwnTid a s) (hst : next pid a s = some s') :
    s'.sys = s.sys ∨ ∃ c, Manager.next pid (a.1, c) s.sys = some s'.sys := by
  obtain ⟨t, act⟩ := a
  unfold next at hst
  replace hst := (Option.ite_none_left_eq_some.1 hst).2
  cases act with
  | ret =>
    simp only at hst
    split at hst <;> cases hst
    exact Or.inl rfl
  | clone u r =>
    simp only at hst
    split at hst
    · obtain ⟨m, hm, rfl⟩ := Option.map_eq_some_iff.1 hst
      exact Or.inr ⟨_, hm⟩
    · cases hst
  | step c =>
    obtain ⟨m, hm, rfl⟩ := Option.map_eq_some_iff.1 hst
    refine Or.inr ⟨c, ?_⟩
    unfold statement at hm
    split at hm
    · -- the test says the same of the tids as of the names
      rename_i i maxt hpc
      cases hm
      have hiff : s.isSelf pid t i = true ↔ (s.sys.table i).pid = pid ∧ (s.sys.table i).tid = t := by
        unfold OwnTid at hok
        simp only [hpc] at hok
        unfold Named.isSelf
        rw [decide_eq_true_iff]
        exact and_congr_right fun _ => ⟨hok, fun h => by rw [h]⟩
      simp only [Manager.next, hpc, foothreadExit, hiff]
    · cases hm
    · exact hm

theorem sys_reachable (h : Reachable (restricted OwnTid (next pid)) (start pid) s) :
    Reachable (Manager.next pid) (Manager.start pid) s.sys := by
  refine reachable_inv (fun s => Reachable (Manager.next pid) (Manager.start pid) s.sys) (Reachable.refl _ _) ?_ h
  rintro a s s' - hr hst
  obtain ⟨hok, hst⟩ := restricted_some.1 hst
  rcases sys_step hok hst with heq | ⟨c, hc⟩
  · rw [heq]
    exact hr
  · exact hr.step hc

/-! ### Who has ended -/

/-- Another thread's step leaves a thread where it is. -/
theorem thread_frame {t u : ℤ} {c : Choice} {m m' : Manager.State} (hst : Manager.next pid (t, c) m = some m') (hu : u ≠ t)
    (hex : (m.thread u).pc ≠ .none) : m'.thread u = m.thread u := by
  cases blockStep_of_next hst with
  | clone pc' hthread _ _ _ _ _ _ _ hnone =>
    rw [hthread, goto_of_ne _ _ hu]
    exact Function.update_of_ne (fun e => hex (by rw [e]; exact hnone)) _ _
  | walk _ hthread | malloc _ hthread | refuse hthread | release hthread => rw [hthread, goto_of_ne _ _ hu]

/-- A thread whose start routine has returned without a call stays at the end of it; main is none. -/
def Ended (pid : ℤ) (s : Named) : Prop := ∀ t, s.ended t = true → t ≠ pid ∧ (s.sys.thread t).pc = .run

theorem ended_step (h : Ended pid s) (hok : OwnTid a s) (hst : next pid a s = some s') : Ended pid s' := by
  have hlive : s.ended a.1 = false := by
    by_contra hne
    rw [next, if_pos (by simpa using hne)] at hst
    cases hst
  have hsys : ∀ t, s.ended t = true → (s'.sys.thread t).pc = .run := fun t ht => by
    have hta : t ≠ a.1 := fun e => by
      rw [e, hlive] at ht
      cases ht
    have hrun := (h t ht).2
    rcases sys_step hok hst with heq | ⟨c, hc⟩
    · rw [heq]
      exact hrun
    · rw [thread_frame hc hta (by rw [hrun]; exact nofun)]
      exact hrun
  have hended : s'.ended = s.ended ∨ a.1 ≠ pid ∧ (s'.sys.thread a.1).pc = .run ∧ s'.ended = Function.update s.ended a.1 true := by
    rw [next, hlive] at hst
    obtain ⟨t, act⟩ := a
    cases act with
    | step c =>
      obtain ⟨m, -, rfl⟩ := Option.map_eq_some_iff.1 hst
      exact Or.inl rfl
    | clone u r =>
      obtain ⟨m, -, rfl⟩ := Option.map_eq_some_iff.1 (Option.ite_none_right_eq_some.1 hst).2
      exact Or.inl rfl
    | ret =>
      obtain ⟨⟨ht, hrun⟩, hst⟩ := Option.ite_none_right_eq_some.1 hst
      cases hst
      exact Or.inr ⟨ht, hrun, rfl⟩
  intro t ht
  rcases hended with he | ⟨hapid, harun, he⟩
  · rw [he] at ht
    exact ⟨(h t ht).1, hsys t ht⟩
  · by_cases hta : t = a.1
    · rw [hta]
      exact ⟨hapid, harun⟩
    · rw [he, Function.update_of_ne hta] at ht
      exact ⟨(h t ht).1, hsys t ht⟩

theorem reachable_ended (h : Reachable (restricted OwnTid (next pid)) (start pid) s) : Ended pid s := by
  refine reachable_inv (Ended pid) (fun _ ht => by cases ht) ?_ h
  rintro a s s' - he hst
  obtain ⟨hok, hst⟩ := restricted_some.1 hst
  exact ended_step he hok hst

/-- A thread that can go on under the names can go on. -/
theorem step_isSome {t : ℤ} {c : Choice} (hlive : s.ended t = false) (hc : c = .go ∨ c = .fail)
    (h : (Manager.next pid (t, c) s.sys).isSome = true) : (next pid (t, .step c) s).isSome = true := by
  rw [next, hlive]
  simp only [Bool.false_eq_true, if_false, Option.isSome_map]
  unfold statement
  split
  · rfl
  · rcases hc with hc | hc <;> cases hc
  · exact h

/-! ### The right semaphore -/

/-- Main goes on, or it waits for the manager's semaphore, which another thread has that goes on. -/
def Unblocked (pid : ℤ) (s : Named) : Prop :=
  (next pid (pid, .step .go) s).isSome = true ∨
    ∃ t, t ≠ pid ∧ (s.sys.thread t).pc.inside = true ∧ ∃ act, (next pid (t, act) s).isSome = true

/-- Whoever posts in `foothread_exit` posts the semaphore of its own slot, nobody ends the loop without, and once every
joinable thread has posted main is not blocked there. -/
structure RightSlots (pid : ℤ) (s : Named) : Prop where
  own : ∀ t i, t ≠ pid → (s.sys.thread t).pc = .exit (.signal i) → i = (s.sys.thread t).slot
  posts : ∀ t, (s.sys.thread t).pc ≠ .exit .missed
  joined : (∀ t, t ≠ pid → (s.sys.thread t).pc ≠ .none → (s.sys.thread t).joinable = true →
    (s.sys.thread t).pc.signalled = true) → ∀ p, (s.sys.thread pid).pc = .exit p → Unblocked pid s

/-- **As long as no thread finds its tid in the entry of an older one**, every thread signals in its own slot. -/
theorem right_slots (h : Reachable (restricted OwnTid (next pid)) (start pid) s) : RightSlots pid s := by
  have hsys := sys_reachable h
  have hI := reachable_run hsys
  have hended := reachable_ended h
  have hlive : ∀ t, (s.sys.thread t).pc ≠ .run ∨ t = pid → s.ended t = false := fun t ht => by
    by_contra hne
    obtain ⟨hpid, hrun⟩ := hended t (by simpa using hne)
    exact ht.elim (fun hn => hn hrun) hpid
  refine ⟨fun t i _ hpc => ?_, fun t hpc => ?_, fun hall p hpc => ?_⟩
  · have hp := hI.place t
    rw [hpc] at hp
    exact hp.2.1.symm
  · have hp := hI.place t
    rw [hpc] at hp
    exact hp
  · rcases main_not_blocked hsys (fun t hc => hall t hc.1 hc.2) hpc with hgo | ⟨t, ht, hin, c, hc, hgo⟩
    · exact Or.inl (step_isSome (hlive pid (Or.inr rfl)) (Or.inl rfl) hgo)
    · have hrun : (s.sys.thread t).pc ≠ .run := fun e => by
        rw [e] at hin
        cases hin
      exact Or.inr ⟨t, ht, hin, _, step_isSome (hlive t (Or.inl hrun)) hc hgo⟩

end Steps

/-- Main creates a thread of the join type `j`: under the name `u`, with the tid `r`. -/
def created (j u r : ℤ) : List (ℤ × Act) :=
  (1, .step (.create ⟨true, some j⟩)) :: List.replicate 5 (1, .step .go) ++ (1, .clone u r) :: List.replicate 7 (1, .step .go)

/-- Thread `u` calls `foothread_exit` and makes `k` statements. -/
def exits (u : ℤ) (k : ℕ) : List (ℤ × Act) := (u, .step .exit) :: List.replicate k (u, .step .go)

/-- A detached thread with the tid 7 has come and gone, and a joinable one gets another tid. -/
def otherTid : List (ℤ × Act) := created 27 2 7 ++ exits 2 11 ++ created 26 3 8 ++ exits 3 10

/-- The same, but the second thread gets the tid of the first. -/
def sameTid : List (ℤ × Act) := created 27 2 7 ++ exits 2 11 ++ created 26 3 7 ++ exits 3 7

theorem right_slots_other : ∃ s, Reachable (restricted OwnTid (next 1)) (start 1) s ∧
    (s.sys.thread 3).pc = .exit (.signal 1) ∧ RightSlots 1 s := by
  have hrun := @reachable_getD _ _ (restricted OwnTid (next 1)) otherTid (start 1) (by decide +kernel)
  exact ⟨_, hrun, by decide +kernel, right_slots hrun⟩

/-- **A thread that gets the tid of a detached one signals in the other's slot.** -/
theorem wrong_slot : ¬ ∀ (pid : ℤ) (s : Named), Reachable (next pid) (start pid) s → RightSlots pid s := by
  intro h
  have hrun := @reachable_getD _ _ (next 1) sameTid (start 1) (by decide +kernel)
  exact absurd ((h 1 _ hrun).own 3 0 (by decide) (by decide +kernel)) (by decide +kernel)

end TidReuse
end OsLab
