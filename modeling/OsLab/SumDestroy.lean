import OsLab.SumCalls
import OsLab.SumRuns
import OsLab.BarrierRounds
/-!
# SumDestroy — what is still in use when main cleans up

Seen from one barrier, a run of computesum is a run of that barrier with the threads that share it, each of which calls it
once (`reachable_view`).  So who has returned from a barrier leaves nobody behind but those on their last steps out of it,
and from the root down every thread is at the end of its program once main is past `computation_done` (`AtEnd`): no mutex is
used any more, but a barrier may be (`still_leaving`).
-/
namespace OsLab
namespace SumCalls

open Foothread (Barrier foothreadBarrierInit foothreadBarrierWait)
open OsLab.Sum (Reads team)

variable {n N : ℕ} {t : Sum.Tree n} {pid : ℤ} {tid : Option (Fin n) → ℤ} {s s' : State n} {a b : Option (Fin n)}

@[simp] theorem goto_thread (th : Thread n) : (s.goto a th).thread = Function.update s.thread a th := rfl

@[simp] theorem goto_barrier (th : Thread n) : (s.goto a th).barrier = s.barrier := rfl

@[simp] theorem setBarrier_thread (x : Barrier) : (s.setBarrier b x).thread = s.thread := rfl

@[simp] theorem setBarrier_barrier (x : Barrier) : (s.setBarrier b x).barrier = Function.update s.barrier b x := rfl

theorem next_some (h : next pid tid a s = some s') :
    ∃ c rest, (s.thread a).calls = c :: rest ∧ statement pid tid a s c = some s' := by
  unfold next at h
  obtain ⟨-, h⟩ := Option.ite_none_right_eq_some.1 h
  obtain ⟨c, hc, hst⟩ := Option.bind_eq_some_iff.1 h
  obtain ⟨rest, hrest⟩ := List.head?_eq_some_iff.1 hc
  exact ⟨c, rest, hrest, hst⟩

/-! ### A thread and its program -/

/-- The calls are what is left of the program, and nothing is going on in a barrier outside a call of it. -/
structure Orderly (p : List (Call n)) (th : Thread n) : Prop where
  suffix : th.calls <:+ p
  quiet : (∀ b, th.calls.head? ≠ some (.wait b)) → th.wait = .out

/-- A statement of a mutex is the last of its call, or not. -/
theorem calls_locked {th : Thread n} {c : Call n} {rest : List (Call n)} (hc : th.calls = c :: rest) (pc : Mutex.Pc) :
    (th.locked pc).calls = rest ∨ (th.locked pc).calls = c :: rest := by
  unfold Thread.locked
  rw [hc]
  split
  · exact Or.inl rfl
  · exact Or.inr rfl

/-- What a statement does to its thread: it waits at a barrier, or the barriers do not concern it. -/
theorem statement_thread {c : Call n} {rest : List (Call n)} (hc : (s.thread a).calls = c :: rest)
    (h : statement pid tid a s c = some s') :
    (∃ b x pc, c = .wait b ∧ foothreadBarrierWait (s.barrier b) (s.thread a).wait = some (x, pc) ∧
      s' = (s.setBarrier b x).goto a ((s.thread a).waited pc)) ∨
    ((∀ b, c ≠ .wait b) ∧ (∀ b, c ≠ .destroyBarrier b → s'.barrier b = s.barrier b) ∧
      ∃ th, s'.thread = Function.update s.thread a th ∧ th.wait = (s.thread a).wait ∧
        (th.calls = rest ∨ th.calls = c :: rest)) := by
  cases c with
  | wait b =>
    obtain ⟨⟨x, pc⟩, hw, rfl⟩ := Option.map_eq_some_iff.1 h
    exact Or.inl ⟨b, x, pc, rfl, hw, rfl⟩
  | create v =>
    cases h
    exact Or.inr ⟨nofun, fun _ _ => rfl, _, rfl, rfl, Or.inl (by rw [hc]; rfl)⟩
  | lock m =>
    obtain ⟨r, -, rfl⟩ := Option.map_eq_some_iff.1 h
    exact Or.inr ⟨nofun, fun _ _ => rfl, _, rfl, rfl, calls_locked hc r.2⟩
  | unlock m =>
    obtain ⟨r, -, rfl⟩ := Option.map_eq_some_iff.1 h
    exact Or.inr ⟨nofun, fun _ _ => rfl, _, rfl, rfl, calls_locked hc r.2⟩
  | destroyBarrier b =>
    obtain ⟨x, -, rfl⟩ := Option.map_eq_some_iff.1 h
    refine Or.inr ⟨nofun, fun d hd => ?_, _, rfl, rfl, Or.inl (by rw [hc]; rfl)⟩
    exact Function.update_of_ne (fun e => hd (by rw [e])) _ _
  | destroyMutex m =>
    cases h
    exact Or.inr ⟨nofun, fun _ _ => rfl, _, rfl, rfl, Or.inl (by rw [hc]; rfl)⟩

/-- The other threads stay where they are. -/
theorem thread_of_ne (hst : next pid tid a s = some s') {d : Option (Fin n)} (hd : d ≠ a) : s'.thread d = s.thread d := by
  obtain ⟨c, rest, hc, hst⟩ := next_some hst
  rcases statement_thread hc hst with ⟨b, x, pc, -, -, rfl⟩ | ⟨-, -, th, hth, -, -⟩
  · rw [goto_thread, Function.update_of_ne hd, setBarrier_thread]
  · rw [hth, Function.update_of_ne hd]

/-- A thread comes to its next call or stays in this one. -/
theorem calls_step {c : Call n} {rest : List (Call n)} (hst : next pid tid a s = some s')
    (hc : (s.thread a).calls = c :: rest) : (s'.thread a).calls = rest ∨ (s'.thread a).calls = c :: rest := by
  obtain ⟨c', rest', hc', hst⟩ := next_some hst
  obtain ⟨rfl, rfl⟩ := List.cons.inj (hc'.symm.trans hc)
  rcases statement_thread hc hst with ⟨b, x, pc, -, -, rfl⟩ | ⟨-, -, th, hth, -, hcalls⟩
  · rw [goto_thread, Function.update_self, Thread.waited, hc]
    split
    · exact Or.inl rfl
    · exact Or.inr rfl
  · rw [hth, Function.update_self]
    exact hcalls

theorem Orderly.step {p : Option (Fin n) → List (Call n)} (h : ∀ d, Orderly (p d) (s.thread d))
    (hst : next pid tid a s = some s') (d : Option (Fin n)) : Orderly (p d) (s'.thread d) := by
  by_cases hda : d = a
  swap
  · rw [thread_of_ne hst hda]
    exact h d
  subst hda
  have ha := h d
  obtain ⟨c, rest, hc, hst⟩ := next_some hst
  have hrest : rest <:+ p d := by
    have hsuffix := ha.suffix
    rw [hc] at hsuffix
    exact (List.suffix_cons c rest).trans hsuffix
  rcases statement_thread hc hst with ⟨b, x, pc, rfl, -, rfl⟩ | ⟨hw, -, th, hth, hwait, hcalls⟩
  · rw [goto_thread, Function.update_self, Thread.waited, hc]
    by_cases hpc : pc = .out
    · rw [if_pos hpc]
      exact ⟨hrest, fun _ => hpc⟩
    · rw [if_neg hpc]
      exact ⟨hc ▸ ha.suffix, fun hno => absurd rfl (hno b)⟩
  · rw [hth, Function.update_self]
    have hout : th.wait = .out := hwait.trans (ha.quiet fun b hb => by
      rw [hc] at hb
      exact hw b (Option.some.inj hb))
    rcases hcalls with hcalls | hcalls
    · exact ⟨hcalls ▸ hrest, fun _ => hout⟩
    · exact ⟨(hcalls.trans hc.symm) ▸ ha.suffix, fun _ => hout⟩

/-! ### The view of one barrier -/

/-- The place of a thread in the barrier `b`. -/
def Thread.placeIn (th : Thread n) (b : Option (Fin n)) : Foothread.Pc :=
  if th.calls.head? = some (.wait b) then th.wait else .out

def Thread.returned (th : Thread n) (b : Option (Fin n)) : ℕ := if .wait b ∈ th.calls then 0 else 1

/-- The thread as the barrier `b` sees it. -/
def Thread.view (th : Thread n) (b : Option (Fin n)) : Foothread.Thread :=
  ⟨th.placeIn b, th.returned b + (th.placeIn b).engaged, th.returned b + (th.placeIn b).arrived, th.returned b⟩

/-- The barrier `b` and the threads that share it. -/
def State.view (s : State n) (who : Fin N → Option (Fin n)) (b : Option (Fin n)) : Foothread.State N :=
  ⟨s.barrier b, fun k => (s.thread (who k)).view b⟩

/-- The threads `who` are those that call the barrier `b`, each once, and it was initialised for their number. -/
structure Shared (t : Sum.Tree n) (b : Option (Fin n)) (who : Fin N → Option (Fin n)) : Prop where
  inj : Function.Injective who
  calls : ∀ a, (.wait b ∈ program t a ↔ ∃ k, who k = a)
  once : ∀ a, (program t a).count (.wait b) ≤ 1
  size : (start t).barrier b = foothreadBarrierInit N
  pos : 1 ≤ N

/-- A thread in its only call moves on as the barrier's own thread does. -/
theorem move_view {x x' : Barrier} {p p' : Foothread.Pc} (h : foothreadBarrierWait x p = some (x', p')) :
    (Foothread.Thread.mk p p.engaged p.arrived 0).move p' =
      ⟨p', p'.done + p'.engaged, p'.done + p'.arrived, p'.done⟩ := by
  cases p <;> simp only [foothreadBarrierWait, Option.map_eq_some_iff] at h
  case check => split at h <;> cases h <;> rfl
  case testArrive => cases h; split <;> rfl
  case testDepart => cases h; split <;> rfl
  case exited => cases h
  all_goals first | obtain ⟨v, hv, hb⟩ := h; cases hb; rfl | cases h; rfl

theorem view_of_not_waiting {th : Thread n} {c : Call n} {rest : List (Call n)} (hc : th.calls = c :: rest)
    (hne : c ≠ .wait b) : th.view b = ⟨.out, th.returned b, th.returned b, th.returned b⟩ := by
  have hout : th.placeIn b = .out := if_neg (by rw [hc]; exact fun e => hne (Option.some.inj e))
  rw [Thread.view, hout]
  rfl

theorem view_of_out {th : Thread n} (hout : th.wait = .out) :
    th.view b = ⟨.out, th.returned b, th.returned b, th.returned b⟩ := by
  have hplace : th.placeIn b = .out := by
    unfold Thread.placeIn
    split
    · exact hout
    · rfl
  rw [Thread.view, hplace]
  rfl

section View

variable {who : Fin N → Option (Fin n)}

theorem view_start (h : Shared t b who) : (start t).view who b = Foothread.start N := by
  have hthread : ∀ k, ((start t).thread (who k)).view b = ⟨.out, 0, 0, 0⟩ := fun k => by
    have hmem : Call.wait b ∈ ((start t).thread (who k)).calls := (h.calls _).2 ⟨k, rfl⟩
    rw [view_of_out rfl, Thread.returned, if_pos hmem]
  rw [State.view, Foothread.start, h.size]
  congr
  funext k
  exact hthread k

theorem view_congr {th : Thread n} (hbar : s'.barrier b = s.barrier b) (hth : s'.thread = Function.update s.thread a th)
    (hv : th.view b = (s.thread a).view b) : s'.view who b = s.view who b := by
  rw [State.view, State.view, hbar, hth]
  congr
  funext k
  by_cases hk : who k = a
  · rw [hk, Function.update_self, hv]
  · rw [Function.update_of_ne hk]

/-- A statement that is not one of the barrier `b` changes nothing in the view of its thread. -/
theorem view_elsewhere {th th' : Thread n} {c : Call n} {rest : List (Call n)} (hc : th.calls = c :: rest)
    (hne : c ≠ .wait b) (hcalls : th'.calls = rest ∧ th'.wait = .out ∨ th'.calls = c :: rest) :
    th'.view b = th.view b := by
  rw [view_of_not_waiting hc hne]
  have hret : th'.returned b = th.returned b := by
    unfold Thread.returned
    refine if_congr ?_ rfl rfl
    rw [hc, List.mem_cons, or_iff_right (Ne.symm hne)]
    rcases hcalls with ⟨hcalls, -⟩ | hcalls
    · rw [hcalls]
    · rw [hcalls, List.mem_cons, or_iff_right (Ne.symm hne)]
  rw [← hret]
  rcases hcalls with ⟨-, hout⟩ | hcalls
  · exact view_of_out hout
  · exact view_of_not_waiting hcalls hne

/-- A statement of the barrier `b` moves its thread there. -/
theorem view_waited {th : Thread n} {x x' : Barrier} {pc : Foothread.Pc} {rest : List (Call n)}
    (hc : th.calls = .wait b :: rest) (honce : .wait b ∉ rest) (hw : foothreadBarrierWait x th.wait = some (x', pc)) :
    (th.view b).pc = th.wait ∧ (th.view b).returned = 0 ∧ (th.view b).move pc = (th.waited pc).view b := by
  have hplace : th.placeIn b = th.wait := if_pos (by rw [hc]; rfl)
  have hret : th.returned b = 0 := if_pos (by rw [hc]; exact List.mem_cons_self)
  refine ⟨hplace, hret, ?_⟩
  rw [Thread.view, hplace, hret, Nat.zero_add, Nat.zero_add, move_view hw]
  by_cases hpc : pc = .out
  · subst hpc
    have hret' : (th.waited .out).returned b = 1 := if_neg (by rw [Thread.waited, if_pos rfl, hc]; exact honce)
    rw [view_of_out rfl, hret']
    rfl
  · have hcalls : (th.waited pc).calls = th.calls := if_neg hpc
    have hplace' : (th.waited pc).placeIn b = pc := if_pos (by rw [hcalls, hc]; rfl)
    have hret' : (th.waited pc).returned b = 0 := if_pos (by rw [hcalls, hc]; exact List.mem_cons_self)
    have hdone : pc.done = 0 := by cases pc <;> first | rfl | exact absurd rfl hpc
    rw [Thread.view, hplace', hret', hdone]

/-- **A step of the whole is a step of the barrier or none**, as long as the barrier is not destroyed. -/
theorem step_view (h : Shared t b who) (ho : ∀ d, Orderly (program t d) (s.thread d))
    (hst : next pid tid a s = some s') (hkeep : (s.thread a).calls.head? ≠ some (.destroyBarrier b)) :
    s'.view who b = s.view who b ∨ ∃ k, Foothread.next (Foothread.calls 1) k (s.view who b) = some (s'.view who b) := by
  obtain ⟨c, rest, hc, hst⟩ := next_some hst
  by_cases hcb : c = .wait b
  · subst hcb
    right
    have hmem : Call.wait b ∈ program t a := (ho a).suffix.subset (by rw [hc]; exact List.mem_cons_self)
    obtain ⟨k, rfl⟩ := (h.calls a).1 hmem
    have honce : Call.wait b ∉ rest := fun hin => by
      have hle := ((ho (who k)).suffix.sublist.count_le (.wait b)).trans (h.once (who k))
      have hpos := List.count_pos_iff.2 hin
      rw [hc, List.count_cons_self] at hle
      omega
    obtain ⟨⟨x, pc⟩, hw, rfl⟩ := Option.map_eq_some_iff.1 hst
    obtain ⟨hpc, hret, hmove⟩ := view_waited hc honce hw
    refine ⟨k, ?_⟩
    have hagain : ¬ (((s.view who b).thread k).pc = .out ∧
        Foothread.calls 1 k ((s.view who b).thread k).returned = false) := fun hno => by
      have hret' : ((s.view who b).thread k).returned = 0 := hret
      rw [hret'] at hno
      cases hno.2
    have hw' : foothreadBarrierWait (s.view who b).bar ((s.view who b).thread k).pc = some (x, pc) := by
      rw [show ((s.view who b).thread k).pc = (s.thread (who k)).wait from hpc]
      exact hw
    rw [Foothread.next, if_neg hagain, hw', Option.map_some, Foothread.State.moved, State.view, State.view]
    congr 2
    · simp
    · funext j
      by_cases hj : j = k
      · rw [hj, Function.update_self, goto_thread, Function.update_self]
        exact hmove
      · rw [Function.update_of_ne hj, goto_thread, Function.update_of_ne (fun e => hj (h.inj e)), setBarrier_thread]
  · left
    rcases statement_thread hc hst with ⟨d, x, pc, rfl, -, rfl⟩ | ⟨hnw, hbar, th, hth, hwait, hcalls⟩
    · have hdb : b ≠ d := fun e => hcb (by rw [e])
      refine view_congr (Function.update_of_ne hdb _ _) rfl (view_elsewhere hc hcb ?_)
      by_cases hpc : pc = .out
      · exact Or.inl ⟨by rw [Thread.waited, if_pos hpc, hc]; rfl, hpc⟩
      · exact Or.inr (by rw [Thread.waited, if_neg hpc, hc])
    · have hout : (s.thread a).wait = .out := (ho a).quiet fun d hd => by
        rw [hc] at hd
        exact hnw d (Option.some.inj hd)
      have hnd : c ≠ .destroyBarrier b := fun e => hkeep (by rw [hc, e]; rfl)
      exact view_congr (hbar b hnd) hth (view_elsewhere hc hcb (hcalls.imp_left fun hr => ⟨hr, hwait.trans hout⟩))

theorem reachable_view (h : Shared t b who) (ho : ∀ d, Orderly (program t d) (s.thread d))
    (hr : Reachable (Foothread.next (Foothread.calls 1)) (Foothread.start N) (s.view who b))
    (hst : next pid tid a s = some s') (hkeep : (s.thread a).calls.head? ≠ some (.destroyBarrier b)) :
    Reachable (Foothread.next (Foothread.calls 1)) (Foothread.start N) (s'.view who b) := by
  rcases step_view h ho hst hkeep with heq | ⟨k, hk⟩
  · rw [heq]
    exact hr
  · exact hr.step hk

end View

/-! ### Who shares a barrier -/

section Teams

variable {T : RootedTree (Fin n)} {v : Fin n}

theorem lastBarrier_ne (v : Fin n) : lastBarrier t v ≠ some v := by
  unfold lastBarrier
  split
  · exact nofun
  · rename_i hne
    exact fun h => hne (Option.some.inj h)

theorem mem_computeSum (v : Fin n) (b : Option (Fin n)) :
    Call.wait b ∈ computeSum t v ↔ b = some v ∨ b = lastBarrier t v := by
  simp [computeSum]

theorem count_computeSum (v : Fin n) (b : Option (Fin n)) : (computeSum t v).count (.wait b) ≤ 1 := by
  have hne := lastBarrier_ne (t := t) v
  by_cases hb : some v = b
  · subst hb
    simp [computeSum, hne]
  · simp only [computeSum, List.count_cons, List.count_nil]
    split <;> simp [hb]

theorem count_main (b : Option (Fin n)) : (main n).count (.wait b) = if b = none then 1 else 0 := by
  have hcreate : ((List.finRange n).map Call.create).count (.wait b) = 0 := List.count_eq_zero.2 (by simp)
  have hclean : (cleanUp n).count (.wait b) = 0 := List.count_eq_zero.2 (by simp [cleanUp])
  rw [main, List.count_append, hcreate, List.count_cons, hclean]
  cases b <;> simp

theorem mem_main (b : Option (Fin n)) : Call.wait b ∈ main n ↔ b = none := by
  rw [← List.count_pos_iff, count_main]
  split
  · exact iff_of_true Nat.one_pos ‹_›
  · exact iff_of_false (Nat.lt_irrefl 0) ‹_›

theorem count_program (a b : Option (Fin n)) : (program t a).count (.wait b) ≤ 1 := by
  cases a with
  | none =>
    show (main n).count _ ≤ 1
    rw [count_main]
    split <;> decide
  | some v => exact count_computeSum v b

theorem lastBarrier_eq_none (R : Reads T t) : lastBarrier t v = none ↔ v = T.root := by
  unfold lastBarrier
  rw [R.parent]
  constructor
  · intro h
    by_contra hv
    rw [if_neg (T.ne_parent hv)] at h
    cases h
  · rintro rfl
    exact if_pos T.parent_root

theorem lastBarrier_of_ne (R : Reads T t) (h : v ≠ T.root) : lastBarrier t v = some (T.parent v) := by
  unfold lastBarrier
  rw [R.parent]
  exact if_neg (T.ne_parent h)

/-- Main and the root share `computation_done`. -/
theorem shared_done (R : Reads T t) : Shared t none ![none, some T.root] where
  inj i j h := by
    match i, j with
    | 0, 0 => rfl
    | 0, 1 => cases h
    | 1, 0 => cases h
    | 1, 1 => rfl
  calls a := by
    rw [Fin.exists_fin_two]
    cases a with
    | none => exact iff_of_true ((mem_main none).2 rfl) (Or.inl rfl)
    | some v =>
      show Call.wait none ∈ computeSum t v ↔ _
      rw [mem_computeSum]
      constructor
      · rintro (h | h)
        · cases h
        · exact Or.inr (congrArg some ((lastBarrier_eq_none R).1 h.symm).symm)
      · rintro (h | h)
        · cases h
        · exact Or.inr ((lastBarrier_eq_none R).2 (Option.some.inj h).symm).symm
  once a := count_program a none
  size := rfl
  pos := by decide

/-- A node and its children share its barrier. -/
theorem shared_node (R : Reads T t) (i : Fin n) : ∃ who : Fin (t.numChild i + 1) → Option (Fin n), Shared t (some i) who := by
  have hcard : (team T i).card = t.numChild i + 1 := by rw [Sum.card_team, R.numChild]
  let e := (Finset.equivFinOfCardEq hcard).symm
  have hmem : ∀ v, Call.wait (some i) ∈ computeSum t v ↔ v ∈ team T i := fun v => by
    rw [mem_computeSum, team, Finset.mem_insert, Sum.children, Finset.mem_filter]
    refine or_congr ⟨fun h => (Option.some.inj h).symm, fun h => by rw [h]⟩ ?_
    unfold lastBarrier
    rw [R.parent]
    by_cases hv : T.parent v = v
    · rw [if_pos hv]
      exact iff_of_false (by rintro ⟨⟩) fun h => h.2.2 (hv.symm.trans h.2.1)
    · rw [if_neg hv]
      constructor
      · intro h
        have hi := Option.some.inj h
        exact ⟨Finset.mem_univ v, hi.symm, fun hvi => hv (hi.symm.trans hvi.symm)⟩
      · intro h
        rw [h.2.1]
  refine ⟨fun k => some (e k).1, fun j k h => ?_, fun a => ?_, fun a => count_program a _, rfl, Nat.succ_pos _⟩
  · exact e.injective (Subtype.ext (Option.some.inj h))
  · cases a with
    | none =>
      refine iff_of_false (fun h => ?_) (by rintro ⟨_, h⟩; cases h)
      cases (mem_main (some i)).1 h
    | some v =>
      show Call.wait (some i) ∈ computeSum t v ↔ _
      rw [hmem]
      constructor
      · intro hv
        exact ⟨e.symm ⟨v, hv⟩, by rw [e.apply_symm_apply]⟩
      · rintro ⟨k, hk⟩
        rw [← Option.some.inj hk]
        exact (e k).2

end Teams

/-! ### The end of the programs -/

/-- The thread has made its calls, or it is on its last steps out of the last one. -/
def AtEnd (t : Sum.Tree n) (v : Fin n) (th : Thread n) : Prop :=
  th.calls = [] ∨ th.calls = [.wait (lastBarrier t v)] ∧ th.wait.leaving = true

section Ends

variable {T : RootedTree (Fin n)} {v : Fin n}

/-- A thread that has returned from its last barrier or is leaving it is at the end. -/
theorem atEnd_of_view {th : Thread n} (h : Orderly (computeSum t v) th)
    (hv : 1 ≤ (th.view (lastBarrier t v)).returned ∨ (th.view (lastBarrier t v)).pc.leaving = true) : AtEnd t v th := by
  have hsuffix : th.calls <:+ (computeSum t v).dropLast ++ [.wait (lastBarrier t v)] := h.suffix
  rcases List.suffix_concat_iff.1 hsuffix with hnil | ⟨l, hl, -⟩
  · exact Or.inl hnil
  right
  have hmem : Call.wait (lastBarrier t v) ∈ th.calls := by
    rw [hl]
    exact List.mem_append_right l List.mem_cons_self
  have hret : th.returned (lastBarrier t v) = 0 := if_pos hmem
  have hleaving : (th.placeIn (lastBarrier t v)).leaving = true := by
    refine hv.resolve_left fun h1 => ?_
    have h1 : 1 ≤ th.returned (lastBarrier t v) := h1
    omega
  unfold Thread.placeIn at hleaving
  split at hleaving
  · rename_i hhead
    refine ⟨?_, hleaving⟩
    cases l with
    | nil => exact hl
    | cons c l =>
      have hc : c = .wait (lastBarrier t v) := by
        rw [hl] at hhead
        exact Option.some.inj hhead
      have hle := h.suffix.sublist.count_le (.wait (lastBarrier t v))
      have hone := count_computeSum (t := t) v (lastBarrier t v)
      rw [hl, hc, List.cons_append, List.count_cons_self, List.count_append, List.count_singleton_self] at hle
      omega
  · cases hleaving

/-- At the end no call of a barrier is left but the last. -/
theorem AtEnd.returned {th : Thread n} (h : AtEnd t v th) (hb : b ≠ lastBarrier t v) : th.returned b = 1 := by
  refine if_neg fun hmem => ?_
  rcases h with h | ⟨h, -⟩
  · rw [h] at hmem
    cases hmem
  · rw [h, List.mem_singleton] at hmem
    injection hmem with hmem
    exact hb hmem

/-- Who shares a barrier with one that has returned from it has returned too or is leaving. -/
theorem Shared.left_behind {who : Fin N → Option (Fin n)} (h : Shared t b who)
    (hr : Reachable (Foothread.next (Foothread.calls 1)) (Foothread.start N) (s.view who b))
    {c d : Option (Fin n)} (hc : .wait b ∈ program t c) (hd : .wait b ∈ program t d)
    (hret : (s.thread c).returned b = 1) :
    1 ≤ ((s.thread d).view b).returned ∨ ((s.thread d).view b).pc.leaving = true := by
  obtain ⟨j, rfl⟩ := (h.calls c).1 hc
  obtain ⟨k, rfl⟩ := (h.calls d).1 hd
  refine (Foothread.returned_or_leaving h.pos _ hr j k).imp_left fun hle => ?_
  have hj : ((s.view who b).thread j).returned = 1 := hret
  rw [hj] at hle
  exact hle

/-- Every barrier has been run through as a barrier of its own. -/
def Viewed (t : Sum.Tree n) (s : State n) : Prop :=
  ∀ (N : ℕ) (b : Option (Fin n)) (who : Fin N → Option (Fin n)), Shared t b who →
    Reachable (Foothread.next (Foothread.calls 1)) (Foothread.start N) (s.view who b)

/-- **Once main is past `computation_done`, every thread is at the end of its program.** -/
theorem all_atEnd (R : Reads T t) (ho : ∀ d, Orderly (program t d) (s.thread d)) (hview : Viewed t s)
    (hmain : (s.thread none).returned none = 1) (v : Fin n) : AtEnd t v (s.thread (some v)) := by
  induction v using T.down with
  | hroot =>
    have hlast : lastBarrier t T.root = none := (lastBarrier_eq_none R).2 rfl
    refine atEnd_of_view (ho (some T.root)) ?_
    rw [hlast]
    exact (shared_done R).left_behind (hview _ _ _ (shared_done R)) ((mem_main none).2 rfl)
      ((mem_computeSum T.root none).2 (Or.inr hlast.symm)) hmain
  | hstep v hv ih =>
    have hlast : lastBarrier t v = some (T.parent v) := lastBarrier_of_ne R hv
    obtain ⟨who, hwho⟩ := shared_node R (T.parent v)
    refine atEnd_of_view (ho (some v)) ?_
    rw [hlast]
    exact hwho.left_behind (c := some (T.parent v)) (d := some v) (hview _ _ _ hwho)
      ((mem_computeSum (T.parent v) _).2 (Or.inl rfl))
      ((mem_computeSum v _).2 (Or.inr hlast.symm)) (ih.returned (lastBarrier_ne (T.parent v)).symm)

/-- A statement of a thread that is at the end leaves it there. -/
theorem AtEnd.step (h : ∀ v, AtEnd t v (s.thread (some v))) (hst : next pid tid a s = some s') (v : Fin n) :
    AtEnd t v (s'.thread (some v)) := by
  by_cases hva : some v = a
  swap
  · rw [thread_of_ne hst hva]
    exact h v
  subst hva
  obtain ⟨c, rest, hc, hst⟩ := next_some hst
  rcases h v with hnil | ⟨hlast, hleaving⟩
  · rw [hc] at hnil
    cases hnil
  obtain ⟨rfl, rfl⟩ : c = .wait (lastBarrier t v) ∧ rest = [] := by
    rw [hc] at hlast
    exact List.cons.inj hlast
  obtain ⟨⟨x, pc⟩, hw, rfl⟩ := Option.map_eq_some_iff.1 hst
  rw [goto_thread, Function.update_self, AtEnd, Thread.waited, hc]
  by_cases hpc : pc = .out
  · exact Or.inl (if_pos hpc)
  · exact Or.inr ⟨if_neg hpc, (Foothread.leaving_step hleaving hw).resolve_left hpc⟩

end Ends

/-! ### The runs -/

/-- Main is not past `computation_done`. -/
structure Before (t : Sum.Tree n) (s : State n) : Prop where
  orderly : ∀ d, Orderly (program t d) (s.thread d)
  viewed : Viewed t s
  main : ∃ vs : List (Fin n), (s.thread none).calls = vs.map .create ++ .wait none :: cleanUp n

theorem before_start (t : Sum.Tree n) : Before t (start t) where
  orderly d := ⟨List.suffix_refl _, fun _ => rfl⟩
  viewed N b who h := by
    rw [view_start h]
    exact Reachable.refl _ _
  main := ⟨List.finRange n, rfl⟩

/-- Nothing is destroyed before. -/
theorem Before.keeps (h : Before t s) (a b : Option (Fin n)) : (s.thread a).calls.head? ≠ some (.destroyBarrier b) := by
  intro hhead
  cases a with
  | none =>
    obtain ⟨vs, hvs⟩ := h.main
    rw [hvs] at hhead
    cases vs <;> cases hhead
  | some v =>
    have hmem : Call.destroyBarrier b ∈ computeSum t v := (h.orderly (some v)).suffix.subset (List.mem_of_head? hhead)
    simp [computeSum] at hmem

theorem Before.step {T : RootedTree (Fin n)} (R : Reads T t) (h : Before t s) (hst : next pid tid a s = some s') :
    Before t s' ∨ ∀ v, AtEnd t v (s'.thread (some v)) := by
  have ho := Orderly.step h.orderly hst
  have hview : Viewed t s' := fun N b who hwho => reachable_view hwho h.orderly (h.viewed N b who hwho) hst (h.keeps a b)
  obtain ⟨vs, hvs⟩ := h.main
  by_cases ha : a = none
  swap
  · exact Or.inl ⟨ho, hview, vs, by rw [thread_of_ne hst (Ne.symm ha), hvs]⟩
  subst ha
  cases vs with
  | nil =>
    rcases calls_step hst hvs with hcalls | hcalls
    · have hret : (s'.thread none).returned none = 1 := if_neg (by rw [hcalls]; simp [cleanUp])
      exact Or.inr (all_atEnd R ho hview hret)
    · exact Or.inl ⟨ho, hview, [], hcalls⟩
  | cons v vs =>
    rcases calls_step hst hvs with hcalls | hcalls
    · exact Or.inl ⟨ho, hview, vs, hcalls⟩
    · exact Or.inl ⟨ho, hview, v :: vs, hcalls⟩

/-- When main destroys a barrier, no thread of a node is on its last steps out of it: behind its `count--`. -/
def Cleared (a : Option (Fin n)) (s : State n) : Prop :=
  a = none → ∀ b, (s.thread none).calls.head? = some (.destroyBarrier b) →
    ∀ v, ((s.thread (some v)).placeIn b).leaving = false

instance (a : Option (Fin n)) (s : State n) : Decidable (Cleared a s) := by unfold Cleared; infer_instance

/-- No thread of a node is in a call of what main is about to destroy, nor will it call it later. -/
structure Unused (s : State n) : Prop where
  barrier : ∀ b, (s.thread none).calls.head? = some (.destroyBarrier b) → ∀ v, .wait b ∉ (s.thread (some v)).calls
  mutex : ∀ m, (s.thread none).calls.head? = some (.destroyMutex m) →
    ∀ v, .lock m ∉ (s.thread (some v)).calls ∧ .unlock m ∉ (s.thread (some v)).calls

/-- A thread on its last steps out of a barrier is in a call of it. -/
theorem mem_of_leaving {th : Thread n} (h : (th.placeIn b).leaving = true) : .wait b ∈ th.calls := by
  unfold Thread.placeIn at h
  split at h
  · rename_i hhead
    exact List.mem_of_head? hhead
  · cases h

/-- **What main destroys is not used any more, just when no thread is on its last steps out of it**: nowhere else can a
thread be found in a call of the barrier, and no mutex is used at all. -/
theorem destroys_unused (T : RootedTree (Fin n)) (t₀ : Sum.Tree n) (lines : List (Fin n × Fin n))
    (hlines : lines.Perm ((List.finRange n).map (fun v => (v, T.parent v)))) (pid : ℤ) (tid : Option (Fin n) → ℤ)
    (h : Reachable (restricted Cleared (next pid tid)) (start (Sum.readTree t₀ lines)) s) :
    Unused s ↔ Cleared none s := by
  have R := Sum.reads_readTree T t₀ hlines
  have hinv : Before (Sum.readTree t₀ lines) s ∨ ∀ v, AtEnd (Sum.readTree t₀ lines) v (s.thread (some v)) := by
    refine reachable_inv (fun s => Before (Sum.readTree t₀ lines) s ∨ ∀ v, AtEnd (Sum.readTree t₀ lines) v (s.thread (some v)))
      (Or.inl (before_start _)) ?_ h
    rintro a s s' - (hbefore | hend) hst
    · exact hbefore.step R (restricted_some.1 hst).2
    · exact Or.inr (AtEnd.step hend (restricted_some.1 hst).2)
  constructor
  · intro hunused _ b hb v
    by_contra hne
    exact hunused.barrier b hb v (mem_of_leaving (Bool.eq_true_of_not_eq_false hne))
  intro hcleared
  rcases hinv with hbefore | hend
  · refine ⟨fun b hb => absurd hb (hbefore.keeps none b), fun m hm => ?_⟩
    obtain ⟨vs, hvs⟩ := hbefore.main
    rw [hvs] at hm
    cases vs <;> cases hm
  · refine ⟨fun b hb v hmem => ?_, fun m _ v => ?_⟩
    · rcases hend v with hnil | ⟨hlast, hleaving⟩
      · rw [hnil] at hmem
        cases hmem
      · rw [hlast, List.mem_singleton] at hmem
        have hplace : (s.thread (some v)).placeIn b = (s.thread (some v)).wait := if_pos (by rw [hlast, hmem]; rfl)
        have hclear := hcleared rfl b hb v
        rw [hplace, hleaving] at hclear
        cases hclear
    · rcases hend v with hnil | ⟨hlast, -⟩
      · rw [hnil]
        exact ⟨nofun, nofun⟩
      · rw [hlast, List.mem_singleton, List.mem_singleton]
        exact ⟨nofun, nofun⟩

/-- A tree of one node, and the line that gives it. -/
def single : RootedTree (Fin 1) := ⟨fun _ => 0, 0, rfl, fun v => ⟨0, Subsingleton.elim v 0⟩⟩

def singleLines : List (Fin 1 × Fin 1) := [(0, 0)]

def singleStart : State 1 := start (Sum.readTree ⟨fun _ => 0, fun _ => 7, 0⟩ singleLines)

def singleNext : Option (Fin 1) → State 1 → Option (State 1) := next 100 fun a => if a = none then 100 else 101

/-- The thread runs to `computation_done`, main comes and opens it, both count themselves out, and main goes on to clean
up: only the semaphores are left before the thread is out. -/
def bothOut : List (Option (Fin 1)) :=
  [none] ++ List.replicate 66 (some 0) ++ List.replicate 16 none ++ List.replicate 9 (some 0) ++ List.replicate 4 none

/-- As before, but the thread is let out before main is. -/
def threadOut : List (Option (Fin 1)) :=
  [none] ++ List.replicate 66 (some 0) ++ List.replicate 16 none ++ List.replicate 11 (some 0) ++ List.replicate 4 none

theorem destroys_unused_single :
    ∃ s, Reachable (restricted Cleared singleNext) singleStart s ∧
      (s.thread none).calls = [.destroyBarrier none, .destroyMutex none] ∧ Unused s := by
  have hrun := @reachable_getD _ _ (restricted Cleared singleNext) threadOut singleStart (by decide +kernel)
  exact ⟨_, hrun, by decide +kernel,
    (destroys_unused single ⟨fun _ => 0, fun _ => 7, 0⟩ singleLines (by decide) 100 _ hrun).2 (by decide +kernel)⟩

/-- **Main destroys a barrier that a thread has not left.** -/
theorem still_leaving : ¬ ∀ (n : ℕ) (T : RootedTree (Fin n)) (t₀ : Sum.Tree n) (lines : List (Fin n × Fin n)) (pid : ℤ)
    (tid : Option (Fin n) → ℤ) (s s' : State n), 1 ≤ n → n ≤ 100 →
    lines.Perm ((List.finRange n).map (fun v => (v, T.parent v))) →
    Reachable (next pid tid) (start (Sum.readTree t₀ lines)) s → next pid tid none s = some s' → Unused s := by
  intro h
  have hrun := @reachable_getD _ _ singleNext bothOut singleStart (by decide +kernel)
  obtain ⟨s', hs'⟩ := Option.isSome_iff_exists.1
    (show (singleNext none ((runSchedule singleNext bothOut singleStart).getD singleStart)).isSome = true by decide +kernel)
  have hunused := h 1 single _ singleLines 100 _ _ s' (by decide) (by decide) (by decide) hrun hs'
  exact hunused.barrier none (by decide +kernel) 0 (by decide +kernel)

end SumCalls
end OsLab
