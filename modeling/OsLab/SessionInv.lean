import OsLab.SessionTurn
import Mathlib.Data.List.TakeWhile
import Mathlib.Data.Multiset.Filter
/-!
# SessionInv — what a turn of the event loop keeps

Of the pending doctor event, the doctor's being free and the end of the session there is always exactly one (`Agenda`).  The
counters stand for the arrivals, the waiting and the seen of each kind, and the queues hold the records of those who wait
(`Rooms`).  The visits are those of the seen (`Visited`).  Within a turn the doctor may be free while somebody waits; at its
end he may not (`Resting`).  None of this depends on the times.
-/
namespace OsLab
namespace Session

open DecimalText (int32)

/-- How many of the first `c` of a kind are admitted while the doctor is there. -/
def Kind.admits (k : Kind) (c : ℕ) : ℕ :=
  match k.quota with
  | some q => min c q
  | none => c

def isDone (e : Event) : Bool := e.type = 'D'

structure Agenda (s : Vars) : Prop where
  ordered : s.E.Ordered
  letters : ∀ e ∈ s.E.contents, letterOf e.type ≠ .other
  durations : ∀ e ∈ s.E.contents, isDone e = false → 0 ≤ e.duration
  pending : s.E.contents.countP (fun e => isDone e) + s.docFree.toNat + s.docSessionEnd.toNat = 1

structure Rooms (s : Vars) : Prop where
  came : ∀ k, (s.came k).length = s.cnt k
  durations : ∀ k, ∀ e ∈ s.came k, 0 ≤ e.duration
  queued : ∀ k i, i < s.curr k + s.wait k → (s.came k)[i]? = some (s.queue k i)
  admitted : s.docSessionEnd = false → ∀ k, s.curr k + s.wait k = k.admits (s.cnt k)
  ended : s.docSessionEnd = true → s.curr .patient = 25 ∧ s.curr .salesrep = 3 ∧ ∀ k, s.wait k = 0
  le : ∀ k, s.curr k + s.wait k ≤ s.cnt k

structure Visited (s : Vars) : Prop where
  duration : ∀ v ∈ s.visits, 0 ≤ v.duration ∧ ∃ e, (s.came v.kind)[v.number - 1]? = some e ∧ v.duration = e.duration
  number : ∀ k, (s.visits.filter (fun v => v.kind = k)).map Visit.number = List.range' 1 (s.curr k)

/-- Between two turns: while the doctor is free nobody waits, and it has not been time for him to leave. -/
structure Resting (s : Vars) : Prop where
  nobody : s.docFree = true → ∀ k, s.wait k = 0
  notOver : s.docFree = true → s.sessionOver = false

section Turn

variable {s : Vars} {k : Kind} {e : Event}

theorem letterOf_done_iff (c : Char) : letterOf c = .done ↔ c = 'D' := by
  unfold letterOf
  split_ifs with h <;> simp [h]

theorem isDone_of_done (h : letterOf e.type = .done) : isDone e = true := decide_eq_true ((letterOf_done_iff _).1 h)

theorem isDone_of_visitor (h : letterOf e.type = .visitor k) : isDone e = false := by
  refine decide_eq_false (fun hD => ?_)
  rw [(letterOf_done_iff _).2 hD] at h
  cases h

/-! An event that is taken out, and a doctor who is free, change nothing in the rooms. -/

theorem Rooms.pop (h : Rooms s) (t : ℤ) : Rooms (s.pop.setTime t) :=
  ⟨h.came, h.durations, h.queued, h.admitted, h.ended, h.le⟩

theorem Rooms.free (h : Rooms s) : Rooms s.free := ⟨h.came, h.durations, h.queued, h.admitted, h.ended, h.le⟩

theorem Visited.pop (h : Visited s) (t : ℤ) : Visited (s.pop.setTime t) := ⟨h.duration, h.number⟩

theorem Visited.free (h : Visited s) : Visited s.free := ⟨h.duration, h.number⟩

/-! ### A visit -/

theorem choose_some (h : s.choose = some k) :
    s.docFree = true ∧ s.docSessionEnd = false ∧ 0 < s.wait k ∧ (k ≠ .reporter → s.wait .reporter = 0) ∧
      (k = .salesrep → s.wait .patient = 0) := by
  unfold Vars.choose at h
  split at h
  · rename_i hfree
    split at h
    · cases h
      exact ⟨hfree.1, hfree.2, ‹_›, fun hk => absurd rfl hk, fun hk => by cases hk⟩
    · split at h
      · cases h
        exact ⟨hfree.1, hfree.2, ‹_›, fun _ => by omega, fun hk => by cases hk⟩
      · split at h
        · cases h
          exact ⟨hfree.1, hfree.2, ‹_›, fun _ => by omega, fun _ => by omega⟩
        · cases h
  · cases h

theorem choose_none (h : s.choose = none) (hfree : s.docFree = true) (hend : s.docSessionEnd = false) (k : Kind) :
    s.wait k = 0 := by
  unfold Vars.choose at h
  rw [if_pos ⟨hfree, hend⟩] at h
  split at h
  · cases h
  · split at h
    · cases h
    · split at h
      · cases h
      · cases k <;> omega

theorem Agenda.not_ended (h : Agenda s) (hfree : s.docFree = true) :
    s.docSessionEnd = false ∧ ∀ e ∈ s.E.contents, isDone e = false := by
  have hp := h.pending
  rw [hfree] at hp
  change _ + 1 + _ = 1 at hp
  constructor
  · cases hend : s.docSessionEnd with
    | false => rfl
    | true => rw [hend] at hp; change _ + 1 + 1 = 1 at hp; omega
  · have hzero : s.E.contents.countP (fun e => isDone e) = 0 := by omega
    intro e he
    have hnot := Multiset.countP_eq_zero.1 hzero e he
    simpa using hnot

theorem contents_see (s : Vars) (k : Kind) :
    (s.see k).E.contents = doneEvent (int32 (s.currTime + (s.visitor k).duration)) ::ₘ s.E.contents :=
  contents_addevent _ _

theorem visits_see (s : Vars) (k : Kind) :
    (s.see k).visits = s.visits ++ [⟨k, s.curr k + 1, s.currTime, (s.visitor k).duration⟩] := rfl

theorem Agenda.see (h : Agenda s) (hfree : s.docFree = true) (k : Kind) : Agenda (s.see k) := by
  obtain ⟨hend, hnone⟩ := h.not_ended hfree
  have hzero : s.E.contents.countP (fun e => isDone e) = 0 :=
    Multiset.countP_eq_zero.2 (fun e he => by rw [hnone e he]; exact Bool.false_ne_true)
  constructor
  · exact h.ordered.addevent _
  · intro e he
    rw [contents_see] at he
    rcases Multiset.mem_cons.1 he with rfl | he
    · exact fun hl => by cases hl
    · exact h.letters e he
  · intro e he hd
    rw [contents_see] at he
    rcases Multiset.mem_cons.1 he with rfl | he
    · cases hd
    · exact h.durations e he hd
  · rw [contents_see, Multiset.countP_cons_of_pos _ (by rfl), hzero]
    show 0 + 1 + 0 + s.docSessionEnd.toNat = 1
    rw [hend]
    rfl

theorem Rooms.see (h : Rooms s) (hend : s.docSessionEnd = false) (hk : 0 < s.wait k) : Rooms (s.see k) := by
  have hsum : ∀ j, (s.see k).curr j + (s.see k).wait j = s.curr j + s.wait j := fun j => by
    show Function.update s.curr k (s.curr k + 1) j + Function.update s.wait k (s.wait k - 1) j = _
    rw [Function.update_apply, Function.update_apply]
    split
    · rename_i hj
      rw [hj]
      omega
    · rfl
  refine ⟨h.came, h.durations, fun j i hi => ?_, fun _ j => ?_, fun he => ?_, fun j => ?_⟩
  · rw [hsum] at hi
    exact h.queued j i hi
  · rw [hsum]
    exact h.admitted hend j
  · rw [show (s.see k).docSessionEnd = s.docSessionEnd from rfl, hend] at he
    cases he
  · rw [hsum]
    exact h.le j

theorem Visited.see (hr : Rooms s) (h : Visited s) (hk : 0 < s.wait k) : Visited (s.see k) := by
  have hcame : (s.came k)[s.curr k]? = some (s.visitor k) := hr.queued k (s.curr k) (by omega)
  constructor
  · intro v hv
    rcases List.mem_append.1 hv with hv | hv
    · exact h.duration v hv
    · rw [List.mem_singleton.1 hv]
      exact ⟨hr.durations k _ (List.mem_of_getElem? hcame), s.visitor k, hcame, rfl⟩
  · intro j
    rw [visits_see, List.filter_append, List.map_append, h.number j]
    show _ = List.range' 1 (Function.update s.curr k (s.curr k + 1) j)
    rw [Function.update_apply]
    by_cases hj : j = k
    · rw [if_pos hj, hj, List.range'_concat]
      simp [Nat.add_comm]
    · rw [if_neg hj]
      simp [Ne.symm hj]

/-- **The end of a turn**: a free doctor calls somebody, or nobody waits. -/
theorem dispatchNext_inv (ha : Agenda s) (hr : Rooms s) (hv : Visited s)
    (hstays : s.docFree = true → s.sessionOver = false) : Agenda s.dispatchNext ∧ Rooms s.dispatchNext ∧ Visited s.dispatchNext ∧ Resting s.dispatchNext := by
  unfold Vars.dispatchNext
  cases hc : s.choose with
  | some k =>
    obtain ⟨hfree, hend, hk, -⟩ := choose_some hc
    exact ⟨ha.see hfree k, hr.see hend hk, hv.see hr hk, fun hf => (by cases hf), fun hf => (by cases hf)⟩
  | none => exact ⟨ha, hr, hv, fun hfree k => choose_none hc hfree (ha.not_ended hfree).1 k, hstays⟩

/-! ### The event of a turn -/

theorem contents_pop (hne : emptyQ s.E = false) (t : ℤ) :
    s.E.contents = nextevent s.E ::ₘ (s.pop.setTime t).E.contents :=
  (contents_delevent (of_decide_eq_false hne)).symm

/-- The event that comes is the earliest. -/
theorem Agenda.next_le (h : Agenda s) (hne : emptyQ s.E = false) : ∀ e ∈ s.E.contents, (nextevent s.E).time ≤ e.time := by
  intro e he
  have hkey := (h.ordered.nextevent (of_decide_eq_false hne)).2 e he
  rcases key_le_iff.1 hkey with hlt | ⟨heq, -⟩
  · exact le_of_lt hlt
  · exact heq.le

theorem mem_of_mem_pop (hne : emptyQ s.E = false) {t : ℤ} (he : e ∈ (s.pop.setTime t).E.contents) : e ∈ s.E.contents := by
  rw [contents_pop hne t]
  exact Multiset.mem_cons_of_mem he

theorem next_mem (hne : emptyQ s.E = false) : nextevent s.E ∈ s.E.contents := by
  rw [contents_pop hne 0]
  exact Multiset.mem_cons_self _ _

theorem Agenda.pop (h : Agenda s) (hne : emptyQ s.E = false) (hd : isDone (nextevent s.E) = false) (t : ℤ) :
    Agenda (s.pop.setTime t) where
  ordered := h.ordered.delevent
  letters e he := h.letters e (mem_of_mem_pop hne he)
  durations e he := h.durations e (mem_of_mem_pop hne he)
  pending := by
    have hp := h.pending
    rw [contents_pop hne t, Multiset.countP_cons_of_neg _ (by rw [hd]; exact Bool.false_ne_true)] at hp
    exact hp

/-- With the doctor event the doctor becomes free. -/
theorem Agenda.pop_done (h : Agenda s) (hne : emptyQ s.E = false) (hd : isDone (nextevent s.E) = true) (t : ℤ) :
    Agenda (s.pop.setTime t).free ∧ s.docSessionEnd = false ∧ ∀ e ∈ (s.pop.setTime t).E.contents, isDone e = false := by
  have hp := h.pending
  rw [contents_pop hne t, Multiset.countP_cons_of_pos (p := fun e => isDone e = true) _ hd] at hp
  have hzero : (s.pop.setTime t).E.contents.countP (fun e => isDone e) = 0 := by omega
  have hend : s.docSessionEnd = false := by
    cases he : s.docSessionEnd with
    | false => rfl
    | true => rw [he] at hp; change _ + 1 + _ + 1 = 1 at hp; omega
  have hnone : ∀ e ∈ (s.pop.setTime t).E.contents, isDone e = false := fun e he => by
    have hnot := Multiset.countP_eq_zero.1 hzero e he
    simpa using hnot
  refine ⟨⟨h.ordered.delevent, fun e he => h.letters e (mem_of_mem_pop hne (t := t) he),
    fun e he => h.durations e (mem_of_mem_pop hne (t := t) he), ?_⟩, hend, hnone⟩
  show (s.pop.setTime t).E.contents.countP (fun e => isDone e) + 1 + s.docSessionEnd.toNat = 1
  rw [hzero, hend]
  rfl

/-! ### An arrival -/

theorem admits_le (k : Kind) (c : ℕ) : k.admits c ≤ c := by
  unfold Kind.admits
  split
  · exact Nat.min_le_left _ _
  · exact Nat.le_refl c

theorem admits_succ_of_full {c : ℕ} (h : k.quotaFull (c + 1) = true) : k.admits (c + 1) = k.admits c := by
  unfold Kind.quotaFull at h
  unfold Kind.admits
  cases hq : k.quota with
  | none => rw [hq] at h; cases h
  | some q =>
    rw [hq] at h
    have hlt := of_decide_eq_true h
    show min (c + 1) q = min c q
    omega

theorem admits_succ_of_not_full {c : ℕ} (h : k.quotaFull (c + 1) = false) : k.admits (c + 1) = c + 1 ∧ k.admits c = c := by
  unfold Kind.quotaFull at h
  unfold Kind.admits
  cases hq : k.quota with
  | none => exact ⟨rfl, rfl⟩
  | some q =>
    rw [hq] at h
    have hge := of_decide_eq_false h
    show min (c + 1) q = c + 1 ∧ min c q = c
    omega

theorem cnt_arrive (s : Vars) (k : Kind) (e : Event) : (s.arrive k e).cnt k = s.cnt k + 1 := Function.update_self _ _ _

theorem refusal_some {l : Line} (h : (s.arrive k e).refusal k = some l) :
    s.docSessionEnd = true ∨ k.quotaFull (s.cnt k + 1) = true := by
  unfold Vars.refusal at h
  rw [cnt_arrive] at h
  split at h
  · exact Or.inl ‹_›
  · split at h
    · exact Or.inr ‹_›
    · cases h

theorem refusal_none (h : (s.arrive k e).refusal k = none) :
    s.docSessionEnd = false ∧ k.quotaFull (s.cnt k + 1) = false := by
  unfold Vars.refusal at h
  rw [cnt_arrive] at h
  split at h
  · cases h
  · rename_i hend
    split at h
    · cases h
    · rename_i hfull
      exact ⟨by simpa [Vars.arrive] using hend, by simpa using hfull⟩

theorem receive_refused {l : Line} (h : (s.arrive k e).refusal k = some l) : s.receive k e = (s.arrive k e).print l := by
  simp only [Vars.receive, h]

theorem receive_admitted (h : (s.arrive k e).refusal k = none) :
    s.receive k e = (((s.arrive k e).letIn k).enqueue k ((s.arrive k e).cnt k) e).dispatchNext := by
  simp only [Vars.receive, h]

theorem came_arrive (s : Vars) (k j : Kind) (e : Event) :
    (s.arrive k e).came j = if j = k then s.came k ++ [e] else s.came j := Function.update_apply _ _ _ _

/-- Who has come stays where he is in the list. -/
theorem getElem?_came_arrive {j : Kind} {i : ℕ} {f : Event} (h : (s.came j)[i]? = some f) :
    ((s.arrive k e).came j)[i]? = some f := by
  rw [came_arrive]
  split
  · rename_i hj
    rw [hj] at h
    rw [List.getElem?_append_left (List.getElem?_eq_some_iff.1 h).1]
    exact h
  · exact h

theorem Rooms.length_arrive (h : Rooms s) (k j : Kind) (e : Event) :
    ((s.arrive k e).came j).length = (s.arrive k e).cnt j := by
  rw [came_arrive, show (s.arrive k e).cnt j = if j = k then s.cnt k + 1 else s.cnt j from Function.update_apply _ _ _ _]
  split
  · rw [List.length_append, h.came]
    rfl
  · exact h.came j

theorem Rooms.durations_arrive (h : Rooms s) (hd : 0 ≤ e.duration) (j : Kind) :
    ∀ f ∈ (s.arrive k e).came j, 0 ≤ f.duration := by
  intro f hf
  rw [came_arrive] at hf
  split at hf
  · rcases List.mem_append.1 hf with hf | hf
    · exact h.durations k f hf
    · rw [List.mem_singleton.1 hf]
      exact hd
  · exact h.durations j f hf

/-- Somebody is turned away. -/
theorem Rooms.refuse (h : Rooms s) (hd : 0 ≤ e.duration) {l : Line} (hl : (s.arrive k e).refusal k = some l) :
    Rooms ((s.arrive k e).print l) := by
  refine ⟨fun j => h.length_arrive k j e, fun j => h.durations_arrive hd j,
    fun j i hi => getElem?_came_arrive (h.queued j i hi), fun hend j => ?_, h.ended, fun j => ?_⟩
  · have hfull := (refusal_some hl).resolve_left (fun ht => by
      rw [show ((s.arrive k e).print l).docSessionEnd = s.docSessionEnd from rfl, ht] at hend
      cases hend)
    show s.curr j + s.wait j = j.admits (Function.update s.cnt k (s.cnt k + 1) j)
    rw [h.admitted hend j, Function.update_apply]
    split
    · rename_i hj
      rw [hj, admits_succ_of_full hfull]
    · rfl
  · show s.curr j + s.wait j ≤ Function.update s.cnt k (s.cnt k + 1) j
    rw [Function.update_apply]
    have hle := h.le j
    split
    · rename_i hj
      rw [hj] at hle ⊢
      omega
    · exact hle

/-- Somebody is admitted. -/
theorem Rooms.letIn (h : Rooms s) (hd : 0 ≤ e.duration) (hn : (s.arrive k e).refusal k = none) :
    Rooms (((s.arrive k e).letIn k).enqueue k ((s.arrive k e).cnt k) e) := by
  obtain ⟨hend, hfull⟩ := refusal_none hn
  obtain ⟨hnew, hold⟩ := admits_succ_of_not_full hfull
  have hall : s.curr k + s.wait k = s.cnt k := (h.admitted hend k).trans hold
  have hsum : ∀ j, s.curr j + Function.update s.wait k (s.wait k + 1) j =
      if j = k then s.cnt k + 1 else s.curr j + s.wait j := fun j => by
    rw [Function.update_apply]
    split
    · rename_i hj
      rw [hj, ← hall]
      rfl
    · rfl
  refine ⟨fun j => h.length_arrive k j e, fun j => h.durations_arrive hd j, fun j i hi => ?_, fun _ j => ?_,
    fun he => ?_, fun j => ?_⟩
  · change i < s.curr j + Function.update s.wait k (s.wait k + 1) j at hi
    show ((s.arrive k e).came j)[i]? =
      some (Function.update s.queue k (Function.update (s.queue k) ((s.arrive k e).cnt k - 1) e) j i)
    rw [hsum] at hi
    rw [cnt_arrive, Nat.add_sub_cancel, Function.update_apply]
    split
    · rename_i hj
      rw [if_pos hj] at hi
      rw [hj, Function.update_apply]
      split
      · rename_i hic
        rw [came_arrive, if_pos rfl, hic, ← h.came k, List.getElem?_concat_length]
      · exact getElem?_came_arrive (h.queued k i (by omega))
    · rename_i hj
      rw [if_neg hj] at hi
      exact getElem?_came_arrive (h.queued j i hi)
  · show s.curr j + Function.update s.wait k (s.wait k + 1) j = j.admits (Function.update s.cnt k (s.cnt k + 1) j)
    rw [hsum, Function.update_apply]
    split
    · rename_i hj
      rw [hj, hnew]
    · exact h.admitted hend j
  · rw [show (((s.arrive k e).letIn k).enqueue k ((s.arrive k e).cnt k) e).docSessionEnd = s.docSessionEnd from rfl,
      hend] at he
    cases he
  · show s.curr j + Function.update s.wait k (s.wait k + 1) j ≤ Function.update s.cnt k (s.cnt k + 1) j
    rw [hsum, Function.update_apply]
    split
    · exact Nat.le_refl _
    · exact h.le j

theorem Visited.arrive (h : Visited s) (k : Kind) (e : Event) : Visited (s.arrive k e) where
  duration v hv := by
    obtain ⟨hd, f, hf, hdur⟩ := h.duration v hv
    exact ⟨hd, f, getElem?_came_arrive hf, hdur⟩
  number := h.number

/-! ### A turn -/

structure Inv (s : Vars) : Prop where
  agenda : Agenda s
  rooms : Rooms s
  visited : Visited s
  resting : Resting s

theorem sessionOver_iff :
    s.sessionOver = true ↔ s.curr .patient = 25 ∧ s.curr .salesrep = 3 ∧ s.wait .reporter = 0 := decide_eq_true_iff

/-- **An arrival.** -/
theorem Inv.receive (h : Inv s) (hne : emptyQ s.E = false) (hl : letterOf (nextevent s.E).type = .visitor k) :
    Inv ((s.pop.setTime (nextevent s.E).time).receive k (nextevent s.E)) := by
  have hdone := isDone_of_visitor hl
  have ha := h.agenda.pop hne hdone (nextevent s.E).time
  have hd := h.agenda.durations _ (next_mem hne) hdone
  have hrooms := h.rooms.pop (nextevent s.E).time
  have hvisited := h.visited.pop (nextevent s.E).time
  cases href : ((s.pop.setTime (nextevent s.E).time).arrive k (nextevent s.E)).refusal k with
  | some l =>
    rw [receive_refused href]
    have hv := hvisited.arrive k (nextevent s.E)
    exact ⟨⟨ha.ordered, ha.letters, ha.durations, ha.pending⟩, hrooms.refuse hd href, ⟨hv.duration, hv.number⟩,
      ⟨h.resting.nobody, h.resting.notOver⟩⟩
  | none =>
    rw [receive_admitted href]
    -- nobody waited, so it was not for a reporter that the doctor stayed
    have hstays : s.docFree = true → ((((s.pop.setTime (nextevent s.E).time).arrive k (nextevent s.E)).letIn k).enqueue k
        (((s.pop.setTime (nextevent s.E).time).arrive k (nextevent s.E)).cnt k) (nextevent s.E)).sessionOver = false := by
      intro hf
      have hnot := h.resting.notOver hf
      rw [Bool.eq_false_iff] at hnot ⊢
      intro hover
      obtain ⟨hp, hs, -⟩ := sessionOver_iff.1 hover
      exact hnot (sessionOver_iff.2 ⟨hp, hs, h.resting.nobody hf .reporter⟩)
    have hv := hvisited.arrive k (nextevent s.E)
    obtain ⟨ha', hr', hv', hrest⟩ := dispatchNext_inv
      (s := (((s.pop.setTime (nextevent s.E).time).arrive k (nextevent s.E)).letIn k).enqueue k
        (((s.pop.setTime (nextevent s.E).time).arrive k (nextevent s.E)).cnt k) (nextevent s.E))
      ⟨ha.ordered, ha.letters, ha.durations, ha.pending⟩ (hrooms.letIn hd href)
      ⟨hv.duration, hv.number⟩ hstays
    exact ⟨ha', hr', hv', hrest⟩

/-- **A doctor event.** -/
theorem Inv.doctorFree (h : Inv s) (hne : emptyQ s.E = false) (hl : letterOf (nextevent s.E).type = .done) :
    Inv (s.pop.setTime (nextevent s.E).time).doctorFree := by
  have hdone := isDone_of_done hl
  obtain ⟨ha, hend, hnone⟩ := h.agenda.pop_done hne hdone (nextevent s.E).time
  unfold Vars.doctorFree
  by_cases hover : (s.pop.setTime (nextevent s.E).time).free.sessionOver = true
  · rw [if_pos hover]
    obtain ⟨hp, hs, hr⟩ := sessionOver_iff.1 hover
    refine ⟨⟨ha.ordered, ha.letters, ha.durations, ?_⟩, ⟨h.rooms.came, h.rooms.durations, h.rooms.queued,
      fun he => (by cases he), fun _ => ⟨hp, hs, fun k => ?_⟩, h.rooms.le⟩,
      ⟨h.visited.duration, h.visited.number⟩, fun hf => (by cases hf), fun hf => (by cases hf)⟩
    · have hzero : (s.pop.setTime (nextevent s.E).time).E.contents.countP (fun e => isDone e) = 0 :=
        Multiset.countP_eq_zero.2 (fun e he => by rw [hnone e he]; exact Bool.false_ne_true)
      show (s.pop.setTime (nextevent s.E).time).E.contents.countP (fun e => isDone e) + 0 + 1 = 1
      rw [hzero]
    · -- the quota is seen, so of that kind nobody waits
      have hadm := h.rooms.admitted hend k
      show s.wait k = 0
      cases k with
      | reporter => exact hr
      | patient =>
        have hle : Kind.patient.admits (s.cnt .patient) ≤ 25 := Nat.min_le_right _ _
        change s.curr .patient = 25 at hp
        omega
      | salesrep =>
        have hle : Kind.salesrep.admits (s.cnt .salesrep) ≤ 3 := Nat.min_le_right _ _
        change s.curr .salesrep = 3 at hs
        omega
  · rw [if_neg hover]
    obtain ⟨ha', hr', hv', hrest⟩ := dispatchNext_inv (s := (s.pop.setTime (nextevent s.E).time).free) ha
      (h.rooms.pop _).free (h.visited.pop _).free (fun _ => by simpa using hover)
    exact ⟨ha', hr', hv', hrest⟩

/-- What a turn is. -/
theorem turn_cases {s' : Vars} (h : turn s = some s') : emptyQ s.E = false ∧
    (letterOf (nextevent s.E).type = .done ∧ s' = (s.pop.setTime (nextevent s.E).time).doctorFree ∨
      ∃ k, letterOf (nextevent s.E).type = .visitor k ∧
        s' = (s.pop.setTime (nextevent s.E).time).receive k (nextevent s.E)) := by
  unfold turn at h
  split at h
  · cases h
  · rename_i hne
    refine ⟨by simpa using hne, ?_⟩
    simp only at h
    split at h
    · cases h
      exact Or.inl ⟨‹_›, rfl⟩
    · cases h
      exact Or.inr ⟨_, ‹_›, rfl⟩
    · cases h

theorem Inv.turn {s' : Vars} (h : Inv s) (hst : Session.turn s = some s') : Inv s' := by
  obtain ⟨hne, ⟨hl, rfl⟩ | ⟨k, hl, rfl⟩⟩ := turn_cases hst
  · exact h.doctorFree hne hl
  · exact h.receive hne hl

/-! ### The start -/

/-- What an arrival file holds. -/
def Arrivals (file : List Event) : Prop := ∀ e ∈ file, (∃ k : Kind, e.type = k.letter) ∧ 0 ≤ e.duration

theorem letterOf_letter (k : Kind) : letterOf k.letter = .visitor k := by cases k <;> decide

theorem Arrivals.contents {file : List Event} (h : Arrivals file) (Q : ℕ → Event) :
    (Vars.init file Q).E.contents = doneEvent 0 ::ₘ ↑file := by
  refine (contents_addevent _ _).trans ?_
  rw [contents_initEQ, List.takeWhile_eq_self_iff.2 (fun e he => ?_)]
  obtain ⟨⟨k, hk⟩, -⟩ := h e he
  rw [hk]
  cases k <;> decide

theorem Arrivals.not_done {file : List Event} (h : Arrivals file) {e : Event} (he : e ∈ file) : isDone e = false := by
  obtain ⟨⟨k, hk⟩, -⟩ := h e he
  unfold isDone
  rw [hk]
  cases k <;> decide

theorem Inv.init {file : List Event} (h : Arrivals file) (Q : ℕ → Event) : Inv (Vars.init file Q) := by
  refine ⟨⟨(ordered_initEQ file Q).addevent _, fun e he => ?_, fun e he hd => ?_, ?_⟩,
    ⟨fun _ => rfl, fun _ e he => (by cases he), fun _ i hi => (absurd hi (Nat.not_lt_zero i)), fun _ k => ?_,
      fun he => (by cases he), fun _ => Nat.le_refl _⟩,
    ⟨fun v hv => (by cases hv), fun _ => rfl⟩, fun hf => (by cases hf), fun hf => (by cases hf)⟩
  · rw [h.contents Q] at he
    rcases Multiset.mem_cons.1 he with rfl | he
    · exact fun hl => by cases hl
    · obtain ⟨⟨k, hk⟩, -⟩ := h e he
      rw [hk, letterOf_letter]
      exact fun hl => by cases hl
  · rw [h.contents Q] at he
    rcases Multiset.mem_cons.1 he with rfl | he
    · cases hd
    · exact (h e he).2
  · rw [h.contents Q, Multiset.countP_cons_of_pos _ (by rfl), Multiset.countP_eq_zero.2 (fun e he => ?_)]
    · rfl
    · rw [h.not_done he]
      exact Bool.false_ne_true
  · exact (Nat.le_zero.1 (admits_le k 0)).symm

end Turn

end Session
end OsLab
