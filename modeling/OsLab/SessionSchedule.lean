import OsLab.SessionRuns
import Mathlib.Algebra.BigOperators.Group.Multiset.Basic
import Mathlib.Algebra.Order.BigOperators.Group.List
import Mathlib.Algebra.Order.BigOperators.Group.Multiset
import Mathlib.Algebra.Order.Group.Int
import Mathlib.Data.List.Chain
/-!
# SessionSchedule — the doctor's schedule

The end of a visit is a sum of two `int`s.  While none has overflowed the doctor event comes when the last visit ends, so
that the visits follow each other (`Timely`); once one has, it comes in the past, and so does the next visit.  Who is called
does not depend on it.  So the schedule is kept exactly when no visit but the last overflows (`schedule_iff`).
-/
namespace OsLab
namespace Session

open DecimalText (int32 IsInt int32_of_isInt isInt_int32)

/-- The end of the last visit, or the beginning of the session. -/
def lastStop (visits : List Visit) : ℤ := (visits.getLast?.map Visit.stop).getD 0

/-- The end of each visit is an `int`. -/
def InTime (visits : List Visit) : Prop := ∀ v ∈ visits, v.start + v.duration < 2 ^ 31

/-- The visits follow each other, and if no sum has overflowed the doctor event comes at the end of the last. -/
structure Clocked (s : Vars) : Prop where
  chain : s.visits.IsChain (fun v w => v.stop ≤ w.start)
  start : ∀ v ∈ s.visits, 0 ≤ v.start
  doneTime : InTime s.visits → ∀ e ∈ s.E.contents, isDone e = true → e.time = lastStop s.visits

/-- Between two turns. -/
structure Timely (s : Vars) : Prop extends Clocked s where
  after : InTime s.visits → s.docFree = true → ∀ e ∈ s.E.contents, lastStop s.visits ≤ e.time

/-- The times are `int`s. -/
structure Ints (s : Vars) : Prop where
  now : IsInt s.currTime
  events : ∀ e ∈ s.E.contents, IsInt e.time
  visits : ∀ v ∈ s.visits, IsInt v.start

/-- How long the visits have lasted together. -/
def spent (s : Vars) : ℤ := (s.visits.map Visit.duration).sum

/-- Nothing comes later than the visits can have put it off. -/
structure Within (T : ℤ) (s : Vars) : Prop where
  now : s.currTime ≤ T + spent s
  events : ∀ e ∈ s.E.contents, e.time ≤ T + spent s
  stops : ∀ v ∈ s.visits, v.stop ≤ T + spent s

section Times

variable {file : List Event} {Q : ℕ → Event} {s s' : Vars} {k : Kind} {e : Event} {visits : List Visit}

theorem lastStop_concat (visits : List Visit) (v : Visit) : lastStop (visits ++ [v]) = v.stop := by
  unfold lastStop
  rw [List.getLast?_append]
  rfl

theorem lastStop_le {t : ℤ} (h0 : 0 ≤ t) (h : ∀ v ∈ visits, v.stop ≤ t) : lastStop visits ≤ t := by
  unfold lastStop
  cases hl : visits.getLast? with
  | none => exact h0
  | some v => exact h v (List.mem_of_getLast? hl)

theorem Visited.duration_nonneg (h : Visited s) {v : Visit} (hv : v ∈ s.visits) : 0 ≤ v.duration := (h.duration v hv).1

theorem Clocked.lastStop_nonneg (h : Clocked s) (hv : Visited s) : 0 ≤ lastStop s.visits := by
  unfold lastStop
  cases hl : s.visits.getLast? with
  | none => exact le_refl _
  | some v =>
    have hmem := List.mem_of_getLast? hl
    exact Int.add_nonneg (h.start v hmem) (hv.duration_nonneg hmem)

/-! ### A turn -/

/-- **A visit** begins when the last has ended, and the doctor event comes at its end if the sum does not overflow. -/
theorem Clocked.see (h : Clocked s) (ha : Agenda s) (hr : Rooms s) (hv : Visited s) (hfree : s.docFree = true)
    (hk : 0 < s.wait k) (hnow : lastStop s.visits ≤ s.currTime) : Clocked (s.see k) := by
  have hstart : 0 ≤ s.currTime := (h.lastStop_nonneg hv).trans hnow
  have hdur : 0 ≤ (s.visitor k).duration :=
    hr.durations k _ (List.mem_of_getElem? (hr.queued k (s.curr k) (by omega)))
  refine ⟨?_, fun v hmem => ?_, fun hall e he hd => ?_⟩
  · rw [visits_see]
    refine List.isChain_append.2 ⟨h.chain, List.isChain_singleton _, fun v hmem w hw => ?_⟩
    cases hw
    rw [lastStop, Option.mem_def.1 hmem] at hnow
    exact hnow
  · rcases List.mem_append.1 hmem with hmem | hmem
    · exact h.start v hmem
    · rw [List.mem_singleton.1 hmem]
      exact hstart
  · have hsum : s.currTime + (s.visitor k).duration < 2 ^ 31 :=
      hall ⟨k, s.curr k + 1, s.currTime, (s.visitor k).duration⟩ (List.mem_append_right _ List.mem_cons_self)
    rw [contents_see] at he
    rw [visits_see, lastStop_concat]
    rcases Multiset.mem_cons.1 he with rfl | he
    · exact int32_of_isInt ⟨by omega, hsum⟩
    · rw [(ha.not_ended hfree).2 e he] at hd
      cases hd

/-- **The end of a turn.** -/
theorem Clocked.dispatchNext (h : Clocked s) (ha : Agenda s) (hr : Rooms s) (hv : Visited s)
    (hnow : ∀ e ∈ s.E.contents, s.currTime ≤ e.time)
    (hfree : InTime s.visits → s.docFree = true → lastStop s.visits ≤ s.currTime)
    (hin : InTime s.dispatchNext.visits.dropLast) : Timely s.dispatchNext := by
  unfold Vars.dispatchNext at hin ⊢
  cases hc : s.choose with
  | some k =>
    obtain ⟨hf, -, hk, -⟩ := choose_some hc
    rw [hc] at hin
    change InTime (s.see k).visits.dropLast at hin
    rw [visits_see, List.dropLast_concat] at hin
    exact ⟨h.see ha hr hv hf hk (hfree hin hf), fun _ hf => (by cases hf)⟩
  | none => exact ⟨h, fun hall hf e he => (hfree hall hf).trans (hnow e he)⟩

/-- **An arrival.** -/
theorem Timely.receive (h : Timely s) (hinv : Inv s) (hne : emptyQ s.E = false)
    (hl : letterOf (nextevent s.E).type = .visitor k)
    (hin : InTime ((s.pop.setTime (nextevent s.E).time).receive k (nextevent s.E)).visits.dropLast) :
    Timely ((s.pop.setTime (nextevent s.E).time).receive k (nextevent s.E)) := by
  have hdone := isDone_of_visitor hl
  have hmem := fun e he => mem_of_mem_pop hne (t := (nextevent s.E).time) (e := e) he
  have hclock : ∀ e ∈ (s.pop.setTime (nextevent s.E).time).E.contents, InTime s.visits → isDone e = true →
      e.time = lastStop s.visits := fun e he hall => h.doneTime hall e (hmem e he)
  cases href : ((s.pop.setTime (nextevent s.E).time).arrive k (nextevent s.E)).refusal k with
  | some l =>
    rw [receive_refused href]
    exact ⟨⟨h.chain, h.start, fun hall e he => hclock e he hall⟩, fun hall hf e he => h.after hall hf e (hmem e he)⟩
  | none =>
    rw [receive_admitted href] at hin ⊢
    have ha := hinv.agenda.pop hne hdone (nextevent s.E).time
    have hrooms := hinv.rooms.pop (nextevent s.E).time
    have hv := (hinv.visited.pop (nextevent s.E).time).arrive k (nextevent s.E)
    refine Clocked.dispatchNext
      (s := (((s.pop.setTime (nextevent s.E).time).arrive k (nextevent s.E)).letIn k).enqueue k
        (((s.pop.setTime (nextevent s.E).time).arrive k (nextevent s.E)).cnt k) (nextevent s.E))
      ⟨h.chain, h.start, fun hall e he => hclock e he hall⟩ ⟨ha.ordered, ha.letters, ha.durations, ha.pending⟩
      (hrooms.letIn (hinv.agenda.durations _ (next_mem hne) hdone) href) ⟨hv.duration, hv.number⟩
      (fun e he => hinv.agenda.next_le hne e (hmem e he)) (fun hall hf => h.after hall hf _ (next_mem hne)) hin

/-- **A doctor event.** -/
theorem Timely.doctorFree (h : Timely s) (hinv : Inv s) (hne : emptyQ s.E = false)
    (hl : letterOf (nextevent s.E).type = .done)
    (hin : InTime (s.pop.setTime (nextevent s.E).time).doctorFree.visits.dropLast) :
    Timely (s.pop.setTime (nextevent s.E).time).doctorFree := by
  have hdone := isDone_of_done hl
  obtain ⟨ha, -, hnone⟩ := hinv.agenda.pop_done hne hdone (nextevent s.E).time
  have hclock : InTime s.visits → ∀ e ∈ (s.pop.setTime (nextevent s.E).time).E.contents, isDone e = true →
      e.time = lastStop s.visits := fun _ e he hd => by
    rw [hnone e he] at hd
    cases hd
  unfold Vars.doctorFree at hin ⊢
  split at hin
  · rename_i hover
    rw [if_pos hover]
    exact ⟨⟨h.chain, h.start, hclock⟩, fun _ hf => (by cases hf)⟩
  · rename_i hover
    rw [if_neg hover]
    exact Clocked.dispatchNext (s := (s.pop.setTime (nextevent s.E).time).free) ⟨h.chain, h.start, hclock⟩ ha
      (hinv.rooms.pop _).free (hinv.visited.pop _).free
      (fun e he => hinv.agenda.next_le hne e (mem_of_mem_pop hne (t := (nextevent s.E).time) he))
      (fun hall _ => (h.doneTime hall _ (next_mem hne) hdone).ge) hin

theorem Timely.turn (h : Timely s) (hinv : Inv s) (hst : Session.turn s = some s') (hin : InTime s'.visits.dropLast) :
    Timely s' := by
  obtain ⟨hne, ⟨hl, rfl⟩ | ⟨k, hl, rfl⟩⟩ := turn_cases hst
  · exact h.doctorFree hinv hne hl hin
  · exact h.receive hinv hne hl hin

theorem Timely.init (hfile : Arrivals file) (Q : ℕ → Event) : Timely (Vars.init file Q) := by
  refine ⟨⟨List.isChain_nil, fun v hv => (by cases hv), fun _ e he hd => ?_⟩, fun _ hf => (by cases hf)⟩
  rw [hfile.contents Q] at he
  rcases Multiset.mem_cons.1 he with rfl | he
  · rfl
  · rw [hfile.not_done he] at hd
    cases hd

theorem timely_of_reachable (hfile : Arrivals file)
    (hin : ∀ s, Reachable mainLoop (Vars.init file Q) s → InTime s.visits.dropLast)
    (h : Reachable mainLoop (Vars.init file Q) s) : Timely s :=
  reachable_inv Timely (Timely.init hfile Q)
    (fun _ _ _ hr hs hst => hs.turn (sound_of_reachable hfile hr).inv hst (hin _ (hr.step hst))) h

/-! ### The times as numbers -/

theorem Ints.dispatchNext (h : Ints s) : Ints s.dispatchNext := by
  unfold Vars.dispatchNext
  cases s.choose with
  | none => exact h
  | some k =>
    refine ⟨h.now, fun e he => ?_, fun v hv => ?_⟩
    · rw [contents_see] at he
      rcases Multiset.mem_cons.1 he with rfl | he
      · exact isInt_int32 _
      · exact h.events e he
    · rcases List.mem_append.1 hv with hv | hv
      · exact h.visits v hv
      · rw [List.mem_singleton.1 hv]
        exact h.now

theorem Ints.pop (h : Ints s) (hne : emptyQ s.E = false) : Ints (s.pop.setTime (nextevent s.E).time) :=
  ⟨h.events _ (next_mem hne), fun e he => h.events e (mem_of_mem_pop hne (t := (nextevent s.E).time) he), h.visits⟩

theorem Ints.turn (h : Ints s) (hst : Session.turn s = some s') : Ints s' := by
  obtain ⟨hne, ⟨-, rfl⟩ | ⟨k, -, rfl⟩⟩ := turn_cases hst
  · have hpop := h.pop hne
    unfold Vars.doctorFree
    split
    · exact ⟨hpop.now, hpop.events, hpop.visits⟩
    · exact Ints.dispatchNext (s := (s.pop.setTime (nextevent s.E).time).free) ⟨hpop.now, hpop.events, hpop.visits⟩
  · have hpop := h.pop hne
    cases href : ((s.pop.setTime (nextevent s.E).time).arrive k (nextevent s.E)).refusal k with
    | some l =>
      rw [receive_refused href]
      exact ⟨hpop.now, hpop.events, hpop.visits⟩
    | none =>
      rw [receive_admitted href]
      exact Ints.dispatchNext ⟨hpop.now, hpop.events, hpop.visits⟩

theorem ints_of_reachable (hfile : Arrivals file) (hint : ∀ e ∈ file, IsInt e.time)
    (h : Reachable mainLoop (Vars.init file Q) s) : Ints s := by
  refine reachable_inv Ints ⟨?_, fun e he => ?_, fun v hv => (by cases hv)⟩ (fun _ _ _ _ hs hst => hs.turn hst) h
  · change IsInt (-1000000000)
    decide
  · rw [hfile.contents Q] at he
    rcases Multiset.mem_cons.1 he with rfl | he
    · change IsInt 0
      decide
    · exact hint e he

theorem int32_le {x : ℤ} (h : -2 ^ 31 ≤ x) : int32 x ≤ x := by
  by_cases hx : x < 2 ^ 31
  · exact (int32_of_isInt ⟨h, hx⟩).le
  · have hlt := (isInt_int32 x).2
    omega

theorem spent_see (s : Vars) (k : Kind) : spent (s.see k) = spent s + (s.visitor k).duration := by
  unfold spent
  rw [visits_see, List.map_append, List.sum_append]
  simp

/-- **A visit puts off what follows** by its duration at most. -/
theorem Within.dispatchNext {T : ℤ} (h : Within T s) (hr : Rooms s) (hint : Ints s) : Within T s.dispatchNext := by
  unfold Vars.dispatchNext
  cases hc : s.choose with
  | none => exact h
  | some k =>
    obtain ⟨-, -, hk, -⟩ := choose_some hc
    have hdur : 0 ≤ (s.visitor k).duration :=
      hr.durations k _ (List.mem_of_getElem? (hr.queued k (s.curr k) (by omega)))
    have hnow := h.now
    have hlo := hint.now.1
    refine ⟨?_, fun e he => ?_, fun v hv => ?_⟩
    · rw [spent_see]
      change s.currTime ≤ _
      omega
    · rw [contents_see] at he
      rw [spent_see]
      rcases Multiset.mem_cons.1 he with rfl | he
      · have hle := int32_le (x := s.currTime + (s.visitor k).duration) (by omega)
        change int32 (s.currTime + (s.visitor k).duration) ≤ _
        omega
      · have hle := h.events e he
        omega
    · rw [visits_see] at hv
      rw [spent_see]
      rcases List.mem_append.1 hv with hv | hv
      · have hle := h.stops v hv
        omega
      · rw [List.mem_singleton.1 hv]
        change s.currTime + (s.visitor k).duration ≤ _
        omega

theorem Within.turn {T : ℤ} (h : Within T s) (hinv : Inv s) (hint : Ints s) (hst : Session.turn s = some s') :
    Within T s' := by
  obtain ⟨hne, ⟨hl, rfl⟩ | ⟨k, hl, rfl⟩⟩ := turn_cases hst
  all_goals
    have hpop := hint.pop hne
    have hwithin : Within T (s.pop.setTime (nextevent s.E).time) :=
      ⟨h.events _ (next_mem hne), fun e he => h.events e (mem_of_mem_pop hne (t := (nextevent s.E).time) he), h.stops⟩
    have hrooms := hinv.rooms.pop (nextevent s.E).time
  · unfold Vars.doctorFree
    split
    · exact ⟨hwithin.now, hwithin.events, hwithin.stops⟩
    · exact Within.dispatchNext (s := (s.pop.setTime (nextevent s.E).time).free)
        ⟨hwithin.now, hwithin.events, hwithin.stops⟩ hrooms.free ⟨hpop.now, hpop.events, hpop.visits⟩
  · cases href : ((s.pop.setTime (nextevent s.E).time).arrive k (nextevent s.E)).refusal k with
    | some l =>
      rw [receive_refused href]
      exact ⟨hwithin.now, hwithin.events, hwithin.stops⟩
    | none =>
      rw [receive_admitted href]
      exact Within.dispatchNext ⟨hwithin.now, hwithin.events, hwithin.stops⟩
        (hrooms.letIn (hinv.agenda.durations _ (next_mem hne) (isDone_of_visitor hl)) href) ⟨hpop.now, hpop.events, hpop.visits⟩

/-- The visits of one kind last as long as the records of those who were seen say. -/
theorem durations_take : ∀ {n : ℕ} {visits : List Visit} {came : List Event}, visits.map Visit.number = List.range' 1 n →
    (∀ v ∈ visits, ∃ e, came[v.number - 1]? = some e ∧ v.duration = e.duration) →
    visits.map Visit.duration = (came.take n).map Event.duration
  | 0, visits, came, hn, _ => by
    rw [List.map_eq_nil_iff.1 hn]
    rfl
  | n + 1, visits, came, hn, hd => by
    rw [List.range'_concat, Nat.one_mul] at hn
    obtain ⟨vs, ws, rfl, hvs, hws⟩ := List.map_eq_append_iff.1 hn
    obtain ⟨v, rfl, hv⟩ := List.map_eq_singleton_iff.1 hws
    obtain ⟨e, he, hve⟩ := hd v (List.mem_append_right _ List.mem_cons_self)
    rw [hv, Nat.add_sub_cancel_left] at he
    rw [List.map_append, durations_take hvs fun w hw => hd w (List.mem_append_left _ hw), List.take_add_one, he,
      List.map_append]
    simp [hve]

theorem sum_take_le {xs : List ℤ} (h : ∀ x ∈ xs, 0 ≤ x) (n : ℕ) : (xs.take n).sum ≤ xs.sum := by
  have hsplit := List.sum_take_add_sum_drop xs n
  have hdrop : 0 ≤ (xs.drop n).sum := List.sum_nonneg fun x hx => h x (List.mem_of_mem_drop hx)
  omega

/-- **The visits last no longer than all records say.** -/
theorem Sound.spent_le (h : Sound file s) : spent s ≤ (file.map Event.duration).sum := by
  have hkind : ∀ k, ((s.visits.filter (fun v => v.kind = k)).map Visit.duration).sum ≤
      ((s.came k).map Event.duration).sum := fun k => by
    rw [durations_take (h.inv.visited.number k) fun v hv => ?_, List.map_take]
    · refine sum_take_le (fun x hx => ?_) _
      obtain ⟨e, he, rfl⟩ := List.mem_map.1 hx
      exact h.inv.rooms.durations k e he
    · obtain ⟨hmem, hk⟩ := List.mem_filter.1 hv
      rw [← of_decide_eq_true hk]
      exact (h.inv.visited.duration v hmem).2
  have hvisits : ∀ visits : List Visit, (visits.map Visit.duration).sum =
      ((visits.filter (fun v => v.kind = .patient)).map Visit.duration).sum +
      ((visits.filter (fun v => v.kind = .reporter)).map Visit.duration).sum +
      ((visits.filter (fun v => v.kind = .salesrep)).map Visit.duration).sum := fun visits => by
    induction visits with
    | nil => rfl
    | cons v vs ih =>
      cases hv : v.kind <;> simp [hv, ih] <;> omega
  have hfile := congrArg (fun es => (es.map Event.duration).sum) h.conserved.all
  simp only [everyone, Multiset.map_add, Multiset.sum_add, Multiset.map_coe, Multiset.sum_coe] at hfile
  have hrest : 0 ≤ ((s.E.contents.filter (fun e => isDone e = false)).map Event.duration).sum :=
    Multiset.sum_nonneg fun x hx => by
      obtain ⟨e, he, rfl⟩ := Multiset.mem_map.1 hx
      obtain ⟨hmem, hd⟩ := Multiset.mem_filter.1 he
      exact h.inv.agenda.durations e hmem hd
  have hp := hkind .patient
  have hr := hkind .reporter
  have hs := hkind .salesrep
  unfold spent
  rw [hvisits]
  omega

/-- **No sum overflows** when the latest arrival and all durations together are an `int`. -/
theorem inTime_of_total {T : ℤ} (hfile : Arrivals file) (hint : ∀ e ∈ file, IsInt e.time) (h0 : 0 ≤ T)
    (hT : ∀ e ∈ file, e.time ≤ T) (htotal : T + (file.map Event.duration).sum < 2 ^ 31)
    (h : Reachable mainLoop (Vars.init file Q) s) : InTime s.visits := by
  have hwithin : Within T s := by
    refine reachable_inv (Within T) ⟨?_, fun e he => ?_, fun v hv => (by cases hv)⟩ (fun _ _ _ hr hs hst => ?_) h
    · change -1000000000 ≤ T + 0
      omega
    · change e.time ≤ T + 0
      rw [hfile.contents Q] at he
      rcases Multiset.mem_cons.1 he with rfl | he
      · change 0 ≤ T + 0
        omega
      · have hle := hT e he
        omega
    · exact hs.turn (sound_of_reachable hfile hr).inv (ints_of_reachable hfile hint hr) hst
  intro v hv
  have hstop := hwithin.stops v hv
  have hspent := (sound_of_reachable hfile h).spent_le
  change v.stop < 2 ^ 31
  omega

/-! ### The schedule -/

/-- Each visit begins after the end of all before it. -/
theorem Clocked.pairwise (h : Clocked s) (hv : Visited s) :
    s.visits.Pairwise (fun v w => v.start ≤ w.start ∧ v.stop ≤ w.start) := by
  have hdur : ∀ v ∈ s.visits, v.start ≤ v.stop := fun v hmem => Int.le_add_of_nonneg_right (hv.duration_nonneg hmem)
  have hall : ∀ visits : List Visit, (∀ v ∈ visits, v.start ≤ v.stop) → visits.IsChain (fun v w => v.stop ≤ w.start) →
      visits.Pairwise (fun v w => v.start ≤ w.start ∧ v.stop ≤ w.start) := fun visits => by
    induction visits with
    | nil => exact fun _ _ => List.Pairwise.nil
    | cons v vs ih =>
      intro hd hc
      have hrest := ih (fun w hw => hd w (List.mem_cons_of_mem _ hw)) hc.tail
      refine List.pairwise_cons.2 ⟨fun w hw => ?_, hrest⟩
      have hv := hd v List.mem_cons_self
      cases vs with
      | nil => cases hw
      | cons u us =>
        have hvu : v.stop ≤ u.start := (List.isChain_cons_cons.1 hc).1
        have huw : u.start ≤ w.start := by
          rcases List.mem_cons.1 hw with rfl | hw
          · exact le_refl _
          · exact ((List.pairwise_cons.1 hrest).1 w hw).1
        exact ⟨hv.trans (hvu.trans huw), hvu.trans huw⟩
  exact hall s.visits hdur h.chain

theorem dispatchNext_visits {v : Visit} (h : s.dispatchNext.visits = s.visits ++ [v]) :
    (v.kind ≠ .reporter → s.dispatchNext.wait .reporter = 0) ∧ (v.kind = .salesrep → s.dispatchNext.wait .patient = 0) := by
  unfold Vars.dispatchNext at h ⊢
  cases hc : s.choose with
  | none =>
    rw [hc] at h
    have hlen := congrArg List.length h
    rw [List.length_append] at hlen
    exact absurd hlen (by simp)
  | some k =>
    rw [hc] at h
    obtain ⟨-, -, -, hr, hp⟩ := choose_some hc
    have hv := List.append_cancel_left h
    cases hv
    constructor
    · intro hk
      show Function.update s.wait k (s.wait k - 1) .reporter = 0
      rw [Function.update_of_ne (Ne.symm hk)]
      exact hr hk
    · intro hk
      show Function.update s.wait k (s.wait k - 1) .patient = 0
      change k = .salesrep at hk
      rw [Function.update_of_ne (by rw [hk]; decide)]
      exact hp hk

/-- **Reporters first, then patients, then sales representatives.** -/
theorem turn_visits {v : Visit} (hst : turn s = some s') (h : s'.visits = s.visits ++ [v]) :
    (v.kind ≠ .reporter → s'.wait .reporter = 0) ∧ (v.kind = .salesrep → s'.wait .patient = 0) := by
  have hnone : s.visits ≠ s.visits ++ [v] := fun e => by
    have hlen := congrArg List.length e
    rw [List.length_append] at hlen
    exact absurd hlen (by simp)
  obtain ⟨hne, ⟨hl, rfl⟩ | ⟨k, hl, rfl⟩⟩ := turn_cases hst
  · unfold Vars.doctorFree at h ⊢
    split at h
    · exact absurd h hnone
    · rename_i hover
      rw [if_neg hover]
      exact dispatchNext_visits h
  · cases href : ((s.pop.setTime (nextevent s.E).time).arrive k (nextevent s.E)).refusal k with
    | some l =>
      rw [receive_refused href] at h
      exact absurd h hnone
    | none =>
      rw [receive_admitted href] at h ⊢
      exact dispatchNext_visits h

/-- **The doctor is not idle** while somebody waits, once the events of the minute are done. -/
theorem Timely.busy (h : Timely s) (hinv : Inv s) (hint : Ints s) (h0 : 0 ≤ s.currTime) (hend : s.docSessionEnd = false)
    (hfree : ∀ v ∈ s.visits, v.stop ≤ s.currTime) (hminute : ∀ e ∈ s.E.contents, s.currTime < e.time) (k : Kind) :
    s.wait k = 0 := by
  refine hinv.resting.nobody ?_ k
  have hp := hinv.agenda.pending
  have hin : InTime s.visits := fun v hv => (hfree v hv).trans_lt hint.now.2
  have hzero : s.E.contents.countP (fun e => isDone e) = 0 := Multiset.countP_eq_zero.2 (fun e he hd => by
    have htime := h.doneTime hin e he hd
    have hlt := hminute e he
    have hle := lastStop_le h0 hfree
    omega)
  rw [hzero, hend] at hp
  cases hf : s.docFree with
  | true => rfl
  | false => rw [hf] at hp; cases hp

end Times

/-- What the schedule of the doctor is to keep.  `came` holds the records of each kind in the order of the arrivals, and those
of a kind who have come are seen, wait or were refused. -/
structure Scheduled (file : List Event) (s : Vars) : Prop where
  follows : s.visits.Pairwise (fun v w => v.start ≤ w.start ∧ v.stop ≤ w.start)
  begins : ∀ v ∈ s.visits, 0 ≤ v.start
  records : s.E.contents.filter (fun e => isDone e = false) + everyone s.came = ↑file
  lasts : ∀ v ∈ s.visits, ∃ e, (s.came v.kind)[v.number - 1]? = some e ∧ v.duration = e.duration
  inOrder : ∀ k, (s.visits.filter (fun v => v.kind = k)).map Visit.number = List.range' 1 (s.curr k)
  counts : ∀ k, s.curr k + s.wait k + (s.out.filterMap (Line.refused k)).length = s.cnt k
  /-- When a visit begins nobody waits who would come first. -/
  prefers : ∀ s' v, turn s = some s' → s'.visits = s.visits ++ [v] →
    (v.kind ≠ .reporter → s'.wait .reporter = 0) ∧ (v.kind = .salesrep → s'.wait .patient = 0)
  /-- A doctor who is free, with the minute's events done, leaves nobody waiting. -/
  busy : 0 ≤ s.currTime → s.docSessionEnd = false → (∀ v ∈ s.visits, v.stop ≤ s.currTime) →
    (∀ e ∈ s.E.contents, s.currTime < e.time) → ∀ k, s.wait k = 0

section Schedule

variable {file : List Event} {Q : ℕ → Event} {s : Vars}

/-- The schedule is kept while no sum overflows but the last. -/
theorem scheduled (hfile : Arrivals file) (hint : ∀ e ∈ file, IsInt e.time)
    (hin : ∀ s, Reachable mainLoop (Vars.init file Q) s → InTime s.visits.dropLast)
    (h : Reachable mainLoop (Vars.init file Q) s) : Scheduled file s := by
  have hs := sound_of_reachable hfile h
  have ht := timely_of_reachable hfile hin h
  refine ⟨ht.pairwise hs.inv.visited, ht.start, hs.conserved.all, fun v hv => (hs.inv.visited.duration v hv).2,
    hs.inv.visited.number, fun k => ?_, fun s' v hst hv => turn_visits hst hv,
    ht.busy hs.inv (ints_of_reachable hfile hint h)⟩
  rw [hs.told.tallied.refused k, List.length_range']
  have hle := hs.inv.rooms.le k
  omega

/-- **The doctor's schedule**, for every arrival file: it is kept in every state that main comes to exactly when no visit but
the last is called at a time from which its duration leads past the greatest `int`. -/
theorem schedule_iff (hfile : Arrivals file) (hint : ∀ e ∈ file, IsInt e.time) (Q : ℕ → Event) :
    (∀ s, Reachable mainLoop (Vars.init file Q) s → Scheduled file s) ↔
      ∀ s, Reachable mainLoop (Vars.init file Q) s → ∀ v ∈ s.visits.dropLast, v.start + v.duration < 2 ^ 31 := by
  refine ⟨fun h s hs v hv => ?_, fun hin s hs => scheduled hfile hint hin hs⟩
  obtain ⟨w, hw⟩ : ∃ w, s.visits = s.visits.dropLast ++ [w] :=
    ⟨_, (List.dropLast_append_getLast (List.ne_nil_of_mem (List.mem_of_mem_dropLast hv))).symm⟩
  have hfollows := (h s hs).follows
  rw [hw] at hfollows
  have hvw := (List.pairwise_append.1 hfollows).2.2 v hv w List.mem_cons_self
  have hbound := ((ints_of_reachable hfile hint hs).visits w (hw ▸ List.mem_append_right _ List.mem_cons_self)).2
  exact hvw.2.trans_lt hbound

end Schedule

theorem fourArrivals_ints : ∀ e ∈ fourArrivals, IsInt e.time := by decide

theorem schedule_iff_four : (∀ s, Reachable mainLoop fourStart s → Scheduled fourArrivals s) ∧
    fourEnd.visits = [⟨.patient, 1, 0, 7⟩, ⟨.reporter, 1, 7, 2⟩, ⟨.patient, 2, 9, 4⟩, ⟨.salesrep, 1, 13, 2⟩] :=
  ⟨(schedule_iff fourArrivals_ok fourArrivals_ints _).2 fun _ hs v hv =>
      inTime_of_total fourArrivals_ok fourArrivals_ints (T := 3) (by decide) (by decide) (by decide) hs v
        (List.mem_of_mem_dropLast hv),
    by decide +kernel⟩

/-- The first patient stays until the greatest `int`, and the second beyond it. -/
def longArrivals : List Event := [⟨'P', 0, 2147483647⟩, ⟨'P', 0, 5⟩, ⟨'S', 0, 1⟩]

def longStart : Vars := Vars.init longArrivals (fun _ => ⟨'x', 0, 0⟩)

def longEnd : Vars := (runSchedule mainLoop (List.replicate 7 ()) longStart).getD longStart

/-- The sales representative's visit begins 2147483644 minutes before nine. -/
theorem visit_before_nine : longEnd.visits = [⟨.patient, 1, 0, 2147483647⟩, ⟨.patient, 2, 2147483647, 5⟩,
      ⟨.salesrep, 1, -2147483644, 1⟩] ∧ ¬ ∀ s, Reachable mainLoop longStart s → Scheduled longArrivals s := by
  have hvisits : longEnd.visits = [⟨.patient, 1, 0, 2147483647⟩, ⟨.patient, 2, 2147483647, 5⟩,
      ⟨.salesrep, 1, -2147483644, 1⟩] := by decide +kernel
  refine ⟨hvisits, fun h => ?_⟩
  have hbegins := (h longEnd (reachable_getD _ longStart (by decide +kernel))).begins ⟨.salesrep, 1, -2147483644, 1⟩
    (by rw [hvisits]; decide)
  exact absurd hbegins (by decide)

end Session
end OsLab
