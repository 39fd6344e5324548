import OsLab.Heap
import OsLab.Reach
import Mathlib.Data.Prod.Lex
import Mathlib.Data.Int.Order.Basic
/-!
# EventQueue — the event queue of the doctor's session

`event.c` of Assignment 6: a heap in an array of 128 events, earliest time first and, of one time, reporters before patients
before sales representatives before the rest.  The array is a function from places; `n` says how many are in use.
-/
namespace OsLab
namespace Session

structure Event where
  type : Char
  time : ℤ
  duration : ℤ
  deriving DecidableEq, Repr

def eventcmp (e₁ e₂ : Event) : ℤ :=
  if e₁.time < e₂.time then -1
  else if e₁.time > e₂.time then 1
  else if e₁.type = 'R' then -1
  else if e₂.type = 'R' then 1
  else if e₁.type = 'P' then -1
  else if e₂.type = 'P' then 1
  else if e₁.type = 'S' then -1
  else if e₂.type = 'S' then 1
  else 0

/-- `eventcmp(..) < 0`, the test of the loops. -/
def before (e₁ e₂ : Event) : Bool := eventcmp e₁ e₂ < 0

structure EventQ where
  n : ℕ
  Q : ℕ → Event

def emptyQ (E : EventQ) : Bool := E.n = 0

/-- The lines of the file up to the one that begins with `E`, the last. -/
def readEvents : List Event → EventQ → EventQ
  | [], E => E
  | e :: es, E => if e.type = 'E' then E else readEvents es ⟨E.n + 1, Function.update E.Q E.n e⟩

/-- The loop over the places `j - 1, .., 0`. -/
def heapify (n : ℕ) : ℕ → (ℕ → Event) → ℕ → Event
  | 0, Q => Q
  | j + 1, Q => heapify n j (Heap.siftDown before n Q j)

/-- `Q` is what stands in the array that `malloc` returns. -/
def initEQ (file : List Event) (Q : ℕ → Event) : EventQ :=
  let E := readEvents file ⟨0, Q⟩
  ⟨E.n, heapify E.n (E.n / 2) E.Q⟩

def addevent (E : EventQ) (e : Event) : EventQ :=
  ⟨E.n + 1, Heap.siftUp before (Function.update E.Q E.n e) E.n⟩

def delevent (E : EventQ) : EventQ :=
  if 0 < E.n then ⟨E.n - 1, Heap.siftDown before (E.n - 1) (Function.update E.Q 0 (E.Q (E.n - 1))) 0⟩ else E

def nextevent (E : EventQ) : Event := if E.n = 0 then ⟨'E', 0, 0⟩ else E.Q 0

/-- The calls after `initEQ`; an event is added while the array has a place for it. -/
inductive Call where
  | addevent (e : Event)
  | delevent
  | nextevent

def call : Call → EventQ → Option EventQ
  | .addevent e, E => if E.n < 128 then some (addevent E e) else none
  | .delevent, E => some (delevent E)
  | .nextevent, E => some E

/-- What `nextevent` and `delevent` take out, one after the other, until the queue is empty. -/
def drain (E : EventQ) : List Event := if _h : E.n = 0 then [] else nextevent E :: drain (delevent E)
termination_by E.n
decreasing_by unfold delevent; split <;> simp <;> omega

/-! ### The order -/

/-- R before P before S before any other letter. -/
def rank (c : Char) : ℕ := if c = 'R' then 0 else if c = 'P' then 1 else if c = 'S' then 2 else 3

def key (e : Event) : ℤ ×ₗ ℕ := toLex (e.time, rank e.type)

theorem key_le_iff {e₁ e₂ : Event} :
    key e₁ ≤ key e₂ ↔ e₁.time < e₂.time ∨ e₁.time = e₂.time ∧ rank e₁.type ≤ rank e₂.type := Prod.Lex.toLex_le_toLex

theorem eventcmp_of_lt {e₁ e₂ : Event} (h : e₁.time < e₂.time) : eventcmp e₁ e₂ = -1 := if_pos h

theorem eventcmp_of_gt {e₁ e₂ : Event} (h : e₂.time < e₁.time) : eventcmp e₁ e₂ = 1 := by
  unfold eventcmp
  rw [if_neg (Int.lt_asymm h), if_pos h]

/-- Of one time, the letters decide. -/
theorem eventcmp_of_eq {e₁ e₂ : Event} (h : e₁.time = e₂.time) :
    (eventcmp e₁ e₂ < 0 → rank e₁.type ≤ rank e₂.type) ∧ (¬ eventcmp e₁ e₂ < 0 → rank e₂.type ≤ rank e₁.type) := by
  unfold eventcmp rank
  rw [if_neg (show ¬ e₁.time < e₂.time by omega), if_neg (show ¬ e₁.time > e₂.time by omega)]
  split_ifs <;> decide

/-- **`eventcmp` decides the order**, though it says "less" both ways on some ties and neither way on others. -/
theorem compares : Heap.Compares before key where
  le {e₁ e₂} h := by
    have hneg : eventcmp e₁ e₂ < 0 := of_decide_eq_true h
    rw [key_le_iff]
    rcases Int.lt_trichotomy e₁.time e₂.time with hlt | heq | hgt
    · exact Or.inl hlt
    · exact Or.inr ⟨heq, (eventcmp_of_eq heq).1 hneg⟩
    · rw [eventcmp_of_gt hgt] at hneg
      exact absurd hneg (by decide)
  ge {e₁ e₂} h := by
    have hneg : ¬ eventcmp e₁ e₂ < 0 := of_decide_eq_false h
    rw [key_le_iff]
    rcases Int.lt_trichotomy e₁.time e₂.time with hlt | heq | hgt
    · rw [eventcmp_of_lt hlt] at hneg
      exact absurd (by decide) hneg
    · exact Or.inr ⟨heq.symm, (eventcmp_of_eq heq).2 hneg⟩
    · exact Or.inl hgt

/-! ### The queue as a multiset -/

def EventQ.contents (E : EventQ) : Multiset Event := Heap.contents E.n E.Q

/-- The array is a heap. -/
def EventQ.Ordered (E : EventQ) : Prop := Heap.OrderedFrom key 0 E.n E.Q

theorem contents_eq_zero (E : EventQ) : E.contents = 0 ↔ E.n = 0 := by
  rw [← Multiset.card_eq_zero, EventQ.contents, Heap.card_contents]

theorem contents_readEvents (file : List Event) (E : EventQ) :
    (readEvents file E).contents = ↑(file.takeWhile (fun e => e.type ≠ 'E')) + E.contents := by
  induction file generalizing E with
  | nil => simp [readEvents]
  | cons e es ih =>
    unfold readEvents
    by_cases he : e.type = 'E'
    · simp [he]
    · rw [if_neg he, ih, List.takeWhile_cons_of_pos (by simpa using he)]
      have hnew : EventQ.contents ⟨E.n + 1, Function.update E.Q E.n e⟩ = e ::ₘ E.contents := by
        refine (Heap.contents_succ E.n (Function.update E.Q E.n e)).trans ?_
        rw [Function.update_self]
        exact congrArg _ (Heap.contents_congr (fun i hi => Function.update_of_ne (Nat.ne_of_lt hi) _ _))
      rw [hnew, ← Multiset.cons_coe, Multiset.add_cons, Multiset.cons_add]

theorem contents_heapify (n j : ℕ) (Q : ℕ → Event) : Heap.contents n (heapify n j Q) = Heap.contents n Q := by
  induction j generalizing Q with
  | zero => rfl
  | succ j ih =>
    rw [heapify, ih]
    exact Heap.contents_siftDown before n Q j

theorem contents_initEQ (file : List Event) (Q : ℕ → Event) :
    (initEQ file Q).contents = ↑(file.takeWhile (fun e => e.type ≠ 'E')) := by
  have hread := contents_readEvents file ⟨0, Q⟩
  rw [(contents_eq_zero ⟨0, Q⟩).2 rfl, Multiset.add_zero] at hread
  rw [← hread]
  exact contents_heapify _ _ _

/-- **`addevent` adds exactly the event.** -/
theorem contents_addevent (E : EventQ) (e : Event) : (addevent E e).contents = e ::ₘ E.contents := by
  rw [EventQ.contents, addevent, Heap.contents_siftUp before _ _ (Nat.lt_succ_self E.n), Heap.contents_succ,
    Function.update_self]
  exact congrArg _ (Heap.contents_congr (fun i hi => Function.update_of_ne (Nat.ne_of_lt hi) _ _))

/-- **`delevent` removes exactly what `nextevent` returns.** -/
theorem contents_delevent {E : EventQ} (h : E.n ≠ 0) : nextevent E ::ₘ (delevent E).contents = E.contents := by
  obtain ⟨m, hm⟩ := Nat.exists_eq_succ_of_ne_zero h
  rw [EventQ.contents, delevent, if_pos (Nat.pos_of_ne_zero h), Heap.contents_siftDown, nextevent, if_neg h,
    EventQ.contents, hm, Nat.succ_sub_one, ← Heap.contents_swap E.Q (Nat.succ_pos m) (Nat.lt_succ_self m),
    Heap.contents_succ, Heap.swap_right]
  refine congrArg _ (Heap.contents_congr (fun i hi => ?_))
  unfold Heap.swap
  rw [Function.update_of_ne (Nat.ne_of_lt hi)]

theorem ordered_heapify {n : ℕ} (j : ℕ) (Q : ℕ → Event) (h : Heap.OrderedFrom key j n Q) :
    Heap.OrderedFrom key 0 n (heapify n j Q) := by
  induction j generalizing Q with
  | zero => exact h
  | succ j ih =>
    refine ih _ (Heap.siftDown_ordered compares (Nat.le_refl j) ⟨fun p c hp hpj => ?_, fun p c hp hj => ?_⟩)
    · exact h p c (by omega)
    · omega

theorem ordered_initEQ (file : List Event) (Q : ℕ → Event) : (initEQ file Q).Ordered :=
  ordered_heapify _ _ (fun p c hp hc hcn => by change c < (readEvents file ⟨0, Q⟩).n at hcn; omega)

theorem EventQ.Ordered.addevent {E : EventQ} (h : E.Ordered) (e : Event) : (addevent E e).Ordered := by
  refine Heap.siftUp_ordered compares ⟨fun p c hcn hc hlt => ?_, fun p c _ hc hlt => ?_⟩ <;>
    change c < E.n + 1 at hlt
  · rw [Function.update_of_ne hcn, Function.update_of_ne (show p ≠ E.n by omega)]
    exact h p c (Nat.zero_le p) hc (by omega)
  · omega

theorem EventQ.Ordered.delevent {E : EventQ} (h : E.Ordered) : (delevent E).Ordered := by
  unfold Session.delevent
  split
  · refine Heap.siftDown_ordered compares (Nat.zero_le 0) ⟨fun p c hp hp0 hc hcn => ?_, fun p c _ h0 => ?_⟩
    · rw [Function.update_of_ne hp0, Function.update_of_ne (show c ≠ 0 by omega)]
      exact h p c hp hc (by change c < E.n - 1 at hcn; omega)
    · omega
  · exact h

/-- **`nextevent` returns a least event.** -/
theorem EventQ.Ordered.nextevent {E : EventQ} (h : E.Ordered) (hn : E.n ≠ 0) :
    nextevent E ∈ E.contents ∧ ∀ e ∈ E.contents, key (nextevent E) ≤ key e := by
  unfold Session.nextevent
  rw [if_neg hn]
  refine ⟨Heap.mem_contents.2 ⟨0, Nat.pos_of_ne_zero hn, rfl⟩, fun e he => ?_⟩
  obtain ⟨i, hi, rfl⟩ := Heap.mem_contents.1 he
  exact h.least i hi

/-- The queues hold the same events at the same places, whatever stands in the rest of the array. -/
structure EventQ.Same (E E' : EventQ) : Prop where
  n : E'.n = E.n
  Q : Heap.Agree E.n E.Q E'.Q

theorem EventQ.Same.emptyQ {E E' : EventQ} (h : E.Same E') : emptyQ E' = emptyQ E := by
  unfold Session.emptyQ
  rw [h.n]

theorem EventQ.Same.nextevent {E E' : EventQ} (h : E.Same E') : nextevent E' = nextevent E := by
  unfold Session.nextevent
  rw [h.n]
  split
  · rfl
  · exact h.Q 0 (by omega)

theorem EventQ.Same.addevent {E E' : EventQ} (h : E.Same E') (e : Event) : (addevent E e).Same (addevent E' e) := by
  refine ⟨congrArg (· + 1) h.n, ?_⟩
  unfold Session.addevent
  rw [h.n]
  refine Heap.Agree.siftUp (fun i hi => ?_) before (Nat.lt_succ_self E.n)
  change i < E.n + 1 at hi
  rw [Function.update_apply, Function.update_apply]
  split
  · rfl
  · exact h.Q i (by omega)

theorem EventQ.Same.delevent {E E' : EventQ} (h : E.Same E') : (delevent E).Same (delevent E') := by
  unfold Session.delevent
  rw [h.n]
  split
  · refine ⟨rfl, Heap.Agree.siftDown (fun i hi => ?_) before 0⟩
    change i < E.n - 1 at hi
    rw [h.Q (E.n - 1) (by omega), Function.update_apply, Function.update_apply]
    split
    · rfl
    · exact h.Q i (by omega)
  · exact h

theorem same_readEvents (file : List Event) {E E' : EventQ} (h : E.Same E') : (readEvents file E).Same (readEvents file E') := by
  induction file generalizing E E' with
  | nil => exact h
  | cons e es ih =>
    unfold readEvents
    split
    · exact h
    · refine ih ⟨congrArg (· + 1) h.n, fun i hi => ?_⟩
      show Function.update E'.Q E'.n e i = Function.update E.Q E.n e i
      rw [h.n, Function.update_apply, Function.update_apply]
      split
      · rfl
      · exact h.Q i (by change i < E.n + 1 at hi; omega)

theorem agree_heapify {n : ℕ} (j : ℕ) {Q Q' : ℕ → Event} (h : Heap.Agree n Q Q') :
    Heap.Agree n (heapify n j Q) (heapify n j Q') := by
  induction j generalizing Q Q' with
  | zero => exact h
  | succ j ih => exact ih (h.siftDown before j)

/-- **What stands in memory before does not matter.** -/
theorem same_initEQ (file : List Event) (Q Q' : ℕ → Event) : (initEQ file Q).Same (initEQ file Q') := by
  have hempty : EventQ.Same ⟨0, Q⟩ ⟨0, Q'⟩ := ⟨rfl, fun i hi => absurd hi (Nat.not_lt_zero i)⟩
  have h := same_readEvents file hempty
  refine ⟨h.n, ?_⟩
  unfold initEQ
  simp only
  rw [h.n]
  exact agree_heapify _ h.Q

theorem coe_drain (E : EventQ) : (↑(drain E) : Multiset Event) = E.contents := by
  fun_induction drain E with
  | case1 E hn => exact ((contents_eq_zero E).2 hn).symm
  | case2 E hn ih => rw [← Multiset.cons_coe, ih, contents_delevent hn]

/-- **Draining the queue** gives the events in order. -/
theorem EventQ.Ordered.drain {E : EventQ} (h : E.Ordered) : (drain E).Pairwise (fun e₁ e₂ => key e₁ ≤ key e₂) := by
  fun_induction Session.drain E with
  | case1 => exact List.Pairwise.nil
  | case2 E hn ih =>
    refine List.pairwise_cons.2 ⟨fun e he => (h.nextevent hn).2 e ?_, ih h.delevent⟩
    rw [← contents_delevent hn]
    refine Multiset.mem_cons_of_mem ?_
    rw [← coe_drain]
    exact he

theorem ordered_of_reachable {file : List Event} {Q : ℕ → Event} {E : EventQ} (h : Reachable call (initEQ file Q) E) :
    E.Ordered := by
  refine reachable_inv EventQ.Ordered (ordered_initEQ file Q) (fun c E E' _ hE hc => ?_) h
  cases c with
  | addevent e =>
    simp only [call] at hc
    split at hc
    · cases hc
      exact hE.addevent e
    · cases hc
  | delevent =>
    cases hc
    exact hE.delevent
  | nextevent =>
    cases hc
    exact hE

/-- **The event queue is a correct priority queue**, from any file and after any calls.  It holds what was read and added
and not yet removed; `nextevent` returns a least event, the one that `delevent` removes; draining gives them in order. -/
theorem queue_correct (file : List Event) (Q : ℕ → Event) {E : EventQ} (h : Reachable call (initEQ file Q) E) :
    (initEQ file Q).contents = ↑(file.takeWhile (fun e => e.type ≠ 'E')) ∧
    (∀ e, (addevent E e).contents = e ::ₘ E.contents) ∧
    (E.contents ≠ 0 → nextevent E ∈ E.contents ∧ ∀ e ∈ E.contents, key (nextevent E) ≤ key e) ∧
    (E.contents ≠ 0 → nextevent E ::ₘ (delevent E).contents = E.contents) ∧
    (emptyQ E = true ↔ E.contents = 0) ∧
    ↑(drain E) = E.contents ∧ (drain E).Pairwise (fun e₁ e₂ => key e₁ ≤ key e₂) := by
  have hE := ordered_of_reachable h
  have hn : E.contents ≠ 0 → E.n ≠ 0 := fun hne h0 => hne ((contents_eq_zero E).2 h0)
  refine ⟨contents_initEQ file Q, contents_addevent E, fun hne => hE.nextevent (hn hne), fun hne => contents_delevent (hn hne),
    ?_, coe_drain E, hE.drain⟩
  rw [contents_eq_zero]
  exact decide_eq_true_iff

/-- Three events of one time, a patient twice, and one before them. -/
def tied : List Event := [⟨'S', 5, 1⟩, ⟨'P', 5, 2⟩, ⟨'R', 5, 3⟩, ⟨'P', 5, 4⟩, ⟨'P', -1, 5⟩, ⟨'E', 0, 0⟩, ⟨'R', 0, 0⟩]

def tiedQueue : EventQ := delevent (initEQ tied (fun _ => ⟨'x', 0, 0⟩))

theorem queue_correct_tied : (drain tiedQueue).Pairwise (fun e₁ e₂ => key e₁ ≤ key e₂) ∧
    drain tiedQueue = [⟨'R', 5, 3⟩, ⟨'P', 5, 4⟩, ⟨'P', 5, 2⟩, ⟨'S', 5, 1⟩] := by
  have h := queue_correct tied (fun _ => ⟨'x', 0, 0⟩) ((Reachable.refl call _).step (a := .delevent) rfl)
  exact ⟨h.2.2.2.2.2.2, by decide +kernel⟩

end Session
end OsLab
