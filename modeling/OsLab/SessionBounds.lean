import OsLab.SessionLines
/-!
# SessionBounds — the arrays of the session

Which places of its arrays main reads and writes, turn by turn, and when they are inside.  The event queue never holds more
than the records and one doctor event; patients and sales representatives are let in below their quotas; but nothing keeps
the reporters below a hundred, nor the doctor's first event out of a full queue.  The times and the durations play no part.
-/
namespace OsLab
namespace Session

open DecimalText (int32)

/-- The arrays: the event queue, `patientQ` and the like, `patient_tids` and the like. -/
inductive Arr where
  | events
  | queue (k : Kind)
  | tids (k : Kind)
  deriving DecidableEq, Repr

/-- The number of seats main has arrays for. -/
def Kind.seats : Kind → ℕ
  | .patient => 25
  | .reporter => 100
  | .salesrep => 3

def Arr.size : Arr → ℕ
  | events => 128
  | queue k => k.seats
  | tids k => k.seats

/-- An array and an index at which it is read or written. -/
abbrev Access := Arr × ℕ

def InRange (a : Access) : Prop := a.2 < a.1.size

/-! ### event.c -/

/-- The places the read loop of `initEQ` writes. -/
def readEventsPlaces : List Event → EventQ → List ℕ
  | [], _ => []
  | e :: es, E =>
    if e.type = 'E' then [] else E.n :: readEventsPlaces es ⟨E.n + 1, Function.update E.Q E.n e⟩

def heapifyPlaces (n : ℕ) : ℕ → (ℕ → Event) → List ℕ
  | 0, _ => []
  | j + 1, Q => Heap.siftDownPlaces before n Q j ++ heapifyPlaces n j (Heap.siftDown before n Q j)

def initEQPlaces (file : List Event) (Q : ℕ → Event) : List ℕ :=
  let E := readEvents file ⟨0, Q⟩
  readEventsPlaces file ⟨0, Q⟩ ++ heapifyPlaces E.n (E.n / 2) E.Q

def addeventPlaces (E : EventQ) (e : Event) : List ℕ := E.n :: Heap.siftUpPlaces before (Function.update E.Q E.n e) E.n

def deleventPlaces (E : EventQ) : List ℕ :=
  if 0 < E.n then
    0 :: (E.n - 1) :: Heap.siftDownPlaces before (E.n - 1) (Function.update E.Q 0 (E.Q (E.n - 1))) 0
  else []

def nexteventPlaces (E : EventQ) : List ℕ := if E.n = 0 then [] else [0]

/-! ### session.c -/

def onEvents (places : List ℕ) : List Access := places.map fun p => (.events, p)

/-- Before the loop: the file is read and the doctor's first event added. -/
def setupAccesses (file : List Event) (Q : ℕ → Event) : List Access :=
  onEvents (initEQPlaces file Q) ++ onEvents (addeventPlaces (initEQ file Q) (doneEvent 0))

/-- A visit: the visitor's record, his thread, the event of the end. -/
def Vars.seeAccesses (s : Vars) (k : Kind) : List Access :=
  (.queue k, s.curr k) :: (.tids k, s.curr k + 1 - 1) ::
    onEvents (addeventPlaces s.E (doneEvent (int32 (s.currTime + (s.visitor k).duration))))

def Vars.dispatchAccesses (s : Vars) : List Access :=
  match s.choose with
  | some k => s.seeAccesses k
  | none => []

def Vars.receiveAccesses (s : Vars) (k : Kind) (e : Event) : List Access :=
  let s := s.arrive k e
  match s.refusal k with
  | some _ => []
  | none => (.queue k, s.cnt k - 1) :: (.tids k, s.cnt k - 1) :: ((s.letIn k).enqueue k (s.cnt k) e).dispatchAccesses

def Vars.doctorFreeAccesses (s : Vars) : List Access := if s.free.sessionOver then [] else s.free.dispatchAccesses

/-- The accesses of a turn of the loop. -/
def turnAccesses (s : Vars) : List Access :=
  if emptyQ s.E then []
  else
    let e := nextevent s.E
    let s' := s.pop.setTime e.time
    onEvents (nexteventPlaces s.E) ++ onEvents (deleventPlaces s.E) ++
      match letterOf e.type with
      | .done => s'.doctorFreeAccesses
      | .visitor k => s'.receiveAccesses k e
      | .other => []

/-- Every access of main's whole run is inside its array. -/
def StaysInRange (file : List Event) (Q : ℕ → Event) : Prop :=
  (∀ a ∈ setupAccesses file Q, InRange a) ∧
    ∀ s, Reachable mainLoop (Vars.init file Q) s → ∀ a ∈ turnAccesses s, InRange a

/-- A file of patients, reporters and sales representatives. -/
def Visitors (file : List Event) : Prop := ∀ e ∈ file, ∃ k : Kind, e.type = k.letter

/-! ### Places of the event queue -/

theorem inRange_onEvents {places : List ℕ} (h : ∀ p ∈ places, p < 128) : ∀ a ∈ onEvents places, InRange a := by
  intro a ha
  obtain ⟨p, hp, rfl⟩ := List.mem_map.1 ha
  exact h p hp

theorem addeventPlaces_le (E : EventQ) (e : Event) : ∀ p ∈ addeventPlaces E e, p ≤ E.n := by
  intro p hp
  rcases List.mem_cons.1 hp with rfl | hp
  · exact Nat.le_refl _
  · exact Heap.siftUpPlaces_le before _ _ p hp

theorem deleventPlaces_lt (E : EventQ) : ∀ p ∈ deleventPlaces E, p < E.n := by
  intro p hp
  unfold deleventPlaces at hp
  split at hp
  · rcases List.mem_cons.1 hp with rfl | hp
    · assumption
    · rcases List.mem_cons.1 hp with rfl | hp
      · omega
      · have hlt := Heap.siftDownPlaces_lt before _ _ _ p hp
        omega
  · exact absurd hp List.not_mem_nil

theorem nexteventPlaces_lt (E : EventQ) : ∀ p ∈ nexteventPlaces E, p < E.n := by
  intro p hp
  unfold nexteventPlaces at hp
  split at hp
  · exact absurd hp List.not_mem_nil
  · obtain rfl := List.mem_singleton.1 hp
    omega

theorem heapifyPlaces_lt (n : ℕ) : ∀ (j : ℕ) (Q : ℕ → Event), ∀ p ∈ heapifyPlaces n j Q, p < n
  | 0, _, p, hp => absurd hp List.not_mem_nil
  | j + 1, Q, p, hp => by
    rcases List.mem_append.1 hp with hp | hp
    · exact Heap.siftDownPlaces_lt before _ _ _ p hp
    · exact heapifyPlaces_lt n j _ p hp

theorem readEventsPlaces_lt : ∀ (file : List Event) (E : EventQ), E.n ≤ (readEvents file E).n ∧
    ∀ p ∈ readEventsPlaces file E, p < (readEvents file E).n
  | [], E => ⟨Nat.le_refl _, fun p hp => absurd hp List.not_mem_nil⟩
  | e :: es, E => by
    obtain ⟨hle, hlt⟩ := readEventsPlaces_lt es ⟨E.n + 1, Function.update E.Q E.n e⟩
    unfold readEvents readEventsPlaces
    split
    · exact ⟨Nat.le_refl _, fun p hp => absurd hp List.not_mem_nil⟩
    · refine ⟨Nat.le_of_succ_le hle, fun p hp => ?_⟩
      rcases List.mem_cons.1 hp with rfl | hp
      · exact hle
      · exact hlt p hp

theorem initEQPlaces_lt (file : List Event) (Q : ℕ → Event) : ∀ p ∈ initEQPlaces file Q, p < (initEQ file Q).n := by
  intro p hp
  rcases List.mem_append.1 hp with hp | hp
  · exact (readEventsPlaces_lt file ⟨0, Q⟩).2 p hp
  · exact heapifyPlaces_lt _ _ _ p hp

/-! ### What a turn keeps -/

/-- The counts: one of the pending doctor event, the doctor's being free and the end; nobody seated beyond his quota. -/
structure Seated (s : Vars) : Prop where
  letters : ∀ e ∈ s.E.contents, letterOf e.type ≠ .other
  pending : s.E.contents.countP (fun e => isDone e) + s.docFree.toNat + s.docSessionEnd.toNat = 1
  came : ∀ k, (s.came k).length = s.cnt k
  admitted : ∀ k, s.curr k + s.wait k ≤ k.admits (s.cnt k)
  ended : s.docSessionEnd = true → s.curr .patient = 25 ∧ s.curr .salesrep = 3

section Turn

variable {s : Vars} {k : Kind} {e : Event}

theorem admits_mono (k : Kind) (c : ℕ) : k.admits c ≤ k.admits (c + 1) := by
  cases k
  · change min c 25 ≤ min (c + 1) 25
    omega
  · exact Nat.le_succ c
  · change min c 3 ≤ min (c + 1) 3
    omega

/-- While the doctor is free no doctor event is pending, and the session goes on. -/
theorem Seated.of_free (h : Seated s) (hfree : s.docFree = true) :
    s.E.contents.countP (fun e => isDone e) = 0 ∧ s.docSessionEnd = false := by
  have hpending := h.pending
  rw [hfree] at hpending
  change _ + 1 + _ = 1 at hpending
  refine ⟨by omega, ?_⟩
  cases hend : s.docSessionEnd with
  | false => rfl
  | true =>
    rw [hend] at hpending
    change _ + 1 + 1 = 1 at hpending
    omega

theorem Seated.see (h : Seated s) (hfree : s.docFree = true) (hwait : 0 < s.wait k) : Seated (s.see k) := by
  obtain ⟨hzero, hend⟩ := h.of_free hfree
  refine ⟨fun e he => ?_, ?_, h.came, fun j => ?_, fun he => ?_⟩
  · rw [contents_see] at he
    rcases Multiset.mem_cons.1 he with rfl | he
    · exact fun hl => by cases hl
    · exact h.letters e he
  · rw [contents_see, Multiset.countP_cons_of_pos _ (by rfl), hzero]
    change 0 + 1 + 0 + s.docSessionEnd.toNat = 1
    rw [hend]
    rfl
  · change Function.update s.curr k (s.curr k + 1) j + Function.update s.wait k (s.wait k - 1) j ≤ j.admits (s.cnt j)
    have hj := h.admitted j
    rw [Function.update_apply, Function.update_apply]
    split
    · rename_i heq
      rw [heq] at hj ⊢
      omega
    · exact hj
  · rw [show (s.see k).docSessionEnd = s.docSessionEnd from rfl, hend] at he
    cases he

theorem Seated.dispatchNext (h : Seated s) : Seated s.dispatchNext := by
  unfold Vars.dispatchNext
  cases hc : s.choose with
  | none => exact h
  | some k =>
    obtain ⟨hfree, -, hwait, -⟩ := choose_some hc
    exact h.see hfree hwait

/-- The doctor event is gone, and he is free. -/
theorem Seated.free (h : Seated s) (hne : emptyQ s.E = false) (hl : letterOf (nextevent s.E).type = .done) (t : ℤ) :
    Seated (s.pop.setTime t).free := by
  have hdone := isDone_of_done hl
  have hpending := h.pending
  rw [contents_pop hne t, Multiset.countP_cons_of_pos (p := fun e => isDone e = true) _ hdone] at hpending
  have hend : s.docSessionEnd.toNat = 0 := by omega
  refine ⟨fun e he => h.letters e (mem_of_mem_pop hne (t := t) he), ?_, h.came, h.admitted, h.ended⟩
  change (s.pop.setTime t).E.contents.countP (fun e => isDone e) + 1 + s.docSessionEnd.toNat = 1
  omega

/-- An arrival is counted. -/
theorem Seated.arrive (h : Seated s) (hne : emptyQ s.E = false) (hl : letterOf (nextevent s.E).type = .visitor k) (t : ℤ) :
    Seated ((s.pop.setTime t).arrive k (nextevent s.E)) := by
  have hdone : ¬ isDone (nextevent s.E) = true := by
    rw [isDone_of_visitor hl]
    exact Bool.false_ne_true
  have hpending := h.pending
  rw [contents_pop hne t, Multiset.countP_cons_of_neg (p := fun e => isDone e = true) _ hdone] at hpending
  refine ⟨fun e he => h.letters e (mem_of_mem_pop hne (t := t) he), hpending, fun j => ?_, fun j => ?_, h.ended⟩
  · rw [came_arrive]
    change _ = Function.update s.cnt k (s.cnt k + 1) j
    rw [update_one]
    split
    · rw [List.length_append]
      exact congrArg (· + 1) (h.came k)
    · exact h.came j
  · change s.curr j + s.wait j ≤ j.admits (Function.update s.cnt k (s.cnt k + 1) j)
    rw [update_one]
    split
    · rename_i heq
      rw [heq]
      exact Nat.le_trans (h.admitted k) (admits_mono k _)
    · exact h.admitted j

theorem Seated.letIn (h : Seated (s.arrive k e)) (hold : s.curr k + s.wait k ≤ k.admits (s.cnt k))
    (hn : (s.arrive k e).refusal k = none) : Seated (((s.arrive k e).letIn k).enqueue k ((s.arrive k e).cnt k) e) := by
  obtain ⟨hnew, -⟩ := admits_succ_of_not_full (refusal_none hn).2
  refine ⟨h.letters, h.pending, h.came, fun j => ?_, h.ended⟩
  have hj := h.admitted j
  change s.curr j + Function.update s.wait k (s.wait k + 1) j ≤ j.admits ((s.arrive k e).cnt j)
  rw [update_one]
  split
  · rename_i heq
    rw [heq, cnt_arrive, hnew]
    have hle := admits_le k (s.cnt k)
    omega
  · exact hj

theorem Seated.receive (h : Seated s) (hne : emptyQ s.E = false) (hl : letterOf (nextevent s.E).type = .visitor k) (t : ℤ) :
    Seated ((s.pop.setTime t).receive k (nextevent s.E)) := by
  have harrive := h.arrive hne hl t
  cases href : ((s.pop.setTime t).arrive k (nextevent s.E)).refusal k with
  | some l =>
    rw [receive_refused href]
    exact ⟨harrive.letters, harrive.pending, harrive.came, harrive.admitted, harrive.ended⟩
  | none =>
    rw [receive_admitted href]
    exact (harrive.letIn (h.admitted k) href).dispatchNext

theorem Seated.turn {s' : Vars} (h : Seated s) (hst : Session.turn s = some s') : Seated s' := by
  obtain ⟨hne, ⟨hl, rfl⟩ | ⟨k, hl, rfl⟩⟩ := turn_cases hst
  · have hfree := h.free hne hl (nextevent s.E).time
    unfold Vars.doctorFree
    split
    · rename_i hover
      obtain ⟨hp, hs, -⟩ := sessionOver_iff.1 hover
      obtain ⟨hzero, hend⟩ := hfree.of_free rfl
      refine ⟨hfree.letters, ?_, hfree.came, hfree.admitted, fun _ => ⟨hp, hs⟩⟩
      change (s.pop.setTime (nextevent s.E).time).free.E.contents.countP (fun e => isDone e) + 0 + 1 = 1
      rw [hzero]
    · exact hfree.dispatchNext
  · exact h.receive hne hl _

end Turn

/-! ### Counting -/

section Counting

variable {file : List Event} {s : Vars} {k : Kind}

/-- The records of a kind in a file. -/
def ofKind (k : Kind) (file : List Event) : ℕ := file.countP (fun e => e.type = k.letter)

theorem letter_inj {j : Kind} (h : j.letter = k.letter) : j = k := by
  cases j <;> cases k <;> first | rfl | exact absurd h (by decide)

theorem countP_came (hletter : ∀ e ∈ s.came k, e.type = k.letter) (j : Kind) :
    (s.came k).countP (fun e => e.type = j.letter) = if k = j then (s.came k).length else 0 := by
  split
  · rename_i h
    subst h
    exact List.countP_eq_length.2 (fun e he => decide_eq_true (hletter e he))
  · rename_i h
    refine List.countP_eq_zero.2 (fun e he hj => h (letter_inj ?_))
    rw [← hletter e he]
    exact of_decide_eq_true hj

/-- The records that have not come are in the queue. -/
theorem Conserved.count (h : Conserved file s) (hcame : ∀ k, (s.came k).length = s.cnt k) (k : Kind) :
    (s.E.contents.filter (fun e => isDone e = false)).countP (fun e => e.type = k.letter) + s.cnt k = ofKind k file := by
  have hcount := congrArg (Multiset.countP (fun e => e.type = k.letter)) h.all
  rw [Multiset.countP_add, Multiset.coe_countP] at hcount
  unfold ofKind
  rw [← hcount]
  congr 1
  unfold everyone
  rw [Multiset.countP_add, Multiset.countP_add, Multiset.coe_countP, Multiset.coe_countP, Multiset.coe_countP,
    countP_came (h.letter _), countP_came (h.letter _), countP_came (h.letter _), hcame, hcame, hcame]
  cases k <;> simp

theorem Conserved.cnt_le (h : Conserved file s) (hcame : ∀ k, (s.came k).length = s.cnt k) (k : Kind) :
    s.cnt k ≤ ofKind k file := by
  have hcount := h.count hcame k
  omega

theorem EventQ.n_eq (E : EventQ) : E.n =
    (E.contents.filter (fun e => isDone e = false)).card + E.contents.countP (fun e => isDone e) := by
  have hcard : E.contents.card = E.n := Heap.card_contents E.n E.Q
  rw [← hcard, Multiset.countP_eq_card_filter, Nat.add_comm]
  conv => lhs; rw [← Multiset.filter_add_not (fun e => isDone e = true) E.contents, Multiset.card_add]
  simp only [Bool.not_eq_true]

theorem Conserved.events_le (h : Conserved file s) :
    s.E.n ≤ file.length + s.E.contents.countP (fun e => isDone e) := by
  have hcard := congrArg Multiset.card h.all
  rw [Multiset.card_add, Multiset.coe_card] at hcard
  have hn := s.E.n_eq
  omega

theorem Seated.events_le (h : Seated s) (hc : Conserved file s) : s.E.n ≤ file.length + 1 := by
  have hle := hc.events_le
  have hpending := h.pending
  omega

theorem Seated.seats (h : Seated s) (hc : Conserved file s) (hR : ofKind .reporter file ≤ 100) (k : Kind) :
    s.curr k + s.wait k ≤ k.seats := by
  have hk := h.admitted k
  cases k
  · exact Nat.le_trans hk (Nat.min_le_right _ _)
  · exact Nat.le_trans hk (Nat.le_trans (hc.cnt_le h.came .reporter) hR)
  · exact Nat.le_trans hk (Nat.min_le_right _ _)

/-! ### Inside the arrays -/

theorem Seated.dispatch_inRange (h : Seated s) (hc : Conserved file s) (hlen : file.length ≤ 127)
    (hR : ofKind .reporter file ≤ 100) : ∀ a ∈ s.dispatchAccesses, InRange a := by
  intro a ha
  unfold Vars.dispatchAccesses at ha
  cases hchoose : s.choose with
  | none =>
    rw [hchoose] at ha
    exact absurd ha List.not_mem_nil
  | some k =>
    obtain ⟨hfree, -, hwait, -⟩ := choose_some hchoose
    have hseats := h.seats hc hR k
    have hn := hc.events_le
    rw [(h.of_free hfree).1] at hn
    rw [hchoose] at ha
    rcases List.mem_cons.1 ha with rfl | ha
    · change s.curr k < k.seats
      omega
    · rcases List.mem_cons.1 ha with rfl | ha
      · change s.curr k + 1 - 1 < k.seats
        omega
      · refine inRange_onEvents (fun p hp => ?_) a ha
        have hle := addeventPlaces_le _ _ p hp
        omega

theorem Seated.receive_inRange (h : Seated s) (hc : Conserved file s) (hlen : file.length ≤ 127)
    (hR : ofKind .reporter file ≤ 100) (hne : emptyQ s.E = false) (hl : letterOf (nextevent s.E).type = .visitor k) (t : ℤ) :
    ∀ a ∈ (s.pop.setTime t).receiveAccesses k (nextevent s.E), InRange a := by
  intro a ha
  have harrive := h.arrive hne hl t
  have hconserved : Conserved file ((s.pop.setTime t).arrive k (nextevent s.E)) := hc.arrive hl (contents_pop hne t) t
  unfold Vars.receiveAccesses at ha
  simp only at ha
  cases href : ((s.pop.setTime t).arrive k (nextevent s.E)).refusal k with
  | some l =>
    rw [href] at ha
    exact absurd ha List.not_mem_nil
  | none =>
    have hin := harrive.letIn (h.admitted k) href
    have hnew := (admits_succ_of_not_full (refusal_none href).2).1
    have hcnt : s.cnt k + 1 - 1 < k.seats := by
      have hle := hconserved.cnt_le harrive.came k
      rw [cnt_arrive] at hle
      cases k
      · change min (s.cnt .patient + 1) 25 = s.cnt .patient + 1 at hnew
        change _ < 25
        omega
      · change _ < 100
        change s.cnt .reporter + 1 ≤ _ at hle
        omega
      · change min (s.cnt .salesrep + 1) 3 = s.cnt .salesrep + 1 at hnew
        change _ < 3
        omega
    rw [href] at ha
    rcases List.mem_cons.1 ha with rfl | ha
    · change ((s.pop.setTime t).arrive k (nextevent s.E)).cnt k - 1 < k.seats
      rw [cnt_arrive]
      exact hcnt
    · rcases List.mem_cons.1 ha with rfl | ha
      · change ((s.pop.setTime t).arrive k (nextevent s.E)).cnt k - 1 < k.seats
        rw [cnt_arrive]
        exact hcnt
      · exact hin.dispatch_inRange ⟨hconserved.all, hconserved.letter⟩ hlen hR a ha

/-- **A turn stays inside the arrays.** -/
theorem Seated.turn_inRange (h : Seated s) (hc : Conserved file s) (hlen : file.length ≤ 127)
    (hR : ofKind .reporter file ≤ 100) : ∀ a ∈ turnAccesses s, InRange a := by
  intro a ha
  have hn := h.events_le hc
  unfold turnAccesses at ha
  split at ha
  · exact absurd ha List.not_mem_nil
  · rename_i hne
    have hne : emptyQ s.E = false := by simpa using hne
    rcases List.mem_append.1 ha with ha | ha
    · rcases List.mem_append.1 ha with ha | ha
      · refine inRange_onEvents (fun p hp => ?_) a ha
        have hlt := nexteventPlaces_lt _ p hp
        omega
      · refine inRange_onEvents (fun p hp => ?_) a ha
        have hlt := deleventPlaces_lt _ p hp
        omega
    · split at ha
      · rename_i hl
        have hpop := hc.pop_done hne hl (nextevent s.E).time
        unfold Vars.doctorFreeAccesses at ha
        split at ha
        · exact absurd ha List.not_mem_nil
        · exact (h.free hne hl (nextevent s.E).time).dispatch_inRange ⟨hpop.all, hpop.letter⟩ hlen hR a ha
      · rename_i hl
        exact h.receive_inRange hc hlen hR hne hl _ a ha
      · exact absurd ha List.not_mem_nil

/-! ### The counters of a turn -/

theorem cnt_dispatchNext (s : Vars) : s.dispatchNext.cnt = s.cnt := by
  unfold Vars.dispatchNext
  cases s.choose <;> rfl

theorem cnt_doctorFree (s : Vars) : s.doctorFree.cnt = s.cnt := by
  unfold Vars.doctorFree
  split
  · rfl
  · exact cnt_dispatchNext s.free

theorem cnt_receive (s : Vars) (k : Kind) (e : Event) : (s.receive k e).cnt = Function.update s.cnt k (s.cnt k + 1) := by
  cases href : (s.arrive k e).refusal k with
  | some l =>
    rw [receive_refused href]
    rfl
  | none =>
    rw [receive_admitted href, cnt_dispatchNext]
    rfl

/-- A reporter who comes while the doctor is there is let in. -/
theorem reporter_access (hne : emptyQ s.E = false) (hl : letterOf (nextevent s.E).type = .visitor .reporter)
    (hgo : s.docSessionEnd = false) : (.queue .reporter, s.cnt .reporter) ∈ turnAccesses s := by
  have href : ((s.pop.setTime (nextevent s.E).time).arrive .reporter (nextevent s.E)).refusal .reporter = none := by
    unfold Vars.refusal
    rw [if_neg (by change ¬ s.docSessionEnd = true; rw [hgo]; decide)]
    exact if_neg (fun h => Bool.false_ne_true h)
  unfold turnAccesses
  rw [hne]
  refine List.mem_append_right _ ?_
  simp only [hl]
  unfold Vars.receiveAccesses
  simp only [href, cnt_arrive, Nat.add_sub_cancel]
  exact List.mem_cons_self

/-! ### The loop ends -/

def waiting (s : Vars) : ℕ := s.wait .patient + s.wait .reporter + s.wait .salesrep

/-- Each turn takes some of this: three for a record to come, two for a visitor who waits, one for a doctor event. -/
def toDo (s : Vars) : ℕ :=
  3 * (s.E.contents.filter (fun e => isDone e = false)).card + s.E.contents.countP (fun e => isDone e) + 2 * waiting s

theorem waiting_update (s : Vars) (k : Kind) (n : ℕ) :
    Function.update s.wait k n .patient + Function.update s.wait k n .reporter + Function.update s.wait k n .salesrep +
      s.wait k = waiting s + n := by
  unfold waiting
  cases k <;> simp <;> omega

theorem toDo_see (hwait : 0 < s.wait k) : toDo (s.see k) < toDo s := by
  have hsum := waiting_update s k (s.wait k - 1)
  have hwaiting : waiting (s.see k) + 1 = waiting s := by
    change Function.update s.wait k (s.wait k - 1) .patient + Function.update s.wait k (s.wait k - 1) .reporter +
      Function.update s.wait k (s.wait k - 1) .salesrep + 1 = waiting s
    omega
  unfold toDo
  rw [contents_see, Multiset.filter_cons_of_neg (p := fun e => isDone e = false) _ (fun hd => by cases hd),
    Multiset.countP_cons_of_pos (p := fun e => isDone e = true) _ rfl]
  omega

theorem toDo_dispatchNext (s : Vars) : toDo s.dispatchNext ≤ toDo s := by
  unfold Vars.dispatchNext
  cases hc : s.choose with
  | none => exact Nat.le_refl _
  | some k =>
    obtain ⟨-, -, hwait, -⟩ := choose_some hc
    exact Nat.le_of_lt (toDo_see hwait)

theorem toDo_pop_done (hne : emptyQ s.E = false) (hl : letterOf (nextevent s.E).type = .done) (t : ℤ) :
    toDo (s.pop.setTime t) + 1 = toDo s := by
  have hdone := isDone_of_done hl
  have hwaiting : waiting (s.pop.setTime t) = waiting s := rfl
  unfold toDo
  rw [contents_pop hne t, Multiset.countP_cons_of_pos (p := fun e => isDone e = true) _ hdone,
    Multiset.filter_cons_of_neg (p := fun e => isDone e = false) _ (by rw [hdone]; decide), hwaiting]
  omega

theorem toDo_pop_arrival (hne : emptyQ s.E = false) (hl : letterOf (nextevent s.E).type = .visitor k) (t : ℤ) :
    toDo (s.pop.setTime t) + 3 = toDo s := by
  have hdone := isDone_of_visitor hl
  have hwaiting : waiting (s.pop.setTime t) = waiting s := rfl
  unfold toDo
  rw [contents_pop hne t, Multiset.filter_cons_of_pos (p := fun e => isDone e = false) _ hdone,
    Multiset.countP_cons_of_neg (p := fun e => isDone e = true) _ (by rw [hdone]; decide), Multiset.card_cons, hwaiting]
  omega

theorem toDo_letIn (s : Vars) (k : Kind) (id : ℕ) (e : Event) : toDo ((s.letIn k).enqueue k id e) = toDo s + 2 := by
  have hsum := waiting_update s k (s.wait k + 1)
  have hwaiting : waiting ((s.letIn k).enqueue k id e) = waiting s + 1 := by
    change Function.update s.wait k (s.wait k + 1) .patient + Function.update s.wait k (s.wait k + 1) .reporter +
      Function.update s.wait k (s.wait k + 1) .salesrep = waiting s + 1
    omega
  unfold toDo
  rw [hwaiting]
  change 3 * (s.E.contents.filter (fun e => isDone e = false)).card + s.E.contents.countP (fun e => isDone e) +
    2 * (waiting s + 1) = _
  omega

/-- **Every turn leaves less to do.** -/
theorem toDo_turn {s' : Vars} (hst : turn s = some s') : toDo s' < toDo s := by
  obtain ⟨hne, ⟨hl, rfl⟩ | ⟨k, hl, rfl⟩⟩ := turn_cases hst
  · have hpop := toDo_pop_done hne hl (nextevent s.E).time
    have hfree : toDo (s.pop.setTime (nextevent s.E).time).free < toDo s := by
      change toDo (s.pop.setTime (nextevent s.E).time) < toDo s
      omega
    unfold Vars.doctorFree
    split
    · exact hfree
    · exact Nat.lt_of_le_of_lt (toDo_dispatchNext _) hfree
  · have hpop := toDo_pop_arrival hne hl (nextevent s.E).time
    generalize s.pop.setTime (nextevent s.E).time = s₀ at hpop ⊢
    have harrive : toDo (s₀.arrive k (nextevent s.E)) = toDo s₀ := rfl
    cases href : (s₀.arrive k (nextevent s.E)).refusal k with
    | some l =>
      rw [receive_refused href]
      change toDo (s₀.arrive k (nextevent s.E)) < toDo s
      omega
    | none =>
      rw [receive_admitted href]
      refine Nat.lt_of_le_of_lt (toDo_dispatchNext _) ?_
      rw [toDo_letIn]
      omega

end Counting

/-! ### The whole run -/

section Run

variable {file : List Event} {Q : ℕ → Event} {s : Vars}

theorem Visitors.takeWhile (h : Visitors file) : file.takeWhile (fun e => e.type ≠ 'E') = file := by
  refine List.takeWhile_eq_self_iff.2 (fun e he => ?_)
  obtain ⟨k, hk⟩ := h e he
  rw [hk]
  cases k <;> decide

theorem Visitors.isDone (h : Visitors file) : ∀ e ∈ file, isDone e = false := by
  intro e he
  obtain ⟨k, hk⟩ := h e he
  unfold Session.isDone
  rw [hk]
  cases k <;> decide

theorem Visitors.n_initEQ (h : Visitors file) (Q : ℕ → Event) : (initEQ file Q).n = file.length := by
  have hcard : (initEQ file Q).contents.card = (initEQ file Q).n := Heap.card_contents _ _
  rw [← hcard, contents_initEQ, h.takeWhile, Multiset.coe_card]

theorem Visitors.contents_init (h : Visitors file) (Q : ℕ → Event) :
    (Vars.init file Q).E.contents = doneEvent 0 ::ₘ ↑file := by
  refine (contents_addevent _ _).trans ?_
  rw [contents_initEQ, h.takeWhile]

theorem Visitors.seated (h : Visitors file) (Q : ℕ → Event) : Seated (Vars.init file Q) := by
  refine ⟨fun e he => ?_, ?_, fun _ => rfl, fun k => Nat.zero_le _, fun he => by cases he⟩
  · rw [h.contents_init Q] at he
    rcases Multiset.mem_cons.1 he with rfl | he
    · exact fun hl => by cases hl
    · obtain ⟨k, hk⟩ := h e he
      rw [hk, letterOf_letter]
      exact fun hl => by cases hl
  · rw [h.contents_init Q, Multiset.countP_cons_of_pos (p := fun e => Session.isDone e = true) _ rfl]
    have hzero : Multiset.countP (fun e => Session.isDone e) (↑file : Multiset Event) = 0 :=
      Multiset.countP_eq_zero.2 (fun e he => by rw [h.isDone e he]; exact Bool.false_ne_true)
    rw [hzero]
    rfl

theorem Visitors.conserved (h : Visitors file) (Q : ℕ → Event) : Conserved file (Vars.init file Q) := by
  refine ⟨?_, fun k e he => absurd he List.not_mem_nil⟩
  rw [h.contents_init Q, Multiset.filter_cons_of_neg (p := fun e => Session.isDone e = false) _ (fun hd => by cases hd),
    Multiset.filter_eq_self.2 (fun e he => h.isDone e he)]
  exact Multiset.add_zero _

theorem Visitors.reachable (h : Visitors file) (hr : Reachable mainLoop (Vars.init file Q) s) : Seated s ∧ Conserved file s :=
  reachable_inv (fun s => Seated s ∧ Conserved file s) ⟨h.seated Q, h.conserved Q⟩
    (fun _ _ _ _ hs hst => ⟨hs.1.turn hst, hs.2.turn hst⟩) hr

/-- **The loop comes to an empty queue**, and all have come then. -/
theorem Visitors.ends (h : Visitors file) (Q : ℕ → Event) :
    ∃ s, Reachable mainLoop (Vars.init file Q) s ∧ ∀ k, s.cnt k = ofKind k file := by
  have hfinite : ¬ InfiniteRun mainLoop (Vars.init file Q) :=
    @not_infinite_of_measure _ _ mainLoop (Vars.init file Q) Unit (fun _ _ => True) () trivial (fun _ => toDo)
      (fun _ _ _ _ _ hst => ⟨(), trivial, toDo_turn hst⟩)
  obtain ⟨s, hr, hstuck⟩ := exists_stuck hfinite (Reachable.refl _ _)
  obtain ⟨hseated, hconserved⟩ := h.reachable hr
  refine ⟨s, hr, fun k => ?_⟩
  have hempty : emptyQ s.E = true := by
    by_contra hne
    have hne : emptyQ s.E = false := by simpa using hne
    have hletter := hseated.letters _ (next_mem hne)
    have hturn : turn s = none := hstuck ()
    unfold turn at hturn
    rw [hne] at hturn
    simp only [Bool.false_eq_true, if_false] at hturn
    split at hturn
    · cases hturn
    · cases hturn
    · exact hletter ‹_›
  have hcount := hconserved.count hseated.came k
  rw [(contents_eq_zero s.E).2 (of_decide_eq_true hempty)] at hcount
  simpa using hcount

theorem StaysInRange.length_le (h : StaysInRange file Q) (hfile : Visitors file) : file.length ≤ 127 := by
  have hlast : InRange (.events, (initEQ file Q).n) := by
    refine h.1 _ (List.mem_append_right _ ?_)
    exact List.mem_map.2 ⟨_, List.mem_cons_self, rfl⟩
  rw [hfile.n_initEQ Q] at hlast
  exact Nat.le_of_lt_succ hlast

theorem ofKind_add_le (file : List Event) :
    ofKind .patient file + ofKind .reporter file + ofKind .salesrep file ≤ file.length := by
  unfold ofKind
  induction file with
  | nil => exact Nat.le_refl 0
  | cons e file ih =>
    simp only [List.countP_cons, List.length_cons, decide_eq_true_eq]
    change _ + (if e.type = 'P' then 1 else 0) + (_ + if e.type = 'R' then 1 else 0) +
      (_ + if e.type = 'S' then 1 else 0) ≤ _
    split_ifs with h1 h2 h3 h3 h2 h3 h3 <;> first | omega | (exfalso; simp_all)

/-- While more than a hundred reporters are to come, the session does not end; so the one after the hundredth is let in,
past the end of the array. -/
theorem StaysInRange.reporters_le (h : StaysInRange file Q) (hfile : Visitors file) (hlen : file.length ≤ 128) :
    ofKind .reporter file ≤ 100 := by
  by_contra hmany
  have hsum := ofKind_add_le file
  have hcnt : ∀ {s}, Reachable mainLoop (Vars.init file Q) s → s.cnt .reporter ≤ 100 := by
    intro s hr
    refine reachable_inv (fun s => s.cnt .reporter ≤ 100) (Nat.zero_le _) (fun _ s t hr hs hst => ?_) hr
    obtain ⟨hseated, hconserved⟩ := hfile.reachable hr
    obtain ⟨hne, ⟨hl, rfl⟩ | ⟨k, hl, rfl⟩⟩ := turn_cases hst
    · rw [cnt_doctorFree]
      exact hs
    · rw [cnt_receive]
      by_cases hk : k = .reporter
      · subst hk
        have hgo : s.docSessionEnd = false := by
          cases hend : s.docSessionEnd with
          | false => rfl
          | true =>
            obtain ⟨hp, hs'⟩ := hseated.ended hend
            have hP := hconserved.cnt_le hseated.came .patient
            have hS := hconserved.cnt_le hseated.came .salesrep
            have hP' := Nat.le_trans (hseated.admitted .patient) (admits_le _ _)
            have hS' := Nat.le_trans (hseated.admitted .salesrep) (admits_le _ _)
            omega
        have hin := h.2 s hr _ (reporter_access hne hl hgo)
        change s.cnt .reporter < 100 at hin
        rw [Function.update_self]
        change s.cnt .reporter + 1 ≤ 100
        omega
      · rw [Function.update_of_ne (Ne.symm hk)]
        exact hs
  obtain ⟨s, hr, hall⟩ := hfile.ends Q
  have hle := hcnt hr
  rw [hall] at hle
  exact hmany hle

/-- **All accesses of the session stay in range exactly when** the file has at most 127 records, of which at most 100 are
reporters. -/
theorem accesses_in_range_iff (file : List Event) (Q : ℕ → Event) (hfile : Visitors file) (hlen : file.length ≤ 128) :
    StaysInRange file Q ↔ file.length ≤ 127 ∧ ofKind .reporter file ≤ 100 := by
  constructor
  · exact fun h => ⟨h.length_le hfile, h.reporters_le hfile hlen⟩
  · rintro ⟨hlen', hR⟩
    refine ⟨fun a ha => ?_, fun s hr => ?_⟩
    · rcases List.mem_append.1 ha with ha | ha
      · refine inRange_onEvents (fun p hp => ?_) a ha
        have hlt := initEQPlaces_lt file Q p hp
        rw [hfile.n_initEQ Q] at hlt
        omega
      · refine inRange_onEvents (fun p hp => ?_) a ha
        have hle := addeventPlaces_le _ _ p hp
        rw [hfile.n_initEQ Q] at hle
        omega
    · obtain ⟨hseated, hconserved⟩ := hfile.reachable hr
      exact hseated.turn_inRange hconserved hlen' hR

theorem accesses_in_range_two : StaysInRange [⟨'P', 0, -5⟩, ⟨'R', -3, 1⟩] (fun _ => ⟨'x', 0, 0⟩) :=
  (accesses_in_range_iff [⟨'P', 0, -5⟩, ⟨'R', -3, 1⟩] (fun _ => ⟨'x', 0, 0⟩)
    (by rintro e (_ | ⟨_, _ | ⟨_, ⟨⟩⟩⟩); exacts [⟨.patient, rfl⟩, ⟨.reporter, rfl⟩]) (by decide)).2 ⟨by decide, by decide⟩

theorem visitors_replicate (n : ℕ) (k : Kind) (time duration : ℤ) : Visitors (List.replicate n ⟨k.letter, time, duration⟩) :=
  fun _ he => ⟨k, congrArg Event.type (List.eq_of_mem_replicate he)⟩

/-- A full event array has no place for the doctor's first event, and `reporterQ` none for a hundred and first reporter. -/
theorem arrays_overrun :
    (Visitors (List.replicate 128 ⟨'P', 0, 5⟩) ∧ (List.replicate 128 (⟨'P', 0, 5⟩ : Event)).length ≤ 128 ∧
      ¬ StaysInRange (List.replicate 128 ⟨'P', 0, 5⟩) (fun _ => ⟨'x', 0, 0⟩)) ∧
    Visitors (List.replicate 101 ⟨'R', 0, 1⟩) ∧ (List.replicate 101 (⟨'R', 0, 1⟩ : Event)).length ≤ 128 ∧
      ¬ StaysInRange (List.replicate 101 ⟨'R', 0, 1⟩) (fun _ => ⟨'x', 0, 0⟩) := by
  have hP : Visitors (List.replicate 128 ⟨'P', 0, 5⟩) := visitors_replicate 128 .patient 0 5
  have hR : Visitors (List.replicate 101 ⟨'R', 0, 1⟩) := visitors_replicate 101 .reporter 0 1
  refine ⟨⟨hP, by simp, fun h => ?_⟩, hR, by simp, fun h => ?_⟩
  · have hlen := h.length_le hP
    rw [List.length_replicate] at hlen
    omega
  · have hmany := h.reporters_le hR (by simp)
    unfold ofKind at hmany
    rw [List.countP_replicate] at hmany
    exact absurd hmany (by decide)

end Run

end Session
end OsLab
