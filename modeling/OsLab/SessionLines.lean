import OsLab.SessionInv
/-!
# SessionLines — what the lines say

In each kind the numbers of the arrivals count up, those of the seen count up, and those of the refused count up from the
first that was not admitted (`Tallied`); at the doctor's leaving nobody is left over (`Told`).  Nothing of the file is lost:
a record is in the queue of the events or among those who came (`Conserved`).
-/
namespace OsLab
namespace Session

namespace Line

def arrival (k : Kind) : Line → Option ℕ
  | arrives _ j id => if j = k then some id else none
  | _ => none

def seen (k : Kind) : Line → Option ℕ
  | inChamber _ _ j id => if j = k then some id else none
  | _ => none

def refused (k : Kind) : Line → Option ℕ
  | sessionOver _ j id | quotaFull _ j id => if j = k then some id else none
  | _ => none

def leaving : Line → Bool
  | doctorLeaves _ => true
  | _ => false

end Line

structure Tallied (out : List Line) (cnt curr admitted : Kind → ℕ) : Prop where
  arrivals : ∀ k, out.filterMap (Line.arrival k) = List.range' 1 (cnt k)
  seen : ∀ k, out.filterMap (Line.seen k) = List.range' 1 (curr k)
  refused : ∀ k, out.filterMap (Line.refused k) = List.range' (admitted k + 1) (cnt k - admitted k)

structure Told (s : Vars) : Prop where
  tallied : Tallied s.out s.cnt s.curr (fun k => s.curr k + s.wait k)
  present : s.docSessionEnd = false → ∀ l ∈ s.out, l.leaving = false
  left : s.docSessionEnd = true → ∃ l₁ t l₂ c, s.out = l₁ ++ Line.doctorLeaves t :: l₂ ∧
    (∀ l ∈ l₁, l.leaving = false) ∧ (∀ l ∈ l₂, l.leaving = false) ∧ Tallied l₁ c s.curr s.curr ∧
    (∀ k, s.curr k = k.admits (c k)) ∧ ∀ k, l₂.filterMap (Line.seen k) = []

section Lines

variable {s : Vars} {k : Kind} {e : Event} {out : List Line} {cnt curr adm : Kind → ℕ}

theorem range'_snoc (a n : ℕ) : List.range' a (n + 1) = List.range' a n ++ [a + n] := by
  rw [List.range'_concat, Nat.one_mul]

theorem update_one (f : Kind → ℕ) (k j : Kind) (x : ℕ) : Function.update f k x j = if j = k then x else f j :=
  Function.update_apply _ _ _ _

theorem filterMap_snoc (f : Line → Option ℕ) (out : List Line) (l : Line) :
    (out ++ [l]).filterMap f = out.filterMap f ++ (f l).toList := by
  rw [List.filterMap_append]
  cases hl : f l <;> simp [hl]

/-- One more number. -/
theorem range'_ite (a n : ℕ) (j k : Kind) :
    List.range' a n ++ (if k = j then some (a + n) else none).toList = List.range' a (if j = k then n + 1 else n) := by
  by_cases hj : j = k
  · rw [if_pos hj, if_pos hj.symm, range'_snoc]
    rfl
  · rw [if_neg hj, if_neg (Ne.symm hj)]
    exact List.append_nil _

/-- A line that is none of an arrival, a visit or a refusal. -/
theorem Tallied.other (h : Tallied out cnt curr adm) {l : Line} (ha : ∀ k, l.arrival k = none) (hs : ∀ k, l.seen k = none)
    (hr : ∀ k, l.refused k = none) : Tallied (out ++ [l]) cnt curr adm where
  arrivals k := by rw [filterMap_snoc, ha k, h.arrivals k]; exact List.append_nil _
  seen k := by rw [filterMap_snoc, hs k, h.seen k]; exact List.append_nil _
  refused k := by rw [filterMap_snoc, hr k, h.refused k]; exact List.append_nil _

/-- The arrival of the next of a kind. -/
theorem Tallied.arrival_line (h : Tallied out cnt curr adm) (k : Kind) (t : ℤ) (j : Kind) :
    (out ++ [Line.arrives t k (cnt k + 1)]).filterMap (Line.arrival j) =
      List.range' 1 (Function.update cnt k (cnt k + 1) j) := by
  rw [filterMap_snoc, h.arrivals j, update_one]
  show List.range' 1 (cnt j) ++ (if k = j then some (cnt k + 1) else none).toList = _
  by_cases hj : j = k
  · rw [hj, Nat.add_comm (cnt k) 1, range'_ite, if_pos rfl, if_pos rfl, Nat.add_comm 1]
  · rw [if_neg hj, if_neg (Ne.symm hj)]
    exact List.append_nil _

/-- Somebody is admitted. -/
theorem Tallied.letIn (h : Tallied out cnt curr adm) (hk : adm k = cnt k) (t : ℤ) :
    Tallied (out ++ [.arrives t k (cnt k + 1)]) (Function.update cnt k (cnt k + 1)) curr
      (Function.update adm k (adm k + 1)) where
  arrivals := h.arrival_line k t
  seen j := by
    rw [filterMap_snoc, h.seen j]
    exact List.append_nil _
  refused j := by
    rw [filterMap_snoc, h.refused j, update_one, update_one]
    refine (List.append_nil _).trans ?_
    split
    · rename_i hj
      rw [hj, hk, Nat.sub_self, Nat.sub_self]
      rfl
    · rfl

/-- Somebody is turned away. -/
theorem Tallied.refuse (h : Tallied out cnt curr adm) (hk : adm k ≤ cnt k) (t : ℤ) {l : Line} (ha : ∀ j, l.arrival j = none)
    (hs : ∀ j, l.seen j = none) (hr : ∀ j, l.refused j = if k = j then some (cnt k + 1) else none) :
    Tallied (out ++ [.arrives t k (cnt k + 1)] ++ [l]) (Function.update cnt k (cnt k + 1)) curr adm where
  arrivals j := by
    rw [filterMap_snoc, ha j, h.arrival_line k t j]
    exact List.append_nil _
  seen j := by
    rw [filterMap_snoc, filterMap_snoc, hs j, h.seen j]
    exact (List.append_nil _).trans (List.append_nil _)
  refused j := by
    rw [filterMap_snoc, filterMap_snoc, hr j, h.refused j, update_one]
    refine (congrArg (· ++ _) (List.append_nil _)).trans ?_
    by_cases hj : j = k
    · rw [hj, if_pos rfl, if_pos rfl, Nat.succ_sub hk, range'_snoc, show adm k + 1 + (cnt k - adm k) = cnt k + 1 by omega]
      rfl
    · rw [if_neg hj, if_neg (Ne.symm hj)]
      exact List.append_nil _

/-- Somebody is seen. -/
theorem Tallied.visit (h : Tallied out cnt curr adm) (k : Kind) (t t₁ t₂ : ℤ) :
    Tallied (out ++ [.nextVisitor t] ++ [.inChamber t₁ t₂ k (curr k + 1)]) cnt (Function.update curr k (curr k + 1)) adm where
  arrivals j := by
    rw [filterMap_snoc, filterMap_snoc, h.arrivals j]
    exact (List.append_nil _).trans (List.append_nil _)
  seen j := by
    rw [filterMap_snoc, filterMap_snoc, h.seen j, update_one]
    refine (congrArg (· ++ _) (List.append_nil _)).trans ?_
    show List.range' 1 (curr j) ++ (if k = j then some (curr k + 1) else none).toList = _
    by_cases hj : j = k
    · rw [hj, Nat.add_comm (curr k) 1, range'_ite, if_pos rfl, if_pos rfl, Nat.add_comm 1]
    · rw [if_neg hj, if_neg (Ne.symm hj)]
      exact List.append_nil _
  refused j := by
    rw [filterMap_snoc, filterMap_snoc, h.refused j]
    exact (List.append_nil _).trans (List.append_nil _)

theorem Tallied.congr {adm' : Kind → ℕ} (h : Tallied out cnt curr adm) (hadm : ∀ k, adm' k = adm k) :
    Tallied out cnt curr adm' :=
  ⟨h.arrivals, h.seen, fun k => by rw [hadm]; exact h.refused k⟩

theorem refusal_line {l : Line} (h : s.refusal k = some l) : (∀ j, l.arrival j = none) ∧ (∀ j, l.seen j = none) ∧
    (∀ j, l.refused j = if k = j then some (s.cnt k) else none) ∧ l.leaving = false := by
  unfold Vars.refusal at h
  split at h
  · cases h
    exact ⟨fun _ => rfl, fun _ => rfl, fun _ => rfl, rfl⟩
  · split at h
    · cases h
      exact ⟨fun _ => rfl, fun _ => rfl, fun _ => rfl, rfl⟩
    · cases h

theorem Told.dispatchNext (h : Told s) : Told s.dispatchNext := by
  unfold Vars.dispatchNext
  cases hc : s.choose with
  | none => exact h
  | some k =>
    obtain ⟨-, hend, hk, -⟩ := choose_some hc
    refine ⟨?_, fun _ l hl => ?_, fun he => ?_⟩
    · refine (h.tallied.visit k s.currTime s.currTime _).congr (fun j => ?_)
      show Function.update s.curr k (s.curr k + 1) j + Function.update s.wait k (s.wait k - 1) j = s.curr j + s.wait j
      rw [update_one, update_one]
      split
      · rename_i hj
        rw [hj]
        omega
      · rfl
    · rcases List.mem_append.1 hl with hl | hl
      · rcases List.mem_append.1 hl with hl | hl
        · exact h.present hend l hl
        · rw [List.mem_singleton.1 hl]; rfl
      · rw [List.mem_singleton.1 hl]; rfl
    · rw [show (s.see k).docSessionEnd = s.docSessionEnd from rfl, hend] at he
      cases he

theorem Told.receive (h : Told s) (hrooms : Rooms s) (k : Kind) (e : Event) : Told (s.receive k e) := by
  cases href : (s.arrive k e).refusal k with
  | some l =>
    rw [receive_refused href]
    obtain ⟨ha, hs, hr, hl⟩ := refusal_line href
    rw [cnt_arrive] at hr
    refine ⟨h.tallied.refuse (hrooms.le k) s.currTime ha hs hr, fun hend m hm => ?_, fun hend => ?_⟩
    · rcases List.mem_append.1 hm with hm | hm
      · rcases List.mem_append.1 hm with hm | hm
        · exact h.present hend m hm
        · rw [List.mem_singleton.1 hm]; rfl
      · rw [List.mem_singleton.1 hm]; exact hl
    · obtain ⟨l₁, t, l₂, c, hout, h₁, h₂, htal, hadm, hseen⟩ := h.left hend
      refine ⟨l₁, t, l₂ ++ [.arrives s.currTime k (s.cnt k + 1)] ++ [l], c, ?_, h₁, fun m hm => ?_, htal, hadm, fun j => ?_⟩
      · show s.out ++ [.arrives s.currTime k (s.cnt k + 1)] ++ [l] = _
        rw [hout]
        simp
      · rcases List.mem_append.1 hm with hm | hm
        · rcases List.mem_append.1 hm with hm | hm
          · exact h₂ m hm
          · rw [List.mem_singleton.1 hm]; rfl
        · rw [List.mem_singleton.1 hm]; exact hl
      · rw [filterMap_snoc, filterMap_snoc, hseen j, hs j]
        rfl
  | none =>
    rw [receive_admitted href]
    obtain ⟨hend, hfull⟩ := refusal_none href
    have hall : s.curr k + s.wait k = s.cnt k :=
      (hrooms.admitted hend k).trans (admits_succ_of_not_full hfull).2
    refine Told.dispatchNext ⟨?_, fun _ m hm => ?_, fun he => ?_⟩
    · refine (h.tallied.letIn hall s.currTime).congr (fun j => ?_)
      show s.curr j + Function.update s.wait k (s.wait k + 1) j = _
      rw [update_one, update_one]
      split
      · rename_i hj
        rw [hj]
        rfl
      · rfl
    · rcases List.mem_append.1 hm with hm | hm
      · exact h.present hend m hm
      · rw [List.mem_singleton.1 hm]; rfl
    · rw [show (((s.arrive k e).letIn k).enqueue k ((s.arrive k e).cnt k) e).docSessionEnd = s.docSessionEnd from rfl,
        hend] at he
      cases he

/-- The doctor leaves or is free; when he leaves nobody waits. -/
theorem Told.doctorFree (h : Told s) (hrooms : Rooms s) (hend : s.docSessionEnd = false)
    (hnobody : s.free.sessionOver = true → ∀ k, s.wait k = 0) : Told s.doctorFree := by
  unfold Vars.doctorFree
  by_cases hover : s.free.sessionOver = true
  · rw [if_pos hover]
    have hwait := hnobody hover
    refine ⟨h.tallied.other (fun _ => rfl) (fun _ => rfl) (fun _ => rfl), fun he => (by cases he), fun _ => ?_⟩
    refine ⟨s.out, s.currTime, [], s.cnt, rfl, h.present hend, fun l hl => (by cases hl), h.tallied.congr (fun k => ?_),
      fun k => ?_, fun _ => rfl⟩
    · rw [hwait k]
      rfl
    · have hadm := hrooms.admitted hend k
      rw [hwait k] at hadm
      exact hadm
  · rw [if_neg hover]
    exact Told.dispatchNext ⟨h.tallied, h.present, h.left⟩

/-! ### The records of the file -/

/-- All who have come. -/
def everyone (came : Kind → List Event) : Multiset Event := ↑(came .patient) + ↑(came .reporter) + ↑(came .salesrep)

structure Conserved (file : List Event) (s : Vars) : Prop where
  all : s.E.contents.filter (fun e => isDone e = false) + everyone s.came = ↑file
  letter : ∀ k, ∀ e ∈ s.came k, e.type = k.letter

theorem everyone_snoc (came : Kind → List Event) (k : Kind) (e : Event) :
    everyone (Function.update came k (came k ++ [e])) = e ::ₘ everyone came := by
  have hsnoc : ((came k ++ [e] : List Event) : Multiset Event) = e ::ₘ ↑(came k) := by
    rw [← Multiset.coe_add, Multiset.coe_singleton, Multiset.add_comm, Multiset.singleton_add]
  unfold everyone
  cases k
  · rw [Function.update_self, Function.update_of_ne (by decide), Function.update_of_ne (by decide), hsnoc,
      Multiset.cons_add, Multiset.cons_add]
  · rw [Function.update_self, Function.update_of_ne (by decide), Function.update_of_ne (by decide), hsnoc,
      Multiset.add_cons, Multiset.cons_add]
  · rw [Function.update_self, Function.update_of_ne (by decide), Function.update_of_ne (by decide), hsnoc,
      Multiset.add_cons]

theorem Conserved.dispatchNext {file : List Event} (h : Conserved file s) : Conserved file s.dispatchNext := by
  unfold Vars.dispatchNext
  cases hc : s.choose with
  | none => exact h
  | some k =>
    refine ⟨?_, h.letter⟩
    show Multiset.filter _ (s.see k).E.contents + _ = _
    rw [contents_see, Multiset.filter_cons_of_neg (p := fun e => isDone e = false) _ (fun hd => by cases hd)]
    exact h.all

theorem letter_of_letterOf {c : Char} (h : letterOf c = .visitor k) : c = k.letter := by
  unfold letterOf at h
  split_ifs at h <;> cases h <;> assumption

/-- An event that has come is one less to come. -/
theorem Conserved.arrive {file : List Event} {E : EventQ} (h : Conserved file s) (hl : letterOf e.type = .visitor k)
    (hE : s.E.contents = e ::ₘ E.contents) (t : ℤ) :
    Conserved file (({ s with E := E }.setTime t).arrive k e) := by
  have hdone := isDone_of_visitor hl
  constructor
  · have hall := h.all
    rw [hE, Multiset.filter_cons_of_pos (p := fun e => isDone e = false) _ hdone] at hall
    show _ + everyone (Function.update s.came k (s.came k ++ [e])) = _
    rw [← hall, everyone_snoc, Multiset.cons_add, Multiset.add_cons]
    rfl
  · intro j f hf
    rw [came_arrive] at hf
    split at hf
    · rename_i hj
      rcases List.mem_append.1 hf with hf | hf
      · rw [hj]; exact h.letter k f hf
      · rw [hj, List.mem_singleton.1 hf]; exact letter_of_letterOf hl
    · exact h.letter j f hf

theorem Conserved.pop_done {file : List Event} (h : Conserved file s) (hne : emptyQ s.E = false)
    (hl : letterOf (nextevent s.E).type = .done) (t : ℤ) : Conserved file (s.pop.setTime t) := by
  have hdone := isDone_of_done hl
  refine ⟨?_, h.letter⟩
  have hall := h.all
  rw [contents_pop hne t, Multiset.filter_cons_of_neg (p := fun e => isDone e = false) _ (by rw [hdone]; decide)] at hall
  exact hall

theorem Conserved.turn {file : List Event} {s' : Vars} (h : Conserved file s) (hst : Session.turn s = some s') :
    Conserved file s' := by
  obtain ⟨hne, ⟨hl, rfl⟩ | ⟨k, hl, rfl⟩⟩ := turn_cases hst
  · have hpop := h.pop_done hne hl (nextevent s.E).time
    unfold Vars.doctorFree
    split
    · exact ⟨hpop.all, hpop.letter⟩
    · exact Conserved.dispatchNext ⟨hpop.all, hpop.letter⟩
  · have harr := h.arrive hl (contents_pop hne (nextevent s.E).time) (nextevent s.E).time
    cases href : ((s.pop.setTime (nextevent s.E).time).arrive k (nextevent s.E)).refusal k with
    | some l =>
      rw [receive_refused href]
      exact ⟨harr.all, harr.letter⟩
    | none =>
      rw [receive_admitted href]
      exact Conserved.dispatchNext ⟨harr.all, harr.letter⟩

end Lines

end Session
end OsLab
