import OsLab.SessionLines
/-!
# SessionRuns — the visitors' fates

What holds of every session, whatever the arrivals and the times: when the loop has ended, every visitor was seen once or
turned away once, for the reason that is printed (`fates`).
-/
namespace OsLab
namespace Session

section Runs

variable {file : List Event} {Q : ℕ → Event} {s s' : Vars} {k : Kind} {e : Event}

theorem Told.turn (h : Told s) (hinv : Inv s) (hst : Session.turn s = some s') : Told s' := by
  have htold : ∀ t, Told (s.pop.setTime t) := fun _ => ⟨h.tallied, h.present, h.left⟩
  have hinv' := hinv.turn hst
  obtain ⟨hne, ⟨hl, rfl⟩ | ⟨k, hl, rfl⟩⟩ := turn_cases hst
  · obtain ⟨-, hend, -⟩ := hinv.agenda.pop_done hne (isDone_of_done hl) (nextevent s.E).time
    refine (htold _).doctorFree (hinv.rooms.pop _) hend (fun hover k => ?_)
    have hended := hinv'.rooms.ended
    rw [Vars.doctorFree, if_pos hover] at hended
    exact (hended rfl).2.2 k
  · exact (htold _).receive (hinv.rooms.pop _) k (nextevent s.E)

/-- All invariants of the loop. -/
structure Sound (file : List Event) (s : Vars) : Prop where
  inv : Inv s
  told : Told s
  conserved : Conserved file s

theorem sound_of_reachable (hfile : Arrivals file) (h : Reachable mainLoop (Vars.init file Q) s) : Sound file s := by
  refine reachable_inv (Sound file) ⟨Inv.init hfile Q, ?_, ?_⟩ (fun _ s s' _ hs hst => ?_) h
  · exact ⟨⟨fun _ => rfl, fun _ => rfl, fun _ => rfl⟩, fun _ l hl => (by cases hl), fun he => (by cases he)⟩
  · refine ⟨?_, fun _ e he => (by cases he)⟩
    rw [hfile.contents Q, Multiset.filter_cons_of_neg (p := fun e => isDone e = false) _ (fun hd => by cases hd)]
    refine (congrArg (· + _) (Multiset.filter_eq_self.2 (fun e he => hfile.not_done he))).trans ?_
    exact Multiset.add_zero _
  · exact ⟨hs.inv.turn hst, hs.told.turn hs.inv hst, hs.conserved.turn hst⟩

end Runs

/-- Two patients, a reporter and a sales representative. -/
def fourArrivals : List Event := [⟨'P', -5, 7⟩, ⟨'R', 3, 2⟩, ⟨'S', 3, 2⟩, ⟨'P', 1, 4⟩]

def fourStart : Vars := Vars.init fourArrivals (fun _ => ⟨'x', 0, 0⟩)

def fourEnd : Vars := (runSchedule mainLoop (List.replicate 9 ()) fourStart).getD fourStart

theorem fourArrivals_ok : Arrivals fourArrivals := by
  intro e he
  simp only [fourArrivals, List.mem_cons, List.not_mem_nil, or_false] at he
  rcases he with rfl | rfl | rfl | rfl
  · exact ⟨⟨.patient, rfl⟩, by decide⟩
  · exact ⟨⟨.reporter, rfl⟩, by decide⟩
  · exact ⟨⟨.salesrep, rfl⟩, by decide⟩
  · exact ⟨⟨.patient, rfl⟩, by decide⟩

/-! ### The fates -/

/-- The doctor's last line is before the line of the arrival. -/
def LeftBefore (out : List Line) (k : Kind) (id : ℕ) : Prop :=
  ∃ l₁ t l₂, out = l₁ ++ Line.arrives t k id :: l₂ ∧ ∃ l ∈ l₁, l.leaving = true

section Fates

variable {file : List Event} {s : Vars} {k : Kind} {id : ℕ}

/-- At the end every record has come. -/
theorem Conserved.cnt_eq (h : Conserved file s) (hrooms : Rooms s) (hend : emptyQ s.E = true) (k : Kind) :
    s.cnt k = file.countP (fun e => e.type = k.letter) := by
  have hall := h.all
  rw [(contents_eq_zero s.E).2 (of_decide_eq_true hend)] at hall
  have hall' : everyone s.came = ↑file := (Multiset.zero_add _).symm.trans hall
  have hmine : ∀ j, (s.came j).countP (fun e => e.type = k.letter) = if j = k then s.cnt k else 0 := fun j => by
    split
    · rename_i hj
      rw [hj, ← hrooms.came k, List.countP_eq_length]
      exact fun e he => decide_eq_true (h.letter k e he)
    · rename_i hj
      rw [List.countP_eq_zero]
      intro e he hk
      have heq := (h.letter j e he).symm.trans (of_decide_eq_true hk)
      exact hj (by cases j <;> cases k <;> first | rfl | cases heq)
  have hcount : Multiset.countP (fun e => e.type = k.letter) (everyone s.came) = s.cnt k := by
    unfold everyone
    rw [Multiset.countP_add, Multiset.countP_add, Multiset.coe_countP, Multiset.coe_countP, Multiset.coe_countP, hmine,
      hmine, hmine]
    cases k <;> simp
  rw [← hcount, hall', Multiset.coe_countP]

/-- When the loop has ended the doctor is free or has left. -/
theorem Inv.at_end (h : Inv s) (hend : emptyQ s.E = true) : s.docFree = true ∨ s.docSessionEnd = true := by
  have hp := h.agenda.pending
  rw [(contents_eq_zero s.E).2 (of_decide_eq_true hend)] at hp
  cases hf : s.docFree with
  | true => exact Or.inl rfl
  | false =>
    right
    cases he : s.docSessionEnd with
    | true => rfl
    | false => rw [hf, he] at hp; cases hp

theorem Inv.nobody_at_end (h : Inv s) (hend : emptyQ s.E = true) (k : Kind) : s.wait k = 0 := by
  rcases h.at_end hend with hf | he
  · exact h.resting.nobody hf k
  · exact (h.rooms.ended he).2.2 k

theorem admits_lt {c : ℕ} (hid : id ≤ c) : k.admits c < id ↔ k.quotaFull id = true := by
  unfold Kind.admits Kind.quotaFull
  cases hq : k.quota with
  | none =>
    show c < id ↔ false = true
    exact iff_of_false (by omega) Bool.false_ne_true
  | some q =>
    show min c q < id ↔ decide (q < id) = true
    rw [decide_eq_true_iff]
    omega

theorem count_range' (n a b : ℕ) : (List.range' a b).count n = if a ≤ n ∧ n < a + b then 1 else 0 := by
  rw [List.Nodup.count List.nodup_range']
  refine if_congr ?_ rfl rfl
  rw [List.mem_range'_1]

theorem mem_refused (h : Told s) : id ∈ s.out.filterMap (Line.refused k) ↔ s.curr k + s.wait k < id ∧ id ≤ s.cnt k := by
  rw [h.tallied.refused k, List.mem_range'_1]
  omega

/-- The arrivals after the doctor's last line. -/
theorem leftBefore_iff {l₁ l₂ : List Line} {t : ℤ} {c : Kind → ℕ} (h : Told s)
    (hout : s.out = l₁ ++ Line.doctorLeaves t :: l₂) (h₁ : ∀ l ∈ l₁, l.leaving = false)
    (hc : ∀ k, l₁.filterMap (Line.arrival k) = List.range' 1 (c k)) (h1 : 1 ≤ id) (hid : id ≤ s.cnt k) :
    LeftBefore s.out k id ↔ c k < id := by
  have hsplit : List.range' 1 (c k) ++ l₂.filterMap (Line.arrival k) = List.range' 1 (s.cnt k) := by
    rw [← hc k, ← h.tallied.arrivals k, hout, List.filterMap_append]
    exact congrArg _ (List.filterMap_cons_none rfl).symm
  constructor
  · rintro ⟨m₁, t', m₂, hm, l, hl, hleave⟩
    rw [hout] at hm
    rcases List.append_eq_append_iff.1 hm with ⟨as, hm₁, htail⟩ | ⟨bs, hl₁, -⟩
    · -- the arrival is behind the doctor's line
      have hmem : Line.arrives t' k id ∈ l₂ := by
        cases as with
        | nil => cases htail
        | cons a as =>
          rw [List.cons_append] at htail
          rw [(List.cons.inj htail).2]
          exact List.mem_append_right _ List.mem_cons_self
      have hin : id ∈ l₂.filterMap (Line.arrival k) := List.mem_filterMap.2 ⟨_, hmem, if_pos rfl⟩
      have hnodup : (List.range' 1 (c k) ++ l₂.filterMap (Line.arrival k)).Nodup := by
        rw [hsplit]
        exact List.nodup_range'
      by_contra hle
      exact (List.nodup_append.1 hnodup).2.2 id (List.mem_range'_1.2 (by omega)) id hin rfl
    · rw [h₁ l (hl₁ ▸ List.mem_append_left _ hl)] at hleave
      cases hleave
  · intro hlt
    have hin : id ∈ l₂.filterMap (Line.arrival k) := by
      have hall : id ∈ List.range' 1 (c k) ++ l₂.filterMap (Line.arrival k) := by
        rw [hsplit]
        exact List.mem_range'_1.2 (by omega)
      refine (List.mem_append.1 hall).resolve_left (fun hold => ?_)
      have := List.mem_range'_1.1 hold
      omega
    obtain ⟨l, hl, hla⟩ := List.mem_filterMap.1 hin
    obtain ⟨t', rfl⟩ : ∃ t', l = Line.arrives t' k id := by
      cases l with
      | arrives t' j i =>
        change (if j = k then some i else none) = some id at hla
        split at hla
        · rename_i hj
          cases hla
          exact ⟨t', by rw [hj]⟩
        · cases hla
      | _ => cases hla
    obtain ⟨m₁, m₂, rfl⟩ := List.append_of_mem hl
    exact ⟨l₁ ++ Line.doctorLeaves t :: m₁, t', m₂, by rw [hout, List.append_assoc]; rfl, Line.doctorLeaves t,
      List.mem_append_right _ List.mem_cons_self, rfl⟩

/-- **Why somebody is turned away.** -/
theorem Sound.refused_iff (h : Sound file s) (hend : emptyQ s.E = true) (h1 : 1 ≤ id) (hid : id ≤ s.cnt k) :
    id ∈ s.out.filterMap (Line.refused k) ↔ LeftBefore s.out k id ∨ k.quotaFull id = true := by
  have hwait := h.inv.nobody_at_end hend k
  rw [mem_refused h.told, hwait, Nat.add_zero, and_iff_left hid]
  cases he : s.docSessionEnd with
  | false =>
    have hadm := h.inv.rooms.admitted he k
    rw [hwait, Nat.add_zero] at hadm
    rw [hadm, admits_lt hid]
    refine (or_iff_right ?_).symm
    rintro ⟨l₁, t, l₂, hout, l, hl, hleave⟩
    rw [h.told.present he l (hout ▸ List.mem_append_left _ hl)] at hleave
    cases hleave
  | true =>
    obtain ⟨l₁, t, l₂, c, hout, h₁, -, htal, hadm, -⟩ := h.told.left he
    rw [leftBefore_iff h.told hout h₁ htal.arrivals h1 hid, hadm k]
    by_cases hc : c k < id
    · exact iff_of_true (Nat.lt_of_le_of_lt (admits_le k (c k)) hc) (Or.inl hc)
    · rw [admits_lt (Nat.le_of_not_lt hc), or_iff_right hc]

/-- **When the doctor leaves.** -/
theorem Sound.leaves_iff (h : Sound file s) (hend : emptyQ s.E = true) :
    s.out.countP Line.leaving = if 25 ≤ s.cnt .patient ∧ 3 ≤ s.cnt .salesrep then 1 else 0 := by
  cases he : s.docSessionEnd with
  | false =>
    -- he is still free, so not all were seen
    have hfree := (h.inv.at_end hend).resolve_right (by rw [he]; exact Bool.false_ne_true)
    have hnot : ¬ (25 ≤ s.cnt .patient ∧ 3 ≤ s.cnt .salesrep) := by
      rintro ⟨hp, hs⟩
      have hover := h.inv.resting.notOver hfree
      have hpa : s.curr .patient + s.wait .patient = min (s.cnt .patient) 25 := h.inv.rooms.admitted he .patient
      have hsa : s.curr .salesrep + s.wait .salesrep = min (s.cnt .salesrep) 3 := h.inv.rooms.admitted he .salesrep
      have hw := h.inv.resting.nobody hfree
      rw [hw] at hpa hsa
      rw [Bool.eq_false_iff] at hover
      exact hover (sessionOver_iff.2 ⟨by omega, by omega, hw .reporter⟩)
    rw [if_neg hnot, List.countP_eq_zero]
    intro l hl hleave
    rw [h.told.present he l hl] at hleave
    cases hleave
  | true =>
    obtain ⟨hp, hs, -⟩ := h.inv.rooms.ended he
    have hple := h.inv.rooms.le .patient
    have hsle := h.inv.rooms.le .salesrep
    obtain ⟨l₁, t, l₂, c, hout, h₁, h₂, -⟩ := h.told.left he
    have hzero : ∀ l : List Line, (∀ m ∈ l, m.leaving = false) → l.countP Line.leaving = 0 := fun l hl =>
      List.countP_eq_zero.2 (fun m hm hleave => by rw [hl m hm] at hleave; cases hleave)
    rw [if_pos ⟨by omega, by omega⟩, hout, List.countP_append, List.countP_cons, hzero l₁ h₁, hzero l₂ h₂]
    rfl

/-- **When the doctor leaves nobody is left over.** -/
theorem Sound.left_over (h : Sound file s) {l₁ l₂ : List Line} {t : ℤ} (hout : s.out = l₁ ++ Line.doctorLeaves t :: l₂) :
    (∀ k, l₂.filterMap (Line.seen k) = []) ∧
    ∀ k, ∀ id ∈ l₁.filterMap (Line.arrival k), id ∈ l₁.filterMap (Line.seen k) ∨ id ∈ l₁.filterMap (Line.refused k) := by
  cases he : s.docSessionEnd with
  | false =>
    have hmem : Line.doctorLeaves t ∈ s.out := hout ▸ List.mem_append_right _ List.mem_cons_self
    have hleave := h.told.present he _ hmem
    cases hleave
  | true =>
    obtain ⟨m₁, t', m₂, c, hout', h₁, h₂, htal, -, hseen⟩ := h.told.left he
    rw [hout] at hout'
    -- there is only one such line
    have hfirst : l₁ = m₁ ∧ l₂ = m₂ := by
      rcases List.append_eq_append_iff.1 hout' with ⟨as, hm, htail⟩ | ⟨bs, hl, htail⟩
      · cases as with
        | nil => exact ⟨by rw [hm, List.append_nil], (List.cons.inj htail).2⟩
        | cons a as =>
          rw [List.cons_append] at htail
          have hleave := h₁ a (hm ▸ List.mem_append_right _ List.mem_cons_self)
          rw [← (List.cons.inj htail).1] at hleave
          cases hleave
      · cases bs with
        | nil => exact ⟨by rw [hl, List.append_nil], (List.cons.inj htail).2.symm⟩
        | cons b bs =>
          rw [List.cons_append] at htail
          have hleave := h₂ _ (by rw [(List.cons.inj htail).2]; exact List.mem_append_right _ List.mem_cons_self)
          cases hleave
    obtain ⟨rfl, rfl⟩ := hfirst
    refine ⟨hseen, fun k id hid => ?_⟩
    rw [htal.arrivals k, List.mem_range'_1] at hid
    rw [htal.seen k, htal.refused k, List.mem_range'_1, List.mem_range'_1]
    omega

end Fates

/-- **Every visitor has exactly one fate**, for every arrival file.  When the loop has ended every record has come, each
visitor has been seen once or turned away once, and turned away just when the doctor had left before its arrival or its
number is above the quota; nobody waits.  The doctor leaves once if there are 25 patients and 3 sales representatives, and
never otherwise; then nobody who came before is left over, and nobody is seen afterwards. -/
theorem fates {file : List Event} (hfile : Arrivals file) (Q : ℕ → Event) {s : Vars}
    (h : Reachable mainLoop (Vars.init file Q) s) (hend : emptyQ s.E = true) :
    (∀ k, s.cnt k = file.countP (fun e => e.type = k.letter)) ∧
    (∀ k, s.out.filterMap (Line.arrival k) = List.range' 1 (s.cnt k)) ∧
    (∀ k id, 1 ≤ id → id ≤ s.cnt k →
      (s.out.filterMap (Line.seen k)).count id + (s.out.filterMap (Line.refused k)).count id = 1 ∧
      (id ∈ s.out.filterMap (Line.refused k) ↔ LeftBefore s.out k id ∨ k.quotaFull id = true)) ∧
    (∀ k, s.wait k = 0) ∧
    s.out.countP Line.leaving = (if 25 ≤ s.cnt .patient ∧ 3 ≤ s.cnt .salesrep then 1 else 0) ∧
    (∀ l₁ t l₂, s.out = l₁ ++ Line.doctorLeaves t :: l₂ → (∀ k, l₂.filterMap (Line.seen k) = []) ∧
      ∀ k, ∀ id ∈ l₁.filterMap (Line.arrival k),
        id ∈ l₁.filterMap (Line.seen k) ∨ id ∈ l₁.filterMap (Line.refused k)) := by
  have hs := sound_of_reachable hfile h
  refine ⟨hs.conserved.cnt_eq hs.inv.rooms hend, hs.told.tallied.arrivals,
    fun k id h1 hid => ⟨?_, hs.refused_iff hend h1 hid⟩, hs.inv.nobody_at_end hend, hs.leaves_iff hend,
    fun l₁ t l₂ => hs.left_over⟩
  have hle := hs.inv.rooms.le k
  have hwait := hs.inv.nobody_at_end hend k
  rw [hs.told.tallied.seen k, hs.told.tallied.refused k, count_range', count_range']
  split_ifs <;> omega

theorem fates_four : (∀ k, fourEnd.cnt k = fourArrivals.countP (fun e => e.type = k.letter)) ∧ ∀ k, fourEnd.wait k = 0 :=
  have h := fates fourArrivals_ok _ (reachable_getD (List.replicate 9 ()) fourStart (by decide +kernel)) (by decide +kernel)
  ⟨h.1, h.2.2.2.1⟩

end Session
end OsLab
