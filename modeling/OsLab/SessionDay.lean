import OsLab.SessionClose
import OsLab.EventFile
/-!
# SessionDay — a day with the visitors that arrival.c draws

arrival.c of Assignment 6 writes a file of patients, reporters and sales representatives, drawn by `rand`.  Whatever it
draws, the file fits what session.c needs (`arrival_fits`), so a session on it goes to its end: no access leaves an array, no
sum overflows, no schedule of the threads blocks or goes on for ever, and the doctor sees his 25 patients and 3 sales
representatives (`arrival_day`).
-/
namespace OsLab
namespace Session

open DecimalText (IsInt)

/-- One of the three loops of arrival.c: the letter, how many records at least, how many more there can be, and what the
values of `rand` make of the two numbers. -/
structure Group where
  type : Char
  least : ℕ
  spread : ℕ
  time : ℕ → ℤ
  duration : ℕ → ℤ

/-- `n` records from the value number `draws` of `rand` on.  C leaves open which of a record's two numbers is drawn first. -/
def records (rand : ℕ → ℕ) (g : Group) : ℕ → ℕ → List Event
  | 0, _ => []
  | n + 1, draws => ⟨g.type, g.time (rand draws), g.duration (rand (draws + 1))⟩ :: records rand g n (draws + 2)

/-- The number of records, which is drawn first. -/
def Group.count (g : Group) (rand : ℕ → ℕ) (draws : ℕ) : ℕ := g.least + rand draws % g.spread

def Group.draw (g : Group) (rand : ℕ → ℕ) (draws : ℕ) : List Event := records rand g (g.count rand draws) (draws + 1)

/-- The value of `rand` that comes after the loop. -/
def Group.next (g : Group) (rand : ℕ → ℕ) (draws : ℕ) : ℕ := draws + 1 + 2 * g.count rand draws

def patients : Group := ⟨'P', 25, 16, fun r => r % 345 - 15, fun r => 5 + r % 11⟩

def reports : Group := ⟨'R', 5, 11, fun r => r % 330, fun r => 1 + r % 2⟩

def salesReps : Group := ⟨'S', 3, 5, fun r => r % 360 - 30, fun r => 5 + r % 6⟩

/-- The records that `main` of arrival.c writes. -/
def arrival (rand : ℕ → ℕ) : List Event :=
  patients.draw rand 0 ++
    (reports.draw rand (patients.next rand 0) ++ salesReps.draw rand (reports.next rand (patients.next rand 0)))

section Day

variable {rand : ℕ → ℕ} {g : Group} {P : Event → Prop} {n draws : ℕ}

theorem length_records : ∀ n draws, (records rand g n draws).length = n
  | 0, _ => rfl
  | n + 1, draws => congrArg (· + 1) (length_records n (draws + 2))

/-- What holds of every record that can be drawn. -/
theorem records_all (h : ∀ x y, P ⟨g.type, g.time x, g.duration y⟩) : ∀ n draws, ∀ e ∈ records rand g n draws, P e
  | 0, _, e, he => absurd he List.not_mem_nil
  | n + 1, draws, e, he => by
    rcases List.mem_cons.1 he with rfl | he
    · exact h _ _
    · exact records_all h n (draws + 2) e he

/-- What can be drawn: a patient, a reporter or a sales representative with small numbers and no negative duration. -/
def Drawn (e : Event) : Prop := (∃ k : Kind, e.type = k.letter) ∧ -30 ≤ e.time ∧ e.time < 330 ∧ 0 ≤ e.duration ∧ e.duration < 16

theorem draw_drawn : (∀ draws, ∀ e ∈ patients.draw rand draws, Drawn e ∧ e.type = Kind.patient.letter) ∧
    (∀ draws, ∀ e ∈ reports.draw rand draws, Drawn e ∧ e.type = Kind.reporter.letter) ∧
    ∀ draws, ∀ e ∈ salesReps.draw rand draws, Drawn e ∧ e.type = Kind.salesrep.letter := by
  refine ⟨fun draws => records_all (fun x y => ⟨⟨⟨.patient, rfl⟩, ?_⟩, rfl⟩) _ _,
    fun draws => records_all (fun x y => ⟨⟨⟨.reporter, rfl⟩, ?_⟩, rfl⟩) _ _,
    fun draws => records_all (fun x y => ⟨⟨⟨.salesrep, rfl⟩, ?_⟩, rfl⟩) _ _⟩
  · simp only [patients]
    omega
  · simp only [reports]
    omega
  · simp only [salesReps]
    omega

theorem arrival_drawn : ∀ e ∈ arrival rand, Drawn e := by
  intro e he
  obtain ⟨hp, hr, hs⟩ := @draw_drawn rand
  rcases List.mem_append.1 he with he | he
  · exact (hp _ e he).1
  · rcases List.mem_append.1 he with he | he
    · exact (hr _ e he).1
    · exact (hs _ e he).1

theorem countP_draw {k j : Kind} (h : ∀ e ∈ g.draw rand draws, e.type = k.letter) :
    ofKind j (g.draw rand draws) = if k = j then g.count rand draws else 0 := by
  unfold ofKind
  split
  · rename_i hk
    subst hk
    rw [List.countP_eq_length.2 (fun e he => decide_eq_true (h e he))]
    exact length_records _ _
  · rename_i hk
    refine List.countP_eq_zero.2 fun e he hj => hk (letter_inj ?_)
    rw [← h e he]
    exact of_decide_eq_true hj

/-- How many of a kind the file has. -/
theorem ofKind_arrival : ofKind .patient (arrival rand) = patients.count rand 0 ∧
    ofKind .reporter (arrival rand) = reports.count rand (patients.next rand 0) ∧
    ofKind .salesrep (arrival rand) = salesReps.count rand (reports.next rand (patients.next rand 0)) := by
  obtain ⟨hp, hr, hs⟩ := @draw_drawn rand
  have hsum : ∀ k, ofKind k (arrival rand) = ofKind k (patients.draw rand 0) +
      (ofKind k (reports.draw rand (patients.next rand 0)) +
        ofKind k (salesReps.draw rand (reports.next rand (patients.next rand 0)))) := fun k => by
    unfold ofKind arrival
    rw [List.countP_append, List.countP_append]
  refine ⟨?_, ?_, ?_⟩
  all_goals
    rw [hsum, countP_draw fun e he => (hp _ e he).2, countP_draw fun e he => (hr _ e he).2,
      countP_draw fun e he => (hs _ e he).2]
    simp

/-- **The file fits**: the arrays hold its records, and there are visitors enough for the whole session. -/
theorem arrival_fits (rand : ℕ → ℕ) : (arrival rand).length ≤ 62 ∧ ofKind .reporter (arrival rand) ≤ 15 ∧
    25 ≤ ofKind .patient (arrival rand) ∧ 3 ≤ ofKind .salesrep (arrival rand) := by
  obtain ⟨hp, hr, hs⟩ := @ofKind_arrival rand
  have hlen : (arrival rand).length = patients.count rand 0 + (reports.count rand (patients.next rand 0) +
      salesReps.count rand (reports.next rand (patients.next rand 0))) := by
    simp only [arrival, Group.draw, List.length_append, length_records]
  rw [hp, hr, hs, hlen]
  simp only [Group.count, patients, reports, salesReps]
  omega

theorem arrival_isArrival : ∀ e ∈ arrival rand, IsArrival e := by
  intro e he
  obtain ⟨⟨k, hk⟩, htime⟩ := arrival_drawn e he
  refine ⟨?_, ?_, ?_⟩
  · rw [hk]
    cases k <;> decide
  · unfold IsInt
    omega
  · unfold IsInt
    omega

/-- session.c reads from the file what arrival.c has drawn. -/
theorem initEQText_arrival (rand : ℕ → ℕ) (type : Char) (Q : ℕ → Event) :
    initEQText type (arrivalText (arrival rand)) Q = some (initEQ (arrival rand) Q) := by
  have hlen := (arrival_fits rand).1
  have hread : readLoop type (arrivalText (arrival rand)) ⟨0, Q⟩ = some (readEvents (arrival rand) ⟨0, Q⟩) :=
    readLoop_arrivalText (arrival rand) type ⟨0, Q⟩ arrival_isArrival
      ((Nat.zero_add _).trans_le (hlen.trans (by decide)))
  unfold initEQText
  rw [hread]
  rfl

theorem arrival_inRange (rand : ℕ → ℕ) (Q : ℕ → Event) : StaysInRange (arrival rand) Q := by
  have hfile : Visitors (arrival rand) := fun e he => (arrival_drawn e he).1
  obtain ⟨hlen, hr, -⟩ := arrival_fits rand
  refine ⟨fun a ha => ?_, fun s hs => ?_⟩
  · have hn := hfile.n_initEQ Q
    rcases List.mem_append.1 ha with ha | ha
    · refine inRange_onEvents (fun p hp => ?_) a ha
      have hlt := initEQPlaces_lt _ _ p hp
      omega
    · refine inRange_onEvents (fun p hp => ?_) a ha
      have hle := addeventPlaces_le _ _ p hp
      omega
  · obtain ⟨hseated, hconserved⟩ := hfile.reachable hs
    exact hseated.turn_inRange hconserved (by omega) (by omega)

/-- A day is short. -/
theorem arrival_inTime {Q : ℕ → Event} {s : Vars} (h : Reachable mainLoop (Vars.init (arrival rand) Q) s) :
    InTime s.visits := by
  have hfile : Arrivals (arrival rand) := fun e he => ⟨(arrival_drawn e he).1, (arrival_drawn e he).2.2.2.1⟩
  have hsum : ((arrival rand).map Event.duration).sum ≤ (arrival rand).length * 16 := by
    have hle := List.sum_le_card_nsmul ((arrival rand).map Event.duration) 16 fun x hx => by
      obtain ⟨e, he, rfl⟩ := List.mem_map.1 hx
      exact (arrival_drawn e he).2.2.2.2.le
    rw [List.length_map, nsmul_eq_mul] at hle
    exact hle
  have hlen := (arrival_fits rand).1
  refine inTime_of_total hfile (T := 330) (fun e he => (arrival_isArrival e he).2.1) (by decide)
    (fun e he => (arrival_drawn e he).2.2.1.le) ?_ h
  omega

/-- **A day**, whatever `rand` returns.  From the file that arrival.c writes session.c reads the records, stays inside its
arrays and keeps the doctor's schedule.  In every state that any schedule of the threads leads to, no run of their own steps
is infinite, somebody can go on until main has finished, and the lines are in their order; and at the end the doctor has left
once and his thread is finished, patients 1 to 25 and sales representatives 1 to 3 have been seen, and every reporter who was
not came after the doctor had left. -/
theorem arrival_day (rand : ℕ → ℕ) (type : Char) (Q : ℕ → Event) :
    initEQText type (arrivalText (arrival rand)) Q = some (initEQ (arrival rand) Q) ∧ StaysInRange (arrival rand) Q ∧
    (∀ v, Reachable mainLoop (Vars.init (arrival rand) Q) v → Scheduled (arrival rand) v) ∧
    ∀ s, Reachable next (State.init (arrival rand) Q) s →
      ¬ InfiniteRun proceed s ∧ Orderly (arrival rand) s ∧
      (s.main = .finished → s.doctor = .finished ∧ s.vars.out.countP Line.leaving = 1 ∧
        s.vars.out.filterMap (Line.seen .patient) = List.range' 1 25 ∧
        s.vars.out.filterMap (Line.seen .salesrep) = List.range' 1 3 ∧
        ∀ id, 1 ≤ id → id ≤ s.vars.cnt .reporter →
          id ∈ s.vars.out.filterMap (Line.seen .reporter) ∨ LeftBefore s.vars.out .reporter id) := by
  have hfile : Arrivals (arrival rand) := fun e he => ⟨(arrival_drawn e he).1, (arrival_drawn e he).2.2.2.1⟩
  have hint : ∀ e ∈ arrival rand, IsInt e.time := fun e he => (arrival_isArrival e he).2.1
  have hmany := (arrival_fits rand).2.2
  refine ⟨initEQText_arrival rand type Q, arrival_inRange rand Q, fun v hv => ?_, fun s hs => ?_⟩
  · exact scheduled hfile hint (fun u hu x hx => arrival_inTime hu x (List.mem_of_mem_dropLast hx)) hv
  have hgood := good_of_reachable hfile hs
  refine ⟨effort_falls hfile hgood (numbered_of_reachable hfile hs),
    orderly hfile hmany.1 hmany.2 (fun v hv => arrival_inTime hv) hs, fun hm => ?_⟩
  have hclosing : s.main.closing = true := by rw [hm]; rfl
  obtain ⟨hreach, hend⟩ := hgood.closed hclosing
  have hsound := sound_of_reachable hfile hreach
  obtain ⟨-, h25, h3⟩ := hsound.all_seen hend hmany.1 hmany.2
  refine ⟨hgood.doctor_left hfile hclosing hmany.1 hmany.2, ?_, ?_, ?_, fun id h1 hid => ?_⟩
  · have hcnt := fun k => hsound.conserved.cnt_eq hsound.inv.rooms hend k
    rw [hsound.leaves_iff hend, if_pos ⟨(hcnt .patient).symm ▸ hmany.1, (hcnt .salesrep).symm ▸ hmany.2⟩]
  · rw [hsound.told.tallied.seen, h25]
  · rw [hsound.told.tallied.seen, h3]
  · by_cases hseen : id ≤ s.vars.curr .reporter
    · left
      rw [hsound.told.tallied.seen, List.mem_range'_1]
      omega
    · have hwait := hsound.inv.nobody_at_end hend .reporter
      have hrefused : id ∈ s.vars.out.filterMap (Line.refused .reporter) := by
        rw [hsound.told.tallied.refused, List.mem_range'_1]
        omega
      exact Or.inr (((hsound.refused_iff hend h1 hid).1 hrefused).resolve_right (fun hq => by cases hq))

end Day

end Session
end OsLab
