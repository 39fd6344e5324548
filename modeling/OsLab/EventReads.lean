import OsLab.EventFile
/-!
# EventReads — the reads of `initEQ`, one by one

The loop of `initEQ` looks neither at what `fscanf` returns nor for the end of the file.  Here each of its reads is a step, so
that a loop that goes on for ever is a run: at the end of the file `%c` leaves the letter as it was and another event is
stored, and `fgetc` returns EOF, which is not a newline, again and again.  Every run comes to rest (`comes_to_rest`): it has
ended as `readLoop` says, or waits for a newline at the end of the file, or has left the array.
-/
namespace OsLab
namespace Session

open DecimalText Function

/-- Where the loop stands. -/
inductive ReadPc
  /-- Before `fscanf(fp, "%c", &type)`, the test for `E` and the store of the letter. -/
  | letter
  /-- Before `fscanf(fp, "%d%d", ..)` and `++E.n`. -/
  | numbers
  /-- Before `fgetc(fp)` and its test. -/
  | line
  | done
  /-- A letter has been stored behind the 128 places. -/
  | wild
  deriving DecidableEq

structure ReadState where
  pc : ReadPc
  type : Char
  /-- The file from its position on. -/
  rest : List Char
  E : EventQ

/-- Lines 31 to 33; `type` and `Q` are what stands in the memory. -/
def openFile (type : Char) (cs : List Char) (Q : ℕ → Event) : ReadState := ⟨.letter, type, cs, ⟨0, Q⟩⟩

/-- A read of the loop, with what the loop does before the next one. -/
def readStep (s : ReadState) : ReadState :=
  match s.pc with
  | .letter =>
    let type := s.rest.head?.getD s.type
    if type = 'E' then ⟨.done, type, s.rest.tail, s.E⟩
    else if s.E.n < 128 then
      ⟨.numbers, type, s.rest.tail, ⟨s.E.n, update s.E.Q s.E.n ⟨type, (s.E.Q s.E.n).time, (s.E.Q s.E.n).duration⟩⟩⟩
    else ⟨.wild, type, s.rest.tail, s.E⟩
  | .numbers =>
    let r := scanTwo s.rest
    let e := s.E.Q s.E.n
    ⟨.line, s.type, r.2.2, ⟨s.E.n + 1, update s.E.Q s.E.n ⟨e.type, r.1.getD e.time, r.2.1.getD e.duration⟩⟩⟩
  | .line =>
    match s.rest with
    | [] => s
    | c :: cs => ⟨if c = '\n' then .letter else .line, s.type, cs, s.E⟩
  | .done => s
  | .wild => s

/-- A newline ends a line; so does the end of the file, if something stands behind the last newline. -/
def lineCount (cs : List Char) : ℕ := cs.count '\n' + if cs.getLast?.getD '\n' = '\n' then 0 else 1

/-! ### Runs -/

theorem fixed_line {s : ReadState} (hpc : s.pc = .line) (hrest : s.rest = []) : readStep s = s := by
  simp only [readStep, hpc, hrest]

theorem fixed_done {s : ReadState} (hpc : s.pc = .done) : readStep s = s := by
  simp only [readStep, hpc]

theorem fixed_wild {s : ReadState} (hpc : s.pc = .wild) : readStep s = s := by
  simp only [readStep, hpc]

/-- A run that comes to rest elsewhere never ends the loop. -/
theorem never_done {s t : ReadState} (h : Leads readStep s t) (ht : readStep t = t) (hpc : t.pc ≠ .done) (k : ℕ) :
    (readStep^[k] s).pc ≠ .done := fun hdone =>
  h.not_fixed ht k (fun heq => hpc (heq ▸ hdone)) (fixed_done hdone)

/-- **No event is taken back.** -/
theorem stored_mono (s : ReadState) : s.E.n ≤ (readStep s).E.n := by
  unfold readStep
  split
  · simp only
    split
    · exact Nat.le_refl _
    · split <;> exact Nat.le_refl _
  · exact Nat.le_succ _
  · split <;> exact Nat.le_refl _
  · exact Nat.le_refl _
  · exact Nat.le_refl _

/-! ### A turn of the loop -/

/-- The letter and the numbers of a record: an event is stored. -/
theorem leads_line {type : Char} {cs : List Char} {E : EventQ} (htype : cs.head?.getD type ≠ 'E') (hE : E.n < 128) :
    Leads readStep ⟨.letter, type, cs, E⟩ ⟨.line, cs.head?.getD type, (scanTwo cs.tail).2.2, ⟨E.n + 1, update E.Q E.n
      ⟨cs.head?.getD type, (scanTwo cs.tail).1.getD (E.Q E.n).time, (scanTwo cs.tail).2.1.getD (E.Q E.n).duration⟩⟩⟩ := by
  refine ⟨2, ?_⟩
  rw [iterate_succ_apply, iterate_one]
  simp only [readStep, if_neg htype, if_pos hE, update_self, update_idem]

/-- The rest of the line. -/
theorem leads_letter {type : Char} {E : EventQ} : ∀ {cs rest : List Char}, skipLine cs = some rest →
    Leads readStep ⟨.line, type, cs, E⟩ ⟨.letter, type, rest, E⟩
  | [], rest, h => absurd h (by simp [skipLine])
  | c :: cs, rest, h => by
    refine (Leads.step _).trans ?_
    unfold skipLine at h
    split at h
    · rename_i hc
      obtain rfl := Option.some.inj h
      simp only [readStep, if_pos hc]
      exact Leads.refl _
    · rename_i hc
      simp only [readStep, if_neg hc]
      exact leads_letter h

/-- No newline comes: the loop reads up to the end of the file, and stays there. -/
theorem leads_end {type : Char} {E : EventQ} : ∀ {cs : List Char}, skipLine cs = none →
    Leads readStep ⟨.line, type, cs, E⟩ ⟨.line, type, [], E⟩
  | [], _ => Leads.refl _
  | c :: cs, h => by
    refine (Leads.step _).trans ?_
    unfold skipLine at h
    split at h
    · exact absurd h (by simp)
    · rename_i hc
      simp only [readStep, if_neg hc]
      exact leads_end h

/-- **Every run comes to rest.**  Where `readLoop` has a result the loop ends with it; where it has none the loop waits for a
newline at the end of the file, or has left the array. -/
theorem comes_to_rest (type : Char) (cs : List Char) (E : EventQ) : ∃ t, Leads readStep ⟨.letter, type, cs, E⟩ t ∧
    readStep t = t ∧ match readLoop type cs E with
      | some E' => t.pc = .done ∧ t.E = E'
      | none => t.pc = .line ∧ t.rest = [] ∨ t.pc = .wild := by
  fun_induction readLoop type cs E with
  | case1 type cs E type' htype =>
    -- the letter is `E`
    have hstep : readStep ⟨.letter, type, cs, E⟩ = ⟨.done, type', cs.tail, E⟩ := if_pos htype
    exact ⟨_, ⟨1, hstep⟩, fixed_done rfl, rfl, rfl⟩
  | case2 type cs E type' htype hE r hskip =>
    -- no newline
    exact ⟨_, (leads_line htype hE).trans (leads_end hskip), fixed_line rfl rfl, Or.inl ⟨rfl, rfl⟩⟩
  | case3 type cs E type' htype hE r rest hskip ih =>
    obtain ⟨t, hlead, ht⟩ := ih
    exact ⟨t, ((leads_line htype hE).trans (leads_letter hskip)).trans hlead, ht⟩
  | case4 type cs E type' htype hE =>
    -- no place
    have hstep : readStep ⟨.letter, type, cs, E⟩ = ⟨.wild, type', cs.tail, E⟩ := (if_neg htype).trans (if_neg hE)
    exact ⟨_, ⟨1, hstep⟩, fixed_wild rfl, Or.inr rfl⟩

/-- The loop ends where `readLoop` has a result. -/
theorem ends_iff (type : Char) (cs : List Char) (E : EventQ) :
    (∃ k, (readStep^[k] ⟨.letter, type, cs, E⟩).pc = .done) ↔ (readLoop type cs E).isSome := by
  obtain ⟨t, hlead, hfixed, ht⟩ := comes_to_rest type cs E
  split at ht
  · rename_i E' hread
    obtain ⟨k, rfl⟩ := hlead
    simp only [hread, Option.isSome_some, iff_true]
    exact ⟨k, ht.1⟩
  · rename_i hread
    simp only [hread, Option.isSome_none, Bool.false_eq_true, iff_false, not_exists]
    refine never_done hlead hfixed fun hdone => ?_
    rcases ht with ⟨hpc, -⟩ | hpc <;> exact absurd (hpc.symm.trans hdone) (by decide)

/-! ### The files for which the loop ends -/

/-- What a turn of the loop takes: a letter other than `E`, what the two `%d` take (they may go on over newlines), and what is
left of the line there, with its newline. -/
def IsRecord (r : List Char) : Prop := ∃ c b line, r = c :: b ∧ c ≠ 'E' ∧ '\n' ∉ line ∧ (scanTwo b).2.2 = line ++ ['\n']

/-- At most `m` records, and then something that begins with `E`. -/
def Complete (m : ℕ) (cs : List Char) : Prop :=
  ∃ (rs : List (List Char)) (rest : List Char), cs = rs.flatten ++ 'E' :: rest ∧ (∀ r ∈ rs, IsRecord r) ∧ rs.length ≤ m

/-- What a turn of the loop reads can be cut out of the file. -/
theorem skip_iff {t rest : List Char} : skipLine (scanTwo t).2.2 = some rest ↔
    ∃ b line, t = b ++ rest ∧ '\n' ∉ line ∧ (scanTwo b).2.2 = line ++ ['\n'] := by
  constructor
  · intro h
    obtain ⟨line, hline, heq⟩ := exists_line h
    obtain ⟨b, hb, hleft⟩ := (scanTwo_takesPrefix.split_iff (by simp)).1 heq
    exact ⟨b, line, hb, hline, hleft⟩
  · rintro ⟨b, line, hb, hline, hleft⟩
    have heq : (scanTwo t).2.2 = (line ++ ['\n']) ++ rest :=
      (scanTwo_takesPrefix.split_iff (by simp)).2 ⟨b, hb, hleft⟩
    rw [heq]
    exact skipLine_line hline rest

theorem complete_E (m : ℕ) (cs : List Char) : Complete m ('E' :: cs) := ⟨[], cs, rfl, by simp, Nat.zero_le m⟩

/-- What does not begin with `E` begins with a record. -/
theorem complete_cons_iff {m : ℕ} {c : Char} {t : List Char} (hc : c ≠ 'E') :
    Complete m (c :: t) ↔ 0 < m ∧ ∃ rest, skipLine (scanTwo t).2.2 = some rest ∧ Complete (m - 1) rest := by
  constructor
  · rintro ⟨rs, rest, heq, hrs, hlen⟩
    cases rs with
    | nil => exact absurd (List.cons.inj heq).1 hc
    | cons r rs =>
      obtain ⟨c', b, line, rfl, -, hline, hleft⟩ := hrs r List.mem_cons_self
      rw [List.length_cons] at hlen
      rw [List.flatten_cons, List.append_assoc] at heq
      refine ⟨by omega, rs.flatten ++ 'E' :: rest, skip_iff.2 ⟨b, line, (List.cons.inj heq).2, hline, hleft⟩, rs, rest, rfl,
        fun r' hr' => hrs r' (List.mem_cons_of_mem _ hr'), by omega⟩
  · rintro ⟨hm, rest, hskip, rs, rest', rfl, hrs, hlen⟩
    obtain ⟨b, line, rfl, hline, hleft⟩ := skip_iff.1 hskip
    refine ⟨(c :: b) :: rs, rest', by simp, fun r hr => ?_, ?_⟩
    · rcases List.mem_cons.1 hr with rfl | hr
      · exact ⟨c, b, line, rfl, hc, hline, hleft⟩
      · exact hrs r hr
    · rw [List.length_cons]
      omega

theorem not_complete_nil (m : ℕ) : ¬ Complete m [] := by
  rintro ⟨rs, rest, heq, -⟩
  exact absurd heq.symm (by simp)

theorem complete_iff {m : ℕ} {type : Char} {cs : List Char} (htype : cs.head?.getD type ≠ 'E') :
    Complete m cs ∨ cs = [] ∧ type = 'E' ↔
      0 < m ∧ ∃ rest, skipLine (scanTwo cs.tail).2.2 = some rest ∧ Complete (m - 1) rest := by
  cases cs with
  | nil =>
    have hnil : (scanTwo []).2.2 = [] := scanTwo_takesPrefix.nil
    constructor
    · rintro (h | ⟨-, h⟩)
      · exact absurd h (not_complete_nil m)
      · exact absurd h htype
    · rintro ⟨-, rest, hskip, -⟩
      rw [List.tail_nil, hnil] at hskip
      exact absurd hskip (by simp [skipLine])
  | cons c t =>
    rw [← complete_cons_iff htype]
    simp

/-- **`readLoop` has a result on the complete files** that the array has places for, and on no others. -/
theorem readLoop_isSome_iff (type : Char) (cs : List Char) (E : EventQ) (hE : E.n ≤ 128) :
    (readLoop type cs E).isSome ↔ Complete (128 - E.n) cs ∨ cs = [] ∧ type = 'E' := by
  fun_induction readLoop type cs E with
  | case1 type cs E type' htype =>
    simp only [Option.isSome_some, true_iff]
    cases cs with
    | nil => exact Or.inr ⟨rfl, htype⟩
    | cons c t =>
      obtain rfl : c = 'E' := htype
      exact Or.inl (complete_E _ t)
  | case2 type cs E type' htype hlt r hskip =>
    have hnone : skipLine (scanTwo cs.tail).2.2 = none := hskip
    rw [complete_iff htype, hnone]
    simp
  | case3 type cs E type' htype hlt r rest hskip ih =>
    have hsome : skipLine (scanTwo cs.tail).2.2 = some rest := hskip
    rw [complete_iff htype, ih hlt, or_iff_left (fun h => htype h.2), hsome]
    simp [Nat.sub_add_eq, hlt]
  | case4 type cs E type' htype hlt =>
    rw [complete_iff htype]
    simp [show 128 - E.n = 0 by omega]

theorem isRecord_recordLine {e : Event} (h : IsArrival e) : IsRecord (recordLine e) := by
  have hleft := scanTwo_recordLine h []
  rw [List.append_nil] at hleft
  exact ⟨e.type, (recordLine e).tail, [], rfl, h.type_ne, by simp, by rw [hleft, List.nil_append]⟩

/-- **What arrival.c writes is complete.** -/
theorem complete_arrivalText {es : List Event} (hes : ∀ e ∈ es, IsArrival e) : Complete es.length (arrivalText es) := by
  refine ⟨es.map recordLine, ['\n'], by simp [arrivalText, List.flatMap_def], fun r hr => ?_, by simp⟩
  obtain ⟨e, he, rfl⟩ := List.mem_map.1 hr
  exact isRecord_recordLine (hes e he)

/-! ### How many events are stored -/

/-- A turn stores one event and takes a newline. -/
theorem readLoop_stored {type : Char} {cs : List Char} {E E' : EventQ} (h : readLoop type cs E = some E') :
    E'.n ≤ E.n + cs.count '\n' := by
  fun_induction readLoop type cs E with
  | case1 type cs E type' htype =>
    obtain rfl := Option.some.inj h
    exact Nat.le_add_right _ _
  | case2 type cs E type' htype hlt r hskip => exact absurd h (by simp)
  | case3 type cs E type' htype hlt r rest hskip ih =>
    obtain ⟨b, line, ht, hline, hleft⟩ := skip_iff.1 hskip
    have hnewline : '\n' ∈ b := (scanTwo_takesPrefix.suffix b).mem (by rw [hleft]; simp)
    have hcount := ih h
    have htail : cs.tail.count '\n' ≤ cs.count '\n' := (List.tail_sublist cs).count_le '\n'
    have hb := List.count_pos_iff.2 hnewline
    rw [ht, List.count_append] at htail
    simp only at hcount
    omega
  | case4 type cs E type' htype hlt => exact absurd h (by simp)

/-- **When the loop of `initEQ` ends**, and stores no more events than the file has lines: exactly for a file of at most 128
records with something behind them that begins with `E`, and for an empty file if the memory happens to hold an `E`. -/
theorem read_ends_iff (type : Char) (cs : List Char) (Q : ℕ → Event) :
    ((∃ k, (readStep^[k] (openFile type cs Q)).pc = .done) ∧
      ∀ k, (readStep^[k] (openFile type cs Q)).E.n ≤ lineCount cs) ↔ Complete 128 cs ∨ cs = [] ∧ type = 'E' := by
  have hsome := readLoop_isSome_iff type cs ⟨0, Q⟩ (Nat.zero_le _)
  have hends := (ends_iff type cs ⟨0, Q⟩).trans hsome
  refine ⟨fun h => hends.1 h.1, fun h => ⟨hends.2 h, fun k => ?_⟩⟩
  obtain ⟨t, hlead, hfixed, ht⟩ := comes_to_rest type cs ⟨0, Q⟩
  obtain ⟨E', hread⟩ := Option.isSome_iff_exists.1 (hsome.2 h)
  rw [hread] at ht
  calc (readStep^[k] (openFile type cs Q)).E.n
      ≤ t.E.n := (hlead.rest hfixed k).le (m := fun s => s.E.n) stored_mono
    _ = E'.n := by rw [ht.2]
    _ ≤ 0 + cs.count '\n' := readLoop_stored hread
    _ ≤ lineCount cs := by
      rw [Nat.zero_add]
      exact Nat.le_add_right _ _

/-- A file of one record without a last line `E`: a second event is stored from nothing, and the loop never ends. -/
theorem read_past_end :
    (∀ k, (readStep^[k] (openFile ' ' ['P', ' ', '1', ' ', '2', '\n'] fun _ => ⟨' ', 0, 0⟩)).pc ≠ .done) ∧
    ∃ k, lineCount ['P', ' ', '1', ' ', '2', '\n'] <
      (readStep^[k] (openFile ' ' ['P', ' ', '1', ' ', '2', '\n'] fun _ => ⟨' ', 0, 0⟩)).E.n := by
  have hlead : Leads readStep (openFile ' ' ['P', ' ', '1', ' ', '2', '\n'] fun _ => ⟨' ', 0, 0⟩)
      (readStep^[5] (openFile ' ' ['P', ' ', '1', ' ', '2', '\n'] fun _ => ⟨' ', 0, 0⟩)) := ⟨5, rfl⟩
  exact ⟨never_done hlead (fixed_line (by decide) (by decide)) (by decide), 5, by decide⟩

end Session
end OsLab
