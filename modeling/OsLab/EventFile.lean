import OsLab.DecimalText
import OsLab.EventQueue
import Mathlib.Data.List.TakeWhile
/-!
# EventFile — the arrival file as text

arrival.c writes one line a record and a last line `E`; the loop of `initEQ` reads a letter, two numbers and the rest of
the line.  A record's line is read as the record and leaves the file at the next line's letter (`readLoop_recordLine`), so
the loop stores what was written and the heap is built from it.
-/
namespace OsLab
namespace Session

open DecimalText

/-- `fprintf(fp, "P %d %d\n", ..)`, with the record's letter. -/
def recordLine (e : Event) : List Char := e.type :: ' ' :: (text e.time ++ ' ' :: (text e.duration ++ ['\n']))

/-- The file arrival.c writes. -/
def arrivalText (es : List Event) : List Char := es.flatMap recordLine ++ ['E', '\n']

/-- `fscanf(fp, "%d%d", ..)`: the second number is read only if the first was. -/
def scanTwo (cs : List Char) : Option ℤ × Option ℤ × List Char :=
  let r := scan cs
  if r.1 = none then (none, none, r.2)
  else
    let r' := scan r.2
    (r.1, r'.1, r'.2)

/-- `while (fgetc(fp) != '\n');`, which goes on for ever at the end of the file: `none`. -/
def skipLine : List Char → Option (List Char)
  | [] => none
  | c :: cs => if c = '\n' then some cs else skipLine cs

theorem skipLine_line {line : List Char} (hline : '\n' ∉ line) (rest : List Char) :
    skipLine ((line ++ ['\n']) ++ rest) = some rest := by
  induction line with
  | nil => exact if_pos rfl
  | cons c line ih =>
    rw [List.mem_cons, not_or] at hline
    exact (if_neg (Ne.symm hline.1)).trans (ih hline.2)

theorem exists_line : ∀ {cs rest : List Char}, skipLine cs = some rest →
    ∃ line, '\n' ∉ line ∧ cs = (line ++ ['\n']) ++ rest
  | [], rest, h => absurd h (by simp [skipLine])
  | c :: cs, rest, h => by
    unfold skipLine at h
    split at h
    · rename_i hc
      obtain rfl := Option.some.inj h
      exact ⟨[], by simp, by simp [hc]⟩
    · rename_i hc
      obtain ⟨line, hline, rfl⟩ := exists_line h
      exact ⟨c :: line, by simp [Ne.symm hc, hline], by simp⟩

theorem skipLine_length {cs rest : List Char} (h : skipLine cs = some rest) : rest.length < cs.length := by
  obtain ⟨line, -, rfl⟩ := exists_line h
  simp only [List.length_append, List.length_singleton]
  omega

theorem scanTwo_rest (cs : List Char) :
    (scanTwo cs).2.2 = if (scan cs).1 = none then (scan cs).2 else (scan (scan cs).2).2 := by
  unfold scanTwo
  simp only
  split <;> rfl

/-- **What the two `%d` take is a prefix.** -/
theorem scanTwo_takesPrefix : TakesPrefix fun cs => ((), (scanTwo cs).2.2) := by
  have h := scan_takesPrefix.bind (g := fun x cs => ((), if x = none then cs else (scan cs).2)) fun x => by
    by_cases hx : x = none
    · simp only [if_pos hx]
      exact TakesPrefix.pure ()
    · simp only [if_neg hx]
      exact scan_takesPrefix.map fun _ => ()
  rw [show (fun cs => ((), (scanTwo cs).2.2)) = _ from funext fun cs => congrArg _ (scanTwo_rest cs)]
  exact h

theorem scanTwo_length (cs : List Char) : (scanTwo cs).2.2.length ≤ cs.length := (scanTwo_takesPrefix.suffix cs).length_le

/-- The loop of `initEQ` over the file from its position on.  `%c` at the end of the file leaves the letter as it was, and
a number that cannot be read leaves the place of the array as it was.  `none`: a record past the 128 places, or the file
has no line that ends the loop. -/
def readLoop (type : Char) (cs : List Char) (E : EventQ) : Option EventQ :=
  let type := cs.head?.getD type
  if type = 'E' then some E
  else if E.n < 128 then
    let r := scanTwo cs.tail
    match _h : skipLine r.2.2 with
    | none => none
    | some rest => readLoop type rest
        ⟨E.n + 1, Function.update E.Q E.n ⟨type, r.1.getD (E.Q E.n).time, r.2.1.getD (E.Q E.n).duration⟩⟩
  else none
termination_by cs.length
decreasing_by
  have hskip : rest.length < (scanTwo cs.tail).2.2.length := skipLine_length _h
  have hscan := scanTwo_length cs.tail
  have htail := List.length_tail (l := cs)
  omega

/-- `initEQ`, from the text of the file; `type` and `Q` are what stands in the memory. -/
def initEQText (type : Char) (cs : List Char) (Q : ℕ → Event) : Option EventQ :=
  (readLoop type cs ⟨0, Q⟩).map fun E => ⟨E.n, heapify E.n (E.n / 2) E.Q⟩

/-- A record of one of the three types, with numbers that are `int`s. -/
def IsArrival (e : Event) : Prop := (e.type = 'P' ∨ e.type = 'R' ∨ e.type = 'S') ∧ IsInt e.time ∧ IsInt e.duration

theorem IsArrival.type_ne {e : Event} (h : IsArrival e) : e.type ≠ 'E' := by
  rcases h.1 with h | h | h <;> rw [h] <;> decide

/-- The two numbers of a record's line, and the newline after them. -/
theorem scanTwo_recordLine {e : Event} (h : IsArrival e) (rest : List Char) :
    scanTwo ((recordLine e ++ rest).tail) = (some e.time, some e.duration, '\n' :: rest) := by
  have htime := scan_text h.2.1 blank_isSpace (stops_blank (text e.duration ++ '\n' :: rest))
  have hduration := scan_text h.2.2 blank_isSpace (stops_newline rest)
  have hline : (recordLine e ++ rest).tail = [' '] ++ (text e.time ++ ' ' :: (text e.duration ++ '\n' :: rest)) := by
    simp [recordLine]
  rw [List.cons_append, List.nil_append] at hduration
  unfold scanTwo
  simp only [hline, htime, hduration, reduceCtorEq, if_false]

/-- **A record's line is read as the record**, and the file stands at the next line. -/
theorem readLoop_recordLine {e : Event} (h : IsArrival e) (type : Char) (rest : List Char) {E : EventQ} (hE : E.n < 128) :
    readLoop type (recordLine e ++ rest) E = readLoop e.type rest ⟨E.n + 1, Function.update E.Q E.n e⟩ := by
  have hhead : (recordLine e ++ rest).head?.getD type = e.type := rfl
  have hskip : skipLine (scanTwo (recordLine e ++ rest).tail).2.2 = some rest := by
    rw [scanTwo_recordLine h rest]
    exact if_pos rfl
  conv => lhs; unfold readLoop
  simp only [hhead, if_neg h.type_ne, if_pos hE]
  split
  · rename_i hnone
    exact absurd (hskip.symm.trans hnone) (by simp)
  · rename_i rest' hsome
    obtain rfl := Option.some.inj (hskip.symm.trans hsome)
    rw [scanTwo_recordLine h rest]
    rfl

/-- **The loop stores the records of the file**, as reading them one by one does. -/
theorem readLoop_arrivalText : ∀ (es : List Event) (type : Char) (E : EventQ), (∀ e ∈ es, IsArrival e) →
    E.n + es.length ≤ 128 → readLoop type (arrivalText es) E = some (readEvents es E)
  | [], type, E, _, _ => by
    unfold readLoop
    rfl
  | e :: es, type, E, hes, hlen => by
    have he : IsArrival e := hes e List.mem_cons_self
    rw [List.length_cons] at hlen
    have hsplit : arrivalText (e :: es) = recordLine e ++ arrivalText es := by simp [arrivalText]
    rw [hsplit, readLoop_recordLine he type _ (by omega), readEvents, if_neg he.type_ne]
    refine readLoop_arrivalText es e.type _ (fun e' he' => hes e' (List.mem_cons_of_mem _ he')) ?_
    change E.n + 1 + es.length ≤ 128
    omega

theorem readEvents_stored : ∀ (es : List Event) (E : EventQ), (∀ e ∈ es, e.type ≠ 'E') →
    (readEvents es E).n = E.n + es.length ∧ (∀ i, i < E.n → (readEvents es E).Q i = E.Q i) ∧
      ∀ i (h : i < es.length), (readEvents es E).Q (E.n + i) = es[i]
  | [], E, _ => ⟨rfl, fun i _ => rfl, fun i h => absurd h (Nat.not_lt_zero i)⟩
  | e :: es, E, hes => by
    obtain ⟨hn, hold, hnew⟩ := readEvents_stored es ⟨E.n + 1, Function.update E.Q E.n e⟩
      (fun e' he' => hes e' (List.mem_cons_of_mem _ he'))
    rw [readEvents, if_neg (hes e List.mem_cons_self)]
    refine ⟨?_, fun i hi => ?_, fun i hi => ?_⟩
    · rw [hn, List.length_cons]
      change E.n + 1 + es.length = E.n + (es.length + 1)
      omega
    · rw [hold i (Nat.lt_succ_of_lt hi)]
      exact Function.update_of_ne (Nat.ne_of_lt hi) _ _
    · cases i with
      | zero =>
        exact (hold E.n (Nat.lt_succ_self E.n)).trans (Function.update_self _ _ _)
      | succ i =>
        have hi' : i < es.length := by
          rw [List.length_cons] at hi
          omega
        rw [show E.n + (i + 1) = E.n + 1 + i by omega]
        exact hnew i hi'

theorem takeWhile_arrivals {es : List Event} (hes : ∀ e ∈ es, IsArrival e) :
    es.takeWhile (fun e => e.type ≠ 'E') = es :=
  List.takeWhile_eq_self_iff.2 (fun e he => by simpa using (hes e he).type_ne)

/-- **The arrival file round-trips**: the loop stores the records in order, and `initEQ` returns them as a heap. -/
theorem arrival_roundTrip (es : List Event) (hlen : es.length ≤ 128) (hes : ∀ e ∈ es, IsArrival e) (type : Char)
    (Q : ℕ → Event) :
    (∃ E, readLoop type (arrivalText es) ⟨0, Q⟩ = some E ∧ E.n = es.length ∧ ∀ i (h : i < es.length), E.Q i = es[i]) ∧
    ∃ E, initEQText type (arrivalText es) Q = some E ∧ E.n = es.length ∧ E.contents = ↑es ∧ E.Ordered := by
  have hread : readLoop type (arrivalText es) ⟨0, Q⟩ = some (readEvents es ⟨0, Q⟩) :=
    readLoop_arrivalText es type ⟨0, Q⟩ hes (by simpa using hlen)
  obtain ⟨hn, -, hstored⟩ := readEvents_stored es ⟨0, Q⟩ (fun e he => (hes e he).type_ne)
  rw [Nat.zero_add] at hn
  refine ⟨⟨_, hread, hn, fun i hi => ?_⟩, initEQ es Q, ?_, hn, ?_, ordered_initEQ es Q⟩
  · have h := hstored i hi
    rwa [Nat.zero_add] at h
  · unfold initEQText
    rw [hread]
    rfl
  · rw [contents_initEQ, takeWhile_arrivals hes]

theorem arrival_roundTrip_two :
    (∃ E, readLoop 'E' (arrivalText [⟨'P', -2147483648, 7⟩, ⟨'R', -15, -1⟩]) ⟨0, fun _ => ⟨' ', 0, 0⟩⟩ = some E ∧
      E.n = 2) ∧
    ∃ E, initEQText 'E' (arrivalText [⟨'P', -2147483648, 7⟩, ⟨'R', -15, -1⟩]) (fun _ => ⟨' ', 0, 0⟩) = some E ∧ E.Ordered :=
  have h := arrival_roundTrip [⟨'P', -2147483648, 7⟩, ⟨'R', -15, -1⟩] (by decide)
    (by simp only [List.mem_cons, List.not_mem_nil, or_false, forall_eq_or_imp, forall_eq]; unfold IsArrival; decide)
    'E' (fun _ => ⟨' ', 0, 0⟩)
  ⟨h.1.imp fun _ hE => ⟨hE.1, hE.2.1⟩, h.2.imp fun _ hE => ⟨hE.1, hE.2.2.2⟩⟩

end Session
end OsLab
