import OsLab.DecimalText
/-!
# SessionClock — the clock of the session's lines

`format_time` of session.c: minutes since nine in the morning, perhaps negative, as `hh:mmam` or `hh:mmpm`.  Times before
nine go another way through the code, with truncating divisions and a rounded-up number of days to roll back; both ways
come to the minute of the day (`hourMin_eq`).
-/
namespace OsLab
namespace Session

open DecimalText

/-- Lines 45 to 48, from nine on. -/
def hourMinAfter (minutes : ℤ) : ℤ × ℤ := ((int32 (9 + minutes.tdiv 60)).tmod 24, minutes.tmod 60)

/-- Lines 51 to 58, before nine: an hour too far back, unless the hour is full. -/
def hourMinBefore (minutes : ℤ) : ℤ × ℤ :=
  let min := int32 (60 - (int32 (-minutes)).tmod 60)
  let hr := int32 (int32 (9 - (int32 (-minutes)).tdiv 60) - 1)
  if min = 60 then (int32 (hr + 1), 0) else (hr, min)

/-- Lines 60 to 63: the days to roll back, rounded up. -/
def rollBack (hr : ℤ) : ℤ :=
  if hr < 0 then
    let n := (int32 (int32 (int32 (-hr) + 24) - 1)).tdiv 24
    (int32 (hr + int32 (24 * n))).tmod 24
  else hr

def hourMin (minutes : ℤ) : ℤ × ℤ :=
  if minutes ≥ 0 then hourMinAfter minutes
  else
    let r := hourMinBefore minutes
    (rollBack r.1, r.2)

def period (hr : ℤ) : List Char := if hr ≥ 12 then ['p', 'm'] else ['a', 'm']

/-- The hour of the twelve, with 12 for 0. -/
def hour12 (hr : ℤ) : ℤ :=
  let hr := if hr ≥ 12 then int32 (hr - 12) else hr
  if hr = 0 then 12 else hr

/-- The arguments of `sprintf`. -/
def timeFields (minutes : ℤ) : ℤ × ℤ × List Char :=
  let r := hourMin minutes
  (hour12 r.1, r.2, period r.1)

/-- What `sprintf` writes, before the terminator. -/
def formatTime (minutes : ℤ) : List Char :=
  let r := timeFields minutes
  text2 r.1 ++ ':' :: (text2 r.2.1 ++ r.2.2)

/-! ### The clock -/

/-- The minute of the day, nine in the morning being minute 540. -/
def minuteOfDay (minutes : ℤ) : ℕ := ((540 + minutes) % 1440).toNat

def clockHour (d : ℕ) : ℕ := if d / 60 % 12 = 0 then 12 else d / 60 % 12

/-- A minute of the day on a 12-hour clock. -/
def clockText (d : ℕ) : List Char :=
  let hour := clockHour d
  let minute := d % 60
  [Nat.digitChar (hour / 10), Nat.digitChar (hour % 10), ':', Nat.digitChar (minute / 10), Nat.digitChar (minute % 10)] ++
    if d < 720 then ['a', 'm'] else ['p', 'm']

theorem clockHour_range (d : ℕ) : 1 ≤ clockHour d ∧ clockHour d ≤ 12 := by
  unfold clockHour
  split <;> omega

theorem minuteOfDay_lt (minutes : ℤ) : minuteOfDay minutes < 1440 := by
  unfold minuteOfDay
  omega

theorem minuteOfDay_eq_iff (a b : ℤ) : minuteOfDay a = minuteOfDay b ↔ (1440 : ℤ) ∣ a - b := by
  unfold minuteOfDay
  omega

/-- **The clock tells the minute of the day.** -/
theorem clockText_inj {d d' : ℕ} (hd : d < 1440) (hd' : d' < 1440) (h : clockText d = clockText d') : d = d' := by
  have hhour := clockHour_range d
  have hhour' := clockHour_range d'
  unfold clockText at h
  simp only [List.cons_append, List.nil_append, List.cons.injEq, true_and] at h
  obtain ⟨h1, h2, h3, h4, hperiod⟩ := h
  have htens := digitChar_inj (by omega) (by omega) h1
  have hones := digitChar_inj (by omega) (by omega) h2
  have hmtens := digitChar_inj (by omega) (by omega) h3
  have hmones := digitChar_inj (by omega) (by omega) h4
  have hhours : clockHour d = clockHour d' := by omega
  have hhalf : d < 720 ↔ d' < 720 := by
    by_cases hd0 : d < 720 <;> by_cases hd1 : d' < 720 <;> simp [hd0, hd1] at hperiod ⊢
  unfold clockHour at hhours
  split at hhours <;> split at hhours <;> omega

/-! ### The two ways through the code -/

theorem int32_eq {x : ℤ} (hlo : -2 ^ 31 ≤ x) (hhi : x < 2 ^ 31) : int32 x = x := int32_of_isInt ⟨hlo, hhi⟩

theorem hourMinAfter_eq {minutes : ℤ} (h0 : 0 ≤ minutes) (hhi : minutes < 2 ^ 31) :
    hourMinAfter minutes = (((540 + minutes) % 1440) / 60, ((540 + minutes) % 1440) % 60) := by
  unfold hourMinAfter
  rw [Int.tdiv_eq_ediv_of_nonneg h0, Int.tmod_eq_emod_of_nonneg h0, int32_eq (by omega) (by omega),
    Int.tmod_eq_emod_of_nonneg (by omega)]
  ext
  · change (9 + minutes / 60) % 24 = (540 + minutes) % 1440 / 60
    omega
  · change minutes % 60 = (540 + minutes) % 1440 % 60
    omega

/-- Before nine the hour is the right one up to whole days, and the minute is right. -/
theorem hourMinBefore_eq {minutes : ℤ} (h0 : minutes < 0) (hlo : -2 ^ 31 < minutes) :
    hourMinBefore minutes = ((540 + minutes) / 60, (540 + minutes) % 60) := by
  have hneg : int32 (-minutes) = -minutes := int32_eq (by omega) (by omega)
  unfold hourMinBefore
  simp only [hneg]
  rw [Int.tdiv_eq_ediv_of_nonneg (show 0 ≤ -minutes by omega), Int.tmod_eq_emod_of_nonneg (show 0 ≤ -minutes by omega),
    int32_eq (x := 60 - -minutes % 60) (by omega) (by omega), int32_eq (x := 9 - -minutes / 60) (by omega) (by omega),
    int32_eq (x := 9 - -minutes / 60 - 1) (by omega) (by omega)]
  split
  · rw [int32_eq (by omega) (by omega)]
    ext
    · change 9 - -minutes / 60 - 1 + 1 = (540 + minutes) / 60
      omega
    · change (0 : ℤ) = (540 + minutes) % 60
      omega
  · ext
    · change 9 - -minutes / 60 - 1 = (540 + minutes) / 60
      omega
    · change 60 - -minutes % 60 = (540 + minutes) % 60
      omega

theorem rollBack_eq {hr : ℤ} (hlo : -2 ^ 30 < hr) (hhi : hr < 24) : rollBack hr = hr % 24 := by
  unfold rollBack
  split
  · simp only
    rw [int32_eq (x := -hr) (by omega) (by omega), int32_eq (x := -hr + 24) (by omega) (by omega),
      int32_eq (x := -hr + 24 - 1) (by omega) (by omega), Int.tdiv_eq_ediv_of_nonneg (by omega),
      int32_eq (x := 24 * _) (by omega) (by omega), int32_eq (by omega) (by omega),
      Int.tmod_eq_emod_of_nonneg (by omega)]
    omega
  · omega

/-- **Hour and minute are those of the minute of the day**, before nine as well as after. -/
theorem hourMin_eq {minutes : ℤ} (hlo : -2 ^ 31 < minutes) (hhi : minutes < 2 ^ 31) :
    hourMin minutes = (((minuteOfDay minutes / 60 : ℕ) : ℤ), ((minuteOfDay minutes % 60 : ℕ) : ℤ)) := by
  have hday : ((minuteOfDay minutes : ℕ) : ℤ) = (540 + minutes) % 1440 := by
    unfold minuteOfDay
    omega
  rw [Int.natCast_ediv, Int.natCast_emod, hday]
  unfold hourMin
  split
  · rename_i h0
    exact hourMinAfter_eq h0 hhi
  · rename_i h0
    simp only [hourMinBefore_eq (by omega) hlo]
    rw [rollBack_eq (by omega) (by omega)]
    ext
    · change (540 + minutes) / 60 % 24 = (540 + minutes) % 1440 / 60
      omega
    · change (540 + minutes) % 60 = (540 + minutes) % 1440 % 60
      omega

theorem hour12_eq {d : ℕ} (hd : d < 1440) : hour12 ((d / 60 : ℕ) : ℤ) = clockHour d := by
  unfold hour12 clockHour
  by_cases hpm : ((d / 60 : ℕ) : ℤ) ≥ 12
  · simp only [if_pos hpm]
    rw [int32_eq (by omega) (by omega)]
    split <;> split <;> omega
  · simp only [if_neg hpm]
    split <;> split <;> omega

theorem period_eq (d : ℕ) : period ((d / 60 : ℕ) : ℤ) = if d < 720 then ['a', 'm'] else ['p', 'm'] := by
  unfold period
  by_cases hhalf : d < 720
  · rw [if_neg (by omega), if_pos hhalf]
  · rw [if_pos (by omega), if_neg hhalf]

theorem timeFields_eq {minutes : ℤ} (hlo : -2 ^ 31 < minutes) (hhi : minutes < 2 ^ 31) :
    timeFields minutes = ((clockHour (minuteOfDay minutes) : ℤ), ((minuteOfDay minutes % 60 : ℕ) : ℤ),
      if minuteOfDay minutes < 720 then ['a', 'm'] else ['p', 'm']) := by
  unfold timeFields
  simp only [hourMin_eq hlo hhi, hour12_eq (minuteOfDay_lt minutes), period_eq]

theorem formatTime_eq {minutes : ℤ} (hlo : -2 ^ 31 < minutes) (hhi : minutes < 2 ^ 31) :
    formatTime minutes = clockText (minuteOfDay minutes) := by
  have hhour := clockHour_range (minuteOfDay minutes)
  unfold formatTime
  simp only [timeFields_eq hlo hhi]
  rw [text2_of_lt (by omega), text2_of_lt (by omega)]
  rfl

/-- **`format_time` writes the 12-hour clock**, for every `int` but the least: the fields are a clock's, the text and its
terminator fit in ten bytes, and two times read alike exactly when whole days lie between them. -/
theorem format_time_clock (minutes : ℤ) (hlo : -2 ^ 31 < minutes) (hhi : minutes < 2 ^ 31) :
    formatTime minutes = clockText (minuteOfDay minutes) ∧
    (0 ≤ (timeFields minutes).2.1 ∧ (timeFields minutes).2.1 ≤ 59) ∧
    (1 ≤ (timeFields minutes).1 ∧ (timeFields minutes).1 ≤ 12) ∧
    (formatTime minutes).length + 1 ≤ 10 ∧
    ∀ other : ℤ, -2 ^ 31 < other → other < 2 ^ 31 →
      (formatTime minutes = formatTime other ↔ (1440 : ℤ) ∣ minutes - other) := by
  have hhour := clockHour_range (minuteOfDay minutes)
  refine ⟨formatTime_eq hlo hhi, ?_, ?_, ?_, fun other hlo' hhi' => ?_⟩
  · rw [timeFields_eq hlo hhi]
    change 0 ≤ ((minuteOfDay minutes % 60 : ℕ) : ℤ) ∧ ((minuteOfDay minutes % 60 : ℕ) : ℤ) ≤ 59
    omega
  · rw [timeFields_eq hlo hhi]
    change 1 ≤ (clockHour (minuteOfDay minutes) : ℤ) ∧ (clockHour (minuteOfDay minutes) : ℤ) ≤ 12
    omega
  · rw [formatTime_eq hlo hhi]
    unfold clockText
    split <;> simp
  · rw [formatTime_eq hlo hhi, formatTime_eq hlo' hhi', ← minuteOfDay_eq_iff]
    exact ⟨clockText_inj (minuteOfDay_lt _) (minuteOfDay_lt _), congrArg clockText⟩

theorem format_time_clock_lateEvening : -2 ^ 31 < (-1981 : ℤ) ∧ (-1981 : ℤ) < 2 ^ 31 ∧
    formatTime (-1981) = ['1', '1', ':', '5', '9', 'p', 'm'] ∧ formatTime (-1981) = formatTime (-541) :=
  ⟨by decide, by decide, (format_time_clock (-1981) (by decide) (by decide)).1,
    ((format_time_clock (-1981) (by decide) (by decide)).2.2.2.2 (-541) (by decide) (by decide)).2 (by decide)⟩

end Session
end OsLab
