import Fs3.Runtime.Time

/-! # The difference of two dates

`DATE_DIFF` orders its timestamps as instants and then reads the calendar of each in its own zone,
or divides the time between them. -/

namespace Fs3.Select

inductive TimePart where
  | year
  | month
  | day
  | hour
  | minute
  | second
  deriving DecidableEq

/-- `time.Time` with the offset of its zone, both in nanoseconds. -/
structure Timestamp where
  instant : Int
  offset : Int
  deriving DecidableEq

/-- A calendar date: year, month and day. -/
abbrev CivilDate := Int × Int × Int

namespace Timestamp

def dayNumber (ts : Timestamp) : Int := (ts.instant + ts.offset) / Time.day

/-- `Time.Date` -/
def date (ts : Timestamp) : CivilDate := Civil.ofDays ts.dayNumber

end Timestamp

def maxDuration : Int := 2 ^ 63 - 1

/-- `Time.Sub` of an earlier time, which saturates. -/
def timeSub (ts2 ts1 : Timestamp) : Int :=
  if maxDuration < ts2.instant - ts1.instant then maxDuration else ts2.instant - ts1.instant

def minute : Int := 60 * Time.second

def orderedDiff (timePart : TimePart) (ts1 ts2 : Timestamp) : Int :=
  let duration := timeSub ts2 ts1
  let (y1, m1, d1) := ts1.date
  let (y2, m2, d2) := ts2.date
  match timePart with
  | .year => if m1 < m2 ∨ m2 = m1 ∧ d1 ≤ d2 then y2 - y1 else y2 - y1 - 1
  | .month => m2 + 12 * y2 - (m1 + 12 * y1)
  | .day => duration.tdiv Time.day
  | .hour => duration.tdiv Time.hour
  | .minute => duration.tdiv minute
  | .second => duration.tdiv Time.second

def dateDiff (timePart : TimePart) (ts1 ts2 : Timestamp) : Int :=
  if ts2.instant < ts1.instant then -orderedDiff timePart ts2 ts1
  else orderedDiff timePart ts1 ts2

/-! ## What is between two timestamps -/

/-- A month and a day of it come before others. -/
abbrev earlierInYear (d1 d2 : CivilDate) : Prop :=
  d1.2.1 < d2.2.1 ∨ d1.2.1 = d2.2.1 ∧ d1.2.2 < d2.2.2

abbrev earlier (d1 d2 : CivilDate) : Prop := d1.1 < d2.1 ∨ d1.1 = d2.1 ∧ earlierInYear d1 d2

def wholeYears (d1 d2 : CivilDate) : Int :=
  d2.1 - d1.1 - if earlierInYear d2 d1 then 1 else 0

def wholeMonths (d1 d2 : CivilDate) : Int :=
  12 * (d2.1 - d1.1) + (d2.2.1 - d1.2.1) - if d2.2.2 < d1.2.2 then 1 else 0

/-- A count from the earlier to the later date, negative if the second is the earlier one. -/
def signed (count : CivilDate → CivilDate → Int) (d1 d2 : CivilDate) : Int :=
  if earlier d2 d1 then -count d2 d1 else count d1 d2

/-- Whole years, months and days between the dates, and the time between the instants. -/
def between (timePart : TimePart) (ts1 ts2 : Timestamp) : Int :=
  match timePart with
  | .year => signed wholeYears ts1.date ts2.date
  | .month => signed wholeMonths ts1.date ts2.date
  | .day => ts2.dayNumber - ts1.dayNumber
  | .hour => (ts2.instant - ts1.instant).tdiv Time.hour
  | .minute => (ts2.instant - ts1.instant).tdiv minute
  | .second => (ts2.instant - ts1.instant).tdiv Time.second

/-- The difference is right, both ways round. -/
structure Exact (timePart : TimePart) (ts1 ts2 : Timestamp) : Prop where
  forth : dateDiff timePart ts1 ts2 = between timePart ts1 ts2
  back : dateDiff timePart ts2 ts1 = -between timePart ts1 ts2

/-- What is needed of two timestamps in order: dates in the same order or on the same day of the
year; no month that is begun but not over; as many times 24 hours as days, saturated or not; no
unit beyond the longest duration. -/
def Suits (timePart : TimePart) (ts1 ts2 : Timestamp) : Prop :=
  match timePart with
  | .year => earlier ts2.date ts1.date → ts1.date.2 = ts2.date.2
  | .month =>
    if earlier ts2.date ts1.date then ts2.date.2.2 ≤ ts1.date.2.2
    else ts1.date.2.2 ≤ ts2.date.2.2
  | .day =>
    Time.day * (ts2.dayNumber - ts1.dayNumber) ≤ timeSub ts2 ts1 ∧
      timeSub ts2 ts1 < Time.day * (ts2.dayNumber - ts1.dayNumber + 1)
  | .hour => ts2.instant - ts1.instant < Time.hour * (maxDuration / Time.hour + 1)
  | .minute => ts2.instant - ts1.instant < minute * (maxDuration / minute + 1)
  | .second => ts2.instant - ts1.instant < Time.second * (maxDuration / Time.second + 1)

theorem signed_swap {count : CivilDate → CivilDate → Int} (hself : ∀ d, count d d = 0)
    (d1 d2 : CivilDate) : signed count d2 d1 = -signed count d1 d2 := by
  obtain ⟨y1, m1, day1⟩ := d1
  obtain ⟨y2, m2, day2⟩ := d2
  unfold signed
  by_cases h12 : earlier (y1, m1, day1) (y2, m2, day2)
  · have h21 : ¬ earlier (y2, m2, day2) (y1, m1, day1) := by
      simp only [earlier, earlierInYear] at h12 ⊢
      omega
    rw [if_pos h12, if_neg h21]
  · by_cases h21 : earlier (y2, m2, day2) (y1, m1, day1)
    · rw [if_neg h12, if_pos h21, Int.neg_neg]
    · have hsame : (y1, m1, day1) = (y2, m2, day2) := by
        simp only [earlier, earlierInYear] at h12 h21
        simp only [Prod.mk.injEq]
        omega
      rw [if_neg h12, if_neg h21, hsame, hself, Int.neg_zero]

theorem between_swap (timePart : TimePart) (ts1 ts2 : Timestamp) :
    between timePart ts2 ts1 = -between timePart ts1 ts2 := by
  have hswap : ts1.instant - ts2.instant = -(ts2.instant - ts1.instant) := by omega
  cases timePart with
  | year => exact signed_swap (fun d => by simp [wholeYears, earlierInYear]) _ _
  | month => exact signed_swap (fun d => by simp [wholeMonths]) _ _
  | day =>
    simp only [between]
    omega
  | hour | minute | second => simp only [between, hswap, Int.neg_tdiv]

/-- A quotient is what it would be without the bound as long as the unit that is begun fits. -/
theorem timeSub_tdiv_iff {ts1 ts2 : Timestamp} (horder : ts1.instant ≤ ts2.instant) {unit : Int}
    (hunit : 0 < unit) :
    (timeSub ts2 ts1).tdiv unit = (ts2.instant - ts1.instant).tdiv unit ↔
      ts2.instant - ts1.instant < unit * (maxDuration / unit + 1) := by
  have hmax : 0 ≤ maxDuration := by decide
  rw [Int.mul_comm, ← Int.ediv_lt_iff_lt_mul hunit, Int.lt_add_one_iff,
    Int.tdiv_eq_ediv_of_nonneg (show 0 ≤ ts2.instant - ts1.instant by omega)]
  unfold timeSub
  split
  next hmore =>
    rw [Int.tdiv_eq_ediv_of_nonneg hmax]
    exact ⟨fun heq => Int.le_of_eq heq.symm, Int.le_antisymm (Int.ediv_le_ediv hunit (Int.le_of_lt hmore))⟩
  next hless =>
    rw [Int.tdiv_eq_ediv_of_nonneg (by omega)]
    exact iff_of_true rfl (Int.ediv_le_ediv hunit (Int.not_lt.mp hless))

theorem orderedDiff_iff (timePart : TimePart) {ts1 ts2 : Timestamp}
    (horder : ts1.instant ≤ ts2.instant) :
    orderedDiff timePart ts1 ts2 = between timePart ts1 ts2 ↔ Suits timePart ts1 ts2 := by
  cases timePart with
  | year =>
    simp only [orderedDiff, between, Suits]
    generalize ts1.date = date1
    generalize ts2.date = date2
    obtain ⟨y1, m1, d1⟩ := date1
    obtain ⟨y2, m2, d2⟩ := date2
    simp only [signed, wholeYears, earlier, earlierInYear, Prod.mk.injEq]
    split <;> split <;> split <;> omega
  | month =>
    simp only [orderedDiff, between, Suits]
    generalize ts1.date = date1
    generalize ts2.date = date2
    obtain ⟨y1, m1, d1⟩ := date1
    obtain ⟨y2, m2, d2⟩ := date2
    simp only [signed, wholeMonths, earlier, earlierInYear]
    split <;> split <;> omega
  | day =>
    have hpos : 0 ≤ timeSub ts2 ts1 := by
      unfold timeSub maxDuration
      split <;> omega
    simp only [orderedDiff, between, Suits]
    rw [Int.tdiv_eq_ediv_of_nonneg hpos]
    rw [Int.ediv_eq_iff_of_pos (by decide), Int.mul_add, Int.mul_one,
      Int.mul_comm Time.day]
  | hour | minute | second => exact timeSub_tdiv_iff horder (by decide)

/-- `DATE_DIFF` is right both ways round for the timestamps that suit it in their order, and for
no others. -/
theorem dateDiff_exact_iff (timePart : TimePart) (ts1 ts2 : Timestamp) :
    Exact timePart ts1 ts2 ↔ (ts1.instant ≤ ts2.instant → Suits timePart ts1 ts2) ∧
      (ts2.instant ≤ ts1.instant → Suits timePart ts2 ts1) := by
  have hiff : Exact timePart ts1 ts2 ↔
      dateDiff timePart ts1 ts2 = between timePart ts1 ts2 ∧
        dateDiff timePart ts2 ts1 = between timePart ts2 ts1 := by
    rw [between_swap timePart ts1 ts2]
    exact ⟨fun h => ⟨h.forth, h.back⟩, fun h => ⟨h.1, h.2⟩⟩
  rw [hiff]
  unfold dateDiff
  rcases Int.lt_trichotomy ts1.instant ts2.instant with hless | heq | hmore
  · have hle := Int.le_of_lt hless
    rw [if_neg (Int.not_lt.mpr hle), if_pos hless, between_swap timePart ts1 ts2, Int.neg_inj,
      and_self, orderedDiff_iff timePart hle]
    exact ⟨fun h => ⟨fun _ => h, fun h' => absurd h' (Int.not_le.mpr hless)⟩, fun h => h.1 hle⟩
  · have hle := Int.le_of_eq heq
    have hge := Int.le_of_eq heq.symm
    rw [if_neg (Int.not_lt.mpr hle), if_neg (Int.not_lt.mpr hge), orderedDiff_iff timePart hle,
      orderedDiff_iff timePart hge]
    exact ⟨fun h => ⟨fun _ => h.1, fun _ => h.2⟩, fun h => ⟨h.1 hle, h.2 hge⟩⟩
  · have hle := Int.le_of_lt hmore
    rw [if_pos hmore, if_neg (Int.not_lt.mpr hle), between_swap timePart ts2 ts1, Int.neg_inj,
      and_self, orderedDiff_iff timePart hle]
    exact ⟨fun h => ⟨fun h' => absurd h' (Int.not_le.mpr hmore), fun _ => h⟩, fun h => h.2 hle⟩

/-- Two hours over midnight are no day, although the dates are one day apart. -/
theorem overMidnight_not_exact :
    ¬ ∀ timePart ts1 ts2, Exact timePart ts1 ts2 := by
  intro hall
  have hforth := (hall .day ⟨23 * Time.hour, 0⟩ ⟨25 * Time.hour, 0⟩).forth
  exact absurd hforth (by decide)

end Fs3.Select
