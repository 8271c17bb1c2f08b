import HeroOS.Rtc

/-! # The timestamp of `drivers/pit.c`

`rtcTimestamp` reads the clock and counts the seconds since the start of 1970.  It counts the leap
days of the past years by dividing the number of years since 1970, where the calendar divides the number
of the year itself; `timestampLag` is the number of days by which it falls behind
(`RtcTime.timestamp_add_lag`).  The lag is one day in every first year after a leap year, and one more from the
69th year to the end of most centuries.  Since it grows at the end of each leap year, the timestamp then
jumps back by a day (`RtcTime.timestamp_lt_next_iff`). -/

namespace HeroOS

/-- `days_before_month`. -/
def daysBeforeMonth : List UInt32 := [0, 31, 59, 90, 120, 151, 181, 212, 243, 273, 304, 334]

/-- The days of `rtc_timestamp`. -/
def RtcTime.epochDays (t : RtcTime) : UInt32 :=
  let y : UInt32 := t.year.toUInt32 - 1970
  let leapDays := y / 4 - y / 100 + y / 400
  let days := y * 365 + leapDays
  let days := if t.month > 0 && t.month ≤ 12 then days + daysBeforeMonth.getD (t.month.toNat - 1) 0 else days
  let isLeap := t.year % 4 == 0 && (t.year % 100 != 0 || t.year % 400 == 0)
  let days := if isLeap && t.month > 2 then days + 1 else days
  days + (t.day.toUInt32 - 1)

/-- What `rtc_timestamp` makes of a reading. -/
def RtcTime.timestamp (t : RtcTime) : UInt64 :=
  t.epochDays.toUInt64 * 86400 + t.hours.toUInt64 * 3600 + t.minutes.toUInt64 * 60 + t.seconds.toUInt64

/-- `rtc_timestamp`. -/
def rtcTimestamp (fuel : ℕ) (c : Cmos) : Except Halt (UInt64 × Cmos) := do
  let (t, c) ← rtcRead fuel c
  return (t.timestamp, c)

/-- The days by which the timestamps of a year are behind the calendar. -/
def timestampLag (y : ℕ) : ℕ :=
  (if y % 4 = 1 then 1 else 0) + if 69 ≤ (y - 1) % 100 ∧ (y - 1) / 100 % 4 ≠ 3 then 1 else 0

/-! ### The two counts of days -/

/-- The leap days that are counted for the past years. -/
theorem leapDays_add_lag {y : ℕ} (hy : 1970 ≤ y) :
    (y - 1970) / 4 - (y - 1970) / 100 + (y - 1970) / 400 + timestampLag y + Calendar.leapsBefore 1970
      = Calendar.leapsBefore y := by
  obtain ⟨n, rfl⟩ : ∃ n, y = n + 1 := ⟨y - 1, by omega⟩
  -- each quotient of the years since 1970 is that of the year, less one where the remainder borrows
  have h4 : (n + 1 - 1970) / 4 + 492 + (if n % 4 < 1 then 1 else 0) = n / 4 := by
    split_ifs <;> omega
  have h100 : (n + 1 - 1970) / 100 + 19 + (if n % 100 < 69 then 1 else 0) = n / 100 := by
    split_ifs <;> omega
  have h400 : (n + 1 - 1970) / 400 + 4 + (if n % 400 < 369 then 1 else 0) = n / 400 := by
    split_ifs <;> omega
  have hmod : n % 400 = 100 * (n / 100 % 4) + n % 100 := by omega
  have hle : n / 100 ≤ n / 4 := Nat.div_le_div_left (by norm_num) (by norm_num)
  have hyear : (n + 1) % 4 = 1 ↔ n % 4 < 1 := by omega
  rw [hmod] at h400
  simp only [timestampLag, Calendar.leapsBefore, Nat.add_sub_cancel, hyear]
  split_ifs at * <;> omega

/-- The days of the past years are counted without a wrap, and `timestampLag` too few. -/
theorem toNat_pastDays {year : ℕ} {y : UInt32} (hyear : 1970 ≤ year) (hlt : year < 65536)
    (hy : y.toNat = year - 1970) :
    (y * 365 + (y / 4 - y / 100 + y / 400)).toNat + timestampLag year
      = Calendar.daysBeforeYear 1970 year := by
  have hlag := leapDays_add_lag hyear
  have hclosed := Calendar.daysBeforeYear_eq (by norm_num : 1 ≤ 1970) hyear
  have hleap : (y / 4 - y / 100 + y / 400).toNat = y.toNat / 4 - y.toNat / 100 + y.toNat / 400 := by
    rw [UInt32.toNat_add, UInt32.toNat_sub_of_le]
    · simp
      omega
    · simp [UInt32.le_iff_toNat_le]
      omega
  rw [← hy] at hlag
  simp only [UInt32.toNat_add, UInt32.toNat_mul, hleap, UInt32.reduceToNat]
  omega

/-- The table of the days before a month, with the leap day of the year. -/
theorem toNat_daysBeforeMonth {y m : ℕ} (hm : 1 ≤ m) (hm' : m ≤ 12) :
    (daysBeforeMonth.getD (m - 1) 0).toNat + (if Calendar.IsLeap y ∧ 2 < m then 1 else 0)
      = Calendar.daysBeforeMonth y m := by
  unfold Calendar.daysBeforeMonth
  by_cases h : Calendar.IsLeap y
  · interval_cases m <;> simp [daysBeforeMonth, Finset.sum_Ico_succ_top, Calendar.monthLength, h]
  · interval_cases m <;> simp [daysBeforeMonth, Finset.sum_Ico_succ_top, Calendar.monthLength, h]

theorem isLeap_iff (y : UInt16) :
    (y % 4 == 0 && (y % 100 != 0 || y % 400 == 0)) = decide (Calendar.IsLeap y.toNat) := by
  rw [Bool.eq_iff_iff, decide_eq_true_iff]
  simp [Calendar.IsLeap, ← UInt16.toNat_inj]

namespace RtcTime

variable {t t₂ : RtcTime}

/-- The days of a reading are those of the calendar, less the lag of its year. -/
theorem toNat_epochDays (ht : t.dateTime.Valid) (hy : 1970 ≤ t.year.toNat) :
    t.epochDays.toNat + timestampLag t.year.toNat
      = Calendar.daysBeforeYear 1970 t.year.toNat + Calendar.daysBeforeMonth t.year.toNat t.month.toNat
        + (t.day.toNat - 1) := by
  have hlt : t.year.toNat < 65536 := t.year.toNat_lt
  have hday1 : 1 ≤ t.day.toNat := ht.day_pos
  have hm1 : 1 ≤ t.month.toNat := ht.month_pos
  have hm12 : t.month.toNat ≤ 12 := ht.month_le
  have hmonth := toNat_daysBeforeMonth (y := t.year.toNat) hm1 hm12
  have hyn : (t.year.toUInt32 - 1970).toNat = t.year.toNat - 1970 := by
    rw [UInt32.toNat_sub_of_le]
    · simp
    · simpa [UInt32.le_iff_toNat_le] using hy
  have hdn : (t.day.toUInt32 - 1).toNat = t.day.toNat - 1 := by
    rw [UInt32.toNat_sub_of_le]
    · simp
    · simpa [UInt32.le_iff_toNat_le] using hday1
  have hpast := toNat_pastDays hy hlt hyn
  have hmonths : (t.month > 0 && t.month ≤ 12) = true := by
    simpa [UInt8.le_iff_toNat_le, UInt8.lt_iff_toNat_lt] using And.intro (Nat.pos_of_ne_zero (by omega)) hm12
  have hfeb : t.month > 2 ↔ 2 < t.month.toNat := UInt8.lt_iff_toNat_lt
  -- no sum wraps
  have hpast' : Calendar.daysBeforeYear 1970 t.year.toNat < 2 ^ 31 := by
    have hclosed := Calendar.daysBeforeYear_eq (by norm_num : 1 ≤ 1970) hy
    unfold Calendar.leapsBefore at hclosed
    omega
  have hmonth' := Calendar.daysBeforeMonth_le t.year.toNat hm12
  have hday : t.day.toNat < 256 := t.day.toNat_lt
  unfold epochDays
  simp only [isLeap_iff, hmonths, hfeb, ↓reduceIte, Bool.and_eq_true, decide_eq_true_eq]
  split_ifs at hmonth ⊢
  · simp only [UInt32.toNat_add _ (t.day.toUInt32 - 1), UInt32.toNat_add _ 1,
      UInt32.toNat_add _ (daysBeforeMonth.getD _ _), UInt32.reduceToNat]
    omega
  · simp only [UInt32.toNat_add _ (t.day.toUInt32 - 1), UInt32.toNat_add _ (daysBeforeMonth.getD _ _)]
    omega

/-- The timestamp is behind the calendar by the lag of its year. -/
theorem timestamp_add_lag (ht : t.dateTime.Valid) (hy : 1970 ≤ t.year.toNat) :
    t.timestamp.toNat + timestampLag t.year.toNat * 86400 = t.dateTime.secondsSince 1970 := by
  have hdays := toNat_epochDays ht hy
  have hd : t.epochDays.toNat < 2 ^ 32 := t.epochDays.toNat_lt
  have hh : t.hours.toNat < 256 := t.hours.toNat_lt
  have hm : t.minutes.toNat < 256 := t.minutes.toNat_lt
  have hs : t.seconds.toNat < 256 := t.seconds.toNat_lt
  have hsum : t.timestamp.toNat
      = t.epochDays.toNat * 86400 + t.hours.toNat * 3600 + t.minutes.toNat * 60 + t.seconds.toNat := by
    unfold timestamp
    simp only [UInt64.toNat_add, UInt64.toNat_mul, UInt32.toNat_toUInt64, UInt8.toNat_toUInt64,
      UInt64.reduceToNat]
    omega
  rw [hsum, Calendar.DateTime.secondsSince]
  simp only [dateTime]
  omega

/-- The timestamp is the number of seconds since 1970 in the years without a lag. -/
theorem timestamp_eq_iff (ht : t.dateTime.Valid) (hy : 1970 ≤ t.year.toNat) :
    t.timestamp.toNat = t.dateTime.secondsSince 1970 ↔
      t.year.toNat % 4 ≠ 1 ∧ ((t.year.toNat - 1) % 100 < 69 ∨ (t.year.toNat - 1) / 100 % 4 = 3) := by
  have h := timestamp_add_lag ht hy
  have hlag : t.timestamp.toNat = t.dateTime.secondsSince 1970 ↔ timestampLag t.year.toNat = 0 := by omega
  rw [hlag, timestampLag]
  simp only [Nat.add_eq_zero_iff, ite_eq_right_iff, one_ne_zero, imp_false, ne_eq, not_and, not_not]
  refine and_congr_right fun _ => ?_
  rw [← not_le, or_iff_not_imp_left, not_not]

/-- The lag grows from a leap year to the next year and at no other time. -/
theorem timestampLag_succ_le_iff {y : ℕ} (hy : 1 ≤ y) :
    timestampLag (y + 1) ≤ timestampLag y ↔ ¬ Calendar.IsLeap y := by
  unfold timestampLag Calendar.IsLeap
  split_ifs <;> omega

/-- From one second to the next the timestamp grows, except at the end of a leap year. -/
theorem timestamp_lt_next_iff (ht : t.dateTime.Valid) (hy : 1970 ≤ t.year.toNat)
    (hnext : t₂.dateTime = t.dateTime.next) :
    t.timestamp < t₂.timestamp ↔ ¬ (Calendar.IsLeap t.year.toNat ∧ t.dateTime.next.year ≠ t.year.toNat) := by
  have hyear : t₂.year.toNat = t.dateTime.next.year := congrArg Calendar.DateTime.year hnext
  have hcases : t.dateTime.next.year = t.year.toNat ∨ t.dateTime.next.year = t.year.toNat + 1 :=
    t.dateTime.next_year
  have h1 := timestamp_add_lag ht hy
  have h2 := timestamp_add_lag (t := t₂) (hnext ▸ ht.next) (by omega)
  rw [hnext, Calendar.DateTime.secondsSince_next ht hy, ← h1] at h2
  rw [UInt64.lt_iff_toNat_lt]
  obtain hsame | hlater := hcases
  · rw [hyear, hsame] at h2
    simp only [hsame, ne_eq, not_true_eq_false, and_false, not_false_eq_true, iff_true]
    omega
  · have hiff := timestampLag_succ_le_iff (y := t.year.toNat) (by omega)
    rw [hyear, hlater] at h2
    have hne : t.dateTime.next.year ≠ t.year.toNat := by omega
    simp only [hne, and_true, ne_eq, not_false_eq_true]
    rw [← hiff]
    omega

end RtcTime

/-! ### The timestamp of a clock -/

/-- `rtc_timestamp`, for a valid reading from 1970 on, returns; what it returns is the number of seconds since
the start of 1970 exactly in the years without a lag, and it is less than what the next second
gives exactly if that second does not start the year after a leap year. -/
theorem rtcTimestamp_eq_iff {fuel : ℕ} {c c' : Cmos} {t : RtcTime} (hr : rtcRead fuel c = .ok (t, c'))
    (ht : t.dateTime.Valid) (hy : 1970 ≤ t.year.toNat) :
    ∃ s, rtcTimestamp fuel c = .ok (s, c') ∧
      (s.toNat = t.dateTime.secondsSince 1970 ↔
        t.year.toNat % 4 ≠ 1 ∧ ((t.year.toNat - 1) % 100 < 69 ∨ (t.year.toNat - 1) / 100 % 4 = 3)) ∧
      ∀ fuel₂ c₂ c₂' t₂, rtcRead fuel₂ c₂ = .ok (t₂, c₂') → t₂.dateTime = t.dateTime.next →
        ∃ s₂, rtcTimestamp fuel₂ c₂ = .ok (s₂, c₂') ∧
          (s < s₂ ↔ ¬ (Calendar.IsLeap t.year.toNat ∧ t.dateTime.next.year ≠ t.year.toNat)) := by
  refine ⟨t.timestamp, by rw [rtcTimestamp, hr]; rfl, RtcTime.timestamp_eq_iff ht hy, ?_⟩
  intro fuel₂ c₂ c₂' t₂ hr₂ hnext
  exact ⟨t₂.timestamp, by rw [rtcTimestamp, hr₂]; rfl, RtcTime.timestamp_lt_next_iff ht hy hnext⟩

/-- Noon and after on the 29th of February 2024. -/
theorem rtcTimestamp_eq_iff_leapDay :
    ∃ s, rtcTimestamp 1 (.still (RtcFormat.image ⟨false, true⟩ (leapDayAt 12)))
        = .ok (s, ⟨fun _ => RtcFormat.image ⟨false, true⟩ (leapDayAt 12), 0x32, 10⟩) ∧
      (s.toNat = (leapDayAt 12).dateTime.secondsSince 1970 ↔
        (leapDayAt 12).year.toNat % 4 ≠ 1 ∧
          (((leapDayAt 12).year.toNat - 1) % 100 < 69 ∨ ((leapDayAt 12).year.toNat - 1) / 100 % 4 = 3)) ∧
      ∀ fuel₂ c₂ c₂' t₂, rtcRead fuel₂ c₂ = .ok (t₂, c₂') →
        t₂.dateTime = (leapDayAt 12).dateTime.next →
        ∃ s₂, rtcTimestamp fuel₂ c₂ = .ok (s₂, c₂') ∧
          (s < s₂ ↔ ¬ (Calendar.IsLeap (leapDayAt 12).year.toNat ∧
            (leapDayAt 12).dateTime.next.year ≠ (leapDayAt 12).year.toNat)) :=
  rtcTimestamp_eq_iff (by rfl) (leapDayAt_valid (by decide)).dateTime (by decide)

/-- The first second of 1973, as BCD with twenty-four hours: the timestamp is that of a day before, and
less than that of the second before. -/
theorem rtcTimestamp_new_year :
    (⟨1972, 12, 31, 23, 59, 59⟩ : Calendar.DateTime).next = ⟨1973, 1, 1, 0, 0, 0⟩ ∧
    (⟨1973, 1, 1, 0, 0, 0⟩ : Calendar.DateTime).secondsSince 1970 = 94694400 ∧
    (rtcTimestamp 1 (.still (RtcFormat.image ⟨false, true⟩ ⟨59, 59, 23, 31, 12, 1972, 1⟩))).toOption.map Prod.fst
      = some 94694399 ∧
    (rtcRead 1 (.still (RtcFormat.image ⟨false, true⟩ ⟨0, 0, 0, 1, 1, 1973, 2⟩))).toOption.map Prod.fst
      = some ⟨0, 0, 0, 1, 1, 1973, 2⟩ ∧
    (rtcTimestamp 1 (.still (RtcFormat.image ⟨false, true⟩ ⟨0, 0, 0, 1, 1, 1973, 2⟩))).toOption.map Prod.fst
      = some 94608000 := by
  refine ⟨?_, ?_, ?_, ?_, ?_⟩ <;> decide +kernel

end HeroOS
