import Mathlib

/-! # The Gregorian calendar

Years, months and days are natural numbers; the calendar is extended back before its
introduction by its own rule.  `daysBeforeYear e y` counts the days between the first of January of two
years by adding up the years in between, and `daysBeforeYear_eq` is the usual closed form
with divisions by `4`, `100` and `400`.

`DateTime.next` is the second after a date and time; by `DateTime.secondsSince_next` the
count of seconds grows by one from each to the next, across every end of a month or a year. -/

namespace HeroOS.Calendar

/-- The leap years. -/
def IsLeap (y : ℕ) : Prop := y % 4 = 0 ∧ (y % 100 ≠ 0 ∨ y % 400 = 0)

instance : DecidablePred IsLeap := fun _ => inferInstanceAs (Decidable (_ ∧ _))

/-- Number of days of month `m` of year `y`. -/
def monthLength (y m : ℕ) : ℕ :=
  if m = 2 then (if IsLeap y then 29 else 28)
  else if m = 4 ∨ m = 6 ∨ m = 9 ∨ m = 11 then 30
  else 31

/-- Number of days of year `y`. -/
def yearLength (y : ℕ) : ℕ := if IsLeap y then 366 else 365

/-- Days of year `y` before its month `m`. -/
def daysBeforeMonth (y m : ℕ) : ℕ := ∑ i ∈ Finset.Ico 1 m, monthLength y i

/-- Days from the start of year `e` to the start of year `y`. -/
def daysBeforeYear (e y : ℕ) : ℕ := ∑ i ∈ Finset.Ico e y, yearLength i

/-! ### Days of months and years -/

theorem monthLength_le (y m : ℕ) : monthLength y m ≤ 31 := by
  unfold monthLength
  split_ifs <;> omega

theorem monthLength_pos (y m : ℕ) : 1 ≤ monthLength y m := by
  unfold monthLength
  split_ifs <;> omega

theorem daysBeforeMonth_succ {m : ℕ} (y : ℕ) (hm : 1 ≤ m) :
    daysBeforeMonth y (m + 1) = daysBeforeMonth y m + monthLength y m :=
  Finset.sum_Ico_succ_top hm _

theorem daysBeforeYear_succ {e y : ℕ} (h : e ≤ y) :
    daysBeforeYear e (y + 1) = daysBeforeYear e y + yearLength y :=
  Finset.sum_Ico_succ_top h _

/-- The months fill the year. -/
theorem daysBeforeMonth_twelve (y : ℕ) : daysBeforeMonth y 12 + monthLength y 12 = yearLength y := by
  unfold daysBeforeMonth yearLength
  by_cases h : IsLeap y
  · simp [Finset.sum_Ico_succ_top, monthLength, h]
  · simp [Finset.sum_Ico_succ_top, monthLength, h]

theorem daysBeforeMonth_le {m : ℕ} (y : ℕ) (hm : m ≤ 12) : daysBeforeMonth y m ≤ 366 := by
  have hsub : Finset.Ico 1 m ⊆ Finset.Ico 1 12 := Finset.Ico_subset_Ico_right hm
  have hle : daysBeforeMonth y m ≤ daysBeforeMonth y 12 := Finset.sum_le_sum_of_subset hsub
  have hfull := daysBeforeMonth_twelve y
  unfold yearLength at hfull
  split_ifs at hfull <;> omega

/-- Number of leap years in the years `1` to `y - 1`. -/
def leapsBefore (y : ℕ) : ℕ := (y - 1) / 4 - (y - 1) / 100 + (y - 1) / 400

theorem leapsBefore_succ {y : ℕ} (hy : 1 ≤ y) :
    leapsBefore (y + 1) = leapsBefore y + if IsLeap y then 1 else 0 := by
  obtain ⟨n, rfl⟩ : ∃ n, y = n + 1 := ⟨y - 1, by omega⟩
  have hle : n / 100 ≤ n / 4 := Nat.div_le_div_left (by norm_num) (by norm_num)
  have h100 : 100 ∣ n + 1 → 4 ∣ n + 1 := (Nat.dvd_trans (by norm_num) ·)
  have h400 : 400 ∣ n + 1 → 100 ∣ n + 1 := (Nat.dvd_trans (by norm_num) ·)
  unfold leapsBefore IsLeap
  simp only [Nat.add_sub_cancel, Nat.succ_div, ← Nat.dvd_iff_mod_eq_zero, Ne]
  -- the quotients do not matter any more
  generalize n / 4 = a at *
  generalize n / 100 = b at *
  by_cases h4 : 4 ∣ n + 1
  · by_cases hc : 100 ∣ n + 1
    · by_cases hq : 400 ∣ n + 1
      · simp only [h4, ↓reduceIte, hc, Nat.reduceSubDiff, hq, not_true_eq_false, or_true, and_self]
        omega
      · simp [h4, hc, hq]
    · have hq : ¬ 400 ∣ n + 1 := mt h400 hc
      simp only [h4, ↓reduceIte, hc, add_zero, hq, not_false_eq_true, or_false, and_self]
      omega
  · have hc : ¬ 100 ∣ n + 1 := mt h100 h4
    have hq : ¬ 400 ∣ n + 1 := mt h400 hc
    simp [h4, hc, hq]

/-- The closed form of the days between two years. -/
theorem daysBeforeYear_eq {e y : ℕ} (he : 1 ≤ e) (h : e ≤ y) :
    daysBeforeYear e y + (365 * e + leapsBefore e) = 365 * y + leapsBefore y := by
  induction y, h using Nat.le_induction with
  | base => simp [daysBeforeYear]
  | succ y h ih =>
      rw [daysBeforeYear_succ h, leapsBefore_succ (he.trans h), yearLength]
      split_ifs <;> omega

/-! ### Dates and times -/

/-- A date and a time of day. -/
structure DateTime where
  year : ℕ
  month : ℕ
  day : ℕ
  hours : ℕ
  minutes : ℕ
  seconds : ℕ
deriving DecidableEq, Repr

namespace DateTime

/-- A day of the calendar, and a time between midnight and midnight. -/
structure Valid (t : DateTime) : Prop where
  month_pos : 1 ≤ t.month
  month_le : t.month ≤ 12
  day_pos : 1 ≤ t.day
  day_le : t.day ≤ monthLength t.year t.month
  hours_lt : t.hours < 24
  minutes_lt : t.minutes < 60
  seconds_lt : t.seconds < 60

/-- Seconds from the start of year `e` to `t`. -/
def secondsSince (e : ℕ) (t : DateTime) : ℕ :=
  (daysBeforeYear e t.year + daysBeforeMonth t.year t.month + (t.day - 1)) * 86400
    + t.hours * 3600 + t.minutes * 60 + t.seconds

/-- The first second of the next day. -/
def nextDay (t : DateTime) : DateTime :=
  if t.day < monthLength t.year t.month then ⟨t.year, t.month, t.day + 1, 0, 0, 0⟩
  else if t.month < 12 then ⟨t.year, t.month + 1, 1, 0, 0, 0⟩
  else ⟨t.year + 1, 1, 1, 0, 0, 0⟩

/-- The next second. -/
def next (t : DateTime) : DateTime :=
  if t.seconds < 59 then { t with seconds := t.seconds + 1 }
  else if t.minutes < 59 then { t with minutes := t.minutes + 1, seconds := 0 }
  else if t.hours < 23 then { t with hours := t.hours + 1, minutes := 0, seconds := 0 }
  else t.nextDay

variable {t : DateTime}

theorem Valid.nextDay (h : t.Valid) : t.nextDay.Valid := by
  have hm := h.month_pos
  have hm' := h.month_le
  unfold DateTime.nextDay
  split_ifs with hd hl
  · exact ⟨hm, hm', by simp, hd, by simp, by simp, by simp⟩
  · exact ⟨by simp, hl, by simp, monthLength_pos _ _, by simp, by simp, by simp⟩
  · exact ⟨by simp, by simp, by simp, monthLength_pos _ _, by simp, by simp, by simp⟩

theorem Valid.next (h : t.Valid) : t.next.Valid := by
  unfold DateTime.next
  split_ifs with hs hm hh
  · exact { h with seconds_lt := Nat.succ_lt_succ hs }
  · exact { h with minutes_lt := Nat.succ_lt_succ hm, seconds_lt := by simp }
  · exact { h with hours_lt := Nat.succ_lt_succ hh, minutes_lt := by simp, seconds_lt := by simp }
  · exact h.nextDay

/-- A day has 86400 seconds, at the end of a month and of a year too. -/
theorem secondsSince_nextDay {e : ℕ} (h : t.Valid) (he : e ≤ t.year) :
    t.nextDay.secondsSince e
      = (daysBeforeYear e t.year + daysBeforeMonth t.year t.month + t.day) * 86400 := by
  have hm := h.month_pos
  have hm' := h.month_le
  have hd := h.day_pos
  have hd' := h.day_le
  unfold nextDay
  split_ifs with hday hmonth
  · simp [secondsSince]
  · have hlast : t.day = monthLength t.year t.month := by omega
    simp only [secondsSince, daysBeforeMonth_succ _ hm, hlast]
    omega
  · have hdec : t.month = 12 := by omega
    have hlast : t.day = monthLength t.year 12 := by rw [← hdec]; omega
    have hjan : daysBeforeMonth (t.year + 1) 1 = 0 := by simp [daysBeforeMonth]
    have hfull := daysBeforeMonth_twelve t.year
    simp only [secondsSince, daysBeforeYear_succ he, hjan, hdec, hlast]
    omega

/-- From each second to the next the count grows by one. -/
theorem secondsSince_next {e : ℕ} (h : t.Valid) (he : e ≤ t.year) :
    t.next.secondsSince e = t.secondsSince e + 1 := by
  have hd := h.day_pos
  have hs := h.seconds_lt
  have hm := h.minutes_lt
  have hh := h.hours_lt
  unfold next
  split_ifs with h1 h2 h3
  · simp only [secondsSince]
    omega
  · simp only [secondsSince]
    omega
  · simp only [secondsSince]
    omega
  · rw [secondsSince_nextDay h he, secondsSince]
    omega

/-- The next second is in the same year or in the next one. -/
theorem next_year (t : DateTime) : t.next.year = t.year ∨ t.next.year = t.year + 1 := by
  unfold next nextDay
  split_ifs <;> simp

end DateTime

end HeroOS.Calendar
