import HeroOS.Calendar
import HeroOS.Outcome

/-! # The real-time clock of `drivers/pit.c`

The CMOS chip is reached through two ports: a register number is written to one and the contents
of that register are read from the other.  `Cmos.reg n` is the register file at the `n`-th read of the data
port, so that the clock may tick between any two reads.

`rtcRead` polls the update flag and then reads nine registers.  Status register B says
in which of four formats they are (`RtcFormat`), and `Holds` states what it means for the registers to
hold a time in a format.  `rtcRead_eq_iff` says for which times and formats that time is
returned: of the two 12-hour formats, the BCD one is read without its PM flag, and the binary one
adds twelve to noon and nothing to midnight. -/

namespace HeroOS

/-! ### The ports -/

/-- `RTC_ADDRESS_PORT`. -/
def rtcAddressPort : UInt16 := 0x70

/-- `RTC_DATA_PORT`. -/
def rtcDataPort : UInt16 := 0x71

/-- The CMOS chip: the registers at every read of the data port, the register that is selected, and the
number of reads so far. -/
structure Cmos where
  reg : ℕ → UInt8 → UInt8
  address : UInt8
  time : ℕ

namespace Cmos

/-- `outb` on the ports of the chip. -/
def outb (c : Cmos) (port : UInt16) (val : UInt8) : Cmos :=
  if port = rtcAddressPort then { c with address := val } else c

/-- `inb` on the ports of the chip; only the data port answers. -/
def inb (c : Cmos) (port : UInt16) : UInt8 × Cmos :=
  if port = rtcDataPort then (c.reg c.time c.address, { c with time := c.time + 1 }) else (0xFF, c)

end Cmos

/-- `rtc_read_reg`. -/
def rtcReadReg (c : Cmos) (reg : UInt8) : UInt8 × Cmos := (c.outb rtcAddressPort reg).inb rtcDataPort

/-- `bcd_to_bin`; the sum is cut to a byte. -/
def bcdToBin (bcd : UInt8) : UInt8 := (bcd >>> 4) * 10 + (bcd &&& 0x0F)

/-- `rtc_updating`: bit 7 of register `0x0A`. -/
def rtcUpdating (c : Cmos) : Bool × Cmos :=
  let (a, c) := (c.outb rtcAddressPort 0x0A).inb rtcDataPort
  (a &&& 0x80 != 0, c)

/-! ### Reading the clock -/

/-- `rtc_time_t`. -/
@[ext] structure RtcTime where
  seconds : UInt8
  minutes : UInt8
  hours : UInt8
  day : UInt8
  month : UInt8
  year : UInt16
  weekday : UInt8
deriving DecidableEq, Repr

/-- The second half of `rtc_read`: what the nine bytes are turned into. -/
def RtcTime.ofRegisters (statusB seconds minutes hours weekday day month yearRaw century : UInt8) : RtcTime :=
  let binaryMode := statusB &&& 0x04 != 0
  let hour24 := statusB &&& 0x02 != 0
  let convert := fun v => if binaryMode then v else bcdToBin v
  let hours := if binaryMode then hours else bcdToBin (hours &&& 0x7F)
  let yearRaw := convert yearRaw
  let century := convert century
  -- the PM flag is looked for after the conversion, which has masked it off a BCD byte
  let hours := if !hour24 && hours &&& 0x80 != 0 then (hours &&& 0x7F) + 12 else hours
  { seconds := convert seconds
    minutes := convert minutes
    hours := hours
    day := convert day
    month := convert month
    year := (if century != 0 then century.toUInt16 * 100 else 2000) + yearRaw.toUInt16
    weekday := convert weekday }

/-- `while (rtc_updating());` -/
def rtcWait : ℕ → Cmos → Except Halt Cmos
  | 0, _ => .error .outOfFuel
  | fuel + 1, c =>
      let (updating, c) := rtcUpdating c
      if updating then rtcWait fuel c else .ok c

/-- `rtc_read`. -/
def rtcRead (fuel : ℕ) (c : Cmos) : Except Halt (RtcTime × Cmos) := do
  let c ← rtcWait fuel c
  let (statusB, c) := rtcReadReg c 0x0B
  let (seconds, c) := rtcReadReg c 0x00
  let (minutes, c) := rtcReadReg c 0x02
  let (hours, c) := rtcReadReg c 0x04
  let (weekday, c) := rtcReadReg c 0x06
  let (day, c) := rtcReadReg c 0x07
  let (month, c) := rtcReadReg c 0x08
  let (yearRaw, c) := rtcReadReg c 0x09
  let (century, c) := rtcReadReg c 0x32
  return (.ofRegisters statusB seconds minutes hours weekday day month yearRaw century, c)

theorem rtcReadReg_eq (c : Cmos) (r : UInt8) :
    rtcReadReg c r = (c.reg c.time r, ⟨c.reg, r, c.time + 1⟩) := rfl

theorem rtcUpdating_eq (c : Cmos) :
    rtcUpdating c = (c.reg c.time 0x0A &&& 0x80 != 0, ⟨c.reg, 0x0A, c.time + 1⟩) := rfl

/-- The loop ends at the first poll that finds the update flag clear. -/
theorem rtcWait_eq {k : ℕ} {c : Cmos} (hbusy : ∀ i < k, c.reg (c.time + i) 0x0A &&& 0x80 ≠ 0)
    (hidle : c.reg (c.time + k) 0x0A &&& 0x80 = 0) {fuel : ℕ} (hf : k < fuel) :
    rtcWait fuel c = .ok ⟨c.reg, 0x0A, c.time + k + 1⟩ := by
  induction k generalizing c fuel with
  | zero =>
      obtain ⟨fuel, rfl⟩ := Nat.exists_eq_add_of_lt hf
      have hnow : c.reg c.time 0x0A &&& 0x80 = 0 := hidle
      rw [Nat.zero_add, rtcWait, rtcUpdating_eq]
      simp [hnow]
  | succ k ih =>
      obtain ⟨fuel, rfl⟩ : ∃ n, fuel = n + 1 := ⟨fuel - 1, by omega⟩
      have hnow : c.reg c.time 0x0A &&& 0x80 ≠ 0 := hbusy 0 (Nat.succ_pos k)
      have hrest : rtcWait fuel ⟨c.reg, 0x0A, c.time + 1⟩ = .ok ⟨c.reg, 0x0A, c.time + 1 + k + 1⟩ := by
        apply ih
        · intro i hi
          have h := hbusy (i + 1) (Nat.succ_lt_succ hi)
          rwa [show c.time + (i + 1) = c.time + 1 + i by omega] at h
        · rwa [show c.time + (k + 1) = c.time + 1 + k by omega] at hidle
        · omega
      rw [rtcWait, rtcUpdating_eq]
      simp only [bne_iff_ne, ne_eq, hnow, not_false_eq_true, ↓reduceIte]
      rw [hrest, show c.time + 1 + k + 1 = c.time + (k + 1) + 1 by omega]

/-- The nine bytes that are read, after the wait. -/
theorem rtcRead_eq {k : ℕ} {c : Cmos} (hbusy : ∀ i < k, c.reg (c.time + i) 0x0A &&& 0x80 ≠ 0)
    (hidle : c.reg (c.time + k) 0x0A &&& 0x80 = 0) {fuel : ℕ} (hf : k < fuel) :
    rtcRead fuel c = .ok
      (.ofRegisters (c.reg (c.time + k + 1) 0x0B) (c.reg (c.time + k + 2) 0x00)
        (c.reg (c.time + k + 3) 0x02) (c.reg (c.time + k + 4) 0x04) (c.reg (c.time + k + 5) 0x06)
        (c.reg (c.time + k + 6) 0x07) (c.reg (c.time + k + 7) 0x08) (c.reg (c.time + k + 8) 0x09)
        (c.reg (c.time + k + 9) 0x32), ⟨c.reg, 0x32, c.time + k + 10⟩) := by
  have hw := rtcWait_eq hbusy hidle hf
  simp only [rtcRead, hw, rtcReadReg_eq, add_assoc, Nat.reduceAdd]
  rfl

/-! ### The formats of the registers -/

/-- The two format bits of status register B. -/
structure RtcFormat where
  binary : Bool
  hour24 : Bool
deriving DecidableEq, Repr

/-- A number below one hundred as two decimal digits. -/
def toBcd (n : ℕ) : UInt8 := UInt8.ofNat (n / 10 * 16 + n % 10)

namespace RtcFormat

variable (f : RtcFormat)

/-- The numbers that fit into one register. -/
def Fits (n : ℕ) : Prop := n < if f.binary then 256 else 100

/-- A number in a register. -/
def encode (n : ℕ) : UInt8 := if f.binary then .ofNat n else toBcd n

/-- An hour in a register: with twelve hours they count from `1` to `12`, and bit 7 is set from noon on. -/
def encodeHours (h : ℕ) : UInt8 :=
  if f.hour24 then f.encode h
  else f.encode (if h % 12 = 0 then 12 else h % 12) ||| (if 12 ≤ h then 0x80 else 0)

/-- What `rtc_read` does to a byte other than the hours. -/
def decode (v : UInt8) : UInt8 := if f.binary then v else bcdToBin v

/-- What `rtc_read` does to the hours. -/
def decodeHours (v : UInt8) : UInt8 :=
  let v := if f.binary then v else bcdToBin (v &&& 0x7F)
  if !f.hour24 && v &&& 0x80 != 0 then (v &&& 0x7F) + 12 else v

end RtcFormat

namespace RtcTime

/-- The date and time of a reading. -/
def dateTime (t : RtcTime) : Calendar.DateTime :=
  ⟨t.year.toNat, t.month.toNat, t.day.toNat, t.hours.toNat, t.minutes.toNat, t.seconds.toNat⟩

/-- A date of the calendar with a time of day, and a day of the week. -/
structure Valid (t : RtcTime) : Prop where
  dateTime : t.dateTime.Valid
  weekday_pos : 1 ≤ t.weekday.toNat
  weekday_le : t.weekday.toNat ≤ 7

end RtcTime

/-- The registers `r` hold the time `t` in the format `f`.  A machine without a century register reads
zero there, and its years are those from 2000 to 2099. -/
structure Holds (r : UInt8 → UInt8) (f : RtcFormat) (t : RtcTime) : Prop where
  binary : (r 0x0B &&& 0x04 != 0) = f.binary
  hour24 : (r 0x0B &&& 0x02 != 0) = f.hour24
  seconds : r 0x00 = f.encode t.seconds.toNat
  minutes : r 0x02 = f.encode t.minutes.toNat
  hours : r 0x04 = f.encodeHours t.hours.toNat
  weekday : r 0x06 = f.encode t.weekday.toNat
  day : r 0x07 = f.encode t.day.toNat
  month : r 0x08 = f.encode t.month.toNat
  year : r 0x09 = f.encode (t.year.toNat % 100)
  century : f.Fits (t.year.toNat / 100) ∧ r 0x32 = f.encode (t.year.toNat / 100) ∨
    r 0x32 = 0 ∧ t.year.toNat / 100 = 20

/-! ### What is read back -/

theorem bcdToBin_toBcd : ∀ n < 100, bcdToBin (toBcd n) = .ofNat n := by decide +kernel

namespace RtcFormat

/-- The year that `rtc_read` makes of two bytes. -/
def decodeYear (f : RtcFormat) (yearRaw century : UInt8) : UInt16 :=
  (if f.decode century != 0 then (f.decode century).toUInt16 * 100 else 2000) + (f.decode yearRaw).toUInt16

/-- The hours that come back from the registers. -/
def KeepsHour (f : RtcFormat) (h : ℕ) : Prop :=
  f.hour24 ∨ (f.binary ∧ h ≠ 0 ∧ h ≠ 12) ∨ (¬ f.binary ∧ 1 ≤ h ∧ h ≤ 12)

/-- The times that come back from the registers. -/
def Returns (f : RtcFormat) (t : RtcTime) : Prop := 100 ≤ t.year.toNat ∧ f.KeepsHour t.hours.toNat

variable {f : RtcFormat}

theorem fits_of_lt {n : ℕ} (h : n < 100) : f.Fits n := by
  unfold Fits
  split_ifs <;> omega

theorem Fits.lt {n : ℕ} (h : f.Fits n) : n < 256 := by
  unfold Fits at h
  split_ifs at h <;> omega

theorem decode_encode {n : ℕ} (h : f.Fits n) : f.decode (f.encode n) = .ofNat n := by
  unfold Fits at h
  unfold decode encode
  cases hb : f.binary with
  | true => rfl
  | false =>
      simp only [hb, Bool.false_eq_true, ↓reduceIte] at h ⊢
      exact bcdToBin_toBcd n h

/-- A byte that is read back is the byte that the registers hold. -/
theorem decode_encode_toNat {v : UInt8} (h : v.toNat < 100) : f.decode (f.encode v.toNat) = v := by
  rw [decode_encode (fits_of_lt h), UInt8.ofNat_toNat]

/-- All hours come back in a 24-hour format. -/
theorem decodeHours_encodeHours_of_hour24 (hf : f.hour24 = true) :
    ∀ h < 24, f.decodeHours (f.encodeHours h) = .ofNat h := by
  obtain ⟨binary, hour24⟩ := f
  obtain rfl : hour24 = true := hf
  cases binary with
  | true => decide +kernel
  | false => decide +kernel

/-- Of a binary 12-hour byte, the PM flag adds twelve, to noon as well, and midnight stays at twelve. -/
theorem decodeHours_encodeHours_of_binary (hf : f.hour24 = false) (hb : f.binary = true) :
    ∀ h < 24, f.decodeHours (f.encodeHours h) = .ofNat (if h = 0 then 12 else if h = 12 then 24 else h) := by
  obtain ⟨binary, hour24⟩ := f
  obtain rfl : hour24 = false := hf
  obtain rfl : binary = true := hb
  decide +kernel

/-- Of a BCD 12-hour byte, the PM flag is lost. -/
theorem decodeHours_encodeHours_of_bcd (hf : f.hour24 = false) (hb : f.binary = false) :
    ∀ h < 24, f.decodeHours (f.encodeHours h) = .ofNat (if h % 12 = 0 then 12 else h % 12) := by
  obtain ⟨binary, hour24⟩ := f
  obtain rfl : hour24 = false := hf
  obtain rfl : binary = false := hb
  decide +kernel

theorem ofNat_inj_of_lt {m n : ℕ} (hm : m < 256) (hn : n < 256) : UInt8.ofNat m = .ofNat n ↔ m = n := by
  rw [← UInt8.toNat_inj, UInt8.toNat_ofNat_of_lt' hm, UInt8.toNat_ofNat_of_lt' hn]

/-- Exactly the hours of `KeepsHour` come back. -/
theorem decodeHours_eq_iff {h : ℕ} (hh : h < 24) :
    f.decodeHours (f.encodeHours h) = .ofNat h ↔ f.KeepsHour h := by
  unfold KeepsHour
  cases hf : f.hour24 with
  | true => simp [decodeHours_encodeHours_of_hour24 hf h hh]
  | false =>
      cases hb : f.binary with
      | true =>
          rw [decodeHours_encodeHours_of_binary hf hb h hh, ofNat_inj_of_lt (by split_ifs <;> omega) (by omega)]
          simp only [Bool.false_eq_true, true_and, not_true_eq_false, false_and, or_false, false_or]
          split_ifs <;> omega
      | false =>
          rw [decodeHours_encodeHours_of_bcd hf hb h hh, ofNat_inj_of_lt (by split_ifs <;> omega) (by omega)]
          simp only [Bool.false_eq_true, not_false_eq_true, true_and, false_and, false_or]
          split_ifs <;> omega

/-- Two decoded bytes as a year. -/
theorem toNat_decodeYear {y c : ℕ} {yearRaw century : UInt8} (hy : f.decode yearRaw = .ofNat y)
    (hc : f.decode century = .ofNat c) (hy' : y < 100) (hc' : c < 256) :
    (f.decodeYear yearRaw century).toNat = (if c = 0 then 2000 else c * 100) + y := by
  have hcn : (UInt8.ofNat c).toNat = c := UInt8.toNat_ofNat_of_lt' hc'
  have hyn : (UInt8.ofNat y).toNat = y := UInt8.toNat_ofNat_of_lt' (hy'.trans (by norm_num))
  unfold decodeYear
  rw [hy, hc]
  by_cases h : c = 0
  · subst h
    simp [hyn]
    omega
  · have hne : UInt8.ofNat c ≠ 0 := fun h0 => h ((ofNat_inj_of_lt hc' (by norm_num)).mp h0)
    simp [hne, h, hyn, hcn]
    omega

end RtcFormat

theorem RtcTime.ofRegisters_eq {f : RtcFormat} {statusB : UInt8} (hb : (statusB &&& 0x04 != 0) = f.binary)
    (h24 : (statusB &&& 0x02 != 0) = f.hour24)
    (seconds minutes hours weekday day month yearRaw century : UInt8) :
    RtcTime.ofRegisters statusB seconds minutes hours weekday day month yearRaw century
      = { seconds := f.decode seconds, minutes := f.decode minutes, hours := f.decodeHours hours,
          day := f.decode day, month := f.decode month, year := f.decodeYear yearRaw century,
          weekday := f.decode weekday } := by
  obtain ⟨binary, hour24⟩ := f
  subst hb h24
  rfl

section Registers

variable {r r' : UInt8 → UInt8} {f : RtcFormat} {t : RtcTime}

/-- The year comes back if it has a century that is not zero. -/
theorem Holds.decodeYear_eq_iff (h : Holds r f t) (h' : Holds r' f t) :
    f.decodeYear (r 0x09) (r' 0x32) = t.year ↔ 100 ≤ t.year.toNat := by
  have hy : f.decode (r 0x09) = .ofNat (t.year.toNat % 100) := by
    rw [h.year, RtcFormat.decode_encode (RtcFormat.fits_of_lt (Nat.mod_lt _ (by norm_num)))]
  rw [← UInt16.toNat_inj]
  obtain ⟨hfit, hc⟩ | ⟨hc, hcentury⟩ := h'.century
  · rw [RtcFormat.toNat_decodeYear hy (by rw [hc, RtcFormat.decode_encode hfit]) (Nat.mod_lt _ (by norm_num))
      hfit.lt]
    split_ifs <;> omega
  · have hzero : f.decode 0 = .ofNat 0 := by
      unfold RtcFormat.decode
      split_ifs <;> rfl
    rw [RtcFormat.toNat_decodeYear hy (by rw [hc, hzero]) (Nat.mod_lt _ (by norm_num)) (by norm_num)]
    simp only [↓reduceIte]
    omega

/-- The hours come back if the format keeps them. -/
theorem Holds.decodeHours_eq_iff (h : Holds r f t) (ht : t.Valid) :
    f.decodeHours (r 0x04) = t.hours ↔ f.KeepsHour t.hours.toNat := by
  have hlt : t.hours.toNat < 24 := ht.dateTime.hours_lt
  have hiff := RtcFormat.decodeHours_eq_iff (f := f) hlt
  rwa [UInt8.ofNat_toNat, ← h.hours] at hiff

end Registers

/-- `rtc_read`, on registers that hold the valid time `t` in the format `f` at each of the nine reads
after the wait, returns; and it returns `t` exactly for the times and formats of `RtcFormat.Returns`. -/
theorem rtcRead_eq_iff {f : RtcFormat} {t : RtcTime} {c : Cmos} {k : ℕ} (ht : t.Valid)
    (hbusy : ∀ i < k, c.reg (c.time + i) 0x0A &&& 0x80 ≠ 0)
    (hidle : c.reg (c.time + k) 0x0A &&& 0x80 = 0)
    (hregs : ∀ i, 1 ≤ i → i ≤ 9 → Holds (c.reg (c.time + k + i)) f t) :
    ∃ t' c', (∀ fuel, k < fuel → rtcRead fuel c = .ok (t', c')) ∧ (t' = t ↔ f.Returns t) := by
  refine ⟨_, _, fun fuel hf => rtcRead_eq hbusy hidle hf, ?_⟩
  have h1 := hregs 1 (by norm_num) (by norm_num)
  have hvd := ht.dateTime
  have hday : t.day.toNat < 100 :=
    (hvd.day_le.trans (Calendar.monthLength_le _ _)).trans_lt (by norm_num)
  have hmonth : t.month.toNat < 100 := hvd.month_le.trans_lt (by norm_num)
  have hweekday : t.weekday.toNat < 100 := ht.weekday_le.trans_lt (by norm_num)
  have hminutes : t.minutes.toNat < 100 := hvd.minutes_lt.trans (by norm_num)
  have hseconds : t.seconds.toNat < 100 := hvd.seconds_lt.trans (by norm_num)
  rw [RtcTime.ofRegisters_eq h1.binary h1.hour24, RtcTime.ext_iff]
  simp only [(hregs 2 (by norm_num) (by norm_num)).seconds, (hregs 3 (by norm_num) (by norm_num)).minutes,
    (hregs 5 (by norm_num) (by norm_num)).weekday, (hregs 6 (by norm_num) (by norm_num)).day,
    (hregs 7 (by norm_num) (by norm_num)).month, RtcFormat.decode_encode_toNat, hseconds, hminutes, hweekday,
    hday, hmonth, true_and, and_true]
  rw [(hregs 4 (by norm_num) (by norm_num)).decodeHours_eq_iff ht,
    (hregs 8 (by norm_num) (by norm_num)).decodeYear_eq_iff (hregs 9 (by norm_num) (by norm_num))]
  exact and_comm

/-! ### A chip whose clock stands still -/

/-- Status register B, with the bits of the format alone. -/
def RtcFormat.statusB (f : RtcFormat) : UInt8 :=
  (if f.binary then 0x04 else 0) ||| (if f.hour24 then 0x02 else 0)

theorem RtcFormat.statusB_binary (f : RtcFormat) : (f.statusB &&& 0x04 != 0) = f.binary := by
  obtain ⟨_ | _, _ | _⟩ := f <;> decide

theorem RtcFormat.statusB_hour24 (f : RtcFormat) : (f.statusB &&& 0x02 != 0) = f.hour24 := by
  obtain ⟨_ | _, _ | _⟩ := f <;> decide

/-- Registers that hold a time in a format. -/
def RtcFormat.image (f : RtcFormat) (t : RtcTime) (r : UInt8) : UInt8 :=
  if r = 0x00 then f.encode t.seconds.toNat
  else if r = 0x02 then f.encode t.minutes.toNat
  else if r = 0x04 then f.encodeHours t.hours.toNat
  else if r = 0x06 then f.encode t.weekday.toNat
  else if r = 0x07 then f.encode t.day.toNat
  else if r = 0x08 then f.encode t.month.toNat
  else if r = 0x09 then f.encode (t.year.toNat % 100)
  else if r = 0x0B then f.statusB
  else if r = 0x32 then f.encode (t.year.toNat / 100)
  else 0

/-- The chip with these registers at every read. -/
def Cmos.still (r : UInt8 → UInt8) : Cmos := ⟨fun _ => r, 0, 0⟩

theorem holds_image {f : RtcFormat} {t : RtcTime} (h : f.Fits (t.year.toNat / 100)) :
    Holds (f.image t) f t where
  binary := f.statusB_binary
  hour24 := f.statusB_hour24
  seconds := rfl
  minutes := rfl
  hours := rfl
  weekday := rfl
  day := rfl
  month := rfl
  year := rfl
  century := .inl ⟨h, rfl⟩

/-- A time of the 29th of February 2024. -/
def leapDayAt (hours : UInt8) : RtcTime := ⟨56, 34, hours, 29, 2, 2024, 5⟩

theorem leapDayAt_valid {h : UInt8} (hh : h.toNat < 24) : (leapDayAt h).Valid where
  dateTime :=
    { month_pos := (by decide : 1 ≤ 2), month_le := (by decide : 2 ≤ 12), day_pos := (by decide : 1 ≤ 29)
      day_le := (by decide : 29 ≤ Calendar.monthLength 2024 2), hours_lt := hh
      minutes_lt := (by decide : 34 < 60), seconds_lt := (by decide : 56 < 60) }
  weekday_pos := (by decide : 1 ≤ 5)
  weekday_le := (by decide : 5 ≤ 7)

/-- One o'clock in the afternoon in BCD with twelve hours. -/
theorem rtcRead_eq_iff_afternoon :
    ∃ t' c', (∀ fuel, 0 < fuel →
        rtcRead fuel (.still (RtcFormat.image ⟨false, false⟩ (leapDayAt 13))) = .ok (t', c')) ∧
      (t' = leapDayAt 13 ↔ RtcFormat.Returns ⟨false, false⟩ (leapDayAt 13)) :=
  rtcRead_eq_iff (leapDayAt_valid (by decide)) (fun _ hi => absurd hi (Nat.not_lt_zero _)) rfl
    (fun _ _ _ => holds_image (RtcFormat.fits_of_lt (by decide)))

/-- The three slips of the 12-hour formats: one in the afternoon is read as one, noon as twenty-four, and
midnight as twelve. -/
theorem rtcRead_twelve_hour :
    ((leapDayAt 13).Valid ∧
      Holds (RtcFormat.image ⟨false, false⟩ (leapDayAt 13)) ⟨false, false⟩ (leapDayAt 13) ∧
      (rtcRead 1 (.still (RtcFormat.image ⟨false, false⟩ (leapDayAt 13)))).toOption.map Prod.fst
        = some (leapDayAt 1)) ∧
    ((leapDayAt 12).Valid ∧
      Holds (RtcFormat.image ⟨true, false⟩ (leapDayAt 12)) ⟨true, false⟩ (leapDayAt 12) ∧
      (rtcRead 1 (.still (RtcFormat.image ⟨true, false⟩ (leapDayAt 12)))).toOption.map Prod.fst
        = some (leapDayAt 24)) ∧
    ((leapDayAt 0).Valid ∧
      Holds (RtcFormat.image ⟨true, false⟩ (leapDayAt 0)) ⟨true, false⟩ (leapDayAt 0) ∧
      (rtcRead 1 (.still (RtcFormat.image ⟨true, false⟩ (leapDayAt 0)))).toOption.map Prod.fst
        = some (leapDayAt 12)) :=
  ⟨⟨leapDayAt_valid (by decide), holds_image (RtcFormat.fits_of_lt (by decide)), by decide +kernel⟩,
    ⟨leapDayAt_valid (by decide), holds_image (RtcFormat.fits_of_lt (by decide)), by decide +kernel⟩,
    ⟨leapDayAt_valid (by decide), holds_image (RtcFormat.fits_of_lt (by decide)), by decide +kernel⟩⟩

end HeroOS
