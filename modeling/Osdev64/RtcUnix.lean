/-
The number `rtc_time` returns, against Unix time.

The days are counted from one, and one more is added where one should be taken
away.  February 29 of the current year is not counted, and the table of months has
lost the entry for October, so that October and November have the days of the month
after them and December has none.
-/

import Osdev64.Rtc
import Mathlib.Tactic.IntervalCases

namespace Osdev64

open Word64

/-! ### Unix time -/

def leapYear (year : Nat) : Bool := year % 4 = 0 && (year % 100 ≠ 0 || year % 400 = 0)

def yearDays (year : Nat) : Nat := if leapYear year then 366 else 365

def monthDays (year month : Nat) : Nat :=
  if month = 2 then (if leapYear year then 29 else 28)
  else if month = 4 ∨ month = 6 ∨ month = 9 ∨ month = 11 then 30
  else 31

namespace Clock

def fullYear (clock : Clock) : Nat := if clock.year < 70 then 2000 + clock.year else 1900 + clock.year

/-- The days between January 1, 1970 and the date. -/
def unixDays (clock : Clock) : Nat :=
  ((List.range' 1970 (clock.fullYear - 1970)).map yearDays).sum +
    ((List.range' 1 (clock.month - 1)).map (monthDays clock.fullYear)).sum + (clock.day - 1)

def unixTime (clock : Clock) : Nat :=
  ((clock.unixDays * 24 + clock.hour) * 60 + clock.minute) * 60 + clock.second

/-- January 1, 1970, and the last second of the century from then on. -/
def epoch : Clock := { second := 0, minute := 0, hour := 0, day := 1, month := 1, year := 70 }

def lastSecond : Clock := { second := 59, minute := 59, hour := 23, day := 31, month := 12, year := 69 }

variable {clock : Clock}

theorem leapYear_fullYear (small : clock.year < 100) : leapYear clock.fullYear = (clock.year % 4 = 0) := by
  unfold leapYear fullYear
  simp only [Bool.and_eq_true, Bool.or_eq_true, decide_eq_true_eq, eq_iff_iff]
  split <;> omega

theorem monthDays_fullYear (small : clock.year < 100) (month : Nat) :
    monthDays clock.fullYear month = monthLength month clock.year := by
  unfold monthDays monthLength
  simp only [leapYear_fullYear small]

theorem sum_range'_succ (days : Nat → Nat) (first count : Nat) :
    ((List.range' first (count + 1)).map days).sum =
      ((List.range' first count).map days).sum + days (first + count) := by
  rw [List.range'_concat, List.map_append, List.sum_append, Nat.one_mul]
  rfl

theorem sum_months (year : Nat) :
    ((List.range' 1 11).map (monthDays year)).sum + 31 = yearDays year := by
  unfold yearDays
  cases leap : leapYear year with
  | true => simp [List.range', monthDays, leap]
  | false => simp [List.range', monthDays, leap]

theorem unixDays_nextDay (valid : clock.Valid)
    (more : ¬(clock.day = 31 ∧ clock.month = 12 ∧ clock.year = 69)) :
    clock.nextDay.unixDays = clock.unixDays + 1 := by
  have days := valid.day
  have months := valid.month
  have years := valid.year
  have since : 1970 ≤ clock.fullYear := by
    unfold fullYear
    split <;> omega
  unfold nextDay
  by_cases lastDay : clock.day = monthLength clock.month clock.year
  · rw [if_pos lastDay]
    unfold nextMonth
    by_cases december : clock.month = 12
    · -- the months of the year and the last day are the year
      have length : monthLength clock.month clock.year = 31 := by
        rw [december]
        rfl
      have next : fullYear (nextYear { clock with day := 1, month := 1 }) = clock.fullYear + 1 := by
        unfold nextYear fullYear
        dsimp only
        split <;> split <;> omega
      have count : clock.fullYear + 1 - 1970 = clock.fullYear - 1970 + 1 := by omega
      have year : 1970 + (clock.fullYear - 1970) = clock.fullYear := by omega
      have whole := sum_months clock.fullYear
      rw [if_pos december]
      unfold unixDays
      rw [next, count, sum_range'_succ, year, lastDay, length, december]
      change _ + _ + 0 + 0 = _ + ((List.range' 1 11).map (monthDays clock.fullYear)).sum + 30 + 1
      omega
    · have count : clock.month + 1 - 1 = clock.month - 1 + 1 := by omega
      have month : 1 + (clock.month - 1) = clock.month := by omega
      rw [if_neg december]
      change _ + ((List.range' 1 (clock.month + 1 - 1)).map (monthDays clock.fullYear)).sum + 0 = _
      rw [count, sum_range'_succ, month, monthDays_fullYear years, ← lastDay]
      unfold unixDays
      change ((List.range' 1970 (clock.fullYear - 1970)).map yearDays).sum + _ + 0 = _
      omega
  · rw [if_neg lastDay]
    unfold unixDays
    change ((List.range' 1970 (clock.fullYear - 1970)).map yearDays).sum +
      ((List.range' 1 (clock.month - 1)).map (monthDays clock.fullYear)).sum + (clock.day + 1 - 1) = _
    omega

theorem nextDay_midnight (clock : Clock) :
    nextDay { clock with second := 0, minute := 0, hour := 0 } =
      { clock.nextDay with second := 0, minute := 0, hour := 0 } := by
  unfold nextDay nextMonth nextYear
  split
  · split
    · rfl
    · rfl
  · rfl

theorem unixTime_midnight (clock : Clock) :
    unixTime { clock with second := 0, minute := 0, hour := 0 } = clock.unixDays * 86400 := by
  have sameDay : unixDays { clock with second := 0, minute := 0, hour := 0 } = clock.unixDays := rfl
  unfold unixTime
  rw [sameDay]
  dsimp only
  omega

theorem unixTime_tick (valid : clock.Valid) (more : clock ≠ lastSecond) :
    clock.tick.unixTime = clock.unixTime + 1 := by
  unfold tick
  by_cases second : clock.second = 59
  · rw [if_pos second]
    unfold nextMinute
    by_cases minute : clock.minute = 59
    · rw [if_pos minute]
      unfold nextHour
      by_cases hour : clock.hour = 23
      · have later : clock.nextDay.unixDays = clock.unixDays + 1 := by
          apply unixDays_nextDay valid
          rintro ⟨day, month, year⟩
          apply more
          cases clock
          simp only at second minute hour day month year
          rw [second, minute, hour, day, month, year]
          rfl
        rw [if_pos hour]
        change (nextDay { clock with second := 0, minute := 0, hour := 0 }).unixTime = _
        rw [nextDay_midnight, unixTime_midnight, later]
        unfold unixTime
        rw [second, minute, hour]
        omega
      · rw [if_neg hour]
        unfold unixTime
        change ((clock.unixDays * 24 + (clock.hour + 1)) * 60 + 0) * 60 + 0 = _
        omega
    · rw [if_neg minute]
      unfold unixTime
      change ((clock.unixDays * 24 + clock.hour) * 60 + (clock.minute + 1)) * 60 + 0 = _
      omega
  · rw [if_neg second]
    rfl

theorem unixTime_ticks {n : Nat} (century : n < 3155760000) :
    (tick^[n] epoch).Valid ∧ (tick^[n] epoch).unixTime = n := by
  induction n with
  | zero => exact ⟨⟨by decide, by decide, by decide, by decide, by decide, by decide⟩, rfl⟩
  | succ n ih =>
    obtain ⟨valid, time⟩ := ih (by omega)
    have more : tick^[n] epoch ≠ lastSecond := by
      intro last
      have final : lastSecond.unixTime = 3155759999 := by decide +kernel
      rw [last, final] at time
      omega
    rw [Function.iterate_succ_apply']
    exact ⟨valid.tick, by rw [unixTime_tick valid more, time]⟩

end Clock

/-! ### The number returned -/

/-- The days by which the number is off. -/
def rtcDrift (year month : Nat) : Int :=
  let leapDay := if leapYear year then 1 else 0
  if month ≤ 2 then 2
  else if month ≤ 9 then 2 - leapDay
  else if month = 10 then 33 - leapDay
  else if month = 11 then 32 - leapDay
  else -332 - leapDay

theorem rtcDrift_bounds (year month : Nat) :
    rtcDrift year month ≠ 0 ∧ -333 ≤ rtcDrift year month ∧ rtcDrift year month ≤ 33 := by
  unfold rtcDrift
  dsimp only
  split_ifs <;> decide

theorem rtcMonths_drift (year : Nat) {month : Nat} (first : 1 ≤ month) (last : month ≤ 12) :
    ((rtcMonths.getD (month - 1) 0).toNat : Int) + 2 =
      ((List.range' 1 (month - 1)).map (monthDays year)).sum + rtcDrift year month := by
  unfold rtcDrift
  cases leap : leapYear year with
  | true => interval_cases month <;> simp [rtcMonths, List.range', monthDays, leap]
  | false => interval_cases month <;> simp [rtcMonths, List.range', monthDays, leap]

theorem rtcYearDays_eq {year : Nat} (since : 1970 ≤ year) (before : year < 2100) :
    rtcYearDays year = BitVec.ofNat 32 (yearDays year) := by
  have leap : leapYear year = decide (year % 4 = 0) := by
    unfold leapYear
    rw [Bool.eq_iff_iff]
    simp only [Bool.and_eq_true, Bool.or_eq_true, decide_eq_true_eq]
    omega
  unfold rtcYearDays yearDays
  rw [leap]
  by_cases fourth : year % 4 = 0
  · rw [if_neg (not_not.mpr fourth), decide_eq_true fourth, if_pos rfl]
    by_cases century : year % 400 = 0
    · rw [if_neg (not_not.mpr century), if_neg (by omega)]
      rfl
    · rw [if_pos century]
      rfl
  · rw [if_pos fourth, decide_eq_false fourth]
    rfl

theorem foldl_rtcYearDays {count : Nat} (few : count ≤ 130) (day : BitVec 32) :
    (List.range' 1970 count).foldl (fun day i => day + rtcYearDays i) day =
      day + BitVec.ofNat 32 ((List.range' 1970 count).map yearDays).sum := by
  induction count with
  | zero => exact (BitVec.add_zero day).symm
  | succ count ih =>
    rw [Clock.sum_range'_succ, List.range'_concat, List.foldl_append, ih (by omega), BitVec.ofNat_add,
      ← BitVec.add_assoc, Nat.one_mul]
    change _ + rtcYearDays (1970 + count) = _
    rw [rtcYearDays_eq (by omega) (by omega)]

theorem sum_yearDays_le (first count : Nat) : ((List.range' first count).map yearDays).sum ≤ count * 366 := by
  induction count with
  | zero => exact Nat.le_refl 0
  | succ count ih =>
    have most : yearDays (first + count) ≤ 366 := by
      unfold yearDays
      split <;> decide
    rw [Clock.sum_range'_succ]
    omega

variable {clock : Clock}

/-- The day number the driver arrives at. -/
def rtcDayNumber (clock : Clock) : Nat :=
  clock.day + ((List.range' 1970 (clock.fullYear - 1970)).map yearDays).sum +
    (rtcMonths.getD (clock.month - 1) 0).toNat + 1

theorem rtcDayNumber_eq (valid : clock.Valid) :
    (rtcDayNumber clock : Int) = clock.unixDays + rtcDrift clock.fullYear clock.month := by
  have months := rtcMonths_drift clock.fullYear valid.month.1 valid.month.2
  have days := valid.day.1
  unfold rtcDayNumber Clock.unixDays
  omega

theorem fullYear_lt (valid : clock.Valid) : clock.fullYear < 2070 := by
  have := valid.year
  unfold Clock.fullYear
  split <;> omega

theorem rtcDayNumber_lt (valid : clock.Valid) : rtcDayNumber clock < 2 ^ 20 := by
  have recent := fullYear_lt valid
  have years := sum_yearDays_le 1970 (clock.fullYear - 1970)
  have days := valid.day.2.trans (Clock.monthLength_le _ _)
  have months := valid.month
  have table : (rtcMonths.getD (clock.month - 1) 0).toNat ≤ 334 := by
    have all : ∀ k < 12, (rtcMonths.getD k 0).toNat ≤ 334 := by decide
    exact all _ (by omega)
  unfold rtcDayNumber
  omega

theorem rtcTime_number (valid : clock.Valid) (others : Cmos) :
    (rtcTime fun _ => clock.registers others).2 =
      BitVec.ofNat 64 (((rtcDayNumber clock * 24 + clock.hour) * 60 + clock.minute) * 60 + clock.second) := by
  have century : ∀ y < 100, ((if (BitVec.ofNat 32 y).toNat < 70 then BitVec.ofNat 32 y + 100
      else BitVec.ofNat 32 y) + 1900).toNat = if y < 70 then 2000 + y else 1900 + y := by
    decide
  have year : ((if (BitVec.ofNat 32 clock.year).toNat < 70 then BitVec.ofNat 32 clock.year + 100
      else BitVec.ofNat 32 clock.year) + 1900).toNat = clock.fullYear := century _ valid.year
  have recent := fullYear_lt valid
  have small := rtcDayNumber_lt valid
  have days := valid.day.2.trans (Clock.monthLength_le _ _)
  have months := valid.month
  have hours := valid.hour
  have minutes := valid.minute
  have seconds := valid.second
  have readSec : rtcRead (clock.registers others) rtcSec = _ := (rtcRead_bcd (by omega) rfl).1
  have readMin : rtcRead (clock.registers others) rtcMin = _ := (rtcRead_bcd (by omega) rfl).1
  have readHour : rtcRead (clock.registers others) rtcHour = _ := (rtcRead_bcd (by omega) rfl).1
  have readDay : rtcRead (clock.registers others) rtcDay = _ := (rtcRead_bcd (by omega) rfl).1
  have readMon : rtcRead (clock.registers others) rtcMon = _ := (rtcRead_bcd (by omega) rfl).1
  have readYear : rtcRead (clock.registers others) rtcYear = _ := (rtcRead_bcd valid.year rfl).1
  have month : (BitVec.ofNat 32 clock.month - 1).toNat = clock.month - 1 := by
    rw [BitVec.toNat_sub_of_le (by rw [BitVec.le_def, BitVec.toNat_ofNat]; change 1 ≤ _; omega),
      BitVec.toNat_ofNat]
    change clock.month % 2 ^ 32 - 1 = _
    omega
  have day : BitVec.ofNat 32 clock.day +
      BitVec.ofNat 32 ((List.range' 1970 (clock.fullYear - 1970)).map yearDays).sum +
        rtcMonths.getD (clock.month - 1) 0 + 1 = BitVec.ofNat 32 (rtcDayNumber clock) := by
    unfold rtcDayNumber
    rw [BitVec.ofNat_add, BitVec.ofNat_add, BitVec.ofNat_add, BitVec.ofNat_toNat, BitVec.setWidth_eq]
    rfl
  have wide {number : Nat} (below : number < 2 ^ 32) :
      (BitVec.ofNat 32 number).setWidth 64 = BitVec.ofNat 64 number :=
    BitVec.setWidth_ofNat_of_le_of_lt (by decide) below
  have hour : (BitVec.ofNat 32 (rtcDayNumber clock) * 24).setWidth 64 =
      BitVec.ofNat 64 (rtcDayNumber clock * 24) := by
    rw [← wide (show rtcDayNumber clock * 24 < 2 ^ 32 by omega), BitVec.ofNat_mul]
    rfl
  unfold rtcTime
  simp only [readSec, readMin, readHour, readDay, readMon, readYear, year, month]
  rw [foldl_rtcYearDays (by omega), day, hour, wide (by omega), wide (by omega), wide (by omega)]
  simp only [BitVec.ofNat_add, BitVec.ofNat_mul]
  rfl

theorem rtcTime_shown (valid : clock.Valid) (others : Cmos) :
    (rtcTime fun _ => clock.registers others).1 = clock.shown := by
  have still : ∀ k, clock.atRead (fun _ => false) k = clock := by
    intro k
    induction k with
    | zero => rfl
    | succ k ih => exact ih
  have none : ∀ k, ticksBefore (fun _ => false) k = 0 := by
    intro k
    induction k with
    | zero => rfl
    | succ k ih => exact ih
  have second := valid.second
  have stored : rtcStored clock others (fun _ => false) = clock.shown :=
    (rtcStored_eq_shown_iff valid others _).mpr
      ⟨by rw [none]; omega, by rw [none]; omega, by rw [none]; omega, by rw [none]; omega, by rw [none]; omega⟩
  unfold rtcStored at stored
  simp only [still] at stored
  exact stored

/-- The date and time, and the number of seconds, as they should be returned. -/
def TellsUnixTime (clock : Clock) (others : Cmos) : Prop :=
  rtcTime (fun _ => clock.registers others) = (clock.shown, BitVec.ofNat 64 clock.unixTime)

/-- The date and time are right; the number is off by whole days, and never right. -/
theorem rtcTime_drifts (clock : Clock) (valid : clock.Valid) (others : Cmos) :
    (rtcTime fun _ => clock.registers others).1 = clock.shown ∧
      ((rtcTime fun _ => clock.registers others).2.toNat : Int) =
        clock.unixTime + 86400 * rtcDrift clock.fullYear clock.month ∧
      ¬TellsUnixTime clock others := by
  have time := rtcTime_shown valid others
  have days := rtcDayNumber_eq valid
  have small := rtcDayNumber_lt valid
  obtain ⟨drifts, least, most⟩ := rtcDrift_bounds clock.fullYear clock.month
  have hours := valid.hour
  have minutes := valid.minute
  have seconds := valid.second
  have number : (rtcTime fun _ => clock.registers others).2.toNat =
      ((rtcDayNumber clock * 24 + clock.hour) * 60 + clock.minute) * 60 + clock.second := by
    rw [rtcTime_number valid, BitVec.toNat_ofNat, Nat.mod_eq_of_lt (by omega)]
  have drifted : ((rtcTime fun _ => clock.registers others).2.toNat : Int) =
      clock.unixTime + 86400 * rtcDrift clock.fullYear clock.month := by
    rw [number]
    unfold Clock.unixTime
    omega
  refine ⟨time, drifted, ?_⟩
  intro tells
  have right : (rtcTime fun _ => clock.registers others).2.toNat = clock.unixTime := by
    rw [tells, BitVec.toNat_ofNat, Nat.mod_eq_of_lt (by unfold Clock.unixTime; omega)]
  omega

/-- In November the days of December are counted. -/
theorem rtcTime_drifts_beforeNoon : beforeNoon.Valid ∧
    ((rtcTime fun _ => beforeNoon.registers fun _ => 0).2.toNat : Int) = beforeNoon.unixTime + 86400 * 32 :=
  ⟨beforeNoon_valid, (rtcTime_drifts beforeNoon beforeNoon_valid fun _ => 0).2.1⟩

/-- At the beginning of 1970 two days are returned. -/
theorem rtcTime_epoch : Clock.epoch.Valid ∧ Clock.epoch.unixTime = 0 ∧
    (rtcTime fun _ => Clock.epoch.registers fun _ => 0) = (Clock.epoch.shown, 172800) ∧
    ¬TellsUnixTime Clock.epoch fun _ => 0 := by
  have returned : (rtcTime fun _ => Clock.epoch.registers fun _ => 0) = (Clock.epoch.shown, 172800) := by
    decide +kernel
  refine ⟨⟨by decide, by decide, by decide, by decide, by decide, by decide⟩, rfl, returned, ?_⟩
  unfold TellsUnixTime
  rw [returned]
  decide

end Osdev64
