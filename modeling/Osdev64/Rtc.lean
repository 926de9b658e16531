/-
The clock driver of `src/drivers/rtc.c`.

`rtc_time` reads the six registers one after the other, the seconds first, and
the clock may tick between any two reads.  A carry out of the seconds that comes
before the register it reaches has been read is torn: the time stored has the old
seconds with the new minute, hour, day, month or year.
-/

import Osdev64.Lib.Word
import Mathlib.Logic.Function.Iterate

namespace Osdev64

open Word64

/-- The CMOS registers at one moment. -/
abbrev Cmos := BitVec 8 → BitVec 8

def rtcSec : BitVec 8 := 0x00
def rtcMin : BitVec 8 := 0x02
def rtcHour : BitVec 8 := 0x04
def rtcDay : BitVec 8 := 0x07
def rtcMon : BitVec 8 := 0x08
def rtcYear : BitVec 8 := 0x09

def rtcRead (cmos : Cmos) (b : BitVec 8) : BitVec 32 :=
  let value := (cmos b).setWidth 32
  ((value >>> 4) &&& 0x0F) * 10 + (value &&& 0x0F)

/-- `struct time`. -/
@[ext] structure Time where
  year : BitVec 16
  month : BitVec 16
  day : BitVec 16
  hour : BitVec 16
  minute : BitVec 16
  second : BitVec 16
  deriving DecidableEq

/-- The table in `rtc_time`; the last of its twelve elements is not given a value. -/
def rtcMonths : List (BitVec 32) := [0, 31, 59, 90, 120, 151, 181, 212, 243, 304, 334, 0]

/-- The days of a year, as the loop counts them. -/
def rtcYearDays (i : Nat) : BitVec 32 :=
  if i % 4 ≠ 0 then 365
  else if i % 400 ≠ 0 then 366
  else if i % 100 ≠ 0 then 365
  else 366

/-- `rtc_time`; the read number `k` sees the registers `moments k`. -/
def rtcTime (moments : Nat → Cmos) : Time × Word :=
  let sec := rtcRead (moments 0) rtcSec
  let min := rtcRead (moments 1) rtcMin
  let hour := rtcRead (moments 2) rtcHour
  let day := rtcRead (moments 3) rtcDay
  let mon := rtcRead (moments 4) rtcMon
  let year := rtcRead (moments 5) rtcYear
  let year := (if year.toNat < 70 then year + 100 else year) + 1900
  let time : Time :=
    { year := year.setWidth 16, month := mon.setWidth 16, day := day.setWidth 16
      hour := hour.setWidth 16, minute := min.setWidth 16, second := sec.setWidth 16 }
  let day := (List.range' 1970 (year.toNat - 1970)).foldl (fun day i => day + rtcYearDays i) day
  let day := day + rtcMonths.getD (mon - 1).toNat 0 + 1
  let t : Word := (day * 24).setWidth 64
  let t := (t + hour.setWidth 64) * 60
  let t := (t + min.setWidth 64) * 60
  (time, t + sec.setWidth 64)

/-! ### The clock -/

structure Clock where
  second : Nat
  minute : Nat
  hour : Nat
  day : Nat
  month : Nat
  year : Nat
  deriving DecidableEq

/-- The days of a month; the clock has two digits for the year and its own leap years. -/
def monthLength (month year : Nat) : Nat :=
  if month = 2 then (if year % 4 = 0 then 29 else 28)
  else if month = 4 ∨ month = 6 ∨ month = 9 ∨ month = 11 then 30
  else 31

namespace Clock

structure Valid (clock : Clock) : Prop where
  second : clock.second < 60
  minute : clock.minute < 60
  hour : clock.hour < 24
  day : 1 ≤ clock.day ∧ clock.day ≤ monthLength clock.month clock.year
  month : 1 ≤ clock.month ∧ clock.month ≤ 12
  year : clock.year < 100

def nextYear (clock : Clock) : Clock := { clock with year := (clock.year + 1) % 100 }

def nextMonth (clock : Clock) : Clock :=
  if clock.month = 12 then nextYear { clock with month := 1 }
  else { clock with month := clock.month + 1 }

def nextDay (clock : Clock) : Clock :=
  if clock.day = monthLength clock.month clock.year then nextMonth { clock with day := 1 }
  else { clock with day := clock.day + 1 }

def nextHour (clock : Clock) : Clock :=
  if clock.hour = 23 then nextDay { clock with hour := 0 }
  else { clock with hour := clock.hour + 1 }

def nextMinute (clock : Clock) : Clock :=
  if clock.minute = 59 then nextHour { clock with minute := 0 }
  else { clock with minute := clock.minute + 1 }

/-- One second. -/
def tick (clock : Clock) : Clock :=
  if clock.second = 59 then nextMinute { clock with second := 0 }
  else { clock with second := clock.second + 1 }

/-- A number of two digits in one byte. -/
def bcd (number : Nat) : BitVec 8 := BitVec.ofNat 8 (number / 10 * 16 + number % 10)

/-- The other registers may hold anything; nothing reads them. -/
def registers (clock : Clock) (others : Cmos) : Cmos := fun register =>
  if register = rtcSec then bcd clock.second
  else if register = rtcMin then bcd clock.minute
  else if register = rtcHour then bcd clock.hour
  else if register = rtcDay then bcd clock.day
  else if register = rtcMon then bcd clock.month
  else if register = rtcYear then bcd clock.year
  else others register

/-- The date and time on the clock, with the year in the century from 1970 on. -/
def shown (clock : Clock) : Time where
  year := BitVec.ofNat 16 (if clock.year < 70 then 2000 + clock.year else 1900 + clock.year)
  month := BitVec.ofNat 16 clock.month
  day := BitVec.ofNat 16 clock.day
  hour := BitVec.ofNat 16 clock.hour
  minute := BitVec.ofNat 16 clock.minute
  second := BitVec.ofNat 16 clock.second

/-- The clock at read number `k`, with a tick in the gaps that `ticks` names. -/
def atRead (clock : Clock) (ticks : Nat → Bool) : Nat → Clock
  | 0 => clock
  | k + 1 => if ticks k then (clock.atRead ticks k).tick else clock.atRead ticks k

end Clock

/-- What `rtc_time` stores with these ticks between its reads. -/
def rtcStored (clock : Clock) (others : Cmos) (ticks : Nat → Bool) : Time :=
  (rtcTime fun k => (clock.atRead ticks k).registers others).1

/-- The ticks before read number `k`. -/
def ticksBefore (ticks : Nat → Bool) : Nat → Nat
  | 0 => 0
  | k + 1 => ticksBefore ticks k + if ticks k then 1 else 0

/-- Each register is read before a carry out of the seconds can have reached it. -/
structure ReadInTime (clock : Clock) (ticks : Nat → Bool) : Prop where
  minute : clock.second + ticksBefore ticks 1 < 60
  hour : clock.minute = 59 → clock.second + ticksBefore ticks 2 < 60
  day : clock.minute = 59 → clock.hour = 23 → clock.second + ticksBefore ticks 3 < 60
  month : clock.minute = 59 → clock.hour = 23 → clock.day = monthLength clock.month clock.year →
    clock.second + ticksBefore ticks 4 < 60
  year : clock.minute = 59 → clock.hour = 23 → clock.day = monthLength clock.month clock.year →
    clock.month = 12 → clock.second + ticksBefore ticks 5 < 60

/-! ### The clock during the reads -/

variable {clock : Clock} {ticks : Nat → Bool}

theorem ticksBefore_le (ticks : Nat → Bool) (k : Nat) : ticksBefore ticks k ≤ k := by
  induction k with
  | zero => exact Nat.le_refl 0
  | succ k ih =>
    unfold ticksBefore
    split_ifs
    · omega
    · omega

namespace Clock

theorem one_le_monthLength (month year : Nat) : 1 ≤ monthLength month year := by
  unfold monthLength
  split_ifs <;> decide

theorem monthLength_le (month year : Nat) : monthLength month year ≤ 31 := by
  unfold monthLength
  split_ifs <;> decide

theorem Valid.tick (valid : clock.Valid) : clock.tick.Valid := by
  have days := one_le_monthLength
  have := valid.second
  have := valid.minute
  have := valid.hour
  have := valid.day
  have := valid.month
  have := valid.year
  unfold Clock.tick nextMinute nextHour nextDay nextMonth nextYear
  split_ifs
  all_goals
    constructor <;> grind

theorem Valid.atRead (valid : clock.Valid) (ticks : Nat → Bool) (k : Nat) : (clock.atRead ticks k).Valid := by
  induction k with
  | zero => exact valid
  | succ k ih =>
    unfold Clock.atRead
    split_ifs
    · exact ih.tick
    · exact ih

/-- The clock less than a minute later. -/
def later (clock : Clock) (seconds : Nat) : Clock :=
  if clock.second + seconds < 60 then { clock with second := clock.second + seconds }
  else { clock.nextMinute with second := clock.second + seconds - 60 }

theorem nextMinute_second (clock : Clock) (second : Nat) :
    nextMinute { clock with second := second } = { clock.nextMinute with second := second } := by
  unfold nextMinute nextHour nextDay nextMonth nextYear
  split_ifs <;> rfl

theorem tick_later (valid : clock.Valid) {seconds : Nat} (short : seconds < 59) :
    (clock.later seconds).tick = clock.later (seconds + 1) := by
  have second := valid.second
  unfold later
  by_cases before : clock.second + seconds < 60
  · rw [if_pos before]
    by_cases last : clock.second + seconds = 59
    · -- the carry into the minutes
      have none : clock.second + (seconds + 1) - 60 = 0 := by omega
      rw [if_neg (by omega), tick, if_pos last, none]
      exact nextMinute_second clock 0
    · rw [if_pos (by omega), tick, if_neg last]
      rfl
  · rw [if_neg before, if_neg (by omega), tick, if_neg (by dsimp only; omega)]
    simp only [Clock.mk.injEq, and_self, and_true]
    omega

theorem atRead_eq_later (valid : clock.Valid) {k : Nat} (short : k < 60) :
    clock.atRead ticks k = clock.later (ticksBefore ticks k) := by
  induction k with
  | zero =>
    unfold later
    rw [ticksBefore, Nat.add_zero, if_pos valid.second]
    rfl
  | succ k ih =>
    have few := ticksBefore_le ticks k
    unfold atRead ticksBefore
    rw [ih (by omega)]
    split_ifs
    · exact tick_later valid (by omega)
    · rfl

/-! A register differs from what it was at the first read when the carry has reached it. -/

variable {seconds : Nat}

theorem later_second (valid : clock.Valid) (short : seconds < 60) :
    (clock.later seconds).second = clock.second ↔ seconds = 0 := by
  have := valid.second
  unfold later
  split_ifs
  · dsimp only
    omega
  · dsimp only
    omega

theorem later_minute (valid : clock.Valid) :
    (clock.later seconds).minute = clock.minute ↔ clock.second + seconds < 60 := by
  have := valid.minute
  unfold later nextMinute nextHour nextDay nextMonth nextYear
  grind

theorem later_hour (valid : clock.Valid) :
    (clock.later seconds).hour = clock.hour ↔
      (clock.minute = 59 → clock.second + seconds < 60) := by
  have := valid.hour
  unfold later nextMinute nextHour nextDay nextMonth nextYear
  grind

theorem later_day (valid : clock.Valid) :
    (clock.later seconds).day = clock.day ↔
      (clock.minute = 59 → clock.hour = 23 → clock.second + seconds < 60) := by
  have := valid.day
  have : monthLength clock.month clock.year ≠ 1 := by
    unfold monthLength
    grind
  unfold later nextMinute nextHour nextDay nextMonth nextYear
  grind

theorem later_month (valid : clock.Valid) :
    (clock.later seconds).month = clock.month ↔
      (clock.minute = 59 → clock.hour = 23 → clock.day = monthLength clock.month clock.year →
        clock.second + seconds < 60) := by
  have := valid.month
  unfold later nextMinute nextHour nextDay nextMonth nextYear
  grind

theorem later_year (valid : clock.Valid) :
    (clock.later seconds).year = clock.year ↔
      (clock.minute = 59 → clock.hour = 23 → clock.day = monthLength clock.month clock.year →
        clock.month = 12 → clock.second + seconds < 60) := by
  have := valid.year
  unfold later nextMinute nextHour nextDay nextMonth nextYear
  grind

end Clock

/-! ### What the driver stores -/

theorem rtcRead_bcd {cmos : Cmos} {register : BitVec 8} {number : Nat} (small : number < 100)
    (holds : cmos register = Clock.bcd number) :
    rtcRead cmos register = BitVec.ofNat 32 number ∧
      (rtcRead cmos register).setWidth 16 = BitVec.ofNat 16 number := by
  have decode : ∀ n < 100, ((((Clock.bcd n).setWidth 32 >>> 4) &&& 0x0F) * 10 +
      ((Clock.bcd n).setWidth 32 &&& 0x0F) : BitVec 32) = BitVec.ofNat 32 n := by
    decide
  have read : rtcRead cmos register = BitVec.ofNat 32 number := by
    unfold rtcRead
    rw [holds]
    exact decode number small
  exact ⟨read, by rw [read, BitVec.setWidth_ofNat_of_le (by decide)]⟩

theorem rtcStored_eq (valid : clock.Valid) (others : Cmos) (ticks : Nat → Bool) :
    rtcStored clock others ticks =
      { year := (clock.atRead ticks 5).shown.year
        month := (clock.atRead ticks 4).shown.month
        day := (clock.atRead ticks 3).shown.day
        hour := (clock.atRead ticks 2).shown.hour
        minute := (clock.atRead ticks 1).shown.minute
        second := clock.shown.second } := by
  have century : ∀ y < 100, ((if (BitVec.ofNat 32 y).toNat < 70 then BitVec.ofNat 32 y + 100
      else BitVec.ofNat 32 y) + 1900).setWidth 16 =
      BitVec.ofNat 16 (if y < 70 then 2000 + y else 1900 + y) := by
    decide
  have days := (valid.atRead ticks 3).day
  have short := Clock.monthLength_le (clock.atRead ticks 3).month (clock.atRead ticks 3).year
  have months := (valid.atRead ticks 4).month
  have hours := (valid.atRead ticks 2).hour
  have minutes := (valid.atRead ticks 1).minute
  have seconds := valid.second
  apply Time.ext
  · have year := (valid.atRead ticks 5).year
    refine Eq.trans ?_ (century _ year)
    have read : rtcRead ((clock.atRead ticks 5).registers others) rtcYear = _ :=
      (rtcRead_bcd year rfl).1
    rw [← read]
    rfl
  · exact (rtcRead_bcd (by omega) rfl).2
  · exact (rtcRead_bcd (by omega) rfl).2
  · exact (rtcRead_bcd (by omega) rfl).2
  · exact (rtcRead_bcd (by omega) rfl).2
  · exact (rtcRead_bcd (by omega) rfl).2

theorem ofNat16_inj {a b : Nat} (left : a < 65536) (right : b < 65536) :
    BitVec.ofNat 16 a = BitVec.ofNat 16 b ↔ a = b := by
  constructor
  · intro same
    have := congrArg BitVec.toNat same
    rw [BitVec.toNat_ofNat, BitVec.toNat_ofNat] at this
    omega
  · rintro rfl
    rfl

theorem Clock.shown_inj {first second : Clock} (left : first.Valid) (right : second.Valid) :
    (first.shown.year = second.shown.year ↔ first.year = second.year) ∧
    (first.shown.month = second.shown.month ↔ first.month = second.month) ∧
    (first.shown.day = second.shown.day ↔ first.day = second.day) ∧
    (first.shown.hour = second.shown.hour ↔ first.hour = second.hour) ∧
    (first.shown.minute = second.shown.minute ↔ first.minute = second.minute) ∧
    (first.shown.second = second.shown.second ↔ first.second = second.second) := by
  have dayLeft := left.day.2.trans (monthLength_le _ _)
  have dayRight := right.day.2.trans (monthLength_le _ _)
  have monthLeft := left.month.2
  have monthRight := right.month.2
  have yearLeft := left.year
  have yearRight := right.year
  refine ⟨?_, ofNat16_inj (by omega) (by omega), ofNat16_inj (by omega) (by omega),
    ofNat16_inj (left.hour.trans (by decide)) (right.hour.trans (by decide)),
    ofNat16_inj (left.minute.trans (by decide)) (right.minute.trans (by decide)),
    ofNat16_inj (left.second.trans (by decide)) (right.second.trans (by decide))⟩
  refine (ofNat16_inj (by split_ifs <;> omega) (by split_ifs <;> omega)).trans ?_
  split_ifs <;> omega

theorem rtcStored_eq_shown_iff (valid : clock.Valid) (others : Cmos) (ticks : Nat → Bool) :
    rtcStored clock others ticks = clock.shown ↔ ReadInTime clock ticks := by
  have fields (k : Nat) := Clock.shown_inj (valid.atRead ticks k) valid
  have year := (fields 5).1
  have month := (fields 4).2.1
  have day := (fields 3).2.2.1
  have hour := (fields 2).2.2.2.1
  have minute := (fields 1).2.2.2.2.1
  rw [Clock.atRead_eq_later valid (by decide)] at year month day hour minute
  rw [rtcStored_eq valid, Clock.atRead_eq_later valid (by decide),
    Clock.atRead_eq_later valid (by decide), Clock.atRead_eq_later valid (by decide),
    Clock.atRead_eq_later valid (by decide), Clock.atRead_eq_later valid (by decide), Time.ext_iff]
  dsimp only
  rw [year, month, day, hour, minute, Clock.later_year valid, Clock.later_month valid,
    Clock.later_day valid, Clock.later_hour valid, Clock.later_minute valid]
  constructor
  · intro same
    obtain ⟨years, months, days, hours, minutes, -⟩ := same
    exact ⟨minutes, hours, days, months, years⟩
  · intro inTime
    exact ⟨inTime.year, inTime.month, inTime.day, inTime.hour, inTime.minute, rfl⟩

/-- The time stored is one the clock showed during the reads exactly if every register is
read before a carry reaches it. -/
theorem rtcTime_not_torn_iff (valid : clock.Valid) (others : Cmos) (ticks : Nat → Bool) :
    (∃ k ≤ 5, rtcStored clock others ticks = (clock.atRead ticks k).shown) ↔
      ReadInTime clock ticks := by
  rw [← rtcStored_eq_shown_iff valid others]
  constructor
  · intro showed
    obtain ⟨k, inside, same⟩ := showed
    -- the seconds are those of the first read, and only five ticks can have passed
    have second : (clock.atRead ticks k).shown.second = clock.shown.second := by
      rw [← same, rtcStored_eq valid]
    have few := ticksBefore_le ticks k
    have fields := Clock.shown_inj (valid.atRead ticks k) valid
    rw [fields.2.2.2.2.2, Clock.atRead_eq_later valid (by omega),
      Clock.later_second valid (by omega)] at second
    rw [same, Clock.atRead_eq_later valid (by omega), second]
    unfold Clock.later
    rw [Nat.add_zero, if_pos valid.second]
  · intro same
    exact ⟨0, by decide, same⟩

/-- One second before noon. -/
def beforeNoon : Clock :=
  { second := 59, minute := 59, hour := 11, day := 17, month := 11, year := 26 }

theorem beforeNoon_valid : beforeNoon.Valid :=
  ⟨by decide, by decide, by decide, by decide, by decide, by decide⟩

theorem rtcTime_not_torn_beforeNoon :
    ∃ k ≤ 5, rtcStored beforeNoon (fun _ => 0) (fun k => k = 4) =
      (beforeNoon.atRead (fun k => k = 4) k).shown :=
  (rtcTime_not_torn_iff beforeNoon_valid (fun _ => 0) (fun k => k = 4)).2
    ⟨by decide, by decide, by decide, by decide, by decide⟩

/-- The carry into the hours comes after the seconds are read: the time stored is a minute
behind the seconds it is stored with. -/
theorem rtcTime_torn_beforeNoon :
    beforeNoon.Valid ∧
    rtcStored beforeNoon (fun _ => 0) (fun k => k = 0) =
      { year := 2026, month := 11, day := 17, hour := 12, minute := 0, second := 59 } ∧
    ∀ k ≤ 5, rtcStored beforeNoon (fun _ => 0) (fun k => k = 0) ≠
      (beforeNoon.atRead (fun k => k = 0) k).shown := by
  constructor
  · exact beforeNoon_valid
  · decide +kernel

end Osdev64
