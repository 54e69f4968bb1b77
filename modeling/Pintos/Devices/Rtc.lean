/-
`rtc_get_time` of `devices/rtc.c`.

The registers do not change during the call, so that its loop ends after
the first round. `time` is an `unsigned long`, everything else an `int`;
no value of a valid date leaves its type.

The loop over the months runs up to the current month and adds its days
too. Years are counted from 1970, which is two years after a leap year,
and the code takes every fourth of them from 1970 on for a leap year. So
the time is some weeks ahead, and jumps at the ends of months. The offset
(`excess`) depends on the month only: differences are right where it is
the same, within a month and between July and August.
-/
import Mathlib.Logic.Basic

namespace Pintos.Rtc

-- ==== the source

def bcdToBin (x : BitVec 8) : Int := (x &&& 0x0f).toNat + (x >>> 4).toNat * 10

def daysPerMonth : List Int := [31, 28, 31, 30, 31, 30, 31, 31, 30, 31, 30, 31]

/-- The seconds of the year, its months up to `mon`, and its leap day. -/
def monthTime (year : Int) (mon : Nat) : Int :=
  let time := (year * 365 + (year - 1).tdiv 4) * 24 * 60 * 60
  let time := (List.range mon).foldl
    (fun time i => time + daysPerMonth.getD i 0 * 24 * 60 * 60) time
  if mon > 2 ∧ year.tmod 4 = 0 then time + 24 * 60 * 60 else time

/-- `rtc_get_time`, over the contents of the CMOS registers. -/
def rtcGetTime (cmos : Nat → BitVec 8) : Int :=
  let year := bcdToBin (cmos 9)
  let year := (if year < 70 then year + 100 else year) - 70
  monthTime year (bcdToBin (cmos 8)).toNat + (bcdToBin (cmos 7) - 1) * 24 * 60 * 60 +
    bcdToBin (cmos 4) * 60 * 60 + bcdToBin (cmos 2) * 60 + bcdToBin (cmos 0)

-- ==== the calendar

def isLeap (year : Nat) : Bool := year % 4 == 0 && (year % 100 != 0 || year % 400 == 0)

/-- The length of month `mon + 1`. -/
def monthLength (year mon : Nat) : Nat :=
  if mon = 1 then if isLeap year then 29 else 28
  else if mon = 3 ∨ mon = 5 ∨ mon = 8 ∨ mon = 10 then 30 else 31

def yearLength (year : Nat) : Nat := if isLeap year then 366 else 365

/-- The days from the epoch to the first of month `mon + 1`. -/
def daysBefore (year mon : Nat) : Nat :=
  let days := (List.range (year - 1970)).foldl (fun days y => days + yearLength (1970 + y)) 0
  (List.range mon).foldl (fun days m => days + monthLength year m) days

/-- A date and time of day, its month and day counted from one. -/
structure Date where
  year : Nat
  mon : Nat
  mday : Nat
  hour : Nat
  min : Nat
  sec : Nat

/-- From the epoch to the last day of a 31-bit `time_t`. -/
structure Date.Valid (d : Date) : Prop where
  year : 1970 ≤ d.year
  mon : 1 ≤ d.mon ∧ d.mon ≤ 12
  mday : 1 ≤ d.mday ∧ d.mday ≤ monthLength d.year (d.mon - 1)
  time : d.hour < 24 ∧ d.min < 60 ∧ d.sec < 60
  last : d.year < 2038 ∨ d.year = 2038 ∧ d.mon = 1 ∧ d.mday ≤ 19

def unixTime (d : Date) : Nat :=
  (daysBefore d.year (d.mon - 1) + (d.mday - 1)) * 86400 + d.hour * 3600 + d.min * 60 + d.sec

def bcd (n : Nat) : BitVec 8 := BitVec.ofNat 8 (n / 10 * 16 + n % 10)

/-- The registers, with a year of two digits. -/
def registers (d : Date) : Nat → BitVec 8
  | 0 => bcd d.sec
  | 2 => bcd d.min
  | 4 => bcd d.hour
  | 7 => bcd d.mday
  | 8 => bcd d.mon
  | 9 => bcd (d.year % 100)
  | _ => 0

/-- How many days the clock is ahead in a month. -/
def excess (year mon : Nat) : Int := monthTime (year - 1970) mon / 86400 - daysBefore year (mon - 1)

-- ==== the difference

theorem bcdToBin_bcd {n : Nat} (h : n < 100) : bcdToBin (bcd n) = n := by
  have hall : ∀ n : Fin 100, bcdToBin (bcd n) = n := by decide +kernel
  exact hall ⟨n, h⟩

/-- Month by month: whole days, and some weeks too many. -/
theorem monthTime_days {year mon : Nat} (hy : 1970 ≤ year ∧ year ≤ 2038)
    (hm : 1 ≤ mon ∧ mon ≤ 12) : 26 ≤ excess year mon ∧ monthTime (year - 1970) mon =
      (daysBefore year (mon - 1) + excess year mon) * 86400 ∧
        monthTime (year - 1970) mon < 4294967296 - 31 * 86400 := by
  have hall : ∀ (y : Fin 69) (m : Fin 12), 26 ≤ excess (1970 + y) (m + 1) ∧ monthTime y (m + 1) =
      (daysBefore (1970 + y) m + excess (1970 + y) (m + 1)) * 86400 ∧
        monthTime y (m + 1) < 4294967296 - 31 * 86400 := by
    decide +kernel
  have h := hall ⟨year - 1970, by omega⟩ ⟨mon - 1, by omega⟩
  have hcast : ((year - 1970 : Nat) : Int) = year - 1970 := by omega
  simp only [hcast, Nat.add_sub_cancel' hy.1, Nat.sub_add_cancel hm.1] at h
  exact h

/-- For every date the clock is some weeks ahead, by the same number of
days throughout a month. -/
theorem rtcGetTime_excess {d : Date} (h : d.Valid) : 26 ≤ excess d.year d.mon ∧
    rtcGetTime (registers d) = unixTime d + excess d.year d.mon * 86400 ∧
      rtcGetTime (registers d) < 4294967296 := by
  obtain ⟨hy, hm, hd, ht, hl⟩ := h
  have hlen : monthLength d.year (d.mon - 1) ≤ 31 := by
    unfold monthLength
    grind
  obtain ⟨hlo, hmonth, hlt⟩ := monthTime_days ⟨hy, by omega⟩ hm
  have hyear : (if ((d.year % 100 : Nat) : Int) < 70 then ((d.year % 100 : Nat) : Int) + 100
      else (d.year % 100 : Nat)) - 70 = (d.year : Int) - 1970 := by
    split <;> omega
  have hrtc : rtcGetTime (registers d) = monthTime (d.year - 1970) d.mon +
      (d.mday - 1) * 24 * 60 * 60 + d.hour * 60 * 60 + d.min * 60 + d.sec := by
    simp only [rtcGetTime, registers]
    rw [bcdToBin_bcd (by omega), bcdToBin_bcd (by omega), bcdToBin_bcd (by omega),
      bcdToBin_bcd (by omega), bcdToBin_bcd (by omega), bcdToBin_bcd (by omega), hyear,
      Int.toNat_natCast]
  unfold unixTime
  omega

/-- The time is never right, and two times are as far apart as they should
be if and only if the clock is ahead by the same number of days at both. -/
theorem rtc_never_right (d : Date) (h : d.Valid) : rtcGetTime (registers d) ≠ unixTime d ∧
    ∀ d' : Date, d'.Valid →
      (rtcGetTime (registers d) - rtcGetTime (registers d') = (unixTime d : Int) - unixTime d' ↔
        excess d.year d.mon = excess d'.year d'.mon) := by
  obtain ⟨hahead, hd, -⟩ := rtcGetTime_excess h
  refine ⟨by omega, fun d' h' => ?_⟩
  obtain ⟨-, hd', -⟩ := rtcGetTime_excess h'
  omega

/-- July and August of a leap year: three weeks and a second apart as they
should be, and both wrong. -/
theorem rtc_never_right_summer :
    rtcGetTime (registers ⟨2000, 8, 5, 0, 0, 0⟩) ≠ unixTime ⟨2000, 8, 5, 0, 0, 0⟩ ∧
      rtcGetTime (registers ⟨2000, 8, 5, 0, 0, 0⟩) -
        rtcGetTime (registers ⟨2000, 7, 14, 23, 59, 59⟩) = 21 * 86400 + 1 := by
  obtain ⟨hnever, hdiff⟩ := rtc_never_right ⟨2000, 8, 5, 0, 0, 0⟩
    ⟨by decide, by decide, by decide, by decide, by decide⟩
  refine ⟨hnever, ?_⟩
  rw [(hdiff ⟨2000, 7, 14, 23, 59, 59⟩ ⟨by decide, by decide, by decide, by decide, by decide⟩).mpr
    (by decide +kernel)]
  decide +kernel

/-- The epoch is a month late, and the first of February before the last
of January. -/
theorem rtc_ahead_at_the_epoch : rtcGetTime (registers ⟨1970, 1, 1, 0, 0, 0⟩) = 31 * 86400 ∧
    rtcGetTime (registers ⟨1970, 2, 1, 0, 0, 0⟩) <
      rtcGetTime (registers ⟨1970, 1, 31, 0, 0, 0⟩) := by
  decide +kernel

end Pintos.Rtc
