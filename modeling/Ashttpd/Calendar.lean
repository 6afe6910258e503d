import Mathlib.Data.Nat.Notation
import Mathlib.Tactic.IntervalCases

/-!
# The calendar

Dates of the Gregorian calendar and the days and seconds from the start of the year 0. Months are
counted from 0. The years that begin in March put the day that a leap year has more at their end.
-/
namespace Ashttpd.Calendar

def isLeap (year : ℕ) : Bool := year % 4 == 0 && (year % 100 != 0 || year % 400 == 0)

def yearDays (year : ℕ) : ℕ := if isLeap year then 366 else 365

/-- The days of a month, in a leap year or in another one. -/
def monthDays (leap : Bool) : ℕ → ℕ
  | 1 => if leap then 29 else 28
  | 3 | 5 | 8 | 10 => 30
  | _ => 31

/-- The days of all years before. -/
def daysBeforeYear : ℕ → ℕ
  | 0 => 0
  | year + 1 => daysBeforeYear year + yearDays year

/-- The days of the months before, in a leap year or in another one. -/
def daysBeforeMonth (leap : Bool) : ℕ → ℕ
  | 0 => 0
  | month + 1 => daysBeforeMonth leap month + monthDays leap month

structure Date where
  year : ℕ
  month : ℕ
  day : ℕ

namespace Date

structure Valid (d : Date) : Prop where
  month : d.month < 12
  day_pos : 1 ≤ d.day
  day_le : d.day ≤ monthDays (isLeap d.year) d.month

def number (d : Date) : ℕ := daysBeforeYear d.year + daysBeforeMonth (isLeap d.year) d.month + (d.day - 1)

def weekday (d : Date) : ℕ := (d.number + 6) % 7

end Date

/-- A second of a day. -/
structure Instant extends Date where
  hour : ℕ
  min : ℕ
  sec : ℕ

structure Instant.Valid (i : Instant) : Prop extends i.toDate.Valid where
  hour : i.hour < 24
  min : i.min < 60
  sec : i.sec < 60

def Instant.seconds (i : Instant) : ℕ := i.number * 86400 + i.hour * 3600 + i.min * 60 + i.sec

theorem yearDays_le (year : ℕ) : yearDays year ≤ 366 := by
  unfold yearDays
  split <;> decide

theorem yearDays_add (year : ℕ) : yearDays year + (if year % 100 = 0 then 1 else 0) =
    365 + (if year % 4 = 0 then 1 else 0) + if year % 400 = 0 then 1 else 0 := by
  have hleap : isLeap year = decide (year % 4 = 0 ∧ (year % 100 ≠ 0 ∨ year % 400 = 0)) := by
    simp [isLeap, Bool.decide_and, Bool.decide_or, bne, Bool.beq_eq_decide_eq]
  rw [yearDays, hleap]
  by_cases h4 : year % 4 = 0 <;> by_cases h100 : year % 100 = 0 <;> by_cases h400 : year % 400 = 0 <;>
    simp [h4, h100, h400] <;> omega

theorem daysBeforeYear_eq (year : ℕ) :
    daysBeforeYear year + (year + 99) / 100 = 365 * year + (year + 3) / 4 + (year + 399) / 400 := by
  induction year with
  | zero => rfl
  | succ year ih =>
    have hdays := yearDays_add year
    have h4 : (year + 1 + 3) / 4 = (year + 3) / 4 + if year % 4 = 0 then 1 else 0 := by split <;> omega
    have h100 : (year + 1 + 99) / 100 = (year + 99) / 100 + if year % 100 = 0 then 1 else 0 := by split <;> omega
    have h400 : (year + 1 + 399) / 400 = (year + 399) / 400 + if year % 400 = 0 then 1 else 0 := by split <;> omega
    rw [daysBeforeYear, h4, h100, h400]
    omega

theorem monthDays_pos (leap : Bool) (month : ℕ) : 0 < monthDays leap month := by
  unfold monthDays
  split <;> first | decide | (split <;> decide)

theorem monthDays_le (leap : Bool) (month : ℕ) : monthDays leap month ≤ 31 := by
  unfold monthDays
  split
  · split <;> decide
  all_goals decide

theorem daysBeforeMonth_strictMono (leap : Bool) : StrictMono (daysBeforeMonth leap) :=
  strictMono_nat_of_lt_succ fun month => Nat.lt_add_of_pos_right (monthDays_pos leap month)

theorem Date.number_lt {year month month' day : ℕ} (h : month < month') :
    Date.number ⟨year, month, day⟩ < Date.number ⟨year, month', day⟩ := by
  have hlt := daysBeforeMonth_strictMono (isLeap year) h
  simp only [Date.number]
  omega

/-- The days from the first March on, in the `yoe`-th year of an era of 400 such years. -/
def marchYearStart (yoe : ℕ) : ℕ := 365 * yoe + yoe / 4 - yoe / 100

/-- The year of an era that a day falls into, by the days that the eras of 4, 100 and 400 years have more. -/
def marchYear (doe : ℕ) : ℕ := (doe - doe / 1460 + doe / 36524 - doe / 146096) / 365

private theorem marchYear_mono {m n : ℕ} (h : m ≤ n) : marchYear m ≤ marchYear n := by
  have hstep : ∀ k, k - k / 1460 + k / 36524 - k / 146096 ≤
      k + 1 - (k + 1) / 1460 + (k + 1) / 36524 - (k + 1) / 146096 := by
    intro k
    omega
  exact Nat.div_le_div_right (monotone_nat_of_le_succ hstep h)

private theorem marchYear_bounds : ∀ k < 400, k ≤ marchYear (marchYearStart k) ∧
    (k ≠ 399 → marchYear (marchYearStart (k + 1) - 1) ≤ k) := by
  decide +kernel

/-- A day of an era stands between the start of its year and that of the next one. -/
theorem marchYear_spec {doe : ℕ} (h : doe < 146097) : marchYear doe < 400 ∧ marchYearStart (marchYear doe) ≤ doe ∧
    (marchYear doe ≠ 399 → doe < marchYearStart (marchYear doe + 1)) := by
  have hlt : marchYear doe < 400 := by
    have hle : marchYear doe ≤ marchYear 146096 := marchYear_mono (by omega)
    have hlast : marchYear 146096 = 399 := by decide
    omega
  refine ⟨hlt, ?_, fun hne => ?_⟩
  · by_contra hbefore
    obtain ⟨k, hk⟩ : ∃ k, marchYear doe = k + 1 := by
      refine ⟨marchYear doe - 1, ?_⟩
      have hpos : marchYear doe ≠ 0 := by
        intro hzero
        rw [hzero] at hbefore
        exact hbefore (Nat.zero_le _)
      omega
    have hle := (marchYear_bounds k (by omega)).2 (by omega)
    rw [hk] at hbefore
    have hmono : marchYear doe ≤ marchYear (marchYearStart (k + 1) - 1) := marchYear_mono (by omega)
    omega
  · by_contra hafter
    have hle := (marchYear_bounds (marchYear doe + 1) (by omega)).1
    have hmono : marchYear (marchYearStart (marchYear doe + 1)) ≤ marchYear doe := marchYear_mono (by omega)
    omega

def marchMonth (doy : ℕ) : ℕ := (5 * doy + 2) / 153

def marchMonthStart (mp : ℕ) : ℕ := (153 * mp + 2) / 5

/-- The date of a day, counted from the first of March in the year 0. -/
def ofMarchDays (z : ℕ) : Date :=
  let yoe := marchYear (z % 146097)
  let doy := z % 146097 - marchYearStart yoe
  let mp := marchMonth doy
  let month := if mp < 10 then mp + 2 else mp - 10
  ⟨yoe + 400 * (z / 146097) + if month ≤ 1 then 1 else 0, month, doy - marchMonthStart mp + 1⟩

theorem daysBeforeYear_march (yoe era : ℕ) (h : yoe < 400) :
    daysBeforeYear (yoe + 400 * era) + yearDays (yoe + 400 * era) = marchYearStart yoe + 146097 * era + 366 := by
  have hnext := daysBeforeYear_eq (yoe + 400 * era + 1)
  rw [daysBeforeYear] at hnext
  unfold marchYearStart
  omega

private theorem monthDays_march : ∀ leap : Bool, ∀ mp < 10,
    daysBeforeMonth leap (mp + 2) = marchMonthStart mp + (if leap then 60 else 59) ∧
      monthDays leap (mp + 2) = marchMonthStart (mp + 1) - marchMonthStart mp := by
  decide

theorem marchMonth_spec (doy : ℕ) : marchMonthStart (marchMonth doy) ≤ doy ∧ doy < marchMonthStart (marchMonth doy + 1) := by
  unfold marchMonthStart marchMonth
  omega

/-- The length of a year from March on is told by the year it ends in. -/
theorem marchYear_days {doe : ℕ} (era : ℕ) (h : doe < 146097) :
    doe - marchYearStart (marchYear doe) < yearDays (marchYear doe + 400 * era + 1) := by
  obtain ⟨hyoe, hstart, hend⟩ := marchYear_spec h
  generalize marchYear doe = yoe at *
  by_cases hlast : yoe = 399
  · have hleap : yearDays (yoe + 400 * era + 1) = 366 := by
      have hdays := yearDays_add (yoe + 400 * era + 1)
      have h400 : (yoe + 400 * era + 1) % 400 = 0 := by omega
      have h100 : (yoe + 400 * era + 1) % 100 = 0 := by omega
      have h4 : (yoe + 400 * era + 1) % 4 = 0 := by omega
      rw [if_pos h400, if_pos h100, if_pos h4] at hdays
      omega
    have hfirst : marchYearStart yoe = 145731 := by
      rw [hlast]
      rfl
    omega
  · have hmarch := daysBeforeYear_march yoe era hyoe
    have hnext := daysBeforeYear_march (yoe + 1) era (by omega)
    have hyear : yoe + 1 + 400 * era = yoe + 400 * era + 1 := by omega
    have hlt := hend hlast
    rw [hyear, daysBeforeYear] at hnext
    omega

section march

variable {year doy mp : ℕ} (hlow : marchMonthStart mp ≤ doy) (hhigh : doy < marchMonthStart (mp + 1))

include hlow hhigh

/-- The months from March to December belong to the year in which the March is. -/
theorem date_fromMarch (hten : mp < 10) : (Date.mk year (mp + 2) (doy - marchMonthStart mp + 1)).Valid ∧
    (Date.mk year (mp + 2) (doy - marchMonthStart mp + 1)).number + 306 = daysBeforeYear (year + 1) + doy := by
  obtain ⟨hbefore, hdays⟩ := monthDays_march (isLeap year) mp hten
  refine ⟨⟨?_, ?_, ?_⟩, ?_⟩
  · show mp + 2 < 12
    omega
  · show 1 ≤ doy - marchMonthStart mp + 1
    omega
  · show doy - marchMonthStart mp + 1 ≤ monthDays (isLeap year) (mp + 2)
    omega
  · show daysBeforeYear year + daysBeforeMonth (isLeap year) (mp + 2) + (doy - marchMonthStart mp + 1 - 1) + 306 = _
    rw [hbefore, daysBeforeYear, yearDays]
    split
    · omega
    · omega

/-- January and February belong to the next one. -/
theorem date_beforeMarch (hcase : mp = 10 ∨ mp = 11) (hyear : doy < yearDays (year + 1)) :
    (Date.mk (year + 1) (mp - 10) (doy - marchMonthStart mp + 1)).Valid ∧
      (Date.mk (year + 1) (mp - 10) (doy - marchMonthStart mp + 1)).number + 306 = daysBeforeYear (year + 1) + doy := by
  have h10 : marchMonthStart 10 = 306 := rfl
  have h11 : marchMonthStart 11 = 337 := rfl
  have hlength : yearDays (year + 1) = (if isLeap (year + 1) then 29 else 28) + 337 := by
    unfold yearDays
    split
    · rfl
    · rfl
  rcases hcase with rfl | rfl
  · have hnext : doy < 337 := hhigh
    refine ⟨⟨Nat.succ_pos 11, Nat.succ_pos _, ?_⟩, ?_⟩
    · show doy - marchMonthStart 10 + 1 ≤ 31
      omega
    · show daysBeforeYear (year + 1) + 0 + (doy - marchMonthStart 10 + 1 - 1) + 306 = _
      omega
  · refine ⟨⟨Nat.succ_lt_succ (Nat.succ_pos 10), Nat.succ_pos _, ?_⟩, ?_⟩
    · show doy - marchMonthStart 11 + 1 ≤ if isLeap (year + 1) then 29 else 28
      omega
    · show daysBeforeYear (year + 1) + (0 + 31) + (doy - marchMonthStart 11 + 1 - 1) + 306 = _
      omega

end march

/-- Dates counted from a March are valid, and it is known how many days come before them. -/
theorem ofMarchDays_spec (z : ℕ) : (ofMarchDays z).Valid ∧ (ofMarchDays z).number = z + 60 := by
  have hdoe : z % 146097 < 146097 := Nat.mod_lt _ (by decide)
  have hz : z = z % 146097 + 146097 * (z / 146097) := (Nat.mod_add_div z 146097).symm
  obtain ⟨hyoe, hstart, -⟩ := marchYear_spec hdoe
  have hlength := marchYear_days (z / 146097) hdoe
  have hmarch : daysBeforeYear (marchYear (z % 146097) + 400 * (z / 146097) + 1) = _ := daysBeforeYear_march _ _ hyoe
  unfold ofMarchDays
  dsimp only
  generalize z % 146097 = doe at *
  generalize z / 146097 = era at *
  obtain ⟨hlow, hhigh⟩ := marchMonth_spec (doe - marchYearStart (marchYear doe))
  generalize marchYear doe = yoe at *
  generalize marchMonth (doe - marchYearStart yoe) = mp at *
  by_cases hten : mp < 10
  · have hmonth : ¬ mp + 2 ≤ 1 := by omega
    obtain ⟨hvalid, hnumber⟩ := @date_fromMarch (yoe + 400 * era) _ _ hlow hhigh hten
    rw [if_pos hten, if_neg hmonth, Nat.add_zero]
    exact ⟨hvalid, by omega⟩
  · have hcase : mp = 10 ∨ mp = 11 := by
      have hyear := yearDays_le (yoe + 400 * era + 1)
      unfold marchMonthStart at hlow
      omega
    obtain ⟨hvalid, hnumber⟩ := date_beforeMarch hlow hhigh hcase hlength
    have hmonth : mp - 10 ≤ 1 := by omega
    rw [if_neg hten, if_pos hmonth]
    exact ⟨hvalid, by omega⟩

end Ashttpd.Calendar
