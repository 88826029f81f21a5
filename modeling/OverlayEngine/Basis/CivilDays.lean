import Mathlib.Algebra.GroupWithZero.Nat
import Mathlib.Tactic.Common
import Mathlib.Tactic.IntervalCases

/-!
# The civil calendar

The proleptic Gregorian calendar by counting: the days of each year before a
year, of each month before a month. The days from a date by eras of 400 years,
with the year begun in March, are the days counted.
-/

namespace CivilDays

def isLeap (year : Nat) : Bool := year % 4 = 0 && (year % 100 ≠ 0 || year % 400 = 0)

def daysInMonth (year : Nat) : Nat → Nat
  | 1 | 3 | 5 | 7 | 8 | 10 | 12 => 31
  | 4 | 6 | 9 | 11 => 30
  | 2 => if isLeap year then 29 else 28
  | _ => 0

def daysInYear (year : Nat) : Nat := if isLeap year then 366 else 365

/-- The days of the years before `year`, from year 0. -/
def daysBeforeYear : Nat → Nat
  | 0 => 0
  | year + 1 => daysBeforeYear year + daysInYear year

/-- The days of the months of `year` before `month`. -/
def daysBeforeMonth (year : Nat) : Nat → Nat
  | 0 => 0
  | month + 1 => daysBeforeMonth year month + daysInMonth year month

def IsDate (year month day : Nat) : Prop := (1 ≤ month ∧ month ≤ 12) ∧ 1 ≤ day ∧ day ≤ daysInMonth year month

def epochDay (year month day : Nat) : Int :=
  daysBeforeYear year + daysBeforeMonth year month + day - 1 - daysBeforeYear 1970

theorem daysBeforeYear_add (year : Nat) :
    daysBeforeYear year + (year + 99) / 100 = 365 * year + (year + 3) / 4 + (year + 399) / 400 := by
  induction year with
  | zero => rfl
  | succ year ih =>
    have hfour : (year + 1 + 3) / 4 = (year + 3) / 4 + if year % 4 = 0 then 1 else 0 := by split <;> omega
    have hhundred : (year + 1 + 99) / 100 = (year + 99) / 100 + if year % 100 = 0 then 1 else 0 := by split <;> omega
    have hcentury : (year + 1 + 399) / 400 = (year + 399) / 400 + if year % 400 = 0 then 1 else 0 := by split <;> omega
    have h100 : year % 100 = 0 → year % 4 = 0 := by omega
    have h400 : year % 400 = 0 → year % 100 = 0 := by omega
    rw [daysBeforeYear, daysInYear, isLeap, hfour, hhundred, hcentury]
    clear hfour hhundred hcentury
    by_cases h4 : year % 4 = 0
    · by_cases h1 : year % 100 = 0
      · by_cases h2 : year % 400 = 0
        · simp only [h4, h1, h2, decide_true, ne_eq, not_true, decide_false, Bool.or_true, Bool.and_true, if_true]
          omega
        · simp only [h4, h1, h2, decide_true, ne_eq, not_true, decide_false, Bool.or_false, Bool.and_false, Bool.false_eq_true, if_true, if_false]
          omega
      · simp only [h4, h1, mt h400 h1, decide_true, ne_eq, not_false_eq_true, Bool.true_or, Bool.and_true, if_true, if_false]
        omega
    · simp only [h4, mt h100 h4, mt h400 (mt h100 h4), decide_false, Bool.false_and, Bool.false_eq_true, if_false]
      omega

theorem daysBeforeYear_eq (year : Nat) :
    daysBeforeYear year = 365 * year + (year + 3) / 4 - (year + 99) / 100 + (year + 399) / 400 := by
  have hadd := daysBeforeYear_add year
  omega

def marchYear (year : Int) (month : Nat) : Int := if month ≤ 2 then year - 1 else year

def marchMonth (month : Nat) : Nat := if month ≤ 2 then month + 9 else month - 3

def daysFromCivil (year : Int) (month day : Nat) : Int :=
  let y := marchYear year month
  let era := (if 0 ≤ y then y else y - 399).tdiv 400
  let yoe := y - era * 400
  let doy := (153 * (marchMonth month : Int) + 2).tdiv 5 + day - 1
  let doe := yoe * 365 + yoe.tdiv 4 - yoe.tdiv 100 + doy
  era * 146097 + doe - 719468

theorem daysBeforeMonth_eq (year : Nat) {month : Nat} (h : 1 ≤ month ∧ month ≤ 12) : daysBeforeMonth year month =
    if month ≤ 2 then 31 * (month - 1) else (153 * (month - 3) + 2) / 5 + 59 + (isLeap year).toNat := by
  obtain ⟨h1, h2⟩ := h
  cases hl : isLeap year <;> interval_cases month <;> simp [daysBeforeMonth, daysInMonth, hl]

theorem daysBeforeYear_succ (year : Nat) : daysBeforeYear (year + 1) = daysBeforeYear year + 365 + (isLeap year).toNat := by
  rw [daysBeforeYear]
  unfold daysInYear
  cases isLeap year <;> rfl

theorem era_days (y : Nat) : ((y : Int) / 400) * 146097 + (((y : Int) - (y : Int) / 400 * 400) * 365 +
    ((y : Int) - (y : Int) / 400 * 400) / 4 - ((y : Int) - (y : Int) / 400 * 400) / 100) = daysBeforeYear (y + 1) - 366 := by
  rw [daysBeforeYear_eq]
  omega

theorem daysFromCivil_eq (year day : Nat) {month : Nat} (h : 1 ≤ month ∧ month ≤ 12) :
    daysFromCivil year month day = epochDay year month day := by
  have hbase : daysBeforeYear 1970 = 719528 := by rw [daysBeforeYear_eq]
  have hmonth := daysBeforeMonth_eq year h
  have hdoy : (153 * (marchMonth month : Int) + 2).tdiv 5 = (153 * (marchMonth month : Int) + 2) / 5 :=
    Int.tdiv_eq_ediv_of_nonneg (by omega)
  unfold daysFromCivil epochDay
  simp only
  rw [hdoy, hmonth, hbase]
  by_cases hm : month ≤ 2
  · simp only [marchYear, marchMonth, if_pos hm]
    cases year with
    | zero =>
      -- year 0 before March belongs to the era before
      have hera : (if 0 ≤ ((0 : Nat) : Int) - 1 then ((0 : Nat) : Int) - 1 else ((0 : Nat) : Int) - 1 - 399).tdiv 400 = -1 := rfl
      have h4 : (((0 : Nat) : Int) - 1 - -1 * 400).tdiv 4 = 99 := rfl
      have h100 : (((0 : Nat) : Int) - 1 - -1 * 400).tdiv 100 = 3 := rfl
      rw [hera, h4, h100, show daysBeforeYear 0 = 0 from rfl]
      omega
    | succ y =>
      have hy : ((y + 1 : Nat) : Int) - 1 = y := by omega
      have hera := era_days y
      rw [hy, if_pos (by omega), Int.tdiv_eq_ediv_of_nonneg (by omega), Int.tdiv_eq_ediv_of_nonneg (by omega),
        Int.tdiv_eq_ediv_of_nonneg (by omega)]
      omega
  · simp only [marchYear, marchMonth, if_neg hm]
    have hera := era_days year
    rw [daysBeforeYear_succ] at hera
    rw [if_pos (by omega), Int.tdiv_eq_ediv_of_nonneg (by omega), Int.tdiv_eq_ediv_of_nonneg (by omega),
      Int.tdiv_eq_ediv_of_nonneg (by omega)]
    omega

end CivilDays
