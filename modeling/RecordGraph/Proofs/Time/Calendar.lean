import Mathlib.Tactic.ByContra
import Mathlib.Tactic.SplitIfs
import RecordGraph.Time.Calendar

/-!
# Days and dates

`Date.number_ofNumber`: the date of a day has that day's number, and `Date.exists_ofNumber`: it is a
date of the calendar. Both come from the bounds of a year (`yearStart_yearOf_le`,
`lt_yearStart_yearOf`) and of a month (`monthOf_spec`). `Date.number_lt_iff`: dates are numbered in
the order of their years, months and days.
-/
namespace RecordGraph.Calendar

theorem isLeap_eq (y : Int) :
    isLeap y = decide (y % 4 = 0 ∧ (y % 100 ≠ 0 ∨ y % 400 = 0)) := by
  rw [isLeap, Bool.eq_iff_iff]
  simp

/-- A year ends where the next one starts. -/
theorem yearStart_succ (y : Int) :
    yearStart (y + 1) = yearStart y + (if isLeap y then 366 else 365) := by
  simp only [yearStart, isLeap_eq, decide_eq_true_eq]
  split <;> omega

theorem yearStart_succ_le {y z : Int} (h : y < z) : yearStart (y + 1) ≤ yearStart z := by
  simp only [yearStart]
  omega

theorem yearStart_yearOf_le (n : Int) : yearStart (yearOf n) ≤ n := by
  simp only [yearOf]
  split_ifs with h1 h2
  · exact h1
  · exact h2
  · simp only [yearStart] at *
    omega

theorem lt_yearStart_yearOf (n : Int) : n < yearStart (yearOf n + 1) := by
  simp only [yearOf]
  split_ifs with h1 h2
  · simp only [yearStart] at *
    omega
  · omega
  · rw [Int.sub_add_cancel]
    omega

theorem monthStart_thirteen (leap : Bool) :
    monthStart leap 13 = if leap then 366 else 365 := by cases leap <;> rfl

theorem monthStart_le : ∀ (leap : Bool), ∀ m ≤ 13, ∀ k ≤ m,
    monthStart leap k ≤ monthStart leap m := by
  decide

theorem monthLength_le {m : Nat} (hm : m ≤ 12) (y : Int) : monthLength y m ≤ 31 :=
  (by decide : ∀ leap : Bool, ∀ m ≤ 12, monthStart leap (m + 1) - monthStart leap m ≤ 31) _ m hm

/-- The month of a day of the year exists, and the day lies within it. -/
theorem monthOf_spec : ∀ (leap : Bool), ∀ n < monthStart leap 13,
    1 ≤ monthOf leap n ∧ monthOf leap n ≤ 12 ∧ monthStart leap (monthOf leap n) ≤ n ∧
      n < monthStart leap (monthOf leap n + 1) := by
  decide +kernel

end RecordGraph.Calendar

namespace RecordGraph.Date

open Calendar

/-- The day of the year, counted from 0. -/
theorem dayOfYear_lt (n : Int) :
    (n - yearStart (yearOf n)).toNat < monthStart (isLeap (yearOf n)) 13 := by
  have := yearStart_yearOf_le n
  have := lt_yearStart_yearOf n
  have := yearStart_succ (yearOf n)
  have := monthStart_thirteen (isLeap (yearOf n))
  split_ifs at * <;> omega

/-- The date of a day has that day's number. -/
theorem number_ofNumber (n : Int) : (ofNumber n).number = n := by
  have hyear := yearStart_yearOf_le n
  obtain ⟨-, -, hmonth, -⟩ := monthOf_spec _ _ (dayOfYear_lt n)
  simp only [number, ofNumber]
  omega

theorem exists?_iff {d : Date} : d.exists? = true ↔
    1 ≤ d.month ∧ d.month ≤ 12 ∧ 1 ≤ d.day ∧ d.day ≤ monthLength d.year d.month := by
  simp only [exists?, Bool.and_eq_true, decide_eq_true_eq, and_assoc]

/-- The date of a day is in the calendar. -/
theorem exists_ofNumber (n : Int) : (ofNumber n).exists? = true := by
  obtain ⟨hfirst, hlast, hle, hlt⟩ := monthOf_spec _ _ (dayOfYear_lt n)
  rw [exists?_iff]
  simp only [ofNumber, monthLength]
  omega

/-! ## The order of dates -/

variable {d e : Date}

/-- A date of the calendar lies in its year. -/
theorem number_bounds (hd : d.exists? = true) :
    yearStart d.year ≤ d.number ∧ d.number < yearStart (d.year + 1) := by
  obtain ⟨hfirst, hlast, hone, hlength⟩ := exists?_iff.1 hd
  have hmonth := monthStart_le (isLeap d.year) 13 (Nat.le_refl 13) (d.month + 1) (by omega)
  have hyear := yearStart_succ d.year
  have hthirteen := monthStart_thirteen (isLeap d.year)
  rw [monthLength] at hlength
  rw [number]
  split_ifs at * <;> omega

theorem number_lt_of_lt (hd : d.exists? = true) (he : e.exists? = true)
    (h : d.year < e.year ∨
      d.year = e.year ∧ (d.month < e.month ∨ d.month = e.month ∧ d.day < e.day)) :
    d.number < e.number := by
  obtain ⟨-, -, hfirst, hlength⟩ := exists?_iff.1 hd
  obtain ⟨-, hlast, hfirst', -⟩ := exists?_iff.1 he
  rcases h with hyear | ⟨hyear, hmonth | ⟨hmonth, hday⟩⟩
  · have := (number_bounds hd).2
    have := (number_bounds he).1
    have := yearStart_succ_le hyear
    omega
  · have := monthStart_le (isLeap d.year) e.month (by omega) (d.month + 1) hmonth
    rw [monthLength] at hlength
    rw [number, number, ← hyear]
    omega
  · rw [number, number, ← hyear, ← hmonth]
    omega

/-- Dates are numbered in the order of their years, months and days. -/
theorem number_lt_iff (hd : d.exists? = true) (he : e.exists? = true) :
    d.number < e.number ↔ d.year < e.year ∨
      d.year = e.year ∧ (d.month < e.month ∨ d.month = e.month ∧ d.day < e.day) := by
  refine ⟨fun h => ?_, number_lt_of_lt hd he⟩
  by_contra hlt
  by_cases heq : d.year = e.year ∧ d.month = e.month ∧ d.day = e.day
  · rw [number, number, heq.1, heq.2.1, heq.2.2] at h
    omega
  · have := number_lt_of_lt he hd (by omega)
    omega

end RecordGraph.Date
