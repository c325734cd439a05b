import Mathlib

/-!
# The Gregorian calendar

Dates from the first of January of the year 0, each with its number: how many days there are
before it. The dates of the years before one are as many as the numbers below its first.
-/

namespace Infernode.Lib.Calendar

variable {y m : ℕ}

def Leap (y : ℕ) : Prop := y % 4 = 0 ∧ (y % 100 ≠ 0 ∨ y % 400 = 0)

instance (y : ℕ) : Decidable (Leap y) := inferInstanceAs (Decidable (_ ∧ _))

def yeardays (y : ℕ) : ℕ := if Leap y then 366 else 365

def monthdays (y m : ℕ) : ℕ :=
  if m = 2 then if Leap y then 29 else 28
  else if m = 4 ∨ m = 6 ∨ m = 9 ∨ m = 11 then 30 else 31

/-- The days of the years before `y`. -/
def before (y : ℕ) : ℕ := ∑ k ∈ Finset.range y, yeardays k

/-- The days of the months of `y` before `m`. -/
def monthsbefore (y m : ℕ) : ℕ := ∑ k ∈ Finset.Ico 1 m, monthdays y k

@[ext]
structure Date where
  year : ℕ
  month : ℕ
  day : ℕ
  month_pos : 1 ≤ month
  month_le : month ≤ 12
  day_pos : 1 ≤ day
  day_le : day ≤ monthdays year month

def Date.number (d : Date) : ℕ := before d.year + monthsbefore d.year d.month + (d.day - 1)

theorem before_succ (y : ℕ) : before (y + 1) = before y + yeardays y :=
  Finset.sum_range_succ _ _

/-- The days of the years before `y`, from a March. -/
theorem before_eq (y : ℕ) : (before y : ℤ) =
    366 + 365 * ((y : ℤ) - 1) + ((y : ℤ) - 1) / 4 - ((y : ℤ) - 1) / 100 + ((y : ℤ) - 1) / 400 := by
  induction y with
  | zero => rfl
  | succ y ih =>
    have hleap : Leap y ↔ y % 4 = 0 ∧ (y % 100 ≠ 0 ∨ y % 400 = 0) := Iff.rfl
    have h4 : (y : ℤ) / 4 = ((y : ℤ) - 1) / 4 + if y % 4 = 0 then 1 else 0 := by
      split_ifs <;> omega
    have h100 : (y : ℤ) / 100 = ((y : ℤ) - 1) / 100 + if y % 100 = 0 then 1 else 0 := by
      split_ifs <;> omega
    have h400 : (y : ℤ) / 400 = ((y : ℤ) - 1) / 400 + if y % 400 = 0 then 1 else 0 := by
      split_ifs <;> omega
    have h1 : y % 100 = 0 → y % 4 = 0 := by omega
    have h2 : y % 400 = 0 → y % 100 = 0 := by omega
    rw [before_succ, yeardays]
    push_cast
    rw [add_sub_cancel_right, h4, h100, h400, ih]
    simp only [hleap]
    clear h4 h100 h400 ih
    split_ifs <;> omega

theorem monthsbefore_succ (y : ℕ) (hm : 1 ≤ m) :
    monthsbefore y (m + 1) = monthsbefore y m + monthdays y m :=
  Finset.sum_Ico_succ_top hm _

/-- The days before a month, the leap day apart. -/
theorem monthsbefore_eq (y : ℕ) (hm : 1 ≤ m) (hm' : m ≤ 13) : monthsbefore y m =
    (367 * m - 362) / 12 - (if m ≤ 2 then 0 else if Leap y then 1 else 2) := by
  induction m, hm using Nat.le_induction with
  | base => rfl
  | succ m hm ih =>
    have hm12 : m ≤ 12 := by omega
    rw [monthsbefore_succ y hm, ih (by omega), monthdays]
    by_cases hleap : Leap y
    · simp only [if_pos hleap]
      interval_cases m <;> rfl
    · simp only [if_neg hleap]
      interval_cases m <;> rfl

theorem monthsbefore_year (y : ℕ) : monthsbefore y 13 = yeardays y := by
  rw [monthsbefore_eq y (by norm_num) le_rfl, yeardays]
  split_ifs <;> omega

theorem monthdays_pos (y m : ℕ) : 1 ≤ monthdays y m := by
  rw [monthdays]
  split_ifs <;> omega

theorem before_mono : Monotone before := fun _ _ h =>
  Finset.sum_le_sum_of_subset (Finset.range_subset_range.2 h)

/-- A date has a smaller number than the first of the years after it. -/
theorem Date.number_lt (d : Date) (h : d.year < y) : d.number < before y := by
  have hmonths : monthsbefore d.year (d.month + 1) ≤ monthsbefore d.year 13 :=
    Finset.sum_le_sum_of_subset (Finset.Ico_subset_Ico_right (by have := d.month_le; omega))
  rw [monthsbefore_year, monthsbefore_succ _ d.month_pos] at hmonths
  have hnext := before_mono (Nat.succ_le_of_lt h)
  rw [Nat.succ_eq_add_one, before_succ] at hnext
  have hday := d.day_pos
  have hday' := d.day_le
  rw [Date.number]
  omega

/-- Every number below that of the first day of a year is that of a date before it. -/
theorem exists_date {n : ℕ} (hn : n < before y) : ∃ d : Date, d.year < y ∧ d.number = n := by
  induction n with
  | zero =>
    have hy : 0 < y := Nat.pos_of_ne_zero fun h => by
      subst h
      exact absurd hn (Nat.lt_irrefl 0)
    exact ⟨⟨0, 1, 1, le_rfl, by norm_num, le_rfl, monthdays_pos 0 1⟩, hy, rfl⟩
  | succ n ih =>
    obtain ⟨d, hd, hnumber⟩ := ih (by omega)
    obtain ⟨year, month, day, hm, hm', hday, hday'⟩ := d
    simp only [Date.number] at hd hnumber
    rcases lt_or_eq_of_le hday' with hlt | heq
    · refine ⟨⟨year, month, day + 1, hm, hm', by omega, hlt⟩, hd, ?_⟩
      simp only [Date.number]
      omega
    · rcases lt_or_eq_of_le hm' with hmlt | rfl
      · refine ⟨⟨year, month + 1, 1, by omega, hmlt, le_rfl, monthdays_pos _ _⟩, hd, ?_⟩
        simp only [Date.number, monthsbefore_succ year hm]
        omega
      · have hmonths := (monthsbefore_succ year (m := 12) (by norm_num)).symm.trans
          (monthsbefore_year year)
        have hnext : before (year + 1) = n + 1 := by
          rw [before_succ]
          omega
        have hyear : year + 1 < y := by
          rcases Nat.lt_or_ge (year + 1) y with hlt | hge
          · exact hlt
          · obtain rfl : y = year + 1 := by omega
            omega
        refine ⟨⟨year + 1, 1, 1, le_rfl, by norm_num, le_rfl, monthdays_pos _ _⟩, hyear, ?_⟩
        simpa [Date.number, monthsbefore] using hnext

end Infernode.Lib.Calendar
