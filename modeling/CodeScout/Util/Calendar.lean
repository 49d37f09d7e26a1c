import Mathlib

/-!
# The Gregorian calendar

Days are counted from the first day of the year 1, and may be negative. A month
is counted from January of the year 0, so that the months of a year `y` are
those from `12 * y` on: to add months or years to a date is to add to this
number.

`addDate` is `AddDate` of Go's `time` package. A day that the month does not
have is counted on into the next month.
-/

namespace Calendar

/-! ## Years -/

def isLeap (year : ℤ) : Bool :=
  year % 4 == 0 && (year % 100 != 0 || year % 400 == 0)

/-- The first day of a year. -/
def yearStart (year : ℤ) : ℤ :=
  365 * (year - 1) + (year - 1) / 4 - (year - 1) / 100 + (year - 1) / 400

theorem isLeap_iff {year : ℤ} :
    isLeap year = true ↔ year % 4 = 0 ∧ (year % 100 ≠ 0 ∨ year % 400 = 0) := by
  simp [isLeap]

theorem yearStart_succ (year : ℤ) :
    yearStart (year + 1) = yearStart year + if isLeap year then 366 else 365 := by
  unfold yearStart
  split_ifs with hleap
  · rw [isLeap_iff] at hleap
    omega
  · rw [isLeap_iff] at hleap
    omega

/-- The year of a day. Cycles of 400, 100, 4 and 1 years are cut off; the last
of the cycles of 100 years and of single years is one day longer. -/
def yearOf (day : ℤ) : ℤ :=
  let n₄₀₀ := day / 146097
  let d₁ := day - 146097 * n₄₀₀
  let n₁₀₀ := d₁ / 36524 - d₁ / 36524 / 4
  let d₂ := d₁ - 36524 * n₁₀₀
  let n₄ := d₂ / 1461
  let d₃ := d₂ - 1461 * n₄
  let n₁ := d₃ / 365 - d₃ / 365 / 4
  400 * n₄₀₀ + 100 * n₁₀₀ + 4 * n₄ + n₁ + 1

theorem yearStart_cycles {a b c d : ℤ} (hb : 0 ≤ b ∧ b ≤ 3) (hc : 0 ≤ c ∧ c ≤ 24)
    (hd : 0 ≤ d ∧ d ≤ 3) :
    yearStart (400 * a + 100 * b + 4 * c + d + 1) =
      146097 * a + 36524 * b + 1461 * c + 365 * d := by
  unfold yearStart
  omega

theorem isLeap_cycles {a b c d : ℤ} (hb : 0 ≤ b ∧ b ≤ 3) (hc : 0 ≤ c ∧ c ≤ 24)
    (hd : 0 ≤ d ∧ d ≤ 3) :
    isLeap (400 * a + 100 * b + 4 * c + d + 1) = true ↔ d = 3 ∧ (c ≠ 24 ∨ b = 3) := by
  rw [isLeap_iff]
  omega

theorem yearOf_spec (day : ℤ) :
    yearStart (yearOf day) ≤ day ∧ day < yearStart (yearOf day + 1) := by
  unfold yearOf
  dsimp only
  generalize ha : day / 146097 = a
  generalize hd₁ : day - 146097 * a = d₁
  have hd₁' : 0 ≤ d₁ ∧ d₁ ≤ 146096 := by omega
  generalize hb : d₁ / 36524 - d₁ / 36524 / 4 = b
  generalize hd₂ : d₁ - 36524 * b = d₂
  have hb' : (0 ≤ b ∧ b ≤ 3) ∧ 0 ≤ d₂ ∧ (d₂ ≤ 36523 ∨ b = 3 ∧ d₂ ≤ 36524) := by omega
  generalize hc : d₂ / 1461 = c
  generalize hd₃ : d₂ - 1461 * c = d₃
  have hc' : (0 ≤ c ∧ c ≤ 24) ∧ 0 ≤ d₃ ∧ d₃ ≤ 1460 := by omega
  generalize hd : d₃ / 365 - d₃ / 365 / 4 = d
  have hd' : (0 ≤ d ∧ d ≤ 3) ∧ 0 ≤ d₃ - 365 * d ∧
      (d₃ - 365 * d ≤ 364 ∨ d = 3 ∧ d₃ - 365 * d ≤ 365) := by omega
  rw [yearStart_succ (400 * a + 100 * b + 4 * c + d + 1), yearStart_cycles hb'.1 hc'.1 hd'.1]
  have hleap := isLeap_cycles (a := a) hb'.1 hc'.1 hd'.1
  split_ifs with h
  · omega
  · rw [hleap] at h
    omega

/-! ## Months -/

/-- The days of a year before a month, which is counted from 0. -/
def daysBefore (leap : Bool) (month : ℤ) : ℤ :=
  ([0, 31, 59, 90, 120, 151, 181, 212, 243, 273, 304, 334].getD month.toNat 365) +
    if leap && decide (2 ≤ month) then 1 else 0

/-- The first day of a month, counted from January of the year 0. -/
def monthStart (month : ℤ) : ℤ :=
  yearStart (month / 12) + daysBefore (isLeap (month / 12)) (month % 12)

/-- The days of a month. -/
def daysIn (month : ℤ) : ℤ := monthStart (month + 1) - monthStart month

variable {day month months : ℤ}

theorem monthStart_eq (year : ℤ) (h : 0 ≤ month ∧ month ≤ 11) :
    monthStart (12 * year + month) = yearStart year + daysBefore (isLeap year) month := by
  have hyear : (12 * year + month) / 12 = year := by omega
  have hmonth : (12 * year + month) % 12 = month := by omega
  rw [monthStart, hyear, hmonth]

theorem monthStart_succ (year : ℤ) (h : 0 ≤ month ∧ month ≤ 11) :
    monthStart (12 * year + month + 1) =
      yearStart year + daysBefore (isLeap year) (month + 1) := by
  rcases eq_or_lt_of_le h.2 with rfl | hlt
  · have hnext : 12 * year + 11 + 1 = 12 * (year + 1) + 0 := by ring
    have hfirst : ∀ leap, daysBefore leap 0 = 0 := by decide
    have hlast : ∀ leap, daysBefore leap (11 + 1) = if leap then 366 else 365 := by decide
    rw [hnext, monthStart_eq (year + 1) (by decide), yearStart_succ, hfirst, hlast, add_zero]
  · rw [add_assoc, monthStart_eq year (by omega)]

theorem daysIn_bounds (month : ℤ) : 28 ≤ daysIn month ∧ daysIn month ≤ 31 := by
  obtain ⟨year, m, hm, rfl⟩ : ∃ year m, (0 ≤ m ∧ m ≤ 11) ∧ month = 12 * year + m :=
    ⟨month / 12, month % 12, by omega, by omega⟩
  rw [daysIn, monthStart_succ year hm, monthStart_eq year hm, add_sub_add_left_eq_sub]
  obtain ⟨hlow, hhigh⟩ := hm
  cases isLeap year <;> interval_cases m <;> decide

/-- **The months follow each other.** -/
theorem monthStart_strictMono : StrictMono monthStart :=
  strictMono_int_of_lt_succ fun month => by
    have h := (daysIn_bounds month).1
    unfold daysIn at h
    omega

/-- The month of a day of a year. No month has more than 31 days, so that the
month is a 31st of the days or the month after that. -/
def monthInYear (leap : Bool) (yearDay : ℤ) : ℤ :=
  if yearDay < daysBefore leap (yearDay / 31 + 1) then yearDay / 31 else yearDay / 31 + 1

theorem monthInYear_spec {leap : Bool} {yearDay : ℤ} (hnonneg : 0 ≤ yearDay)
    (hlt : yearDay < if leap then 366 else 365) :
    (0 ≤ monthInYear leap yearDay ∧ monthInYear leap yearDay ≤ 11) ∧
      daysBefore leap (monthInYear leap yearDay) ≤ yearDay ∧
      yearDay < daysBefore leap (monthInYear leap yearDay + 1) := by
  unfold monthInYear
  generalize hq : yearDay / 31 = q
  have hq' : 0 ≤ q ∧ q ≤ 11 := by
    split_ifs at hlt <;> omega
  obtain ⟨hlow, hhigh⟩ := hq'
  cases leap
  · simp only [Bool.false_eq_true, if_false] at hlt
    interval_cases q <;> simp [daysBefore] <;> split_ifs <;> simp <;> omega
  · simp only [if_true] at hlt
    interval_cases q <;> simp [daysBefore] <;> split_ifs <;> simp <;> omega

/-- The month of a day. -/
def monthOf (day : ℤ) : ℤ :=
  12 * yearOf day + monthInYear (isLeap (yearOf day)) (day - yearStart (yearOf day))

theorem monthOf_spec (day : ℤ) :
    monthStart (monthOf day) ≤ day ∧ day < monthStart (monthOf day + 1) := by
  have hyear := yearOf_spec day
  rw [yearStart_succ] at hyear
  obtain ⟨hmonth, hlow, hhigh⟩ := @monthInYear_spec (isLeap (yearOf day))
    (day - yearStart (yearOf day)) (by omega) (by omega)
  unfold monthOf
  rw [monthStart_succ _ hmonth, monthStart_eq _ hmonth]
  omega

theorem monthOf_eq (hlow : monthStart month ≤ day)
    (hhigh : day < monthStart (month + 1)) : monthOf day = month := by
  obtain ⟨hlow', hhigh'⟩ := monthOf_spec day
  have h₁ := monthStart_strictMono.lt_iff_lt.mp (hlow.trans_lt hhigh')
  have h₂ := monthStart_strictMono.lt_iff_lt.mp (hlow'.trans_lt hhigh)
  omega

/-! ## Dates -/

/-- The day of the month, from 1 on. -/
def dayOf (day : ℤ) : ℤ := day - monthStart (monthOf day) + 1

/-- `AddDate`: the parts of the date are added to, and a day that the month
does not have is counted on. -/
def addDate (day years months days : ℤ) : ℤ :=
  monthStart (monthOf day + 12 * years + months) + (dayOf day + days) - 1

theorem dayOf_bounds (day : ℤ) : 1 ≤ dayOf day ∧ dayOf day ≤ daysIn (monthOf day) := by
  obtain ⟨hlow, hhigh⟩ := monthOf_spec day
  unfold dayOf daysIn
  omega

theorem addDate_days (day days : ℤ) : addDate day 0 0 days = day + days := by
  unfold addDate dayOf
  rw [mul_zero, add_zero, add_zero]
  ring

theorem addDate_months (day months : ℤ) :
    addDate day 0 months 0 = monthStart (monthOf day + months) + dayOf day - 1 := by
  rw [addDate, mul_zero, add_zero, add_zero]

/-- **Months that are added**, if the month has the day. -/
theorem monthOf_addDate (h : dayOf day ≤ daysIn (monthOf day + months)) :
    monthOf (addDate day 0 months 0) = monthOf day + months ∧
      dayOf (addDate day 0 months 0) = dayOf day := by
  have hday := (dayOf_bounds day).1
  have heq := addDate_months day months
  have hmonth : monthOf (addDate day 0 months 0) = monthOf day + months := by
    unfold daysIn at h
    exact monthOf_eq (by omega) (by omega)
  refine ⟨hmonth, ?_⟩
  rw [dayOf, hmonth, heq]
  ring

/-- **A day that the month does not have** is in the next month. -/
theorem monthOf_addDate_of_lt (h : daysIn (monthOf day + months) < dayOf day) :
    monthOf (addDate day 0 months 0) = monthOf day + months + 1 := by
  have hday := (dayOf_bounds day).2
  have hmax := (daysIn_bounds (monthOf day)).2
  have hmin := (daysIn_bounds (monthOf day + months)).1
  have hnext := (daysIn_bounds (monthOf day + months + 1)).1
  have heq := addDate_months day months
  unfold daysIn at h hmin hnext
  exact monthOf_eq (by omega) (by omega)

/-- **Going back in months** goes to an earlier day. -/
theorem addDate_lt (h : months < 0) : addDate day 0 months 0 < day := by
  have hstart := monthStart_strictMono (show monthOf day + months < monthOf day by omega)
  have heq := addDate_months day months
  unfold dayOf at heq
  omega

theorem addDate_years (day years : ℤ) : addDate day years 0 0 = addDate day 0 (12 * years) 0 := by
  unfold addDate
  rw [mul_zero, add_zero, add_zero, add_zero]

end Calendar
