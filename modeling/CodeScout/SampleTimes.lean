import CodeScout.Util.Calendar
import CodeScout.Util.GoSort
import CodeScout.Util.GoString
import Mathlib

/-!
# Sample times of an insight

The points of a time series are recorded at times that are one interval apart.
`BuildSampleTimes` starts at the present and steps back from each time to the
one before, by Go's `AddDate` or, for hours, by a duration.

From a day at the end of a month `AddDate` may lead to a day that the month
does not have, which is counted on into the next month: one month before March
31 is March 3, and the times after that keep the day 3. So the times are in
months that are evenly spaced exactly if all of the months have the day of the
present (`evenlySpaced_iff`). Days and weeks are added to the day, and nothing
can go wrong there but the multiplication by seven; the number of hours is
multiplied by the nanoseconds of an hour, in 64 bits.

Times are in UTC, in nanoseconds from the start of the year 1.
-/

namespace Timeseries

open Calendar List

/-! ## Times and intervals -/

/-- Nanoseconds from the start of the year 1, in UTC. -/
abbrev Time := ℤ

def nanosPerDay : ℤ := 86400000000000

def nanosPerHour : ℤ := 3600000000000

/-- The day of a time. -/
def Time.day (t : Time) : ℤ := t / nanosPerDay

def Time.addDate (t : Time) (years months days : ℤ) : Time :=
  Calendar.addDate t.day years months days * nanosPerDay + t % nanosPerDay

/-- The month of a time, counted from January of the year 0. -/
def Time.month (t : Time) : ℤ := monthOf t.day

/-- A number as the 64 bits of an `int` hold it. -/
def wrap64 (x : ℤ) : ℤ := x.bmod (2 ^ 64)

/-- The text of a unit. -/
inductive IntervalUnit where
  | month
  | day
  | week
  | year
  | hour
  /-- Any other text. -/
  | other (unit : GoString)
  deriving DecidableEq

/-- A number of units, which is an `int`. -/
structure TimeInterval where
  unit : IntervalUnit
  value : ℤ
  value_lt : value < 2 ^ 63

inductive StepDirection where
  | forward
  | backward

def StepDirection.sign : StepDirection → ℤ
  | .forward => 1
  | .backward => -1

/-- Products wrap around; unknown units are years. -/
def TimeInterval.step (t : TimeInterval) (start : Time) (direction : StepDirection) : Time :=
  match t.unit with
  | .year => start.addDate (wrap64 (direction.sign * t.value)) 0 0
  | .month => start.addDate 0 (wrap64 (direction.sign * t.value)) 0
  | .week => start.addDate 0 0 (wrap64 (direction.sign * 7 * t.value))
  | .day => start.addDate 0 0 (wrap64 (direction.sign * t.value))
  | .hour => start + wrap64 (wrap64 (nanosPerHour * t.value) * direction.sign)
  | .other _ => start.addDate (wrap64 (direction.sign * t.value)) 0 0

def TimeInterval.stepBackwards (t : TimeInterval) (start : Time) : Time := t.step start .backward

/-- `BuildSampleTimes`. -/
def buildSampleTimes (sorter : SliceSort) (numPoints : ℕ) (interval : TimeInterval) (now : Time) :
    List Time :=
  sorter.sort (fun a b => decide (a < b)) <|
    now :: List.iterate interval.stepBackwards (interval.stepBackwards now) (numPoints - 1)

/-! ## Steps -/

/-- **Evenly spaced times**: as many as asked for, increasing up to the
present, and for months and years in months of the same distance. -/
structure EvenlySpaced (interval : TimeInterval) (numPoints : ℕ) (now : Time)
    (times : List Time) : Prop where
  length_eq : times.length = numPoints
  increasing : times.Pairwise (· < ·)
  getLast?_eq : times.getLast? = some now
  months : interval.unit = .month → times.IsChain fun t t' => t'.month = t.month + interval.value
  years : interval.unit = .year →
    times.IsChain fun t t' => t'.month = t.month + 12 * interval.value

theorem wrap64_neg {x : ℤ} (hpos : 1 ≤ x) (hlt : x < 2 ^ 63) : wrap64 (-1 * x) = -1 * x :=
  Int.bmod_eq_of_le (by omega) (by omega)

theorem day_addDate (t : Time) (years months days : ℤ) :
    (t.addDate years months days).day = Calendar.addDate t.day years months days := by
  have hpos : (0 : ℤ) < nanosPerDay := by decide
  rw [Time.addDate, Time.day, add_comm, Int.add_mul_ediv_right _ _ hpos.ne',
    Int.ediv_eq_zero_of_lt (Int.emod_nonneg _ hpos.ne') (Int.emod_lt_of_pos _ hpos), zero_add]

theorem addDate_lt_iff {t : Time} {years months days : ℤ} :
    t.addDate years months days < t ↔ Calendar.addDate t.day years months days < t.day := by
  have hpos : (0 : ℤ) < nanosPerDay := by decide
  have hcut : t.day * nanosPerDay + t % nanosPerDay = t := Int.ediv_mul_add_emod t nanosPerDay
  calc t.addDate years months days < t
      ↔ Calendar.addDate t.day years months days * nanosPerDay + t % nanosPerDay <
          t.day * nanosPerDay + t % nanosPerDay := by
        rw [hcut]
        rfl
    _ ↔ Calendar.addDate t.day years months days < t.day := by
        rw [add_lt_add_iff_right, mul_lt_mul_iff_of_pos_right hpos]

theorem addDate_days_eq (t : Time) (days : ℤ) : t.addDate 0 0 days = t + days * nanosPerDay := by
  have hcut : t.day * nanosPerDay + t % nanosPerDay = t := Int.ediv_mul_add_emod t nanosPerDay
  rw [Time.addDate, Calendar.addDate_days, add_mul, add_right_comm, hcut]

/-- The months that a step goes back, if it goes back in months. -/
def TimeInterval.monthsBack (t : TimeInterval) : Option ℤ :=
  match t.unit with
  | .month => some t.value
  | .year => some (12 * t.value)
  | .other _ => some (12 * t.value)
  | _ => none

/-- What a step adds, if it always adds the same. -/
def TimeInterval.shift (t : TimeInterval) : ℤ :=
  match t.unit with
  | .week => wrap64 (-1 * 7 * t.value) * nanosPerDay
  | .day => wrap64 (-1 * t.value) * nanosPerDay
  | .hour => wrap64 (wrap64 (nanosPerHour * t.value) * -1)
  | _ => 0

open TimeInterval

section

variable {interval : TimeInterval} (hvalue : 1 ≤ interval.value)

include hvalue

/-- **A step goes back in months or adds a constant.** -/
theorem stepBackwards_eq (t : Time) : interval.stepBackwards t =
    interval.monthsBack.elim (t + interval.shift) fun months => t.addDate 0 (-months) 0 := by
  have hwrap := wrap64_neg hvalue interval.value_lt
  have hyears : ∀ years, t.addDate (-1 * years) 0 0 = t.addDate 0 (-(12 * years)) 0 := by
    intro years
    rw [Time.addDate, Calendar.addDate_years, Time.addDate]
    ring_nf
  unfold stepBackwards step monthsBack shift
  cases interval.unit with
  | month => exact congrArg (t.addDate 0 · 0) (hwrap.trans (neg_one_mul _))
  | year => exact (congrArg (t.addDate · 0 0) hwrap).trans (hyears _)
  | other unit => exact (congrArg (t.addDate · 0 0) hwrap).trans (hyears _)
  | week => exact addDate_days_eq t _
  | day => exact addDate_days_eq t _
  | hour => rfl

omit hvalue in
theorem monthsBack_of_eq_some {months : ℤ} (h : interval.monthsBack = some months)
    (hvalue : 1 ≤ interval.value) : 0 < months := by
  unfold monthsBack at h
  cases hunit : interval.unit with
  | month | year | other =>
    rw [hunit] at h
    obtain rfl := Option.some.inj h
    omega
  | week | day | hour =>
    rw [hunit] at h
    exact absurd h nofun

theorem stepBackwards_lt {months : ℤ} (h : interval.monthsBack = some months) (t : Time) :
    interval.stepBackwards t < t := by
  have hpos := monthsBack_of_eq_some h hvalue
  rw [stepBackwards_eq hvalue, h, Option.elim_some, addDate_lt_iff]
  exact Calendar.addDate_lt (by omega)

end

/-! ## Sorted times -/

section

variable {f : Time → Time} {now : Time}

theorem iterate_le (hf : ∀ t, f t < t) (n : ℕ) : f^[n] now ≤ now :=
  Function.Iterate.rec (· ≤ now) le_rfl (fun _ ht => (hf _).le.trans ht) n

theorem pairwise_iterate (hf : ∀ t, f t < t) (n : ℕ) :
    (iterate f now n).Pairwise fun t t' => t' < t := by
  induction n generalizing now with
  | zero => exact .nil
  | succ n ih =>
    refine .cons (fun t ht => ?_) ih
    obtain ⟨m, -, rfl⟩ := mem_iterate.mp ht
    exact (iterate_le hf m).trans_lt (hf now)

theorem isChain_iterate {R : Time → Time → Prop} (n : ℕ) :
    (iterate f now n).IsChain R ↔ ∀ k, k + 1 < n → R (f^[k] now) (f^[k + 1] now) := by
  induction n generalizing now with
  | zero => exact iff_of_true .nil fun k hk => absurd hk (Nat.not_lt_zero _)
  | succ n ih =>
    cases n with
    | zero => exact iff_of_true (.singleton _) fun k hk => absurd hk (by omega)
    | succ n =>
      rw [iterate, iterate, isChain_cons_cons, ← iterate, ih]
      constructor
      · rintro ⟨hfirst, hrest⟩ k hk
        cases k with
        | zero => exact hfirst
        | succ k => exact hrest k (by omega)
      · exact fun h => ⟨h 0 (by omega), fun k hk => h (k + 1) (by omega)⟩

end

theorem sort_eq_reverse (sorter : SliceSort) {times : List Time}
    (h : times.Pairwise fun t t' => t' < t) :
    sorter.sort (fun a b => decide (a < b)) times = times.reverse := by
  have hsorted : (sorter.sort (fun a b => decide (a < b)) times).Pairwise (· ≤ ·) :=
    sorter.pairwise_of_key id (fun a b => decide_eq_true_iff) times
  have hreverse : times.reverse.Pairwise (· ≤ ·) :=
    pairwise_reverse.mpr (h.imp fun hlt => hlt.le)
  exact List.Perm.eq_of_pairwise (fun a b _ _ hab hba => le_antisymm hab hba) hsorted hreverse
    ((sorter.sort_perm _ times).trans times.reverse_perm.symm)

section

variable {interval : TimeInterval} {numPoints : ℕ} (hpoints : 1 ≤ numPoints) {now : Time}

include hpoints

theorem buildSampleTimes_eq (sorter : SliceSort) :
    buildSampleTimes sorter numPoints interval now =
      sorter.sort (fun a b => decide (a < b))
        (iterate interval.stepBackwards now numPoints) := by
  obtain ⟨n, rfl⟩ := Nat.exists_eq_add_of_le' hpoints
  rfl

/-- **Steps that go back** leave open only in which months the times are. -/
theorem evenlySpaced_iff_of_lt (hback : ∀ t, interval.stepBackwards t < t) (sorter : SliceSort) :
    EvenlySpaced interval numPoints now (buildSampleTimes sorter numPoints interval now) ↔
      (interval.unit = .month → ∀ k, k + 1 < numPoints →
        Time.month (interval.stepBackwards^[k] now) =
          Time.month (interval.stepBackwards^[k + 1] now) + interval.value) ∧
      (interval.unit = .year → ∀ k, k + 1 < numPoints →
        Time.month (interval.stepBackwards^[k] now) =
          Time.month (interval.stepBackwards^[k + 1] now) + 12 * interval.value) := by
  have hpairwise := @pairwise_iterate _ now hback numPoints
  rw [buildSampleTimes_eq hpoints, sort_eq_reverse sorter hpairwise]
  constructor
  · intro h
    refine ⟨fun hunit => ?_, fun hunit => ?_⟩
    · exact (isChain_iterate numPoints).mp (isChain_reverse.mp (h.months hunit))
    · exact (isChain_iterate numPoints).mp (isChain_reverse.mp (h.years hunit))
  · rintro ⟨hmonths, hyears⟩
    refine ⟨?_, pairwise_reverse.mpr hpairwise, ?_, fun hunit => ?_, fun hunit => ?_⟩
    · rw [length_reverse, length_iterate]
    · obtain ⟨n, rfl⟩ := Nat.exists_eq_add_of_le' hpoints
      rw [getLast?_reverse]
      rfl
    · exact isChain_reverse.mpr ((isChain_iterate numPoints).mpr (hmonths hunit))
    · exact isChain_reverse.mpr ((isChain_iterate numPoints).mpr (hyears hunit))

end

/-! ## Steps in months -/

section

variable {interval : TimeInterval} {months : ℤ} (hvalue : 1 ≤ interval.value)
  (hmonths : interval.monthsBack = some months)

include hvalue hmonths

theorem month_stepBackwards {t : Time} (h : dayOf t.day ≤ daysIn (t.month - months)) :
    Time.month (interval.stepBackwards t) = t.month - months ∧
      dayOf (Time.day (interval.stepBackwards t)) = dayOf t.day := by
  rw [stepBackwards_eq hvalue, hmonths, Option.elim_some, Time.month, day_addDate, sub_eq_add_neg]
  rw [sub_eq_add_neg] at h
  exact monthOf_addDate h

theorem month_stepBackwards_of_lt {t : Time} (h : daysIn (t.month - months) < dayOf t.day) :
    Time.month (interval.stepBackwards t) = t.month - months + 1 := by
  rw [stepBackwards_eq hvalue, hmonths, Option.elim_some, Time.month, day_addDate, sub_eq_add_neg]
  rw [sub_eq_add_neg] at h
  exact monthOf_addDate_of_lt h

/-- **The months are evenly spaced if all of them have the day.** Until a month
without the day comes up, the day stays the same; the step to that month leads
to the month after it. -/
theorem forall_month_iff (numPoints : ℕ) (now : Time) :
    (∀ k, k + 1 < numPoints → Time.month (interval.stepBackwards^[k] now) =
      Time.month (interval.stepBackwards^[k + 1] now) + months) ↔
    ∀ k : ℕ, 1 ≤ k → k < numPoints → dayOf now.day ≤ daysIn (now.month - k * months) := by
  have hnext : ∀ n : ℕ,
      now.month - n * months - months = now.month - ((n + 1 : ℕ) : ℤ) * months := fun n => by
    push_cast
    ring
  -- where the steps have led to, as long as the months had the day
  have hreached : ∀ n : ℕ,
      (∀ k : ℕ, 1 ≤ k → k ≤ n → dayOf now.day ≤ daysIn (now.month - k * months)) →
      Time.month (interval.stepBackwards^[n] now) = now.month - n * months ∧
        dayOf (Time.day (interval.stepBackwards^[n] now)) = dayOf now.day := by
    intro n
    induction n with
    | zero => exact fun _ => ⟨by simp, rfl⟩
    | succ n ih =>
      intro h
      obtain ⟨hmonth, hday⟩ := ih fun k hk hkn => h k hk (by omega)
      rw [Function.iterate_succ_apply', ← hnext, ← hmonth, ← hday]
      refine month_stepBackwards hvalue hmonths ?_
      rw [hmonth, hday, hnext]
      exact h (n + 1) (by omega) le_rfl
  constructor
  · intro h n
    induction n using Nat.strong_induction_on with
    | h n ih =>
      intro hn hlt
      obtain ⟨n, rfl⟩ := Nat.exists_eq_add_of_le' hn
      obtain ⟨hmonth, hday⟩ := hreached n fun k hk hkn => ih k (by omega) hk (by omega)
      by_contra hover
      rw [not_le, ← hnext, ← hmonth, ← hday] at hover
      have hstep := h n hlt
      rw [Function.iterate_succ_apply', month_stepBackwards_of_lt hvalue hmonths hover] at hstep
      omega
  · intro h k hk
    have hcurrent := (hreached k fun j hj hjk => h j hj (by omega)).1
    have hnext := (hreached (k + 1) fun j hj hjk => h j hj (by omega)).1
    rw [hcurrent, hnext]
    push_cast
    ring

end

/-! ## Evenly spaced times -/

/-- **The times come out evenly spaced**: for months and years, all of the
months that should have a time have the day of the present; for weeks and
hours, the product is negative in 64 bits. -/
def Spaces (interval : TimeInterval) (numPoints : ℕ) (now : Time) : Prop :=
  match interval.unit with
  | .month => ∀ k : ℕ, 1 ≤ k → k < numPoints →
    dayOf now.day ≤ daysIn (now.month - k * interval.value)
  | .year => ∀ k : ℕ, 1 ≤ k → k < numPoints →
    dayOf now.day ≤ daysIn (now.month - k * (12 * interval.value))
  | .week => numPoints = 1 ∨ wrap64 (-1 * 7 * interval.value) < 0
  | .hour => numPoints = 1 ∨ wrap64 (wrap64 (nanosPerHour * interval.value) * -1) < 0
  | .day => True
  | .other _ => True

section

variable {interval : TimeInterval} {numPoints : ℕ} (hvalue : 1 ≤ interval.value)
  (hpoints : 1 ≤ numPoints) {now : Time}

include hvalue hpoints

/-- Steps that add a constant: it has to be negative. -/
theorem evenlySpaced_iff_of_shift (hmonths : interval.monthsBack = none) (sorter : SliceSort) :
    EvenlySpaced interval numPoints now (buildSampleTimes sorter numPoints interval now) ↔
      numPoints = 1 ∨ interval.shift < 0 := by
  have hstep : ∀ t, interval.stepBackwards t = t + interval.shift := fun t => by
    rw [stepBackwards_eq hvalue, hmonths, Option.elim_none]
  have hunit : interval.unit ≠ .month ∧ interval.unit ≠ .year := by
    unfold monthsBack at hmonths
    constructor <;> intro hunit <;> rw [hunit] at hmonths <;> exact absurd hmonths nofun
  constructor
  · intro h
    by_contra hnot
    rw [not_or, not_lt] at hnot
    obtain ⟨n, rfl⟩ : ∃ n, numPoints = n + 2 := ⟨numPoints - 2, by omega⟩
    rw [buildSampleTimes_eq hpoints] at h
    have hperm := sorter.sort_perm (fun a b : Time => decide (a < b))
      (iterate interval.stepBackwards now (n + 2))
    -- the present is followed by a time that is not earlier
    have hnext : now + interval.shift ∈ sorter.sort (fun a b => decide (a < b))
        (iterate interval.stepBackwards now (n + 2)) := by
      rw [hperm.mem_iff, ← hstep]
      exact mem_cons_of_mem _ mem_cons_self
    have hle : now + interval.shift ≤ now := by
      obtain ⟨front, hfront⟩ := getLast?_eq_some_iff.mp h.getLast?_eq
      have hincreasing := h.increasing
      rw [hfront] at hnext hincreasing
      rcases mem_append.mp hnext with hmem | hmem
      · exact ((pairwise_append.mp hincreasing).2.2 _ hmem now (mem_singleton_self _)).le
      · exact (mem_singleton.mp hmem).le
    have hsame : interval.shift = 0 := le_antisymm (add_le_iff_nonpos_right now |>.mp hle) hnot.2
    have hnodup := hperm.nodup_iff.mp (h.increasing.imp fun hlt => ne_of_lt hlt)
    refine (nodup_cons.mp hnodup).1 ?_
    show now ∈ interval.stepBackwards now :: _
    rw [hstep, hsame, add_zero]
    exact mem_cons_self
  · rintro (rfl | hneg)
    · have hone : buildSampleTimes sorter 1 interval now = [now] :=
        perm_singleton.mp (sorter.sort_perm _ _)
      rw [hone]
      exact ⟨rfl, pairwise_singleton _ _, rfl, fun _ => .singleton _, fun _ => .singleton _⟩
    · have hback : ∀ t, interval.stepBackwards t < t := fun t => by
        rw [hstep]
        exact add_lt_of_neg_right t hneg
      exact (evenlySpaced_iff_of_lt hpoints hback sorter).mpr
        ⟨fun h => absurd h hunit.1, fun h => absurd h hunit.2⟩

/-- **Sample times are evenly spaced** exactly under the condition, for every
interval, number of points and present, however equal times are sorted. -/
theorem evenlySpaced_iff (sorter : SliceSort) :
    EvenlySpaced interval numPoints now (buildSampleTimes sorter numPoints interval now) ↔
      Spaces interval numPoints now := by
  have hnanos : ∀ x : ℤ, x * nanosPerDay < 0 ↔ x < 0 := by
    intro x
    unfold nanosPerDay
    omega
  have hmonths := monthsBack.eq_1 interval
  unfold Spaces
  cases hunit : interval.unit with
  | month =>
    rw [hunit] at hmonths
    rw [evenlySpaced_iff_of_lt hpoints (stepBackwards_lt hvalue hmonths), hunit,
      ← forall_month_iff hvalue hmonths]
    exact ⟨fun h => h.1 rfl, fun h => ⟨fun _ => h, nofun⟩⟩
  | year =>
    rw [hunit] at hmonths
    rw [evenlySpaced_iff_of_lt hpoints (stepBackwards_lt hvalue hmonths), hunit,
      ← forall_month_iff hvalue hmonths]
    exact ⟨fun h => h.2 rfl, fun h => ⟨nofun, fun _ => h⟩⟩
  | other unit =>
    rw [hunit] at hmonths
    rw [evenlySpaced_iff_of_lt hpoints (stepBackwards_lt hvalue hmonths), hunit]
    exact iff_of_true ⟨nofun, nofun⟩ trivial
  | week =>
    rw [hunit] at hmonths
    rw [evenlySpaced_iff_of_shift hvalue hpoints hmonths, shift, hunit]
    exact or_congr_right (hnanos _)
  | day =>
    rw [hunit] at hmonths
    rw [evenlySpaced_iff_of_shift hvalue hpoints hmonths, shift, hunit]
    refine iff_of_true (.inr ((hnanos _).mpr ?_)) trivial
    rw [wrap64_neg hvalue interval.value_lt]
    omega
  | hour =>
    rw [hunit] at hmonths
    rw [evenlySpaced_iff_of_shift hvalue hpoints hmonths, shift, hunit]

end

/-- The start of a day. -/
def startOf (year month day : ℤ) : Time :=
  (monthStart (12 * year + (month - 1)) + day - 1) * nanosPerDay

def monthly : TimeInterval := ⟨.month, 1, by decide⟩

/-- From the first day of a month, the day is in all months. -/
theorem evenlySpaced_december : EvenlySpaced monthly 6 (startOf 2021 12 1)
    (buildSampleTimes .byInsertion 6 monthly (startOf 2021 12 1)) := by
  refine (evenlySpaced_iff (by decide) (by decide) .byInsertion).mpr fun k _ _ => ?_
  have hday : dayOf (startOf 2021 12 1).day = 1 := by decide +kernel
  rw [hday]
  exact (by decide : (1 : ℤ) ≤ 28).trans (daysIn_bounds _).1

/-- **One month before March 31 is March 3.** Both times are in March. -/
theorem buildSampleTimes_march :
    buildSampleTimes .byInsertion 2 monthly (startOf 2023 3 31) =
      [startOf 2023 3 3, startOf 2023 3 31] ∧
    (startOf 2023 3 3).month = (startOf 2023 3 31).month ∧
    ¬ EvenlySpaced monthly 2 (startOf 2023 3 31)
      (buildSampleTimes .byInsertion 2 monthly (startOf 2023 3 31)) := by
  have htimes : buildSampleTimes .byInsertion 2 monthly (startOf 2023 3 31) =
      [startOf 2023 3 3, startOf 2023 3 31] := by decide +kernel
  have hmonth : (startOf 2023 3 3).month = (startOf 2023 3 31).month := by decide +kernel
  refine ⟨htimes, hmonth, fun h => ?_⟩
  have hchain := h.months rfl
  rw [htimes, isChain_pair, ← hmonth] at hchain
  exact absurd hchain (by show ¬ _ = _ + (1 : ℤ); omega)

end Timeseries
