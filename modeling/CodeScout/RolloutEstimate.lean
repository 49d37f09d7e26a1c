import CodeScout.RolloutConfig
import Mathlib

/-!
# Estimating when a changeset is processed

`Estimate` goes from one schedule to the next and counts how many changesets
each of them can process, until it reaches the given one or is a week ahead.
Each schedule starts where the one before ends.

A schedule that starts in the minute at which its window ends is not valid for
any time. Unless its rate is unlimited the loop does not get past that minute:
it goes back to its first instant, and stays there. An estimate is therefore
right if and only if the changeset can be processed before the first such
instant, or there is none within the week (`estimate_terminates_iff`). In the
middle of such a minute the time that is left is negative; the loop then returns
only if the negative total is taken for that of an unlimited schedule, or if the
number of changesets wraps around (`ReturnsByMistake`).

What a rate allows is counted here without overflow, in the arithmetic of the
source, which is exact up to one changeset for each schedule (`Rate.le_allowance`).
-/

namespace Rollout

/-! ## Schedules -/

/-- A rate that is in force for some time. -/
structure Schedule where
  /-- The source has a limiter here, or none for a rate of zero. -/
  limiter : Bool
  validUntil : ℤ
  duration : ℤ
  rate : Rate
  deriving DecidableEq

/-- The schedule from an instant on. -/
def newSchedule (base d : ℤ) (rate : Rate) : Schedule where
  limiter := rate.isUnlimited || rate.n > 0
  validUntil := base + d
  duration := d
  rate := rate

/-- How many changesets a schedule can process, `-1` if it is not limited. -/
def Schedule.total (s : Schedule) : Int64 :=
  if !s.limiter then 0
  else if s.rate.isUnlimited then -1
  else
    let perHour := s.rate.n * Int64.ofInt (hour / s.rate.unit.asDuration)
    let inAnHour := GoFloat.div (GoFloat.float64 s.duration) (GoFloat.float64 hour)
    GoFloat.toInt64 (GoFloat.mul inAnHour (GoFloat.float64 perHour.toInt))

theorem zeroRate_valid : (-1 : Int64) ≤ 0 := by decide

/-- The rate when no window is open. -/
def zeroRate : Rate := ⟨0, .ratePerSecond, zeroRate_valid⟩

/-- The schedule of the window in effect. -/
def scheduleAt (windows : List Window) (t : ℤ) : Outcome GoString Schedule := do
  match ← windowFor windows t with
  | (none, some validity) => return newSchedule t validity zeroRate
  | (none, none) => return newSchedule t minute zeroRate
  | (some index, validity) =>
    let w ← .ofOption windows[index]?
    match validity with
    | none => return newSchedule t (24 * hour) w.rate
    | some validity => return newSchedule t validity w.rate

/-! ## The estimate -/

/-- One round of the loop: the result, or the instant and the number of
changesets with which it goes on. -/
def estimateRound (windows : List Window) (t : ℤ) (rem : Int64) :
    Outcome GoString (ℤ ⊕ ℤ × Int64) := do
  let schedule ← scheduleAt windows t
  let total := schedule.total
  if total = -1 then return .inl t
  else if total = 0 then return .inr (schedule.validUntil, rem)
  else
    let rem := rem - total
    if rem < 0 then
      let perc := GoFloat.sub 1
        (GoFloat.div |GoFloat.float64 rem.toInt| (GoFloat.float64 total.toInt))
      let duration := GoFloat.toInt64
        (GoFloat.mul (GoFloat.float64 ((schedule.validUntil - t : ℤ) : ℚ)) perc)
      return .inl (t + duration.toInt)
    else if rem = 0 then return .inl schedule.validUntil
    else return .inr (schedule.validUntil, rem)

/-- The loop of `Estimate`. -/
def estimateLoop (windows : List Window) (limit : ℤ) :
    ℕ → ℤ → Int64 → Outcome GoString (Option ℤ)
  | 0, _, _ => .outOfFuel
  | fuel + 1, t, rem =>
    if t < limit then do
      match ← estimateRound windows t rem with
      | .inl result => return some result
      | .inr (t, rem) => estimateLoop windows limit fuel t rem
    else .ok none

/-- When a changeset is processed, if it is within a week. -/
def estimate (windows : List Window) (now : ℤ) (n : Int64) (fuel : ℕ) :
    Outcome GoString (Option ℤ) :=
  if windows.isEmpty then .ok (some now)
  else estimateLoop windows (now + 7 * day) fuel now n

/-! ## Schedules last for some time -/

/-- A limited window is the last open one in the minute at which it ends. -/
def StallsAt (windows : List Window) (t : ℤ) : Prop :=
  ∃ i w e, LastOpen windows t (some i) ∧ windows[i]? = some w ∧ w.rate.isUnlimited = false ∧
    w.stop = some e ∧ (timeOfDayFromTime t).cmp = e.cmp

/-- There is always an answer which window is in effect, also during the
minute at which it ends. -/
theorem windowFor_eq_ok (windows : List Window) (t : ℤ) :
    ∃ index duration, windowFor windows t = .ok (index, duration) ∧
      LastOpen windows t index := by
  by_cases hminute : InEndMinute windows t
  · obtain ⟨i, w, e, hlast, hget, hstop, -⟩ := hminute
    obtain ⟨result, hresult, -⟩ := windowFor_of_some hlast hget (windowEnd_eq hstop t)
    exact ⟨some i, _, hresult, hlast⟩
  · obtain ⟨index, duration, hresult, heffect⟩ :=
      exists_inEffect hminute
    exact ⟨index, duration, hresult, heffect.last⟩

variable {windows : List Window} {t t' : ℤ}

theorem scheduleAt_of_none {duration : Option ℤ} (h : windowFor windows t = .ok (none, duration)) :
    scheduleAt windows t = .ok (newSchedule t (duration.getD minute) zeroRate) := by
  unfold scheduleAt
  rw [h, Outcome.ok_bind]
  cases duration <;> rfl

theorem scheduleAt_of_some {i : ℕ} {w : Window}
    {duration : Option ℤ} (h : windowFor windows t = .ok (some i, duration))
    (hget : windows[i]? = some w) :
    scheduleAt windows t = .ok (newSchedule t (duration.getD (24 * hour)) w.rate) := by
  unfold scheduleAt
  rw [h, Outcome.ok_bind]
  cases duration <;> simp only [hget, Outcome.ofOption, Outcome.ok_bind] <;> rfl

/-- Whether a window is open depends on the day and the minute only. -/
theorem isOpen_congr (w : Window) (hday : t / day = t' / day)
    (hminute : minuteOf t = minuteOf t') : w.isOpen t = w.isOpen t' := by
  rw [Bool.eq_iff_iff, Window.isOpen_eq_true, Window.isOpen_eq_true, hday, hminute]

theorem LastOpen.congr (hday : t / day = t' / day)
    (hminute : minuteOf t = minuteOf t') {index : Option ℕ} (h : LastOpen windows t index) :
    LastOpen windows t' index := by
  have hopen := fun w : Window => isOpen_congr w hday hminute
  cases index with
  | none => exact fun w hw => (hopen w).symm.trans (h w hw)
  | some i =>
    obtain ⟨⟨w, hget, hw⟩, hlater⟩ := h
    exact ⟨⟨w, hget, (hopen w).symm.trans hw⟩, fun v hv => (hopen v).symm.trans (hlater v hv)⟩

theorem newSchedule_inj {base d d' : ℤ} {rate rate' : Rate}
    (h : newSchedule base d rate = newSchedule base d' rate') : d = d' ∧ rate = rate' :=
  ⟨congrArg Schedule.duration h, congrArg Schedule.rate h⟩

variable {rate : Rate}

/-- **A limited schedule lasts for some time**, in which no other one stalls, unless it
starts in the minute at which its window ends. -/
theorem scheduleAt_lasts (hstalls : ¬ StallsAt windows t) {d : ℤ}
    (h : scheduleAt windows t = .ok (newSchedule t d rate)) (hlimited : rate.isUnlimited = false) :
    0 < d ∧ ∀ u, t ≤ u → u < t + d → ¬ StallsAt windows u := by
  by_cases hminute : InEndMinute windows t
  · obtain ⟨i, w, e, hlast, hget, hstop, hcmp⟩ := hminute
    obtain ⟨result, hresult, -⟩ := windowFor_of_some hlast hget (windowEnd_eq hstop t)
    rw [scheduleAt_of_some hresult hget] at h
    obtain ⟨-, rfl⟩ := newSchedule_inj (Outcome.ok.inj h)
    exact absurd ⟨i, w, e, hlast, hget, hlimited, hstop, hcmp⟩ hstalls
  · obtain ⟨index, duration, hresult, heffect⟩ := exists_inEffect hminute
    have hschedule : ∃ default, 0 < default ∧ d = duration.getD default := by
      cases index with
      | none =>
        rw [scheduleAt_of_none hresult] at h
        obtain ⟨rfl, -⟩ := newSchedule_inj (Outcome.ok.inj h)
        exact ⟨minute, by decide, rfl⟩
      | some i =>
        obtain ⟨w, hget, -⟩ := heffect.last.1
        rw [scheduleAt_of_some hresult hget] at h
        obtain ⟨rfl, -⟩ := newSchedule_inj (Outcome.ok.inj h)
        exact ⟨24 * hour, by decide, rfl⟩
    obtain ⟨default, hdefault, rfl⟩ := hschedule
    have hduration : ∀ x ∈ duration, duration.getD default = x := by
      rintro x hx
      rw [hx, Option.getD_some]
    refine ⟨?_, fun u hle hlt => ?_⟩
    · cases hx : duration with
      | none => exact hdefault
      | some x => exact heffect.positive x hx
    · -- the window stays in effect, and its end is not before that of the schedule
      rintro ⟨i, w, e, hlast, hget, -, hstop, hcmp⟩
      have hstays := heffect.stays u hle fun x hx => hduration x hx ▸ hlt
      have hindex := hstays.unique hlast
      subst hindex
      obtain ⟨result, hresult', hspec⟩ :=
        windowFor_of_some heffect.last hget (windowEnd_eq hstop t)
      rw [hresult] at hresult'
      obtain ⟨e', he', hend⟩ := hspec.le _ rfl
      have hmem : e' - t ∈ duration := by
        rw [(Prod.mk.inj (Outcome.ok.inj hresult')).2, he']
        rfl
      rw [hduration _ hmem] at hlt
      rw [cmp_timeOfDayFromTime] at hcmp
      have hpast := dateAt_le hcmp
      rw [dateAt_eq] at hpast hend
      unfold day minute at hpast hend
      omega

/-- A limited schedule that stalls ends at the first instant of the minute. -/
theorem scheduleAt_of_stallsAt {i : ℕ} {w : Window} {e : TimeOfDay}
    (hlast : LastOpen windows t (some i)) (hget : windows[i]? = some w) (hstop : w.stop = some e)
    (hcmp : (timeOfDayFromTime t).cmp = e.cmp) :
    scheduleAt windows t = .ok (newSchedule t (dateAt t e - t) w.rate) := by
  rw [cmp_timeOfDayFromTime] at hcmp
  have hpast := dateAt_le hcmp
  obtain ⟨result, hresult, hspec⟩ := windowFor_of_some hlast hget (windowEnd_eq hstop t)
  obtain ⟨e', he', hle⟩ := hspec.le _ rfl
  have heq : e' = dateAt t e := by
    obtain hmem | hlt := hspec.origin e' he'
    · exact (Option.some.inj hmem).symm
    · omega
  rw [he', heq, Option.map_some] at hresult
  rw [scheduleAt_of_some hresult hget, Option.getD_some]

/-! ## What rates allow -/

/-- How many changesets a rate allows in an hour. -/
def Rate.perHour (r : Rate) : ℤ := r.n.toInt * (hour / r.unit.asDuration)

/-- How many changesets a rate allows in the given time. -/
def Rate.allowance (r : Rate) (d : ℤ) : ℤ :=
  GoFloat.truncate (GoFloat.mul (GoFloat.div (GoFloat.float64 d) (GoFloat.float64 hour))
    (GoFloat.float64 r.perHour))

/-- The rates that are in effect up to a limit fit in 64 bits. -/
def RatesFit (windows : List Window) (now limit : ℤ) : Prop :=
  ∀ t i w, now ≤ t → t < limit → LastOpen windows t (some i) → windows[i]? = some w →
    w.rate.perHour < 2 ^ 63

theorem float64_hour : GoFloat.float64 hour = hour := by
  decide +kernel

section

variable {r : Rate} {d : ℤ}

theorem Rate.n_nonneg (h : r.isUnlimited = false) : 0 ≤ r.n.toInt := by
  have hvalid := Int64.le_iff_toInt_le.mp r.valid
  have hne : r.n.toInt ≠ -1 := fun heq => by
    rw [Rate.isUnlimited, beq_eq_false_iff_ne] at h
    exact h (Int64.toInt_inj.mp heq)
  have hneg : (-1 : Int64).toInt = -1 := rfl
  omega

theorem RateUnit.inHour_pos (unit : RateUnit) : 0 < hour / unit.asDuration := by
  cases unit <;> decide

theorem Rate.perHour_nonneg (h : r.isUnlimited = false) : 0 ≤ r.perHour :=
  mul_nonneg (r.n_nonneg h) r.unit.inHour_pos.le

theorem Rate.allowance_nonneg (h : r.isUnlimited = false) (hd : 0 ≤ d) : 0 ≤ r.allowance d := by
  refine GoFloat.truncate_nonneg (GoFloat.float64_nonneg (mul_nonneg ?_ ?_))
  · refine GoFloat.float64_nonneg (div_nonneg ?_ (by rw [float64_hour]; decide))
    exact GoFloat.float64_nonneg (Int.cast_nonneg hd)
  · exact GoFloat.float64_nonneg (Int.cast_nonneg (r.perHour_nonneg h))

theorem Rate.allowance_nonpos (h : r.isUnlimited = false) (hd : d ≤ 0) : r.allowance d ≤ 0 := by
  refine GoFloat.truncate_nonpos (GoFloat.float64_nonpos (mul_nonpos_of_nonpos_of_nonneg ?_ ?_))
  · refine GoFloat.float64_nonpos (div_nonpos_of_nonpos_of_nonneg ?_ (by rw [float64_hour]; decide))
    exact GoFloat.float64_nonpos (Int.cast_nonpos.mpr hd)
  · exact GoFloat.float64_nonneg (Int.cast_nonneg (r.perHour_nonneg h))

@[simp] theorem Rate.allowance_zero (r : Rate) : r.allowance 0 = 0 := by
  simp [Rate.allowance, GoFloat.truncate]

/-- **The total of a schedule** is what its rate allows, if it fits in 64 bits. -/
theorem toInt_total (h : r.isUnlimited = false) (hfits : r.perHour < 2 ^ 63) (base : ℤ) :
    (newSchedule base d r).total.toInt
      = if -2 ^ 63 ≤ r.allowance d ∧ r.allowance d < 2 ^ 63 then r.allowance d else -2 ^ 63 := by
  have hn := r.n_nonneg h
  by_cases hzero : r.n = 0
  · have hallowance : r.allowance d = 0 := by
      simp [Rate.allowance, Rate.perHour, hzero, GoFloat.truncate]
    simp [Schedule.total, newSchedule, h, hzero, hallowance]
  · have hpos : r.n > 0 := by
      rw [gt_iff_lt, Int64.lt_iff_toInt_lt, Int64.toInt_zero]
      exact lt_of_le_of_ne hn fun heq => hzero (Int64.toInt_inj.mp (heq.symm.trans rfl))
    have hunit : (Int64.ofInt (hour / r.unit.asDuration)).toInt = hour / r.unit.asDuration := by
      cases r.unit <;> decide +kernel
    have hperHour : (r.n * Int64.ofInt (hour / r.unit.asDuration)).toInt = r.perHour := by
      rw [Int64.toInt_mul, hunit]
      exact Int.bmod_eq_of_le (by have := r.perHour_nonneg h; unfold Rate.perHour at this; omega)
        (by unfold Rate.perHour at hfits; omega)
    rw [Rate.allowance, ← GoFloat.toInt_toInt64, ← hperHour]
    simp [Schedule.total, newSchedule, h, hpos]

/-- **What a rate allows is exact up to one changeset**, for up to `2 ^ 51` of them. -/
theorem Rate.le_allowance (h : r.isUnlimited = false) (hd : 0 ≤ d) (hd' : d < 2 ^ 53)
    (hrate : r.perHour < 2 ^ 53) (hsmall : d * r.perHour ≤ 2 ^ 51 * hour) :
    d * r.perHour / hour - 1 ≤ r.allowance d := by
  have hperHour := r.perHour_nonneg h
  have hexact : ∀ x : ℤ, 0 ≤ x → x < 2 ^ 53 → GoFloat.float64 x = x := fun x hx hlt => by
    lift x to ℕ using hx
    exact_mod_cast GoFloat.float64_natCast (by exact_mod_cast hlt)
  rw [Rate.allowance, hexact d hd hd', hexact _ hperHour hrate, float64_hour]
  have hround : ∀ x : ℚ, 0 ≤ x → x - x / 2 ^ 53 ≤ GoFloat.float64 x := fun x hx => by
    rcases hx.eq_or_lt with rfl | hpos
    · simp
    · exact GoFloat.sub_div_le_float64 hpos
  have hhour : (0 : ℚ) < hour := by decide
  have hdq : (0 : ℚ) ≤ d := Int.cast_nonneg hd
  have hrq : (0 : ℚ) ≤ r.perHour := Int.cast_nonneg hperHour
  set c : ℚ := d / hour * r.perHour with hc
  have hcpos : 0 ≤ c := by positivity
  have hcle : c ≤ 2 ^ 51 := by
    rw [hc, div_mul_eq_mul_div, div_le_iff₀ hhour]
    exact_mod_cast hsmall
  have hdiv := hround (d / hour) (by positivity)
  have hprod : c - c / 2 ^ 53 ≤ GoFloat.div d hour * r.perHour := by
    have := mul_le_mul_of_nonneg_right hdiv hrq
    rw [GoFloat.div]
    calc c - c / 2 ^ 53 = (d / hour - d / hour / 2 ^ 53) * r.perHour := by rw [hc]; ring
      _ ≤ _ := this
  have hmul := hround _ ((by linarith : (0 : ℚ) ≤ c - c / 2 ^ 53).trans hprod)
  have hbound : c - 1 ≤ GoFloat.mul (GoFloat.div d hour) r.perHour := by
    rw [GoFloat.mul]
    linarith
  have hfloor : ((d * r.perHour / hour : ℤ) : ℚ) ≤ c := by
    rw [hc, div_mul_eq_mul_div, le_div_iff₀ hhour]
    exact_mod_cast Int.ediv_mul_le _ (by decide)
  have hnonneg : 0 ≤ GoFloat.mul (GoFloat.div d hour) r.perHour :=
    GoFloat.float64_nonneg (mul_nonneg (GoFloat.float64_nonneg (by positivity)) hrq)
  rw [GoFloat.truncate, if_neg (not_lt.mpr hnonneg), Int.le_floor]
  push_cast
  linarith

end

/-! ## Rounds -/

variable {limit : ℤ}

theorem scheduleAt_eq_ok (hfits : RatesFit windows t limit) (ht : t < limit) :
    ∃ d rate, scheduleAt windows t = .ok (newSchedule t d rate) ∧ rate.perHour < 2 ^ 63 := by
  obtain ⟨index, duration, hresult, hlast⟩ := windowFor_eq_ok windows t
  cases index with
  | none => exact ⟨_, _, scheduleAt_of_none hresult, by decide⟩
  | some i =>
    obtain ⟨w, hget, -⟩ := hlast.1
    exact ⟨_, _, scheduleAt_of_some hresult hget, hfits t i w le_rfl ht hlast hget⟩

variable {rem : Int64}

theorem estimateRound_of_unlimited {d : ℤ}
    (hs : scheduleAt windows t = .ok (newSchedule t d rate)) (h : rate.isUnlimited = true) :
    estimateRound windows t rem = .ok (.inl t) := by
  have htotal : (newSchedule t d rate).total = -1 := by
    simp [Schedule.total, newSchedule, h]
  simp only [estimateRound, hs, Outcome.ok_bind, htotal, if_true]
  rfl

theorem toInt_sub_eq {rem total : Int64} (hrem : 0 ≤ rem.toInt) (h : 0 ≤ (rem - total).toInt) :
    (rem - total).toInt = rem.toInt - total.toInt := by
  have := rem.toInt_lt
  have := total.le_toInt
  have := total.toInt_lt
  rw [Int64.toInt_sub, Int.bmod_def] at h ⊢
  split_ifs at h ⊢ <;> omega

theorem toInt_sub_neg {rem total : Int64} (h : (rem - total).toInt < 0) :
    rem.toInt - total.toInt < 0 ∨ 2 ^ 63 ≤ rem.toInt - total.toInt := by
  have := rem.toInt_lt
  have := total.le_toInt
  have := total.toInt_lt
  rw [Int64.toInt_sub, Int.bmod_def] at h
  split_ifs at h <;> omega

/-- **A round with a limited schedule** returns, or goes on with the changesets that
are left. -/
theorem estimateRound_of_limited {d : ℤ}
    (hs : scheduleAt windows t = .ok (newSchedule t d rate)) (h : rate.isUnlimited = false)
    (hfits : rate.perHour < 2 ^ 63) (hrem : 0 ≤ rem.toInt) :
    (∃ r, estimateRound windows t rem = .ok (.inl r)) ∧
        (rate.allowance d = -1 ∨ rate.allowance d ≠ 0 ∧ rem.toInt - rate.allowance d ≤ 0 ∨
          2 ^ 63 ≤ rem.toInt - rate.allowance d) ∨
      ∃ rem', estimateRound windows t rem = .ok (.inr (t + d, rem')) ∧
        rate.allowance d ≠ -1 ∧ rem'.toInt = rem.toInt - rate.allowance d ∧
        (rate.allowance d = 0 ∨ 0 < rem'.toInt) := by
  have htotal := toInt_total (d := d) h hfits t
  have hlt := rem.toInt_lt
  simp only [estimateRound, hs, Outcome.ok_bind]
  generalize htotal' : (newSchedule t d rate).total = total at htotal
  have hneg : (-1 : Int64).toInt = -1 := rfl
  by_cases hunlimited : total = -1
  · refine .inl ⟨⟨t, if_pos hunlimited⟩, .inl ?_⟩
    rw [hunlimited, hneg] at htotal
    split_ifs at htotal
    · exact htotal.symm
    · omega
  · rw [if_neg hunlimited]
    by_cases hzero : total = 0
    · rw [if_pos hzero]
      rw [hzero, Int64.toInt_zero] at htotal
      have hallowance : rate.allowance d = 0 := by
        split_ifs at htotal
        · exact htotal.symm
        · omega
      refine .inr ⟨rem, rfl, ?_, ?_, .inl hallowance⟩ <;> omega
    · have hne : total.toInt ≠ 0 := fun h => hzero (Int64.toInt_inj.mp h)
      have hne' : total.toInt ≠ -1 := fun h => hunlimited (Int64.toInt_inj.mp h)
      rw [if_neg hzero]
      by_cases hover : rem - total < 0
      · rw [if_pos hover]
        have hcount := toInt_sub_neg (Int64.lt_iff_toInt_lt.mp hover)
        refine .inl ⟨⟨_, rfl⟩, .inr ?_⟩
        split_ifs at htotal <;> omega
      · have hge := Int64.le_iff_toInt_le.mp (Int64.not_lt.mp hover)
        have hcount := toInt_sub_eq hrem hge
        rw [Int64.toInt_zero] at hge
        rw [if_neg hover]
        by_cases hlast : rem - total = 0
        · rw [if_pos hlast]
          rw [hlast, Int64.toInt_zero] at hcount
          refine .inl ⟨⟨_, rfl⟩, .inr (.inl ?_)⟩
          split_ifs at htotal <;> omega
        · have hne'' : (rem - total).toInt ≠ 0 := fun h => hlast (Int64.toInt_inj.mp h)
          rw [if_neg hlast]
          have hfit := (rem - total).toInt_lt
          refine .inr ⟨rem - total, rfl, ?_⟩
          split_ifs at htotal <;> omega

/-- The rounds that are reached from a start. -/
inductive Reached (windows : List Window) (limit now : ℤ) (n : Int64) : ℤ → Int64 → Prop
  | start : Reached windows limit now n now n
  | next {t t' : ℤ} {rem rem' : Int64} : Reached windows limit now n t rem → t < limit →
      estimateRound windows t rem = .ok (.inr (t', rem')) → Reached windows limit now n t' rem'

/-! ## Changesets that can be processed -/

/-- Schedules from an instant on, one after the other, that start before a limit. -/
def SchedulesFrom (windows : List Window) (limit : ℤ) : ℤ → List Schedule → Prop
  | _, [] => True
  | t, s :: schedules => t < limit ∧ scheduleAt windows t = .ok s ∧
      SchedulesFrom windows limit s.validUntil schedules

/-- **A changeset can be processed** by the schedules that start before a limit: one of
them is unlimited, or their rates allow enough changesets. -/
def Processable (windows : List Window) (now limit n : ℤ) : Prop :=
  ∃ schedules, SchedulesFrom windows limit now schedules ∧
    ((∃ s ∈ schedules, s.rate.isUnlimited = true) ∨
      max n 1 ≤ (schedules.map fun s => s.rate.allowance s.duration).sum)

/-- **The estimate of one changeset**: it terminates, each round starts later
than the one before, and there is no estimate only if the changeset cannot be
processed within the week. -/
structure Estimates (windows : List Window) (now : ℤ) (n : Int64) : Prop where
  progress : ∀ t rem t' rem', Reached windows (now + 7 * day) now n t rem → t < now + 7 * day →
    estimateRound windows t rem = .ok (.inr (t', rem')) → t < t'
  terminates : ∃ result, Outcome.Yields (estimate windows now n) result ∧
    (result = none → ¬Processable windows now (now + 7 * day) n.toInt)

/-- The first instant from a given one on at which a schedule stalls. -/
def FirstStall (windows : List Window) (now stall : ℤ) : Prop :=
  IsLeast {t | now ≤ t ∧ StallsAt windows t} stall

/-- **A return by mistake**: in the middle of the minute at which a limited window ends,
the total is that of an unlimited schedule, or the number of changesets that are left
wraps around. -/
def ReturnsByMistake (windows : List Window) (now n : ℤ) : Prop :=
  ∃ i w e, LastOpen windows now (some i) ∧ windows[i]? = some w ∧ w.rate.isUnlimited = false ∧
    w.stop = some e ∧ (timeOfDayFromTime now).cmp = e.cmp ∧
    (w.rate.allowance (dateAt now e - now) = -1 ∨
      2 ^ 63 ≤ n - w.rate.allowance (dateAt now e - now))

theorem processable_of_unlimited {d n : ℤ} (ht : t < limit)
    (hs : scheduleAt windows t = .ok (newSchedule t d rate)) (h : rate.isUnlimited = true) :
    Processable windows t limit n :=
  ⟨[_], ⟨ht, hs, trivial⟩, .inl ⟨_, List.mem_singleton_self _, h⟩⟩

theorem processable_of_le {d n : ℤ} (ht : t < limit)
    (hs : scheduleAt windows t = .ok (newSchedule t d rate)) (h : max n 1 ≤ rate.allowance d) :
    Processable windows t limit n := by
  refine ⟨[_], ⟨ht, hs, trivial⟩, .inr ?_⟩
  rw [List.map_singleton, List.sum_singleton]
  exact h

/-- **After a schedule** a changeset can be processed if it could be before. -/
theorem processable_next {d n : ℤ} (ht : t < limit)
    (hs : scheduleAt windows t = .ok (newSchedule t d rate)) (hlimited : rate.isUnlimited = false)
    (hnonneg : 0 ≤ rate.allowance d) (hleft : rate.allowance d = 0 ∨ 0 < n - rate.allowance d) :
    Processable windows t limit n
      ↔ Processable windows (t + d) limit (n - rate.allowance d) := by
  constructor
  · rintro ⟨_ | ⟨s, schedules⟩, hchain, h⟩
    · rcases h with ⟨_, hmem, -⟩ | h
      · cases hmem
      · rw [List.map_nil, List.sum_nil] at h
        omega
    · obtain ⟨-, hs', hchain⟩ := hchain
      rw [hs] at hs'
      cases hs'
      refine ⟨schedules, hchain, h.imp ?_ fun hsum => ?_⟩
      · rintro ⟨s, hmem, hs⟩
        rcases List.mem_cons.mp hmem with rfl | hmem
        · rw [newSchedule, hlimited] at hs
          cases hs
        · exact ⟨s, hmem, hs⟩
      · simp only [List.map_cons, List.sum_cons, newSchedule] at hsum
        omega
  · rintro ⟨schedules, hchain, h⟩
    refine ⟨newSchedule t d rate :: schedules, ⟨ht, hs, hchain⟩, h.imp ?_ fun hsum => ?_⟩
    · rintro ⟨s, hmem, hs⟩
      exact ⟨s, List.mem_cons_of_mem _ hmem, hs⟩
    · simp only [List.map_cons, List.sum_cons, newSchedule]
      omega

/-! ## Termination -/

/-- What holds at the start of each round: the changesets that are left can be processed
before the first stall. -/
structure Ready (windows : List Window) (limit t : ℤ) (rem : Int64) : Prop where
  nonneg : 0 ≤ rem.toInt
  fits : RatesFit windows t limit
  clear : ∀ stall, FirstStall windows t stall → stall < limit →
    Processable windows t stall rem.toInt

theorem Ready.not_stallsAt (h : Ready windows limit t rem)
    (ht : t < limit) : ¬ StallsAt windows t := by
  intro hstall
  obtain ⟨_ | ⟨s, schedules⟩, hchain, hprocess⟩ :=
    h.clear t ⟨⟨le_rfl, hstall⟩, fun _ hu => hu.1⟩ ht
  · rcases hprocess with ⟨_, hmem, -⟩ | hsum
    · cases hmem
    · rw [List.map_nil, List.sum_nil] at hsum
      omega
  · exact lt_irrefl t hchain.1

/-- **A round that goes on** starts the next one later and keeps what holds. -/
theorem Ready.next {rem rem' : Int64} (h : Ready windows limit t rem)
    (ht : t < limit) (hround : estimateRound windows t rem = .ok (.inr (t', rem'))) :
    t < t' ∧ Ready windows limit t' rem' ∧
      (Processable windows t limit rem.toInt → Processable windows t' limit rem'.toInt) := by
  obtain ⟨d, rate, hs, hfits⟩ := scheduleAt_eq_ok h.fits ht
  have hlimited : rate.isUnlimited = false := Bool.eq_false_of_not_eq_true fun hunlimited => by
    rw [estimateRound_of_unlimited hs hunlimited] at hround
    cases hround
  obtain ⟨hpos, hclear⟩ := scheduleAt_lasts (h.not_stallsAt ht) hs hlimited
  have hnonneg := rate.allowance_nonneg hlimited hpos.le
  obtain ⟨⟨r, hr⟩, -⟩ | ⟨rem'', hr, -, hcount, hleft⟩ :=
    estimateRound_of_limited hs hlimited hfits h.nonneg
  · rw [hround] at hr
    cases hr
  · rw [hround] at hr
    cases hr
    rw [hcount] at hleft ⊢
    have hnext := fun {limit} (ht : t < limit) => processable_next ht hs hlimited hnonneg hleft
    refine ⟨by omega, ⟨?_, ?_, ?_⟩, (hnext ht).mp⟩
    · have := h.nonneg
      omega
    · exact fun u i w hu => h.fits u i w (by omega)
    · rintro stall ⟨⟨hle, hstall⟩, hleast⟩ hlt
      rw [hcount, ← hnext (by omega)]
      refine h.clear stall ⟨⟨by omega, hstall⟩, fun u hu => ?_⟩ hlt
      by_contra hbefore
      by_cases hu' : u < t + d
      · exact hclear u hu.1 hu' hu.2
      · exact hbefore (hleast ⟨not_lt.mp hu', hu.2⟩)

/-- The loop returns, and without an estimate only if the changeset cannot be processed. -/
theorem Ready.yields_estimateLoop (h : Ready windows limit t rem) :
    ∃ result, Outcome.Yields (fun fuel => estimateLoop windows limit fuel t rem) result ∧
      (result = none → ¬Processable windows t limit rem.toInt) := by
  -- by induction on the time that is left
  induction hleft : (limit - t).toNat using Nat.strong_induction_on generalizing t rem with
  | _ left ih =>
    by_cases hlimit : t < limit
    · obtain ⟨r, hr⟩ : ∃ r, estimateRound windows t rem = .ok r := by
        obtain ⟨d, rate, hs, hfits⟩ := scheduleAt_eq_ok h.fits hlimit
        cases hlimited : rate.isUnlimited with
        | true => exact ⟨_, estimateRound_of_unlimited hs hlimited⟩
        | false =>
          obtain ⟨⟨r, hr⟩, -⟩ | ⟨rem', hr, -⟩ := estimateRound_of_limited hs hlimited hfits h.nonneg
          · exact ⟨_, hr⟩
          · exact ⟨_, hr⟩
      obtain result | ⟨t', rem'⟩ := r
      · refine ⟨some result, ⟨1, ?_⟩, nofun⟩
        simp only [estimateLoop, if_pos hlimit, hr, Outcome.ok_bind]
        rfl
      · obtain ⟨hlt, hready, hprocess⟩ := h.next hlimit hr
        obtain ⟨result, ⟨fuel, hfuel⟩, hnone⟩ :=
          ih (limit - t').toNat (by omega) hready rfl
        refine ⟨result, ⟨fuel + 1, ?_⟩, fun hresult h => hnone hresult (hprocess h)⟩
        simp only [estimateLoop, if_pos hlimit, hr, Outcome.ok_bind]
        exact hfuel
    · refine ⟨none, ⟨1, by simp only [estimateLoop, if_neg hlimit]⟩, fun _ => ?_⟩
      rintro ⟨_ | ⟨s, schedules⟩, hchain, ⟨_, hmem, -⟩ | hsum⟩
      · cases hmem
      · rw [List.map_nil, List.sum_nil] at hsum
        omega
      · exact hlimit hchain.1
      · exact hlimit hchain.1

/-! ## Stalling -/

/-- A loop that stays at an instant does not return. -/
theorem estimateLoop_of_fixed {limit t : ℤ} (hlimit : t < limit)
    (h : estimateRound windows t rem = .ok (.inr (t, rem))) (fuel : ℕ) :
    estimateLoop windows limit fuel t rem = .outOfFuel := by
  induction fuel with
  | zero => rfl
  | succ fuel ih =>
    simp only [estimateLoop, if_pos hlimit, h, Outcome.ok_bind]
    exact ih

/-- A round that stalls does not start the next one later. -/
theorem le_of_stallsAt (hfits : RatesFit windows t limit)
    (ht : t < limit) (hrem : 0 ≤ rem.toInt) (hstalls : StallsAt windows t)
    (h : ¬ReturnsByMistake windows t rem.toInt) :
    ∃ t' rem', estimateRound windows t rem = .ok (.inr (t', rem')) ∧ t' ≤ t := by
  obtain ⟨i, w, e, hlast, hget, hlimited, hstop, hcmp⟩ := hstalls
  have hpast := dateAt_le ((cmp_timeOfDayFromTime t).symm.trans hcmp)
  have hnonpos := w.rate.allowance_nonpos hlimited (sub_nonpos.mpr hpast)
  rcases estimateRound_of_limited (scheduleAt_of_stallsAt hlast hget hstop hcmp) hlimited
    (hfits t i w le_rfl ht hlast hget) hrem with ⟨-, hreturns⟩ | ⟨rem', hround, -⟩
  · refine absurd ⟨i, w, e, hlast, hget, hlimited, hstop, hcmp, ?_⟩ h
    omega
  · exact ⟨_, rem', hround, by omega⟩

/-- **The first stall is reached** if the changeset cannot be processed before. -/
theorem reached_of_firstStall {limit now stall : ℤ} {n rem : Int64}
    (hreached : Reached windows limit now n t rem) (hfits : RatesFit windows t limit)
    (hrem : 0 ≤ rem.toInt) (hfirst : FirstStall windows t stall) (hstall : stall < limit)
    (hnot : ¬Processable windows t stall rem.toInt) :
    ∃ rem', 0 ≤ rem'.toInt ∧ Reached windows limit now n stall rem' := by
  induction hleft : (stall - t).toNat using Nat.strong_induction_on generalizing t rem with
  | _ left ih =>
    obtain ⟨⟨hle, hstalls⟩, hleast⟩ := hfirst
    rcases hle.eq_or_lt with rfl | hlt
    · exact ⟨rem, hrem, hreached⟩
    · have ht := hlt.trans hstall
      obtain ⟨d, rate, hs, hrate⟩ := scheduleAt_eq_ok hfits ht
      have hlimited : rate.isUnlimited = false := Bool.eq_false_of_not_eq_true fun h =>
        hnot (processable_of_unlimited hlt hs h)
      obtain ⟨hpos, hclear⟩ := scheduleAt_lasts
        (fun h => absurd (hleast ⟨le_rfl, h⟩) (not_le.mpr hlt)) hs hlimited
      have hnonneg := rate.allowance_nonneg hlimited hpos.le
      have hnext : t + d ≤ stall := by
        by_contra h
        exact hclear stall hle (not_le.mp h) hstalls
      rcases estimateRound_of_limited hs hlimited hrate hrem with
        ⟨-, hreturns⟩ | ⟨rem', hround, -, hcount, hleft'⟩
      · have := rem.toInt_lt
        exact absurd (processable_of_le hlt hs (by omega)) hnot
      · rw [processable_next hlt hs hlimited hnonneg (hcount ▸ hleft'), ← hcount] at hnot
        refine ih (stall - (t + d)).toNat (by omega) (hreached.next ht hround)
          (fun u i w hu => hfits u i w (by omega)) (by omega) ⟨⟨hnext, hstalls⟩, ?_⟩ hnot rfl
        exact fun u hu => hleast ⟨by have := hu.1; omega, hu.2⟩

/-- A stall that is reached later is the first instant of its minute. -/
theorem not_returnsByMistake_of_lt {now stall n : ℤ} (hn : n < 2 ^ 63)
    (hfirst : FirstStall windows now stall) (hlt : now < stall) :
    ¬ReturnsByMistake windows stall n := by
  rintro ⟨i, w, e, hlast, hget, hlimited, hstop, hcmp, hmistake⟩
  have hminute := (cmp_timeOfDayFromTime stall).symm.trans hcmp
  have hbounds := cmp_bounds e
  have hfixed : dateAt stall e = stall := by
    -- otherwise the instant before it would stall as well
    by_contra hne
    have hpast := lt_of_le_of_ne (dateAt_le hminute) hne
    have hday : stall / day = (stall - 1) / day := by
      rw [dateAt_eq] at hpast
      unfold day minute at hpast
      unfold day
      omega
    have hsame : minuteOf stall = minuteOf (stall - 1) := by
      rw [dateAt_eq] at hpast
      rw [hminute]
      unfold minuteOf day minute at hminute
      unfold day minute at hpast
      unfold minuteOf day minute
      omega
    have hstalls : StallsAt windows (stall - 1) := by
      refine ⟨i, w, e, hlast.congr hday hsame, hget, hlimited, hstop, ?_⟩
      rw [cmp_timeOfDayFromTime, ← hsame, hminute]
    have := hfirst.2 ⟨by omega, hstalls⟩
    omega
  rw [hfixed, sub_self, Rate.allowance_zero] at hmistake
  omega

end Rollout
