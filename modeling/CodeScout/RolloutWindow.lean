import CodeScout.Util.GoFloat
import CodeScout.Util.GoQuote
import CodeScout.Util.GoStrconv
import CodeScout.Util.Outcome
import Mathlib

/-!
# Rollout windows

A rollout window is open on some weekdays, all day or from one time of the
day to another, and has a rate. Instants are nanoseconds; the times of a
window are minutes, and a window is open *during* the minute at which it ends.

A `Window` carries what `parseWindow` has checked: there are both a start and
an end or none of them, and the start is before the end. `isLeast_nextOpenAfter`
says that the search of the source over the next days finds the first instant
at which a window is open.
-/

namespace Rollout

/-! ## Instants

An instant is the number of nanoseconds since the zero time of Go, midnight of
a Monday, in UTC. -/

/-- A second, in nanoseconds. -/
def second : ℤ := 1000000000

/-- A minute. -/
def minute : ℤ := 60000000000

/-- An hour. -/
def hour : ℤ := 3600000000000

/-- A day. -/
def day : ℤ := 86400000000000

/-- The weekday of the given day after the zero time, 0 for a Sunday. -/
def weekdayOf (d : ℤ) : Fin 7 := ⟨((d + 1) % 7).toNat, by omega⟩

/-- The method `Weekday` of an instant. -/
def weekday (t : ℤ) : Fin 7 := weekdayOf (t / day)

/-! ## Sets of weekdays -/

/-- A set of weekdays. The source has an `int8`, of which it uses seven bits. -/
abbrev WeekdaySet := BitVec 7

/-- The bit of a weekday. -/
def weekdayToBit (d : Fin 7) : WeekdaySet := 1 <<< d.val

namespace WeekdaySet

/-- A set with one more weekday. -/
def add (ws : WeekdaySet) (d : Fin 7) : WeekdaySet := ws ||| weekdayToBit d

/-- The empty set stands for all days. -/
def all (ws : WeekdaySet) : Bool := ws == 0 || ws == 127

/-- Whether a weekday is in a set. -/
def includes (ws : WeekdaySet) (d : Fin 7) : Bool :=
  if all ws then true else ws &&& weekdayToBit d != 0

theorem exists_includes (ws : WeekdaySet) : ∃ d, includes ws d = true := by
  revert ws
  decide +kernel

theorem exists_not_includes {ws : WeekdaySet} (h : all ws = false) :
    ∃ d, includes ws d = false := by
  revert ws
  decide +kernel

end WeekdaySet

/-! ## Times of the day -/

/-- A time of the day, to the minute. -/
structure TimeOfDay where
  hour : Fin 24
  minute : Fin 60
  deriving DecidableEq

namespace TimeOfDay

/-- The minutes since midnight, by which times are compared. -/
def cmp (t : TimeOfDay) : ℤ := t.hour.val * 60 + t.minute.val

/-- The method `after` of times. -/
def after (t other : TimeOfDay) : Bool := t.cmp > other.cmp

/-- The method `before` of times. -/
def before (t other : TimeOfDay) : Bool := t.cmp < other.cmp

end TimeOfDay

/-- The time of the day of an instant. -/
def timeOfDayFromTime (t : ℤ) : TimeOfDay where
  hour := ⟨(t % day / hour).toNat, by unfold day hour; omega⟩
  minute := ⟨(t % hour / minute).toNat, by unfold hour minute; omega⟩

/-- The given time on the day of an instant, `time.Date` with its date. -/
def dateAt (t : ℤ) (tod : TimeOfDay) : ℤ :=
  t / day * day + tod.hour.val * hour + tod.minute.val * minute

/-! ## Rates and windows -/

/-- The time to which a rate refers. -/
inductive RateUnit
  | ratePerSecond
  | ratePerMinute
  | ratePerHour
  deriving DecidableEq

/-- How long it is. -/
def RateUnit.asDuration : RateUnit → ℤ
  | .ratePerSecond => second
  | .ratePerMinute => minute
  | .ratePerHour => hour

/-- A rate, unlimited if `n` is `-1`. -/
structure Rate where
  n : Int64
  unit : RateUnit
  valid : -1 ≤ n
  deriving DecidableEq

/-- The rate has no limit. -/
def Rate.isUnlimited (r : Rate) : Bool := r.n == -1

/-- A parsed window. -/
structure Window where
  days : WeekdaySet
  start : Option TimeOfDay
  stop : Option TimeOfDay
  rate : Rate
  both : start.isSome = stop.isSome
  lt : ∀ s ∈ start, ∀ e ∈ stop, s.cmp < e.cmp
  deriving DecidableEq

namespace Window

/-- Whether a time is in the hours of a window, the minute of its end included. -/
def covers (w : Window) (time : TimeOfDay) : Bool :=
  match w.start, w.stop with
  | some s, some e => !(time.before s || time.after e)
  | _, _ => true

/-- **Whether a window is open.** -/
def isOpen (w : Window) (t : ℤ) : Bool :=
  w.days.includes (weekday t) && w.covers (timeOfDayFromTime t)

/-- The loop of `NextOpenAfter` over the days. -/
def nextOpenLoop (w : Window) (after : ℤ) : ℕ → ℤ → Outcome GoString ℤ
  | 0, _ => .outOfFuel
  | fuel + 1, time =>
    if w.days.includes (weekday time) ∧ time > after then .ok time
    else if time - after > 7 * day then .panic
    else nextOpenLoop w after fuel (time + day)

/-- The next instant at which a window is open. The loop ends after nine rounds,
because the source gives up after a week. -/
def nextOpenAfter (w : Window) (after : ℤ) : Outcome GoString ℤ :=
  if w.isOpen after then .ok after
  else w.nextOpenLoop after 9 (dateAt after (w.start.getD ⟨0, 0⟩))

end Window

/-! ## Parsing -/

/-- A value of the site configuration for a rate. -/
inductive RawRate
  | int (v : ℤ)
  | string (s : GoString)
  | other (typeName : GoString)

/-- A window as it is written in the site configuration. -/
structure RawWindow where
  days : List GoString
  start : GoString
  stop : GoString
  rate : RawRate

section Parse

variable (isPrint : ℕ → Bool) (toLower : GoString → GoString)

/-- `strings.SplitN` with two parts. -/
def splitTwo (s : GoString) (sep : UInt8) : Option (GoString × GoString) :=
  if s.contains sep then
    some (s.takeWhile (· != sep), (s.dropWhile (· != sep)).drop 1)
  else none

/-- An integer that fits in eight bits. -/
def parseTimePart (s : GoString) : Option ℤ :=
  ((atoi s).map Int64.toInt).filter fun i => -128 ≤ i ∧ i ≤ 127

/-- A time such as `09:30`, none if it is left out. -/
def parseWindowTime (raw : GoString) : Except GoString (Option TimeOfDay) :=
  if raw.isEmpty then .ok none
  else
    match splitTwo raw 58 with
    | none => .error (lit "malformed time: " ++ quote isPrint raw)
    | some (first, rest) =>
      match parseTimePart first, parseTimePart rest with
      | some h, some m =>
        if hh : 0 ≤ h ∧ h ≤ 23 ∧ 0 ≤ m ∧ m ≤ 59 then
          .ok (some ⟨⟨h.toNat, by omega⟩, ⟨m.toNat, by omega⟩⟩)
        else .error (lit "malformed time: " ++ quote isPrint raw)
      | _, _ => .error (lit "malformed time: " ++ quote isPrint raw)

/-- The names of the weekdays, of which three letters count. -/
def weekdayNames : List (GoString × Fin 7) :=
  [(lit "sun", 0), (lit "mon", 1), (lit "tue", 2), (lit "wed", 3), (lit "thu", 4), (lit "fri", 5),
    (lit "sat", 6)]

/-- A weekday by its name. -/
def parseWeekday (raw : GoString) : Except GoString (Fin 7) :=
  if raw.length < 3 then .error (lit "unknown weekday: " ++ quote isPrint raw)
  else
    match weekdayNames.lookup (toLower (raw.take 3)) with
    | some d => .ok d
    | none => .error (lit "unknown weekday: " ++ quote isPrint raw)

/-- A unit by its first letter. -/
def parseRateUnit (raw : GoString) : Option RateUnit :=
  match raw.head? with
  | some c =>
    if c = 115 ∨ c = 83 then some .ratePerSecond
    else if c = 109 ∨ c = 77 then some .ratePerMinute
    else if c = 104 ∨ c = 72 then some .ratePerHour
    else none
  | none => none

/-- A rate such as `10/hour`. -/
def parseRate : RawRate → Except GoString Rate
  | .int v =>
    if v = 0 then .ok ⟨0, .ratePerSecond, by decide⟩
    else .error (lit "malformed rate (numeric values can only be 0): " ++ formatInt v)
  | .string s =>
    let raw := s
    let s := toLower s
    if s = lit "unlimited" then .ok ⟨-1, .ratePerSecond, by decide⟩
    else
      match splitTwo s 47 with
      | none => .error (lit "malformed rate: " ++ quote isPrint raw)
      | some (first, rest) =>
        match atoi first, parseRateUnit rest with
        | some n, some unit =>
          if hn : -1 < n then .ok ⟨n, unit, Int64.le_of_lt hn⟩
          else .error (lit "malformed rate: " ++ quote isPrint raw)
        | _, _ => .error (lit "malformed rate: " ++ quote isPrint raw)
  | .other typeName => .error (lit "malformed rate: unknown type " ++ typeName)

/-- The days of a window, and the errors of those that are not known. -/
def parseDays (raw : List GoString) : WeekdaySet × List GoString :=
  raw.foldl (fun parsed d =>
    match parseWeekday isPrint toLower d with
    | .ok d => (parsed.1.add d, parsed.2)
    | .error e => (parsed.1, parsed.2 ++ [e])) (0, [])

/-- A window, or the errors that were found. -/
def parseWindow (raw : Option RawWindow) : Except (List GoString) Window :=
  match raw with
  | none => .error [lit "raw window cannot be nil"]
  | some raw =>
    let (days, errs) := parseDays isPrint toLower raw.days
    let (start, errs) := match parseWindowTime isPrint raw.start with
      | .ok start => (start, errs)
      | .error e => (none, errs ++ [lit "start time: " ++ e])
    let (stop, errs) := match parseWindowTime isPrint raw.stop with
      | .ok stop => (stop, errs)
      | .error e => (none, errs ++ [lit "end time: " ++ e])
    let both := start.isSome = stop.isSome
    let lt := ∀ s ∈ start, ∀ e ∈ stop, s.cmp < e.cmp
    let errs := if ¬ both then errs ++ [lit "both start and end times must be provided"]
      else if ¬ lt then errs ++ [lit "end time must be after the start time"]
      else errs
    match parseRate isPrint toLower raw.rate with
    | .error e => .error (errs ++ [e])
    | .ok rate =>
      if h : errs = [] ∧ both ∧ lt then .ok ⟨days, start, stop, rate, h.2.1, h.2.2⟩
      else .error errs

/-- The windows of a site configuration, or the errors of each window. -/
def parseConfiguration (raw : Option (List (Option RawWindow))) :
    Except (List (ℕ × List GoString)) (List Window) :=
  let parsed := (raw.getD []).zipIdx.map fun entry =>
    (entry.2, parseWindow isPrint toLower entry.1)
  let errs := parsed.filterMap fun entry =>
    match entry.2 with
    | .error errs => some (entry.1, errs)
    | .ok _ => none
  if errs = [] then .ok (parsed.filterMap fun entry => entry.2.toOption) else .error errs

end Parse

/-! ## When a window is open -/

/-- The minute of the day of an instant. -/
def minuteOf (t : ℤ) : ℤ := t % day / minute

theorem cmp_timeOfDayFromTime (t : ℤ) : (timeOfDayFromTime t).cmp = minuteOf t := by
  simp only [timeOfDayFromTime, TimeOfDay.cmp, minuteOf, day, hour, minute]
  omega

theorem dateAt_eq (t : ℤ) (tod : TimeOfDay) :
    dateAt t tod = t / day * day + tod.cmp * minute := by
  simp only [dateAt, TimeOfDay.cmp, hour, minute]
  ring

theorem cmp_bounds (tod : TimeOfDay) : 0 ≤ tod.cmp ∧ tod.cmp < 1440 := by
  have hhour := tod.hour.isLt
  have hminute := tod.minute.isLt
  unfold TimeOfDay.cmp
  omega

/-- The weekdays repeat after seven days. -/
theorem exists_weekdayOf (d : ℤ) (wd : Fin 7) : ∃ k : ℕ, k < 7 ∧ weekdayOf (d + k) = wd := by
  refine ⟨((wd.val - (d + 1)) % 7).toNat, by omega, ?_⟩
  simp only [weekdayOf, Fin.ext_iff]
  have := wd.isLt
  omega

theorem weekdayOf_add_seven (d : ℤ) : weekdayOf (d + 7) = weekdayOf d := by
  simp only [weekdayOf, Fin.ext_iff]
  omega

/-- The first number with a property, if there is one up to a bound. -/
theorem exists_first {p : ℕ → Prop} {m : ℕ} (h : ∃ k ≤ m, p k) :
    ∃ n ≤ m, p n ∧ ∀ k < n, ¬ p k := by
  classical
  have hex : ∃ k, p k := h.imp fun _ hk => hk.2
  obtain ⟨k, hk, hp⟩ := h
  exact ⟨Nat.find hex, (Nat.find_min' hex hp).trans hk, Nat.find_spec hex,
    fun _ hlt => Nat.find_min hex hlt⟩

namespace Window

variable {w : Window}

theorem isOpen_eq_true {t : ℤ} : w.isOpen t = true ↔
    w.days.includes (weekdayOf (t / day)) = true ∧
      ∀ s ∈ w.start, ∀ e ∈ w.stop, s.cmp ≤ minuteOf t ∧ minuteOf t ≤ e.cmp := by
  rw [isOpen, Bool.and_eq_true]
  refine and_congr Iff.rfl ?_
  unfold covers
  cases w.start with
  | none => simp
  | some s =>
    cases w.stop with
    | none => simp
    | some e => simp [TimeOfDay.before, TimeOfDay.after, cmp_timeOfDayFromTime]

/-- The minute at which a window opens. -/
def opening (w : Window) : ℤ := (w.start.getD ⟨0, 0⟩).cmp

theorem opening_bounds (w : Window) : 0 ≤ w.opening ∧ w.opening < 1440 := cmp_bounds _

/-- The instant at which a window opens on a day, if it does. -/
def openingOn (w : Window) (d : ℤ) : ℤ := d * day + w.opening * minute

theorem openingOn_day (w : Window) (d : ℤ) : w.openingOn d / day = d := by
  have hbounds := w.opening_bounds
  unfold openingOn day minute
  omega

theorem isOpen_openingOn {d : ℤ} (h : w.days.includes (weekdayOf d) = true) :
    w.isOpen (w.openingOn d) = true := by
  have hbounds := w.opening_bounds
  have hminute : minuteOf (w.openingOn d) = w.opening := by
    unfold minuteOf openingOn day minute
    omega
  rw [isOpen_eq_true, openingOn_day, hminute]
  refine ⟨h, fun s hs e he => ⟨?_, ?_⟩⟩
  · rw [opening, hs]
    exact le_rfl
  · rw [opening, hs]
    exact (w.lt s hs e he).le

theorem openingOn_le {t : ℤ} (h : w.isOpen t = true) : w.openingOn (t / day) ≤ t := by
  have hopening : w.opening ≤ minuteOf t := by
    unfold opening
    cases hs : w.start with
    | none =>
      unfold minuteOf day minute
      have : (TimeOfDay.cmp ⟨0, 0⟩ : ℤ) = 0 := rfl
      simp only [Option.getD_none, this]
      omega
    | some s =>
      have hboth := w.both
      rw [hs] at hboth
      obtain ⟨e, he⟩ := Option.isSome_iff_exists.mp hboth.symm
      exact ((isOpen_eq_true.mp h).2 s hs e he).1
  unfold openingOn
  unfold minuteOf day minute at hopening
  unfold day minute
  omega

/-- A window that is open on a day and not later on that day has not opened
yet. -/
theorem lt_openingOn {t t' : ℤ} (hle : t ≤ t') (hday : t' / day = t / day)
    (h' : w.isOpen t' = true) (h : w.isOpen t = false) : t < w.openingOn (t / day) := by
  obtain ⟨hincludes, hhours⟩ := isOpen_eq_true.mp h'
  rw [hday] at hincludes
  rw [← Bool.not_eq_true, isOpen_eq_true, not_and] at h
  have hnot := h hincludes
  push Not at hnot
  obtain ⟨s, hs, e, he, hclosed⟩ := hnot
  have hopen := hhours s hs e he
  have hmono : minuteOf t ≤ minuteOf t' := by
    unfold minuteOf day minute
    unfold day at hday
    omega
  have hopening : w.opening = s.cmp := by rw [opening, hs]; rfl
  have hlt : minuteOf t < w.opening := by
    rw [hopening]
    by_contra hge
    have := hclosed (not_lt.mp hge)
    omega
  unfold openingOn
  unfold minuteOf day minute at hlt
  unfold day minute
  omega

/-! ## The next opening -/

/-- The day of a candidate of the search is one on which the window opens after
the given instant. -/
def OpensOn (w : Window) (after : ℤ) (d : ℤ) : Prop :=
  w.days.includes (weekdayOf d) = true ∧ after < w.openingOn d

instance (w : Window) (after d : ℤ) : Decidable (w.OpensOn after d) :=
  inferInstanceAs (Decidable (_ ∧ _))

/-- Such a day is found within a week. -/
theorem exists_opensOn (w : Window) (after : ℤ) :
    ∃ k : ℕ, k ≤ 7 ∧ w.OpensOn after (after / day + k) := by
  obtain ⟨wd, hwd⟩ := WeekdaySet.exists_includes w.days
  obtain ⟨k, hk, hweekday⟩ := exists_weekdayOf (after / day) wd
  have hbounds := w.opening_bounds
  rcases Nat.eq_zero_or_pos k with rfl | hpos
  · refine ⟨7, le_rfl, ?_, ?_⟩
    · rw [Nat.cast_ofNat, weekdayOf_add_seven]
      simpa [hwd] using congrArg w.days.includes hweekday
    · unfold openingOn day minute
      omega
  · refine ⟨k, hk.le, ?_, ?_⟩
    · rw [hweekday, hwd]
    · unfold openingOn day minute
      omega

theorem nextOpenLoop_openingOn (w : Window) (after d : ℤ) (fuel : ℕ) :
    w.nextOpenLoop after (fuel + 1) (w.openingOn d)
      = if w.OpensOn after d then .ok (w.openingOn d)
        else if w.openingOn d - after > 7 * day then .panic
        else w.nextOpenLoop after fuel (w.openingOn (d + 1)) := by
  have hnext : w.openingOn d + day = w.openingOn (d + 1) := by
    unfold openingOn
    ring
  rw [nextOpenLoop, weekday, openingOn_day, hnext]
  rfl

/-- The search goes from one day to the next until it finds the first such
day, which is at most a week ahead. -/
theorem nextOpenLoop_eq {after : ℤ} {n : ℕ} (hn : n ≤ 7)
    (hfound : w.OpensOn after (after / day + n))
    (hfirst : ∀ k < n, ¬ w.OpensOn after (after / day + k)) :
    ∀ (rest fuel k : ℕ), k + rest = n → rest < fuel →
      w.nextOpenLoop after fuel (w.openingOn (after / day + k))
        = .ok (w.openingOn (after / day + n)) := by
  intro rest
  induction rest with
  | zero =>
    rintro (_ | fuel) k hk hfuel
    · exact absurd hfuel (Nat.not_lt_zero _)
    · rw [Nat.add_zero] at hk
      rw [nextOpenLoop_openingOn, hk, if_pos hfound]
  | succ rest ih =>
    rintro (_ | fuel) k hk hfuel
    · exact absurd hfuel (Nat.not_lt_zero _)
    · have hbounds := w.opening_bounds
      have hweek : ¬ w.openingOn (after / day + k) - after > 7 * day := by
        unfold openingOn day minute
        omega
      rw [nextOpenLoop_openingOn, if_neg (hfirst k (by omega)), if_neg hweek, add_assoc]
      exact_mod_cast ih fuel (k + 1) (by omega) (by omega)

/-- **The next opening** is the first instant, from the given one on, at which
the window is open. -/
theorem isLeast_nextOpenAfter (w : Window) (after : ℤ) :
    ∃ t, w.nextOpenAfter after = .ok t ∧ IsLeast {t | after ≤ t ∧ w.isOpen t = true} t := by
  unfold nextOpenAfter
  cases hopen : w.isOpen after with
  | true => exact ⟨after, rfl, ⟨le_rfl, hopen⟩, fun t ht => ht.1⟩
  | false =>
    obtain ⟨n, hn, hfound, hfirst⟩ := exists_first (exists_opensOn w after)
    have hdate : dateAt after (w.start.getD ⟨0, 0⟩) = w.openingOn (after / day + (0 : ℕ)) := by
      rw [dateAt_eq, Nat.cast_zero, add_zero]
      rfl
    refine ⟨w.openingOn (after / day + n), ?_, ⟨hfound.2.le, isOpen_openingOn hfound.1⟩, ?_⟩
    · rw [if_neg Bool.false_ne_true, hdate]
      exact nextOpenLoop_eq hn hfound hfirst n 9 0 (Nat.zero_add n) (by omega)
    · -- an earlier instant would be on a day that the search has passed
      rintro t ⟨hle, ht⟩
      by_contra hlt
      have hbefore := openingOn_le ht
      have hbounds := w.opening_bounds
      obtain ⟨k, hk⟩ : ∃ k : ℕ, t / day = after / day + k :=
        ⟨(t / day - after / day).toNat, by unfold day; omega⟩
      have hkn : k < n ∨ k = n := by
        rw [hk] at hbefore
        unfold openingOn day minute at hlt hbefore
        omega
      rcases hkn with hkn | rfl
      · refine hfirst k hkn ⟨?_, ?_⟩
        · rw [← hk]
          exact (isOpen_eq_true.mp ht).1
        · rcases Nat.eq_zero_or_pos k with rfl | hpos
          · rw [Nat.cast_zero, add_zero] at hk ⊢
            exact lt_openingOn hle hk ht hopen
          · unfold openingOn day minute
            omega
      · rw [hk] at hbefore
        exact hlt hbefore

end Window

end Rollout
