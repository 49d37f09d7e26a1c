import CodeScout.RolloutWindow
import Mathlib

/-!
# The window in effect

Of the windows that are open, the last one of the configuration is in effect.
`windowFor` returns it together with the time for which it stays in effect,
until its own end or until a later window opens.

A window is open during the minute at which it ends, but its end is computed
as the first instant of that minute. During that minute the time that is left
is negative or zero, and this is the only case in which the answer is not
right (`windowFor_inEffect_iff`).
-/

namespace Rollout

open List

/-- The loop over the windows that finds the last open one. -/
def lastOpen (windows : List Window) (t : ℤ) : Option ℕ :=
  windows.zipIdx.foldl (fun index entry => if entry.1.isOpen t then some entry.2 else index) none

/-- The loop that looks for the first day on which a window is not open. -/
def dayEndLoop (days : WeekdaySet) (now : ℤ) : ℕ → ℤ → Outcome GoString ℤ
  | 0, _ => .outOfFuel
  | fuel + 1, start =>
    if days.includes (weekday (start + day)) = false then .ok (start + day)
    else if start + day > now + 7 * day then .panic
    else dayEndLoop days now fuel (start + day)

/-- When an open window closes. -/
def windowEnd (w : Window) (now : ℤ) : Outcome GoString (Option ℤ) :=
  match w.stop with
  | none =>
    if w.days.all then .ok none
    else do
      let stop ← dayEndLoop w.days now 9 (now / day * day)
      return some stop
  | some stop => .ok (some (dateAt now stop))

/-- The loop that looks for the first of several openings, and of an instant
that is given. -/
def nextOpening (now : ℤ) : Option ℤ → List Window → Outcome GoString (Option ℤ)
  | next, [] => .ok next
  | next, w :: windows => do
    let opening ← w.nextOpenAfter now
    match next with
    | none => nextOpening now (some opening) windows
    | some next => nextOpening now (some (if opening < next then opening else next)) windows

/-- The index of the window in effect, and how long it stays in effect. -/
def windowFor (windows : List Window) (now : ℤ) : Outcome GoString (Option ℕ × Option ℤ) :=
  if windows.isEmpty then .ok (none, none)
  else
    match lastOpen windows now with
    | none => do
      let next ← nextOpening now none windows
      return (none, next.map (· - now))
    | some index => do
      let w ← .ofOption windows[index]?
      let stop ← windowEnd w now
      let stop ← nextOpening now stop (windows.drop (index + 1))
      return (some index, stop.map (· - now))

variable {w : Window}

theorem windowEnd_eq {e : TimeOfDay} (h : w.stop = some e) (now : ℤ) :
    windowEnd w now = .ok (some (dateAt now e)) := by
  rw [windowEnd, h]

/-! ## The last open window -/

/-- The last open window of a list, if there is one. -/
def LastOpen (windows : List Window) (t : ℤ) : Option ℕ → Prop
  | some i => (∃ w, windows[i]? = some w ∧ w.isOpen t = true) ∧
      ∀ w ∈ windows.drop (i + 1), w.isOpen t = false
  | none => ∀ w ∈ windows, w.isOpen t = false

theorem lastOpen_concat (windows : List Window) (w : Window) (t : ℤ) :
    lastOpen (windows ++ [w]) t
      = if w.isOpen t then some windows.length else lastOpen windows t := by
  simp [lastOpen, zipIdx_append]

theorem lastOpen_lastOpen (windows : List Window) (t : ℤ) :
    LastOpen windows t (lastOpen windows t) := by
  induction windows using reverseRecOn with
  | nil => exact fun _ h => nomatch h
  | append_singleton windows w ih =>
    rw [lastOpen_concat]
    split_ifs with hopen
    · exact ⟨⟨w, by simp, hopen⟩, by simp⟩
    · rw [Bool.not_eq_true] at hopen
      cases hlast : lastOpen windows t with
      | none =>
        rw [hlast] at ih
        intro w' hw'
        rcases mem_append.mp hw' with hw' | hw'
        · exact ih w' hw'
        · rwa [mem_singleton.mp hw']
      | some i =>
        rw [hlast] at ih
        obtain ⟨⟨w', hget, hopen'⟩, hlater⟩ := ih
        have hi := (List.getElem?_eq_some_iff.mp hget).1
        refine ⟨⟨w', by rw [getElem?_append_left hi, hget], hopen'⟩, fun v hv => ?_⟩
        rw [drop_append_of_le_length hi] at hv
        rcases mem_append.mp hv with hv | hv
        · exact hlater v hv
        · rwa [mem_singleton.mp hv]

variable {windows : List Window} {now t : ℤ}

theorem LastOpen.not_lt {i j : ℕ}
    (h : LastOpen windows t (some i)) (hget : windows[j]? = some w) (hopen : w.isOpen t = true) :
    ¬ i < j := by
  intro hlt
  have hmem : w ∈ windows.drop (i + 1) := by
    refine mem_of_getElem? (i := j - (i + 1)) ?_
    rw [getElem?_drop, ← hget]
    congr 1
    omega
  rw [h.2 w hmem] at hopen
  cases hopen

theorem LastOpen.unique {index : Option ℕ} {i : ℕ}
    (h : LastOpen windows t index) (h' : LastOpen windows t (some i)) : index = some i := by
  obtain ⟨w, hget, hopen⟩ := h'.1
  cases index with
  | none =>
    rw [h w (mem_of_getElem? hget)] at hopen
    cases hopen
  | some j =>
    obtain ⟨v, hget', hopen'⟩ := h.1
    have hij := h.not_lt hget hopen
    have hji := h'.not_lt hget' hopen'
    rw [le_antisymm (Nat.not_lt.mp hji) (Nat.not_lt.mp hij)]

/-! ## The end of a window -/

theorem isOpen_of_stop_none (h : w.stop = none)
    (hday : w.days.includes (weekdayOf (t / day)) = true) : w.isOpen t = true := by
  rw [Window.isOpen_eq_true]
  refine ⟨hday, fun s _ e he => ?_⟩
  rw [h] at he
  cases he

theorem dayEndLoop_eq {days : WeekdaySet} {n : ℕ} (hn : n ≤ 7)
    (hfound : days.includes (weekdayOf (now / day + n)) = false)
    (hfirst : ∀ k < n, days.includes (weekdayOf (now / day + k)) = true) :
    ∀ (rest fuel k : ℕ), k + (rest + 1) = n → rest < fuel →
      dayEndLoop days now fuel ((now / day + k) * day) = .ok ((now / day + n) * day) := by
  have hround : ∀ (fuel k : ℕ), dayEndLoop days now (fuel + 1) ((now / day + k) * day)
      = if days.includes (weekdayOf (now / day + (k + 1 : ℕ))) = false then
          .ok ((now / day + (k + 1 : ℕ)) * day)
        else if (now / day + (k + 1 : ℕ)) * day > now + 7 * day then .panic
        else dayEndLoop days now fuel ((now / day + (k + 1 : ℕ)) * day) := by
    intro fuel k
    have hnext : (now / day + k) * day + day = (now / day + (k + 1 : ℕ)) * day := by
      push_cast
      ring
    rw [dayEndLoop, hnext, weekday, Int.mul_ediv_cancel _ (by unfold day; omega)]
  intro rest
  induction rest with
  | zero =>
    rintro (_ | fuel) k hk hfuel
    · exact absurd hfuel (Nat.not_lt_zero _)
    · rw [hround, show k + 1 = n from hk, if_pos hfound]
  | succ rest ih =>
    rintro (_ | fuel) k hk hfuel
    · exact absurd hfuel (Nat.not_lt_zero _)
    · have hincludes : ¬ days.includes (weekdayOf (now / day + (k + 1 : ℕ))) = false := by
        rw [hfirst (k + 1) (by omega)]
        decide
      have hweek : ¬ (now / day + (k + 1 : ℕ)) * day > now + 7 * day := by
        unfold day
        omega
      rw [hround, if_neg hincludes, if_neg hweek]
      exact ih fuel (k + 1) (by omega) (by omega)

/-- What the end of an open window says: it is ahead, and the window is open
until then. -/
structure OpenUntil (w : Window) (now : ℤ) (stop : Option ℤ) : Prop where
  ahead : ∀ e ∈ stop, now < e
  isOpen : ∀ t, now ≤ t → (∀ e ∈ stop, t < e) → w.isOpen t = true

theorem windowEnd_of_stop_none (hopen : w.isOpen now = true)
    (hstop : w.stop = none) : ∃ stop, windowEnd w now = .ok stop ∧ OpenUntil w now stop := by
  unfold windowEnd
  rw [hstop]
  have htoday := (Window.isOpen_eq_true.mp hopen).1
  cases hall : w.days.all with
  | true =>
    refine ⟨none, rfl, nofun, fun t _ _ => isOpen_of_stop_none hstop ?_⟩
    rw [WeekdaySet.includes, if_pos hall]
  | false =>
    have hex : ∃ k ≤ 7, w.days.includes (weekdayOf (now / day + (k : ℕ))) = false := by
      obtain ⟨wd, hwd⟩ := WeekdaySet.exists_not_includes hall
      obtain ⟨k, hk, hweekday⟩ := exists_weekdayOf (now / day) wd
      exact ⟨k, hk.le, by rw [hweekday, hwd]⟩
    obtain ⟨n, hn, hfound, hfirst⟩ := exists_first hex
    simp only [Bool.not_eq_false] at hfirst
    obtain ⟨rest, rfl⟩ : ∃ rest, n = rest + 1 := by
      refine Nat.exists_eq_succ_of_ne_zero fun hzero => ?_
      rw [hzero, Nat.cast_zero, add_zero, htoday] at hfound
      cases hfound
    have hloop := dayEndLoop_eq hn hfound hfirst rest 9 0 (by omega) (by omega)
    rw [Nat.cast_zero, add_zero] at hloop
    refine ⟨some ((now / day + (rest + 1 : ℕ)) * day), ?_, ?_, ?_⟩
    · simp only [Bool.false_eq_true, if_false, hloop]
      rfl
    · rintro _ ⟨⟩
      unfold day
      omega
    · intro t hle hlt
      have hbefore := hlt _ rfl
      obtain ⟨k, hk⟩ : ∃ k : ℕ, t / day = now / day + k :=
        ⟨(t / day - now / day).toNat, by unfold day; omega⟩
      refine isOpen_of_stop_none hstop ?_
      rw [hk]
      refine hfirst k ?_
      unfold day at hbefore hk
      omega

theorem windowEnd_of_stop_some (hopen : w.isOpen now = true)
    {e : TimeOfDay} (hstop : w.stop = some e) (hminute : minuteOf now ≠ e.cmp) :
    OpenUntil w now (some (dateAt now e)) := by
  obtain ⟨hday, hhours⟩ := Window.isOpen_eq_true.mp hopen
  obtain ⟨s, hs⟩ : ∃ s, w.start = some s :=
    Option.isSome_iff_exists.mp (by rw [w.both, hstop]; rfl)
  have hnow := hhours s hs e hstop
  have hbounds := cmp_bounds e
  rw [dateAt_eq]
  constructor
  · rintro _ ⟨⟩
    unfold minuteOf day minute at hnow hminute
    unfold day minute
    omega
  · intro t hle hlt
    have hbefore := hlt _ rfl
    have hsame : t / day = now / day := by
      unfold day minute at hbefore
      unfold day
      omega
    rw [Window.isOpen_eq_true, hsame]
    refine ⟨hday, fun s' hs' e' he' => ?_⟩
    rw [hs] at hs'
    rw [hstop] at he'
    cases hs'
    cases he'
    unfold minuteOf day minute at hnow hminute ⊢
    unfold day minute at hbefore
    unfold day at hsame
    omega

theorem dateAt_le {e : TimeOfDay} (h : minuteOf now = e.cmp) : dateAt now e ≤ now := by
  rw [dateAt_eq]
  unfold minuteOf day minute at h
  unfold day minute
  omega

/-! ## The next opening of several windows -/

/-- What the first of several openings says. -/
structure FirstOpening (now : ℤ) (next : Option ℤ) (windows : List Window)
    (result : Option ℤ) : Prop where
  origin : ∀ e ∈ result, e ∈ next ∨ now < e
  le : ∀ e ∈ next, ∃ e' ∈ result, e' ≤ e
  closed : ∀ t, now ≤ t → (∀ e ∈ result, t < e) → ∀ w ∈ windows, w.isOpen t = false

theorem FirstOpening.ahead {next result : Option ℤ}
    (h : FirstOpening now next windows result) (hnext : ∀ e ∈ next, now < e) :
    ∀ e ∈ result, now < e := by
  intro e he
  obtain hmem | hlt := h.origin e he
  · exact hnext e hmem
  · exact hlt

theorem nextOpening_firstOpening (next : Option ℤ) (h : ∀ w ∈ windows, w.isOpen now = false) :
    ∃ result, nextOpening now next windows = .ok result ∧
      FirstOpening now next windows result := by
  induction windows generalizing next with
  | nil =>
    exact ⟨next, rfl, fun e he => .inl he, fun e he => ⟨e, he, le_rfl⟩,
      fun _ _ _ _ hw => nomatch hw⟩
  | cons w windows ih =>
    obtain ⟨hw, h⟩ := forall_mem_cons.mp h
    obtain ⟨opening, hopening, ⟨hle, hopen⟩, hleast⟩ := w.isLeast_nextOpenAfter now
    have hlt : now < opening := lt_of_le_of_ne hle fun heq => by
      rw [← heq, hw] at hopen
      cases hopen
    -- the first opening so far
    obtain ⟨first, hfirst, horigin, hnext, hopeningLe⟩ : ∃ first,
        nextOpening now next (w :: windows) = nextOpening now (some first) windows ∧
          (first ∈ next ∨ now < first) ∧ (∀ e ∈ next, first ≤ e) ∧ first ≤ opening := by
      cases next with
      | none => exact ⟨opening, by rw [nextOpening, hopening]; rfl, .inr hlt, nofun, le_rfl⟩
      | some e =>
        refine ⟨if opening < e then opening else e, by rw [nextOpening, hopening]; rfl, ?_, ?_, ?_⟩
        · split_ifs
          · exact .inr hlt
          · exact .inl rfl
        · rintro _ ⟨⟩
          split_ifs with hbefore
          · exact hbefore.le
          · exact le_rfl
        · split_ifs with hbefore
          · exact le_rfl
          · exact not_lt.mp hbefore
    obtain ⟨result, hresult, hspec⟩ := ih (some first) h
    obtain ⟨e, he, hefirst⟩ := hspec.le first rfl
    refine ⟨result, hfirst.trans hresult, ?_, ?_, ?_⟩
    · intro e' he'
      obtain hmem | hlt' := hspec.origin e' he'
      · cases hmem
        exact horigin
      · exact .inr hlt'
    · exact fun e' he' => ⟨e, he, hefirst.trans (hnext e' he')⟩
    · intro t hle hbefore
      refine forall_mem_cons.mpr ⟨?_, hspec.closed t hle hbefore⟩
      rw [← Bool.not_eq_true]
      intro hopen'
      have := hleast ⟨hle, hopen'⟩
      have := hbefore e he
      omega

/-! ## The window in effect -/

/-- **The reported window is in effect, for as long as reported.** -/
structure InEffect (windows : List Window) (now : ℤ) (index : Option ℕ)
    (duration : Option ℤ) : Prop where
  last : LastOpen windows now index
  positive : ∀ d ∈ duration, 0 < d
  stays : ∀ t, now ≤ t → (∀ d ∈ duration, t < now + d) → LastOpen windows t index

/-- The last open window is in the minute at which it ends. -/
def InEndMinute (windows : List Window) (now : ℤ) : Prop :=
  ∃ i w e, LastOpen windows now (some i) ∧ windows[i]? = some w ∧ w.stop = some e ∧
    (timeOfDayFromTime now).cmp = e.cmp

theorem windowFor_of_none (hlast : LastOpen windows now none) : ∃ duration,
      windowFor windows now = .ok (none, duration) ∧ InEffect windows now none duration := by
  unfold windowFor
  by_cases hempty : windows = []
  · subst hempty
    exact ⟨none, rfl, hlast, nofun, fun _ _ _ _ hw => nomatch hw⟩
  · rw [if_neg (by simpa using hempty)]
    have hindex : lastOpen windows now = none := by
      cases hindex : lastOpen windows now with
      | none => rfl
      | some i => exact (hlast.unique (hindex ▸ lastOpen_lastOpen windows now)).symm
    obtain ⟨next, hnext, hspec⟩ := nextOpening_firstOpening none hlast
    refine ⟨next.map (· - now), by rw [hindex]; simp [hnext], hlast, ?_, ?_⟩
    · intro d hd
      obtain ⟨e, he, rfl⟩ := Option.mem_map.mp hd
      have := hspec.ahead nofun e he
      omega
    · intro t hle hbefore
      refine hspec.closed t hle fun e he => ?_
      have := hbefore (e - now) (Option.mem_map.mpr ⟨e, he, rfl⟩)
      omega

/-- The answer for a window that is open: it is right if the end of the window
is, and not positive if the end is not ahead. -/
theorem windowFor_of_some {i : ℕ}
    (hlast : LastOpen windows now (some i)) (hget : windows[i]? = some w) {stop : Option ℤ}
    (hstop : windowEnd w now = .ok stop) : ∃ result,
      windowFor windows now = .ok (some i, result.map (· - now)) ∧
        FirstOpening now stop (windows.drop (i + 1)) result := by
  have hindex := (lastOpen_lastOpen windows now).unique hlast
  have hne : ¬ windows.isEmpty = true := by
    intro hempty
    rw [isEmpty_iff.mp hempty] at hget
    cases hget
  obtain ⟨result, hresult, hspec⟩ := nextOpening_firstOpening stop hlast.2
  refine ⟨result, ?_, hspec⟩
  unfold windowFor
  rw [if_neg hne, hindex]
  simp only [hget, Outcome.ofOption, Outcome.ok_bind, hstop, hresult]
  rfl

theorem inEffect_of_openUntil {i : ℕ}
    (hlast : LastOpen windows now (some i)) (hget : windows[i]? = some w) {stop result : Option ℤ}
    (hopen : OpenUntil w now stop)
    (hspec : FirstOpening now stop (windows.drop (i + 1)) result) :
    InEffect windows now (some i) (result.map (· - now)) := by
  refine ⟨hlast, fun d hd => ?_, fun t hle hbefore => ?_⟩
  · obtain ⟨e, he, rfl⟩ := Option.mem_map.mp hd
    have := hspec.ahead hopen.ahead e he
    omega
  · have hbefore' : ∀ e ∈ result, t < e := fun e he => by
      have := hbefore (e - now) (Option.mem_map.mpr ⟨e, he, rfl⟩)
      omega
    refine ⟨⟨w, hget, hopen.isOpen t hle fun e he => ?_⟩, hspec.closed t hle hbefore'⟩
    obtain ⟨e', he', hle'⟩ := hspec.le e he
    exact (hbefore' e' he').trans_le hle'

theorem exists_inEffect (h : ¬ InEndMinute windows now) :
    ∃ index duration, windowFor windows now = .ok (index, duration) ∧
      InEffect windows now index duration := by
  have hlast := lastOpen_lastOpen windows now
  cases hindex : lastOpen windows now with
  | none =>
    rw [hindex] at hlast
    obtain ⟨duration, hresult⟩ := windowFor_of_none hlast
    exact ⟨none, duration, hresult⟩
  | some i =>
    rw [hindex] at hlast
    obtain ⟨w, hget, hopen⟩ := hlast.1
    obtain ⟨stop, hstop, huntil⟩ : ∃ stop, windowEnd w now = .ok stop ∧ OpenUntil w now stop := by
      cases hstop : w.stop with
      | none => exact windowEnd_of_stop_none hopen hstop
      | some e =>
        refine ⟨some (dateAt now e), windowEnd_eq hstop now,
          windowEnd_of_stop_some hopen hstop fun heq => h ?_⟩
        exact ⟨i, w, e, hlast, hget, hstop, by rw [cmp_timeOfDayFromTime, heq]⟩
    obtain ⟨result, hresult, hspec⟩ := windowFor_of_some hlast hget hstop
    exact ⟨some i, _, hresult, inEffect_of_openUntil hlast hget huntil hspec⟩

/-- **When the window in effect is reported correctly**: always, except during
the minute at which it ends. -/
theorem windowFor_inEffect_iff (windows : List Window) (now : ℤ) :
    (∃ index duration, windowFor windows now = .ok (index, duration) ∧
        InEffect windows now index duration)
      ↔ ¬ InEndMinute windows now := by
  refine ⟨?_, exists_inEffect⟩
  rintro ⟨index, duration, hresult, heffect⟩ ⟨i, w, e, hlast, hget, hstop, hminute⟩
  rw [cmp_timeOfDayFromTime] at hminute
  obtain ⟨result, hresult', hspec⟩ := windowFor_of_some hlast hget (windowEnd_eq hstop now)
  rw [hresult] at hresult'
  cases hresult'
  obtain ⟨e', he', hle⟩ := hspec.le _ rfl
  have hpositive := heffect.positive (e' - now) (Option.mem_map.mpr ⟨e', he', rfl⟩)
  have := dateAt_le hminute
  omega

section Example

/-- A configuration with one window, on every day from nine to five. -/
def officeHours : Option (List (Option RawWindow)) :=
  some [some ⟨[], lit "09:00", lit "17:00", .string (lit "10/hour")⟩]

def officeWindow : Window :=
  ⟨0, some ⟨⟨9, by decide⟩, ⟨0, by decide⟩⟩, some ⟨⟨17, by decide⟩, ⟨0, by decide⟩⟩,
    ⟨10, .ratePerHour, by decide⟩, rfl, by decide⟩

/-- **A window that is left for a negative time.** At half a minute past five,
the window is open, and has ended thirty seconds ago. -/
theorem windowFor_after_end :
    parseConfiguration (fun _ => true) id officeHours = .ok [officeWindow] ∧
      windowFor [officeWindow] (17 * hour + 30 * second) = .ok (some 0, some (-30 * second)) ∧
      ¬ ∃ index duration,
        windowFor [officeWindow] (17 * hour + 30 * second) = .ok (index, duration) ∧
          InEffect [officeWindow] (17 * hour + 30 * second) index duration := by
  have hresult : windowFor [officeWindow] (17 * hour + 30 * second)
      = .ok (some 0, some (-30 * second)) := by decide +kernel
  refine ⟨by decide +kernel, hresult, ?_⟩
  rintro ⟨index, duration, h, heffect⟩
  rw [hresult] at h
  cases h
  exact absurd (heffect.positive _ rfl) (by decide)

end Example

end Rollout
