import Mathlib
import CodeScout.Util.Machine

/-!
# Rate limits in Redis

A rate limit is a counter in Redis that expires. `TryAcquire` lets a request pass
while the counter is below the limit, and returns a function that adds the usage of
the request afterwards. That function increments the counter, reads its time to live
and sets one if there is none: three calls to Redis, any of which may fail, in
between which other requests go on.

A counter that has reached the limit and has no time to live stays as it is, as no
request passes any more. This happens when the last commit in progress fails between
incrementing the counter and setting its time to live, and in no other way
(`recoverable_iff`).
-/

namespace RateLimit

open List

/-- The counter: its value and, if it expires, the seconds until then. -/
structure Counter where
  value : ℤ
  ttl : Option ℕ := none
deriving DecidableEq

/-- A request: a call of `TryAcquire` and of the function it returns. -/
inductive Request where
  /-- Before the counter is read. -/
  | trying
  /-- `TryAcquire` has returned the function. -/
  | admitted
  /-- The function was called, and has not incremented the counter. -/
  | committing (usage : ℕ)
  /-- The counter was incremented. -/
  | incremented
  /-- The counter has no time to live, or too long a one. -/
  | expiring
  /-- `TryAcquire` or the function has returned. -/
  | returned
deriving DecidableEq

/-- A commit is in progress. -/
def Request.inProgress : Request → Bool
  | .committing _ | .incremented | .expiring => true
  | _ => false

/-- Redis and the requests. There may be no counter. -/
structure State where
  key : Option Counter := none
  requests : List Request
deriving DecidableEq

/-- What can happen. A call to Redis that fails has no effect. -/
inductive Event where
  | tryAcquire (i : ℕ) (fails : Bool)
  | commit (i : ℕ) (usage : ℕ)
  | incrby (i : ℕ) (fails : Bool)
  | ttl (i : ℕ) (fails : Bool)
  | expire (i : ℕ) (fails : Bool)
  /-- A second passes. -/
  | tick
deriving DecidableEq

/-- The limit, the seconds of the interval, and whether a time to live that is longer
than the interval is updated. -/
structure StaticLimiter where
  limit : ℕ
  interval : ℕ
  updateRateLimitTTL : Bool
  limit_pos : 1 ≤ limit
  interval_pos : 1 ≤ interval

/-- `GetInt`: zero if there is no counter. -/
def State.usage (s : State) : ℤ :=
  s.key.elim 0 Counter.value

/-- `TTL`: the seconds, `-1` if the counter does not expire and `-2` if there is
none. -/
def State.ttl (s : State) : ℤ :=
  s.key.elim (-2) fun c => c.ttl.elim (-1) (↑·)

/-- `Incrby` -/
def incrby (usage : ℕ) : Option Counter → Counter
  | none => { value := usage }
  | some c => { c with value := c.value + usage }

/-- The counter after a second. -/
def Counter.tick (c : Counter) : Option Counter :=
  match c.ttl with
  | none => some c
  | some 0 => none
  | some 1 => none
  | some (t + 1) => some { c with ttl := some t }

variable (limiter : StaticLimiter)

/-- **One step**: a call to Redis with what is done until the next one, a commit that
begins, or time that passes. -/
def step (s : State) (event : Event) : Option State :=
  match event with
  | .tryAcquire i fails =>
    if s.requests[i]? = some .trying then
      if fails ∨ s.usage ≥ limiter.limit then
        some { s with requests := s.requests.set i .returned }
      else some { s with requests := s.requests.set i .admitted }
    else none
  | .commit i usage =>
    if s.requests[i]? = some .admitted ∧ 0 < usage then
      some { s with requests := s.requests.set i (.committing usage) }
    else none
  | .incrby i fails =>
    match s.requests[i]? with
    | some (.committing usage) =>
      if fails then some { s with requests := s.requests.set i .returned }
      else some { key := some (incrby usage s.key), requests := s.requests.set i .incremented }
    | _ => none
  | .ttl i fails =>
    if s.requests[i]? = some .incremented then
      if ¬fails ∧ (s.ttl < 0 ∨ limiter.updateRateLimitTTL ∧ s.ttl > limiter.interval) then
        some { s with requests := s.requests.set i .expiring }
      else some { s with requests := s.requests.set i .returned }
    else none
  | .expire i fails =>
    if s.requests[i]? = some .expiring then
      if fails then some { s with requests := s.requests.set i .returned }
      else some {
        key := s.key.map fun c => { c with ttl := some limiter.interval }
        requests := s.requests.set i .returned }
    else none
  | .tick => some { s with key := s.key.bind Counter.tick }

/-! ## Recovery -/

/-- No commit is in progress. -/
def State.Quiet (s : State) : Prop :=
  ∀ r ∈ s.requests, r.inProgress = false

instance (s : State) : Decidable s.Quiet :=
  inferInstanceAs (Decidable (∀ r ∈ s.requests, r.inProgress = false))

/-- The counter expires. -/
def State.expires (s : State) : Bool :=
  s.key.any fun c => c.ttl.isSome

/-- **A counter that has reached the limit expires**, if no commit is in progress. -/
def Recoverable (s : State) : Prop :=
  s.Quiet → s.usage ≥ limiter.limit → s.expires = true

/-- **A failure that does no harm.** Another commit is in progress, or the counter is
below the limit or expires. -/
def Harmless (s : State) (event : Event) : Prop :=
  ∀ i, event = .incrby i true ∨ event = .ttl i true ∨ event = .expire i true →
    (∃ j r, j ≠ i ∧ s.requests[j]? = some r ∧ r.inProgress = true)
      ∨ s.usage < limiter.limit ∨ s.expires = true

/-! ## What is in progress -/

variable {requests : List Request} {i : ℕ}

/-- Where no commit is in progress after a request has moved on, none of another
request was before. -/
theorem quiet_of_set {r : Request}
    (h : ∀ q ∈ requests.set i r, q.inProgress = false) {j : ℕ} (hj : j ≠ i) {q : Request}
    (hq : requests[j]? = some q) : q.inProgress = false := by
  refine h q (mem_of_getElem? (i := j) ?_)
  rw [getElem?_set_ne hj.symm, hq]

theorem not_quiet_of_set {r r' : Request}
    (hi : requests[i]? = some r) (hr' : r'.inProgress = true) :
    ¬∀ q ∈ requests.set i r', q.inProgress = false := by
  obtain ⟨hlt, -⟩ := List.getElem?_eq_some_iff.mp hi
  intro h
  have := h r' (mem_of_getElem? (i := i) (getElem?_set_self hlt))
  rw [hr'] at this
  cases this

theorem quiet_of_set_of_quiet {r r' : Request}
    (hi : requests[i]? = some r) (hr : r.inProgress = false)
    (h : ∀ q ∈ requests.set i r', q.inProgress = false) : ∀ q ∈ requests, q.inProgress = false := by
  intro q hq
  obtain ⟨j, hj⟩ := mem_iff_getElem?.mp hq
  by_cases hji : j = i
  · rw [hji, hi] at hj
    rwa [← Option.some.inj hj]
  · exact quiet_of_set h hji hj

variable {s : State}

theorem expires_of_ttl (h : ¬s.ttl < 0) : s.expires = true := by
  cases hkey : s.key with
  | none => simp [State.ttl, hkey] at h
  | some c =>
    cases httl : c.ttl with
    | none => simp [State.ttl, hkey, httl] at h
    | some t => simp [State.expires, hkey, httl]

variable {limiter}

variable {event : Event}

/-- **A call that fails** leaves a counter that is recoverable if the failure does no
harm. -/
theorem Harmless.recoverable (h : Harmless limiter s event)
    (hevent : event = .incrby i true ∨ event = .ttl i true ∨ event = .expire i true) :
    Recoverable limiter { s with requests := s.requests.set i .returned } := by
  intro hquiet husage
  rcases h i hevent with ⟨j, r, hj, hr, hprogress⟩ | hlt | hexpires
  · rw [quiet_of_set hquiet hj hr] at hprogress
    cases hprogress
  · exact absurd husage (not_le.mpr hlt)
  · exact hexpires

/-- **Every step keeps counters recoverable**, if failures do no harm. -/
theorem recoverable_step {s s' : State}
    (hstep : step limiter s event = some s') (hharmless : Harmless limiter s event)
    (h : Recoverable limiter s) : Recoverable limiter s' := by
  cases event with
  | tryAcquire i fails =>
    obtain ⟨hi, hstep⟩ := Option.ite_none_right_eq_some.mp hstep
    split at hstep
    · obtain rfl := Option.some.inj hstep
      exact fun hquiet => h (quiet_of_set_of_quiet hi rfl hquiet)
    · obtain rfl := Option.some.inj hstep
      exact fun hquiet => h (quiet_of_set_of_quiet hi rfl hquiet)
  | commit i usage =>
    obtain ⟨⟨hi, -⟩, heq⟩ := Option.ite_none_right_eq_some.mp hstep
    obtain rfl := Option.some.inj heq
    exact fun hquiet => absurd hquiet (not_quiet_of_set hi rfl)
  | incrby i fails =>
    unfold step at hstep
    dsimp only at hstep
    split at hstep
    · rename_i usage hi
      split at hstep
      · rename_i hfails
        subst hfails
        obtain rfl := Option.some.inj hstep
        exact hharmless.recoverable (.inl rfl)
      · obtain rfl := Option.some.inj hstep
        exact fun hquiet => absurd hquiet (not_quiet_of_set hi rfl)
    · cases hstep
  | ttl i fails =>
    obtain ⟨hi, hstep⟩ := Option.ite_none_right_eq_some.mp hstep
    split at hstep
    · obtain rfl := Option.some.inj hstep
      exact fun hquiet => absurd hquiet (not_quiet_of_set hi rfl)
    · rename_i hread
      obtain rfl := Option.some.inj hstep
      cases fails with
      | true => exact hharmless.recoverable (.inr (.inl rfl))
      | false =>
        -- the time to live that was read is not negative
        intro _ _
        have hnonneg : ¬s.ttl < 0 := fun hneg => hread ⟨Bool.false_ne_true, .inl hneg⟩
        exact expires_of_ttl hnonneg
  | expire i fails =>
    obtain ⟨hi, heq⟩ := Option.ite_none_right_eq_some.mp hstep
    split at heq
    · rename_i hfails
      subst hfails
      obtain rfl := Option.some.inj heq
      exact hharmless.recoverable (.inr (.inr rfl))
    · obtain rfl := Option.some.inj heq
      intro _ husage
      cases hkey : s.key with
      | none =>
        have hlimit := limiter.limit_pos
        simp only [State.usage, hkey, Option.map_none, Option.elim_none] at husage
        omega
      | some c => simp [State.expires]
  | tick =>
    obtain rfl := Option.some.inj hstep
    intro hquiet husage
    cases hkey : s.key with
    | none =>
      have hlimit := limiter.limit_pos
      simp only [State.usage, hkey, Option.bind_none, Option.elim_none] at husage
      omega
    | some c =>
      have hrecover := h hquiet
      rcases httl : c.ttl with _ | _ | _ | t
      · -- a counter that does not expire is as it was
        simp only [State.usage, State.expires, hkey, httl, Counter.tick, Option.bind_some,
          Option.elim_some, Option.any_some] at hrecover husage ⊢
        exact hrecover husage
      all_goals
        have hlimit := limiter.limit_pos
        simp [State.usage, State.expires, hkey, httl, Counter.tick] at husage ⊢
      all_goals omega

/-! ## Waiting -/

variable (limiter) in
theorem run_tick {c : Counter} {t : ℕ} (hkey : s.key = some c) (httl : c.ttl = some t) :
    ∃ n, Machine.run (step limiter) s (replicate n .tick) = some { s with key := none } := by
  induction t generalizing s c with
  | zero => exact ⟨1, by simp [Machine.run, step, hkey, httl, Counter.tick]⟩
  | succ t ih =>
    cases t with
    | zero => exact ⟨1, by simp [Machine.run, step, hkey, httl, Counter.tick]⟩
    | succ t =>
      have hstep : step limiter s .tick
          = some { s with key := some { c with ttl := some (t + 1) } } := by
        simp [step, hkey, httl, Counter.tick]
      obtain ⟨n, hn⟩ := @ih { s with key := some { c with ttl := some (t + 1) } } _ rfl rfl
      exact ⟨n + 1, Machine.run_cons.mpr ⟨_, hstep, hn⟩⟩

/-- A request passes when there is no counter, or one below the limit. -/
theorem step_tryAcquire (husage : s.usage < limiter.limit) (hi : s.requests[i]? = some .trying) :
    step limiter s (.tryAcquire i false)
      = some { s with requests := s.requests.set i .admitted } := by
  have hpass : ¬(false = true ∨ s.usage ≥ limiter.limit) := by
    rintro (hfails | hreached)
    · cases hfails
    · exact not_lt.mpr hreached husage
  rw [step, if_pos hi, if_neg hpass]

/-- A counter that is recoverable lets requests pass after some seconds. -/
theorem Recoverable.exists_wait (h : Recoverable limiter s) (hquiet : s.Quiet) :
    ∃ n s', Machine.run (step limiter) s (replicate n .tick) = some s'
      ∧ ∀ i : ℕ, s'.requests[i]? = some .trying → step limiter s' (.tryAcquire i false)
        = some { s' with requests := s'.requests.set i .admitted } := by
  by_cases husage : s.usage < limiter.limit
  · exact ⟨0, s, rfl, fun i => step_tryAcquire husage⟩
  · have hexpires := h hquiet (not_lt.mp husage)
    obtain ⟨c, hkey, httl⟩ := Option.any_eq_true _ _ |>.mp hexpires
    obtain ⟨t, httl⟩ := Option.isSome_iff_exists.mp httl
    obtain ⟨n, hn⟩ := run_tick limiter hkey httl
    refine ⟨n, _, hn, fun i => step_tryAcquire ?_⟩
    exact Int.natCast_pos.mpr limiter.limit_pos

/-- A failure that does harm leaves a counter that is not recoverable. -/
theorem not_recoverable_of_not_harmless {s s' : State}
    (hstep : step limiter s event = some s') (hharm : ¬Harmless limiter s event) :
    ¬Recoverable limiter s' := by
  unfold Harmless at hharm
  push Not at hharm
  obtain ⟨i, hevent, hothers, husage, hexpires⟩ := hharm
  have hstate : s' = { s with requests := s.requests.set i .returned } := by
    rcases hevent with rfl | rfl | rfl
    · unfold step at hstep
      dsimp only at hstep
      split at hstep
      · exact (Option.some.inj hstep).symm
      · cases hstep
    · obtain ⟨-, heq⟩ := Option.ite_none_right_eq_some.mp hstep
      rw [if_neg (fun h => h.1 rfl)] at heq
      exact (Option.some.inj heq).symm
    · obtain ⟨-, heq⟩ := Option.ite_none_right_eq_some.mp hstep
      exact (Option.some.inj heq).symm
  subst hstate
  intro h
  refine hexpires (h ?_ husage)
  intro q hq
  obtain ⟨j, hj⟩ := mem_iff_getElem?.mp hq
  by_cases hji : j = i
  · subst hji
    have hlt := (List.getElem?_eq_some_iff.mp hj).1
    rw [length_set] at hlt
    rw [getElem?_set_self hlt] at hj
    rw [← Option.some.inj hj]
    rfl
  · rw [getElem?_set_ne (Ne.symm hji)] at hj
    exact Bool.eq_false_iff.mpr (hothers j q hji hj)

theorem recoverable_new (requests : List Request) : Recoverable limiter { requests } :=
  fun _ husage => absurd husage (not_le.mpr (Int.natCast_pos.mpr limiter.limit_pos))

variable (limiter) in
/-- **Rate limiting recovers exactly if failures do no harm.** In each run in which no
call to Redis fails in the only commit in progress, while the counter has reached the
limit and does not expire, a counter that has reached the limit expires when no
commit is in progress, and requests pass again after some seconds. A failure of that
kind leaves a counter that has reached the limit and does not expire. -/
theorem recoverable_iff (requests : ℕ) :
    (∀ events s, Machine.run (step limiter) { requests := List.replicate requests .trying } events
        = some s →
      Machine.Along (step limiter) (Harmless limiter)
        { requests := List.replicate requests .trying } events →
      s.Quiet → (s.usage ≥ limiter.limit → s.expires = true)
        ∧ ∃ n s', Machine.run (step limiter) s (List.replicate n .tick) = some s'
          ∧ ∀ i : ℕ, s'.requests[i]? = some .trying → step limiter s' (.tryAcquire i false)
            = some { s' with requests := s'.requests.set i .admitted })
    ∧ ∀ s s' event, step limiter s event = some s' → ¬Harmless limiter s event →
      ¬Recoverable limiter s' := by
  refine ⟨fun events s hrun halong hquiet => ?_, fun s s' event =>
    not_recoverable_of_not_harmless⟩
  have h : Recoverable limiter s :=
    Machine.run_invariant_along recoverable_step hrun halong (recoverable_new _)
  exact ⟨h hquiet, h.exists_wait hquiet⟩

/-- A limit of ten in a minute. -/
def tenPerMinute : StaticLimiter where
  limit := 10
  interval := 60
  updateRateLimitTTL := false
  limit_pos := by decide
  interval_pos := by decide

/-- If nothing fails, the counter expires after it has reached the limit. -/
theorem recoverable_tenPerMinute :
    ∃ s, Machine.run (step tenPerMinute) { requests := [.trying] }
        [.tryAcquire 0 false, .commit 0 10, .incrby 0 false, .ttl 0 false, .expire 0 false] = some s
      ∧ s.usage = 10 ∧ s.expires = true := by
  obtain ⟨s, hrun, husage, hquiet⟩ : ∃ s, Machine.run (step tenPerMinute) { requests := [.trying] }
      [.tryAcquire 0 false, .commit 0 10, .incrby 0 false, .ttl 0 false, .expire 0 false] = some s
      ∧ s.usage = 10 ∧ s.Quiet := ⟨_, rfl, rfl, by decide⟩
  have halong : Machine.Along (step tenPerMinute) (Harmless tenPerMinute) { requests := [.trying] }
      [.tryAcquire 0 false, .commit 0 10, .incrby 0 false, .ttl 0 false, .expire 0 false] := by
    simp [Machine.Along, Harmless]
  have hrecover := (recoverable_iff tenPerMinute 1).1 _ s hrun halong hquiet
  exact ⟨s, hrun, husage, hrecover.1 husage.ge⟩

/-- **If the call after the increment fails, the counter stays at the limit.** -/
theorem not_recoverable_tenPerMinute :
    ∃ s, Machine.run (step tenPerMinute) { requests := [.trying] }
        [.tryAcquire 0 false, .commit 0 10, .incrby 0 false, .ttl 0 true] = some s
      ∧ s.Quiet ∧ s.usage ≥ tenPerMinute.limit ∧ s.expires = false :=
  ⟨_, rfl, by decide, by decide, rfl⟩

end RateLimit
