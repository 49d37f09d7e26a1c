import Mathlib
import CodeScout.Util.Machine

/-!
# A semaphore whose limit can be adjusted

One goroutine keeps the contexts that were acquired in a list, the oldest first.
It receives requests to acquire or release a context and to adjust the limit, one
at a time, so the calls of any number of clients are a sequence of events. While
the list is as long as the limit it does not receive requests to acquire.

A test for equality is enough: the list is never longer than a limit that is not
negative, since an adjustment cancels the oldest contexts before anything else is
received (`Sound`). A negative limit is no limit.
-/

namespace Limiter

open List

/-- The goroutine of a `MutableLimiter`. Contexts are numbered in the order in which
they were acquired, and an element of the list is the context it is for. -/
structure MutableLimiter where
  limit : ℤ
  cancelFuncs : List ℕ := []
  /-- How many contexts were acquired. -/
  acquired : ℕ := 0
  /-- The context of a request that has not been answered. -/
  responding : Option ℕ := none
  /-- The contexts cancelled as they were released. -/
  released : List ℕ := []
  /-- The contexts cancelled as the limit was adjusted. -/
  adjusted : List ℕ := []
deriving DecidableEq

/-- What the goroutine receives or sends. -/
inductive Event where
  | adjustLimit (limit : ℤ)
  | release (el : ℕ)
  | getLimit
  | acquire
  | respond

/-- The loop that cancels contexts until the list is within the limit: the contexts
that it cancels, and those that it leaves. -/
def cancelUntilWithin (limit : ℤ) : List ℕ → List ℕ × List ℕ
  | [] => ([], [])
  | el :: cancelFuncs =>
    if limit ≥ 0 ∧ (el :: cancelFuncs).length > limit then
      let rest := cancelUntilWithin limit cancelFuncs
      (el :: rest.1, rest.2)
    else ([], el :: cancelFuncs)

/-- **One iteration of `do`.** A request that was received is answered before
anything else. A context can be released by whoever got it, any number of times. -/
def step (l : MutableLimiter) (event : Event) : Option MutableLimiter :=
  match l.responding, event with
  | some _, .respond => some { l with responding := none }
  | none, .adjustLimit limit =>
    let (cancelled, cancelFuncs) := cancelUntilWithin limit l.cancelFuncs
    some { l with limit, cancelFuncs, adjusted := l.adjusted ++ cancelled }
  | none, .release el =>
    if el < l.acquired then
      some { l with cancelFuncs := l.cancelFuncs.erase el, released := l.released ++ [el] }
    else none
  | none, .getLimit => some l
  | none, .acquire =>
    if l.cancelFuncs.length = l.limit then none
    else some { l with
      cancelFuncs := l.cancelFuncs ++ [l.acquired]
      acquired := l.acquired + 1
      responding := some l.acquired }
  | _, _ => none

variable {l l' : MutableLimiter}

theorem eq_of_step_adjustLimit {limit : ℤ} (h : step l (.adjustLimit limit) = some l') :
    l' = { l with
      limit
      cancelFuncs := (cancelUntilWithin limit l.cancelFuncs).2
      adjusted := l.adjusted ++ (cancelUntilWithin limit l.cancelFuncs).1 } := by
  cases hresponding : l.responding with
  | none => simpa [step, hresponding] using h.symm
  | some el => simp [step, hresponding] at h

theorem eq_of_step_release {el : ℕ} (h : step l (.release el) = some l') :
    l' = { l with cancelFuncs := l.cancelFuncs.erase el, released := l.released ++ [el] } := by
  cases hresponding : l.responding with
  | none =>
    simp only [step, hresponding, Option.ite_none_right_eq_some, Option.some.injEq] at h
    rw [← h.2]
  | some el => simp [step, hresponding] at h

/-- **The contexts that are held**, the oldest first: they were acquired, and neither
released nor cancelled. -/
def held (l : MutableLimiter) : List ℕ :=
  (List.range l.acquired).filter fun c => c ∉ l.released ∧ c ∉ l.adjusted

theorem nodup_held (l : MutableLimiter) : (held l).Nodup :=
  nodup_range.filter _

theorem lt_of_mem_held {c : ℕ} (h : c ∈ held l) : c < l.acquired :=
  mem_range.mp (mem_of_mem_filter h)

/-- What the loop cancels are the oldest contexts. -/
theorem cancelUntilWithin_eq {limit : ℤ} (hlimit : 0 ≤ limit) (l : List ℕ) :
    cancelUntilWithin limit l
      = (l.take (l.length - limit.toNat), l.drop (l.length - limit.toNat)) := by
  induction l with
  | nil => rw [cancelUntilWithin, take_nil, drop_nil]
  | cons el l ih =>
    rw [cancelUntilWithin]
    by_cases h : ((el :: l).length : ℤ) > limit
    · have hcount : (el :: l).length - limit.toNat = l.length - limit.toNat + 1 := by
        rw [length_cons] at h ⊢
        omega
      rw [if_pos ⟨hlimit, h⟩, ih, hcount, take_succ_cons, drop_succ_cons]
    · have hcount : (el :: l).length - limit.toNat = 0 := by omega
      rw [if_neg (fun hand => h hand.2), hcount, take_zero, drop_zero]

theorem cancelUntilWithin_of_neg {limit : ℤ} (hlimit : limit < 0) (l : List ℕ) :
    cancelUntilWithin limit l = ([], l) := by
  cases l with
  | nil => rfl
  | cons el l => rw [cancelUntilWithin, if_neg (fun hand => not_lt.mpr hand.1 hlimit)]

/-- **The invariant.** The list has the contexts that are held, and no more than a
limit that is not negative allows. -/
structure Sound (l : MutableLimiter) : Prop where
  cancelFuncs_eq : l.cancelFuncs = held l
  within : 0 ≤ l.limit → (l.cancelFuncs.length : ℤ) ≤ l.limit
  released_lt : ∀ c ∈ l.released, c < l.acquired
  adjusted_lt : ∀ c ∈ l.adjusted, c < l.acquired

theorem held_cancel (l : MutableLimiter) (cancelled : List ℕ) :
    held { l with adjusted := l.adjusted ++ cancelled }
      = (held l).filter fun c => c ∉ cancelled := by
  rw [held, held, filter_filter]
  refine filter_congr fun c _ => ?_
  rw [Bool.eq_iff_iff]
  simp only [mem_append, not_or, Bool.and_eq_true, decide_eq_true_eq]
  tauto

theorem held_release (l : MutableLimiter) (el : ℕ) :
    held { l with released := l.released ++ [el] } = (held l).erase el := by
  rw [(nodup_held l).erase_eq_filter, held, held, filter_filter]
  refine filter_congr fun c _ => ?_
  rw [Bool.eq_iff_iff]
  simp only [mem_append, mem_singleton, not_or, Bool.and_eq_true, decide_eq_true_eq, bne_iff_ne]
  tauto

theorem Sound.held_acquire (h : Sound l) :
    held { l with acquired := l.acquired + 1 } = held l ++ [l.acquired] := by
  have hnew : l.acquired ∉ l.released ∧ l.acquired ∉ l.adjusted :=
    ⟨fun hmem => lt_irrefl _ (h.released_lt _ hmem), fun hmem => lt_irrefl _ (h.adjusted_lt _ hmem)⟩
  rw [held, held, range_succ, filter_append, filter_singleton]
  simp [hnew]

theorem filter_notMem_take {l : List ℕ} (h : l.Nodup) (n : ℕ) :
    l.filter (fun c => c ∉ l.take n) = l.drop n := by
  have hdisjoint : ∀ c ∈ l.drop n, c ∉ l.take n := fun c hdrop htake =>
    disjoint_take_drop h le_rfl htake hdrop
  conv_lhs => arg 2; rw [← take_append_drop n l]
  rw [filter_append, filter_eq_nil_iff.mpr, nil_append, filter_eq_self.mpr]
  · exact fun c hc => decide_eq_true (hdisjoint c hc)
  · exact fun c hc => by simpa using hc

/-- The oldest contexts are cancelled, and the others are held. -/
theorem Sound.held_adjust (h : Sound l) {limit : ℤ} (hlimit : 0 ≤ limit) :
    cancelUntilWithin limit l.cancelFuncs = ((held l).take ((held l).length - limit.toNat),
        (held l).drop ((held l).length - limit.toNat))
      ∧ held { l with adjusted := l.adjusted ++ (held l).take ((held l).length - limit.toNat) }
        = (held l).drop ((held l).length - limit.toNat) := by
  refine ⟨by rw [h.cancelFuncs_eq, cancelUntilWithin_eq hlimit], ?_⟩
  rw [held_cancel, filter_notMem_take (nodup_held l)]

/-- **Every iteration keeps the invariant.** -/
theorem Sound.step {event : Event} (hstep : step l event = some l') (h : Sound l) : Sound l' := by
  unfold Limiter.step at hstep
  split at hstep
  · -- an answer
    obtain rfl := Option.some.inj hstep
    exact ⟨h.cancelFuncs_eq, h.within, h.released_lt, h.adjusted_lt⟩
  · -- another limit
    rename_i limit _
    obtain rfl := Option.some.inj hstep
    by_cases hlimit : 0 ≤ limit
    · obtain ⟨hcancel, hheld⟩ := h.held_adjust hlimit
      rw [hcancel]
      refine ⟨hheld.symm, fun _ => ?_, h.released_lt, ?_⟩
      · show ((drop _ (held l)).length : ℤ) ≤ limit
        rw [length_drop]
        omega
      · intro c hc
        rcases mem_append.mp hc with hc | hc
        · exact h.adjusted_lt c hc
        · have hlt : c < l.acquired := lt_of_mem_held (mem_of_mem_take hc)
          exact hlt
    · rw [cancelUntilWithin_of_neg (not_le.mp hlimit)]
      refine ⟨?_, fun hnonneg => absurd hnonneg hlimit, h.released_lt, ?_⟩
      · show l.cancelFuncs = _
        rw [h.cancelFuncs_eq]
        simp only [held, append_nil]
      · rw [append_nil]
        exact h.adjusted_lt
  · -- a release
    rename_i el _
    split at hstep
    · rename_i hel
      obtain rfl := Option.some.inj hstep
      refine ⟨?_, fun hlimit => ?_, ?_, h.adjusted_lt⟩
      · show l.cancelFuncs.erase el = _
        rw [h.cancelFuncs_eq]
        exact (held_release l el).symm
      · have hlength : (l.cancelFuncs.erase el).length ≤ l.cancelFuncs.length :=
          erase_sublist.length_le
        have := h.within hlimit
        show ((l.cancelFuncs.erase el).length : ℤ) ≤ l.limit
        omega
      · intro c hc
        rcases mem_append.mp hc with hc | hc
        · exact h.released_lt c hc
        · rwa [mem_singleton.mp hc]
    · cases hstep
  · obtain rfl := Option.some.inj hstep
    exact h
  · -- a context that is acquired
    split at hstep
    · cases hstep
    · rename_i hlength
      obtain rfl := Option.some.inj hstep
      refine ⟨?_, fun hlimit => ?_, fun c hc => Nat.lt_succ_of_lt (h.released_lt c hc),
        fun c hc => Nat.lt_succ_of_lt (h.adjusted_lt c hc)⟩
      · show l.cancelFuncs ++ [l.acquired] = _
        rw [h.cancelFuncs_eq]
        exact h.held_acquire.symm
      · have hlt := lt_of_le_of_ne (h.within hlimit) hlength
        show ((l.cancelFuncs ++ [l.acquired]).length : ℤ) ≤ l.limit
        rw [length_append, length_singleton]
        omega
  · cases hstep

theorem sound_new (limit : ℤ) : Sound { limit } :=
  ⟨rfl, id, fun _ hc => absurd hc not_mem_nil, fun _ hc => absurd hc not_mem_nil⟩

/-- **The semaphore never over-admits.** After all sequences of events, from any
limit on, the contexts that are held are as many as the list has and, for a limit
that is not negative, no more than the limit. Adjustments and releases are received
whenever no answer is pending. An adjustment of the limit cancels the oldest of the
contexts until they are within the limit. The release of a context takes that one from
the list, if it is there, and no other. -/
theorem run_never_overadmits {limit : ℤ} {events : List Event} {l : MutableLimiter}
    (hrun : Machine.run step { limit } events = some l) :
    (0 ≤ l.limit →
      (held l).length = l.cancelFuncs.length ∧ ((held l).length : ℤ) ≤ l.limit)
    ∧ (∀ n l', 0 ≤ n → step l (.adjustLimit n) = some l' →
      l'.adjusted = l.adjusted ++ (held l).take ((held l).length - n.toNat)
      ∧ l'.released = l.released
      ∧ held l' = (held l).drop ((held l).length - n.toNat))
    ∧ (∀ el l', step l (.release el) = some l' →
      held l' = (held l).erase el ∧ l'.cancelFuncs = l.cancelFuncs.erase el
      ∧ l'.adjusted = l.adjusted)
    ∧ (l.responding = none → (∀ n, ∃ l', step l (.adjustLimit n) = some l')
      ∧ ∀ el < l.acquired, ∃ l', step l (.release el) = some l') := by
  have h : Sound l := Machine.run_invariant Sound.step hrun (sound_new limit)
  refine ⟨fun hlimit => ?_, fun n l' hn hstep => ?_, fun el l' hstep => ?_, fun hnone => ?_⟩
  · rw [← h.cancelFuncs_eq]
    exact ⟨rfl, h.within hlimit⟩
  · obtain ⟨hcancel, hheld⟩ := h.held_adjust hn
    rw [eq_of_step_adjustLimit hstep, hcancel]
    exact ⟨rfl, rfl, hheld⟩
  · rw [eq_of_step_release hstep]
    exact ⟨held_release l el, rfl, rfl⟩
  · unfold step
    rw [hnone]
    exact ⟨fun n => ⟨_, rfl⟩, fun el hel => ⟨_, if_pos hel⟩⟩

/-- From three contexts without a limit to a limit of one: the release of a context
that was cancelled leaves the third one. -/
theorem run_never_overadmits_one :
    ∃ l l', Machine.run step { limit := -1 }
        [.acquire, .respond, .acquire, .respond, .acquire, .respond, .adjustLimit 1] = some l
      ∧ held l = [2] ∧ step l (.release 0) = some l' ∧ held l' = [2] := by
  obtain ⟨l, hrun, hheld, hnone, hacquired⟩ : ∃ l, Machine.run step { limit := -1 }
      [.acquire, .respond, .acquire, .respond, .acquire, .respond, .adjustLimit 1] = some l
      ∧ held l = [2] ∧ l.responding = none ∧ l.acquired = 3 := ⟨_, rfl, rfl, rfl, rfl⟩
  obtain ⟨-, -, hrelease, hreceived⟩ := run_never_overadmits hrun
  obtain ⟨l', hstep⟩ := (hreceived hnone).2 0 (by omega)
  refine ⟨l, l', hrun, hheld, hstep, ?_⟩
  rw [(hrelease 0 l' hstep).1, hheld]
  rfl

end Limiter
