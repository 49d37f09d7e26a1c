import Mathlib
import CodeScout.Util.Machine

/-!
# Buffered event logging

`LogEvent` puts an event into a buffer, and one goroutine takes the events out of
it and passes them to the handler. When the buffer is full for too long, and when
it has been closed, `LogEvent` passes the event to the handler itself. `Stop` sets
a flag, closes the buffer and waits until all events have been taken out.

The flag is read before the event is sent. A call that has found it unset, and is
about to send or waits for room in the buffer, sends on a closed channel when `Stop`
closes the buffer in between, which is a panic. If no call is there when the buffer
is closed, no step of any run panics, and each event is in one place at a time: with
its caller, in the buffer, with the goroutine or with the handler (`Sound`).
-/

namespace Events

/-- A call of `LogEvent`. Its event has the number of the call. -/
inductive Caller where
  /-- Before the flag is read. -/
  | idle
  /-- The flag was not set: the event is sent, or the timeout fires. -/
  | selecting
  /-- The event is passed to the handler by the call itself. -/
  | direct
  /-- The call has returned, with an error or `nil`. -/
  | returned (isNil : Bool)
deriving DecidableEq

/-- The goroutine of `Start`. -/
inductive Start where
  | receiving
  | handling (event : ℕ)
  | flushed
  | done
deriving DecidableEq

/-- The call of `Stop`. -/
inductive Stop where
  | running
  | flagged
  | closing
  | returned
deriving DecidableEq

/-- A `BufferedLogger` with the calls of its methods. -/
structure BufferedLogger where
  callers : List Caller
  /-- The events in the channel `bufferC`, and whether it is closed. -/
  bufferC : List ℕ := []
  closed : Bool := false
  /-- The flag `bufferClosed`. -/
  bufferClosed : Bool := false
  start : Start := .receiving
  stop : Stop := .running
  /-- The events that were passed to the handler. -/
  handled : List ℕ := []
  panicked : Bool := false
deriving DecidableEq

/-- What can happen. -/
inductive Event where
  /-- A call reads the flag. -/
  | load (i : ℕ)
  /-- A call sends its event to the buffer, or to `Start` where that is receiving. -/
  | send (i : ℕ)
  | sendToStart (i : ℕ)
  | timeout (i : ℕ)
  /-- A call passes its event to the handler, which may return an error. -/
  | logDirectly (i : ℕ) (isNil : Bool)
  | receive
  /-- `Start` passes an event to the handler. An error is logged only. -/
  | logBuffered
  | leaveLoop
  | closeFlushed
  | storeClosed
  | closeBuffer
  | receiveFlushed

variable (size : ℕ)

/-- **One step** of a call of `LogEvent`, of `Start` or of `Stop`, with a buffer of
the given size. -/
def step (l : BufferedLogger) (event : Event) : Option BufferedLogger :=
  if l.panicked then none
  else match event with
  | .load i =>
    if l.callers[i]? = some .idle then
      some { l with callers := l.callers.set i (if l.bufferClosed then .direct else .selecting) }
    else none
  | .send i =>
    if l.callers[i]? = some .selecting then
      if l.closed then some { l with panicked := true }
      else if l.bufferC.length < size then
        some { l with bufferC := l.bufferC ++ [i], callers := l.callers.set i (.returned true) }
      else none
    else none
  | .sendToStart i =>
    if l.callers[i]? = some .selecting ∧ ¬l.closed ∧ l.bufferC = [] ∧ l.start = .receiving then
      some { l with start := .handling i, callers := l.callers.set i (.returned true) }
    else none
  | .timeout i =>
    if l.callers[i]? = some .selecting then some { l with callers := l.callers.set i .direct }
    else none
  | .logDirectly i isNil =>
    if l.callers[i]? = some .direct then
      some { l with handled := l.handled ++ [i], callers := l.callers.set i (.returned isNil) }
    else none
  | .receive =>
    if l.start = .receiving then
      match l.bufferC with
      | [] => none
      | event :: bufferC => some { l with start := .handling event, bufferC }
    else none
  | .logBuffered =>
    match l.start with
    | .handling event => some { l with start := .receiving, handled := l.handled ++ [event] }
    | _ => none
  | .leaveLoop =>
    if l.start = .receiving ∧ l.bufferC = [] ∧ l.closed then some { l with start := .flushed }
    else none
  | .closeFlushed => if l.start = .flushed then some { l with start := .done } else none
  | .storeClosed =>
    if l.stop = .running then some { l with stop := .flagged, bufferClosed := true } else none
  | .closeBuffer =>
    if l.stop = .flagged then some { l with stop := .closing, closed := true } else none
  | .receiveFlushed =>
    if l.stop = .closing ∧ l.start = .done then some { l with stop := .returned } else none

/-! ## Where an event is -/

/-- The call has given its event away. -/
def Caller.given : Caller → ℕ
  | .returned _ => 1
  | _ => 0

/-- How often an event was given away by its call. -/
def givenAway (l : BufferedLogger) (i : ℕ) : ℕ :=
  l.callers[i]?.elim 0 Caller.given

/-- How often an event is in the buffer, with `Start` or with the handler. -/
def occurrences (l : BufferedLogger) (i : ℕ) : ℕ :=
  l.bufferC.count i + (if l.start = .handling i then 1 else 0) + l.handled.count i

/-- **The invariant.** An event that its call has given away is in one place, and
after the buffer was closed no call sends to it. -/
structure Sound (l : BufferedLogger) : Prop where
  one_place : ∀ i, occurrences l i = givenAway l i
  no_sender : l.closed = true → ∀ i : ℕ, l.callers[i]? ≠ some .selecting
  flagged : l.stop ≠ .running → l.bufferClosed = true
  closed : l.closed = true → l.stop ≠ .running
  flushed : l.start = .flushed ∨ l.start = .done → l.closed = true ∧ l.bufferC = []
  stopped : l.stop = .returned → l.start = .done
  no_panic : l.panicked = false

/-- No call is about to send when the buffer is closed. -/
def NoSender (l : BufferedLogger) (event : Event) : Prop :=
  event = .closeBuffer → ∀ i : ℕ, l.callers[i]? ≠ some .selecting

variable {l : BufferedLogger} {i : ℕ}

theorem givenAway_set {c : Caller} (h : l.callers[i]? = some c)
    (c' : Caller) (j : ℕ) :
    (l.callers.set i c')[j]?.elim 0 Caller.given + (if j = i then c.given else 0)
      = givenAway l j + if j = i then c'.given else 0 := by
  obtain ⟨hlt, -⟩ := List.getElem?_eq_some_iff.mp h
  by_cases hj : j = i
  · subst hj
    rw [if_pos rfl, if_pos rfl, List.getElem?_set_self hlt, givenAway, h, Nat.add_comm]
    rfl
  · rw [if_neg hj, if_neg hj, List.getElem?_set_ne (Ne.symm hj)]
    rfl

theorem givenAway_set_of_eq {c c' : Caller}
    (h : l.callers[i]? = some c) (hc : c'.given = c.given) (j : ℕ) :
    (l.callers.set i c')[j]?.elim 0 Caller.given = givenAway l j :=
  Nat.add_right_cancel (hc ▸ givenAway_set h c' j)

theorem count_append_self (events : List ℕ) (i j : ℕ) :
    (events ++ [i]).count j = events.count j + if j = i then 1 else 0 := by
  by_cases h : j = i
  · simp [h]
  · simp [h, Ne.symm h]

theorem no_sender_set {callers : List Caller} {c : Caller}
    (h : ∀ j : ℕ, callers[j]? ≠ some .selecting) (hc : c ≠ .selecting) (j : ℕ) :
    (callers.set i c)[j]? ≠ some .selecting := by
  intro hj
  rw [List.getElem?_set] at hj
  split at hj
  · split at hj
    · exact hc (Option.some.inj hj)
    · cases hj
  · exact h j hj

variable {size}

/-- **Every step keeps the invariant**, if there is no sender when the buffer is
closed. -/
theorem Sound.step {l l' : BufferedLogger} {event : Event}
    (hstep : step size l event = some l') (hallowed : NoSender l event) (h : Sound l) :
    Sound l' := by
  unfold Events.step at hstep
  rw [if_neg (by rw [h.no_panic]; exact Bool.false_ne_true)] at hstep
  cases event with
  | load i =>
    obtain ⟨hi, rfl⟩ := Option.ite_some_none_eq_some.mp hstep
    refine { h with one_place := fun j => ?_, no_sender := fun hclosed => ?_ }
    · refine (h.one_place j).trans (givenAway_set_of_eq hi ?_ j).symm
      split <;> rfl
    · -- the flag is set before the buffer is closed
      rw [if_pos (h.flagged (h.closed hclosed))]
      exact no_sender_set (h.no_sender hclosed) (nomatch ·)
  | send i =>
    obtain ⟨hi, hstep⟩ := Option.ite_none_right_eq_some.mp hstep
    have hopen : ¬l.closed = true := fun hclosed => h.no_sender hclosed i hi
    rw [if_neg hopen] at hstep
    obtain ⟨hroom, rfl⟩ := Option.ite_some_none_eq_some.mp hstep
    refine { h with
      one_place := fun j => ?_
      no_sender := fun hclosed => absurd hclosed hopen
      flushed := fun hflushed => absurd (h.flushed hflushed).1 hopen }
    have hgiven := givenAway_set hi (.returned true) j
    have hplace := h.one_place j
    simp only [occurrences, givenAway, Caller.given, ite_self, count_append_self] at hgiven hplace ⊢
    omega
  | sendToStart i =>
    obtain ⟨⟨hi, hopen, hempty, hstart⟩, rfl⟩ := Option.ite_some_none_eq_some.mp hstep
    refine { h with
      one_place := fun j => ?_
      no_sender := fun hclosed => absurd hclosed hopen
      flushed := fun hflushed => by simp at hflushed
      stopped := fun hstop => by simp [h.stopped hstop] at hstart }
    have hgiven := givenAway_set hi (.returned true) j
    have hplace := h.one_place j
    simp only [occurrences, givenAway, Caller.given, ite_self, hstart, Start.handling.injEq,
      reduceCtorEq, if_false, eq_comm] at hgiven hplace ⊢
    omega
  | timeout i =>
    obtain ⟨hi, rfl⟩ := Option.ite_some_none_eq_some.mp hstep
    refine { h with one_place := fun j => ?_, no_sender := fun hclosed => ?_ }
    · refine (h.one_place j).trans (givenAway_set_of_eq hi ?_ j).symm
      rfl
    · exact no_sender_set (h.no_sender hclosed) (nomatch ·)
  | logDirectly i isNil =>
    obtain ⟨hi, rfl⟩ := Option.ite_some_none_eq_some.mp hstep
    refine { h with one_place := fun j => ?_, no_sender := fun hclosed => ?_ }
    · have hgiven := givenAway_set hi (.returned isNil) j
      have hplace := h.one_place j
      simp only [occurrences, givenAway, Caller.given, ite_self, count_append_self]
        at hgiven hplace ⊢
      omega
    · exact no_sender_set (h.no_sender hclosed) (nomatch ·)
  | receive =>
    obtain ⟨hstart, hstep⟩ := Option.ite_none_right_eq_some.mp hstep
    cases hbuffer : l.bufferC with
    | nil => simp [hbuffer] at hstep
    | cons event bufferC =>
      rw [hbuffer] at hstep
      obtain rfl := Option.some.inj hstep
      refine { h with
        one_place := fun j => ?_
        flushed := fun hflushed => by simp at hflushed
        stopped := fun hstop => by simp [h.stopped hstop] at hstart }
      have hplace := h.one_place j
      simp only [occurrences, givenAway, hstart, hbuffer, List.count_cons, Start.handling.injEq,
        reduceCtorEq, if_false, beq_iff_eq] at hplace ⊢
      omega
  | logBuffered =>
    dsimp only at hstep
    split at hstep
    · rename_i event hstart
      obtain rfl := Option.some.inj hstep
      refine { h with
        one_place := fun j => ?_
        flushed := fun hflushed => by simp at hflushed
        stopped := fun hstop => by simp [h.stopped hstop] at hstart }
      have hplace := h.one_place j
      simp only [occurrences, givenAway, hstart, count_append_self, Start.handling.injEq,
        reduceCtorEq, if_false, eq_comm] at hplace ⊢
      omega
    · cases hstep
  | leaveLoop =>
    obtain ⟨⟨hstart, hempty, hclosed⟩, rfl⟩ := Option.ite_some_none_eq_some.mp hstep
    refine { h with
      one_place := fun j => ?_
      flushed := fun _ => ⟨hclosed, hempty⟩
      stopped := fun hstop => by simp [h.stopped hstop] at hstart }
    have hplace := h.one_place j
    simpa only [occurrences, givenAway, hstart, reduceCtorEq, if_false] using hplace
  | closeFlushed =>
    obtain ⟨hstart, rfl⟩ := Option.ite_some_none_eq_some.mp hstep
    refine { h with
      one_place := fun j => ?_
      flushed := fun _ => h.flushed (.inl hstart)
      stopped := fun _ => rfl }
    have hplace := h.one_place j
    simpa only [occurrences, givenAway, hstart, reduceCtorEq, if_false] using hplace
  | storeClosed =>
    obtain ⟨hstop, rfl⟩ := Option.ite_some_none_eq_some.mp hstep
    exact { h with
      flagged := fun _ => rfl
      closed := fun _ => (nomatch ·)
      stopped := (nomatch ·) }
  | closeBuffer =>
    obtain ⟨hstop, rfl⟩ := Option.ite_some_none_eq_some.mp hstep
    refine { h with
      no_sender := fun _ => hallowed rfl
      flagged := fun _ => h.flagged (by rw [hstop]; exact (nomatch ·))
      closed := fun _ => (nomatch ·)
      flushed := fun hflushed => ⟨rfl, (h.flushed hflushed).2⟩
      stopped := (nomatch ·) }
  | receiveFlushed =>
    obtain ⟨⟨hstop, hstart⟩, rfl⟩ := Option.ite_some_none_eq_some.mp hstep
    exact { h with
      flagged := fun _ => h.flagged (by rw [hstop]; exact (nomatch ·))
      closed := fun _ => (nomatch ·)
      stopped := fun _ => hstart }

theorem sound_new (calls : ℕ) : Sound { callers := List.replicate calls .idle } where
  one_place i := by
    by_cases hi : i < calls <;> simp [occurrences, givenAway, hi, Caller.given]
  no_sender := (nomatch ·)
  flagged hstop := absurd rfl hstop
  closed := (nomatch ·)
  flushed := by simp
  stopped := (nomatch ·)
  no_panic := rfl

/-- When `Stop` has returned, an event that was given away was handled. -/
theorem Sound.count_handled (h : Sound l) (hstop : l.stop = .returned)
    {isNil : Bool} (hi : l.callers[i]? = some (.returned isNil)) : l.handled.count i = 1 := by
  have hdone := h.stopped hstop
  have hempty := (h.flushed (.inr hdone)).2
  have hplace := h.one_place i
  simpa [occurrences, givenAway, hdone, hempty, hi, Caller.given] using hplace

/-- A call that is about to send when the buffer is closed panics. -/
theorem panics_of_sender {l l' : BufferedLogger} (hstep : step size l .closeBuffer = some l')
    (hsender : ¬NoSender l .closeBuffer) :
    ∃ i l'', step size l' (.send i) = some l'' ∧ l''.panicked = true := by
  unfold NoSender at hsender
  push Not at hsender
  obtain ⟨-, i, hi⟩ := hsender
  unfold step at hstep
  split at hstep
  · cases hstep
  · rename_i hpanicked
    obtain ⟨hstop, rfl⟩ := Option.ite_some_none_eq_some.mp hstep
    exact ⟨i, _, by rw [step, if_neg hpanicked, if_pos hi, if_pos rfl], rfl⟩

variable (size) in
/-- **Nothing is dropped on shutdown, and nothing panics, exactly if no call is about
to send when the buffer is closed.** In each run in which this is so no step panics
and, when `Stop` has returned, each event whose call has returned `nil` was passed to
the handler once. In each state in which it is not so, closing the buffer lets a call
panic. -/
theorem run_drops_nothing_iff (calls : ℕ) :
    (∀ events l, Machine.run (step size) { callers := List.replicate calls .idle } events = some l →
      Machine.Along (step size) NoSender { callers := List.replicate calls .idle } events →
      l.panicked = false
      ∧ (l.stop = .returned → ∀ i : ℕ, l.callers[i]? = some (.returned true) →
        l.handled.count i = 1))
    ∧ ∀ l l', step size l .closeBuffer = some l' → ¬NoSender l .closeBuffer →
      ∃ i l'', step size l' (.send i) = some l'' ∧ l''.panicked = true := by
  refine ⟨fun events l hrun halong => ?_, fun l l' => panics_of_sender⟩
  have h : Sound l := Machine.run_invariant_along Sound.step hrun halong (sound_new calls)
  exact ⟨h.no_panic, fun hstop i hi => h.count_handled hstop hi⟩

/-- An event that is in the buffer when it is closed is handled. -/
theorem run_drops_nothing_one :
    ∃ l, Machine.run (step 1) { callers := [.idle] } [.load 0, .send 0, .storeClosed, .closeBuffer,
        .receive, .logBuffered, .leaveLoop, .closeFlushed, .receiveFlushed] = some l
      ∧ l.panicked = false ∧ l.stop = .returned ∧ l.handled.count 0 = 1 := by
  obtain ⟨l, hrun, hstop, hreturned⟩ : ∃ l, Machine.run (step 1) { callers := [.idle] }
      [.load 0, .send 0, .storeClosed, .closeBuffer, .receive, .logBuffered, .leaveLoop,
        .closeFlushed, .receiveFlushed] = some l ∧ l.stop = .returned
      ∧ l.callers[0]? = some (.returned true) := ⟨_, rfl, rfl, rfl⟩
  have halong : Machine.Along (step 1) NoSender { callers := [.idle] }
      [.load 0, .send 0, .storeClosed, .closeBuffer, .receive, .logBuffered, .leaveLoop,
        .closeFlushed, .receiveFlushed] := by
    simp only [Machine.Along, NoSender, step]
    simp
    intro i hi
    have hmem := List.mem_of_getElem? hi
    simp at hmem
  obtain ⟨hpanic, hhandled⟩ := (run_drops_nothing_iff 1 1).1 _ l hrun halong
  exact ⟨l, hrun, hpanic, hstop, hhandled hstop 0 hreturned⟩

/-- **A call that has read the flag before `Stop` sets it sends on a closed
channel.** -/
theorem run_sends_on_closed :
    ∃ l, Machine.run (step 1) { callers := [.idle] }
        [.load 0, .storeClosed, .closeBuffer, .send 0] = some l
      ∧ l.panicked = true :=
  ⟨_, rfl, rfl⟩

end Events
