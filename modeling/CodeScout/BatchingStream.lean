import CodeScout.Streaming
import CodeScout.Util.Machine
import Mathlib

/-!
# Streams that batch

A batching stream collects the events it is sent and forwards them together.
The first event with results is forwarded at once. After another one a timer is
started, if it is not running, and when it fires its callback forwards the
batch. At the end `Done` forwards what is left.

Senders, callbacks and `Done` hold a lock, so that a run is a list of steps. The
callback of a timer that has fired waits for the lock. In the meantime events
may be sent, or the stream may be done, and the timer is stopped too late
(`batchingStream_exact`).
-/

namespace Streaming

open Result List

/-! ## Statistics -/

/-- The statement `m[id] |= status`, on the entries of the map. -/
def orStatus (status : List (Int32 × UInt8)) (entry : Int32 × UInt8) : List (Int32 × UInt8) :=
  if status.any (·.1 == entry.1) then
    status.map fun old => if old.1 = entry.1 then (old.1, old.2 ||| entry.2) else old
  else status ++ [entry]

/-- `Update` -/
def Stats.update (c other : Stats) : Stats where
  isLimitHit := c.isLimitHit || other.isLimitHit
  repos := other.repos.foldl (fun repos id => if id ∈ repos then repos else repos ++ [id]) c.repos
  status := other.status.foldl orStatus c.status
  backendsMissing := c.backendsMissing + other.backendsMissing
  excludedForks := c.excludedForks + other.excludedForks
  excludedArchived := c.excludedArchived + other.excludedArchived

/-! ## The stream -/

/-- The zero value `SearchEvent{}`. -/
def SearchEvent.empty : SearchEvent := ⟨[], Stats.empty⟩

/-- The fields that the lock protects. `timer` tells whether there is one. -/
structure BatchingStream where
  sentFirstEvent : Bool := false
  dirty : Bool := false
  batch : SearchEvent := .empty
  timer : Bool := false
  flushScheduled : Bool := false
deriving DecidableEq

/-- A stream in its environment: whether the timer is running, how many of its
callbacks wait for the lock, whether `Done` has been called, and what the parent
has been sent. -/
structure Batching where
  stream : BatchingStream := {}
  timerRunning : Bool := false
  callbacks : ℕ := 0
  isDone : Bool := false
  forwarded : List SearchEvent := []
deriving DecidableEq

/-- A stream that nothing was sent. -/
def newBatchingStream : Batching := {}

/-- The batch is forwarded, if there is something in it. -/
def Batching.flush (s : Batching) : Batching :=
  if s.stream.dirty then
    { s with
      stream := { s.stream with batch := .empty, dirty := false }
      forwarded := s.forwarded ++ [s.stream.batch] }
  else s

/-- The statements of `Send` that update the batch. -/
def BatchingStream.add (s : BatchingStream) (event : SearchEvent) : BatchingStream :=
  { s with
    batch := ⟨s.batch.results ++ event.results, s.batch.stats.update event.stats⟩
    dirty := true }

/-- `Send` -/
def Batching.send (s : Batching) (event : SearchEvent) : Batching :=
  let s := { s with stream := s.stream.add event }
  if !s.stream.sentFirstEvent ∧ 0 < event.results.length then
    { s with stream := { s.stream with sentFirstEvent := true } }.flush
  else if !s.stream.timer then
    { s with
      stream := { s.stream with timer := true, flushScheduled := true }
      timerRunning := true }
  else if !s.stream.flushScheduled then
    { s with stream := { s.stream with flushScheduled := true }, timerRunning := true }
  else s

/-- The callback of the timer. -/
def Batching.callback (s : Batching) : Batching :=
  let s := s.flush
  { s with stream := { s.stream with flushScheduled := false } }

/-- `Done`. Stopping a timer that has fired does not stop its callback. -/
def Batching.done (s : Batching) : Batching :=
  let s := if s.stream.timer then { s with timerRunning := false } else s
  { s.flush with isDone := true }

/-- What may happen: an event is sent, the timer fires, its callback gets the
lock, or the stream is done. -/
inductive Action where
  | send (event : SearchEvent)
  | fire
  | callback
  | done

/-- Nothing is sent once the stream is done. -/
def Batching.step (s : Batching) : Action → Option Batching
  | .send event => if s.isDone then none else some (s.send event)
  | .fire =>
    if s.timerRunning then some { s with timerRunning := false, callbacks := s.callbacks + 1 }
    else none
  | .callback =>
    if s.callbacks = 0 then none else some { s.callback with callbacks := s.callbacks - 1 }
  | .done => if s.isDone then none else some s.done

/-! ## Results -/

/-- The results that an action sends. -/
def Action.results : Action → List Match
  | .send event => event.results
  | .fire | .callback | .done => []

/-- The results that are sent in a run, in the order in which senders get the
lock. -/
def sentResults (actions : List Action) : List Match := actions.flatMap Action.results

/-- The results that have been forwarded. -/
def Batching.forwardedResults (s : Batching) : List Match :=
  s.forwarded.flatMap SearchEvent.results

/-- The results that have been forwarded or are in the batch. -/
def Batching.accepted (s : Batching) : List Match := s.forwardedResults ++ s.stream.batch.results

/-- **What holds in every state**: a stream that is not dirty has nothing in its
batch; one that is dirty has a flush scheduled until it is done; and a flush that
is scheduled is waited for. -/
structure Batching.Valid (s : Batching) : Prop where
  clean : s.stream.dirty = false → s.stream.batch = .empty
  scheduled : s.isDone = false → s.stream.dirty = true → s.stream.flushScheduled = true
  waiting : s.isDone = false → s.stream.flushScheduled = true →
    s.timerRunning = true ∨ 0 < s.callbacks
  timer : s.timerRunning = true → s.stream.timer = true
  done : s.isDone = true → s.stream.dirty = false

open Batching

theorem Batching.flush_dirty (s : Batching) : s.flush.stream.dirty = false := by
  unfold flush
  split_ifs with hdirty
  · rfl
  · exact Bool.eq_false_iff.mpr hdirty

variable {s s' : Batching}

theorem Batching.flush_batch (h : s.stream.dirty = false → s.stream.batch = .empty) :
    s.flush.stream.batch = .empty := by
  unfold flush
  split_ifs with hdirty
  · rfl
  · exact h (Bool.eq_false_iff.mpr hdirty)

/-- Flushing moves results from the batch to the parent. -/
theorem Batching.accepted_flush (s : Batching) : s.flush.accepted = s.accepted := by
  unfold flush
  split_ifs with hdirty
  · rw [accepted, accepted, forwardedResults, flatMap_append, flatMap_singleton, forwardedResults]
    exact append_nil _
  · rfl

theorem Batching.flush_frame (s : Batching) :
    s.flush.isDone = s.isDone ∧ s.flush.timerRunning = s.timerRunning ∧
      s.flush.callbacks = s.callbacks ∧ s.flush.stream.timer = s.stream.timer ∧
      s.flush.stream.flushScheduled = s.stream.flushScheduled := by
  unfold flush
  split_ifs <;> exact ⟨rfl, rfl, rfl, rfl, rfl⟩

theorem Batching.flush_of_clean (h : s.stream.dirty = false) : s.flush = s :=
  if_neg (Bool.eq_false_iff.mp h)

/-- **What a step accepts** are the results that are sent. -/
theorem Batching.accepted_step {action : Action}
    (h : s.step action = some s') : s'.accepted = s.accepted ++ action.results := by
  cases action with
  | send event =>
    rw [step, Option.ite_none_left_eq_some, Option.some_inj] at h
    rw [← h.2]
    have hadd : ∀ t : Batching, t.forwarded = s.forwarded →
        t.stream.batch = (s.stream.add event).batch → t.accepted = s.accepted ++ event.results := by
      intro t hforwarded hbatch
      rw [accepted, forwardedResults, hforwarded, hbatch, accepted, append_assoc]
      rfl
    unfold send
    dsimp only
    split_ifs
    · rw [accepted_flush]
      exact hadd _ rfl rfl
    all_goals exact hadd _ rfl rfl
  | fire =>
    rw [step, Option.ite_none_right_eq_some, Option.some_inj] at h
    rw [← h.2]
    exact (append_nil _).symm
  | callback =>
    rw [step, Option.ite_none_left_eq_some, Option.some_inj] at h
    rw [← h.2]
    exact (accepted_flush s).trans (append_nil _).symm
  | done =>
    rw [step, Option.ite_none_left_eq_some, Option.some_inj] at h
    rw [← h.2]
    unfold done
    dsimp only
    split_ifs
    all_goals exact (accepted_flush _).trans (append_nil _).symm

theorem Batching.accepted_run {actions : List Action} (h : Machine.run step s actions = some s') :
    s'.accepted = s.accepted ++ sentResults actions := by
  induction actions generalizing s with
  | nil =>
    rw [← Option.some.inj h]
    exact (append_nil _).symm
  | cons action actions ih =>
    obtain ⟨s₁, hstep, hrest⟩ := Machine.run_cons.mp h
    rw [ih hrest, accepted_step hstep, append_assoc]
    rfl

/-- A state with a clean stream that is not scheduled is valid, and one that is
done. -/
theorem Batching.Valid.of_clean (hdirty : s.stream.dirty = false) (hbatch : s.stream.batch = .empty)
    (hwaiting : s.isDone = false → s.stream.flushScheduled = true →
      s.timerRunning = true ∨ 0 < s.callbacks)
    (htimer : s.timerRunning = true → s.stream.timer = true) : s.Valid where
  clean _ := hbatch
  scheduled _ hd := absurd hd (Bool.eq_false_iff.mp hdirty)
  waiting := hwaiting
  timer := htimer
  done _ := hdirty

theorem Batching.Valid.send (h : s.Valid) (hdone : s.isDone = false)
    (event : SearchEvent) : (s.send event).Valid := by
  unfold Batching.send
  dsimp only
  split_ifs with hfirst htimer hscheduled
  · obtain ⟨hf₁, hf₂, hf₃, hf₄, hf₅⟩ := flush_frame
      { s with stream := { s.stream.add event with sentFirstEvent := true } }
    refine .of_clean (flush_dirty _) (flush_batch nofun) ?_ ?_
    · rw [hf₁, hf₂, hf₃, hf₅]
      exact h.waiting
    · rw [hf₂, hf₄]
      exact h.timer
  · exact ⟨nofun, fun _ _ => rfl, fun _ _ => .inl rfl, fun _ => rfl,
      fun hd => absurd hd (Bool.eq_false_iff.mp hdone)⟩
  · exact ⟨nofun, fun _ _ => rfl, fun _ _ => .inl rfl, fun _ => by simpa using htimer,
      fun hd => absurd hd (Bool.eq_false_iff.mp hdone)⟩
  · -- a flush has been scheduled before
    exact ⟨nofun, fun _ _ => by simpa using hscheduled, h.waiting, h.timer,
      fun hd => absurd hd (Bool.eq_false_iff.mp hdone)⟩

theorem Batching.Valid.callback (h : s.Valid) (callbacks : ℕ) :
    { s.callback with callbacks }.Valid := by
  obtain ⟨-, hf₂, -, hf₄, -⟩ := s.flush_frame
  refine .of_clean s.flush_dirty (flush_batch h.clean) (fun _ hscheduled => ?_) ?_
  · exact absurd hscheduled Bool.false_ne_true
  · show s.flush.timerRunning = true → s.flush.stream.timer = true
    rw [hf₂, hf₄]
    exact h.timer

/-- Once a stream is done its timer is stopped, and there is nothing to
forward. -/
theorem Batching.Valid.stop (h : s.Valid) : s.done.Valid := by
  unfold Batching.done
  dsimp only
  split_ifs with htimer
  · have hflush := flush_frame { s with timerRunning := false }
    refine .of_clean (flush_dirty _) (flush_batch h.clean) nofun fun hrunning => ?_
    exact absurd (hflush.2.1.symm.trans hrunning) Bool.false_ne_true
  · refine .of_clean (flush_dirty _) (flush_batch h.clean) nofun fun hrunning => ?_
    exact absurd (h.timer (s.flush_frame.2.1.symm.trans hrunning)) htimer

/-- **Every step keeps a stream valid.** -/
theorem Batching.Valid.step {action : Action}
    (hstep : s.step action = some s') (h : s.Valid) : s'.Valid := by
  cases action with
  | send event =>
    rw [Batching.step, Option.ite_none_left_eq_some, Option.some_inj] at hstep
    rw [← hstep.2]
    exact h.send (Bool.eq_false_iff.mpr hstep.1) event
  | fire =>
    rw [Batching.step, Option.ite_none_right_eq_some, Option.some_inj] at hstep
    rw [← hstep.2]
    exact ⟨h.clean, h.scheduled, fun _ _ => .inr (Nat.succ_pos _), nofun, h.done⟩
  | callback =>
    rw [Batching.step, Option.ite_none_left_eq_some, Option.some_inj] at hstep
    rw [← hstep.2]
    exact h.callback _
  | done =>
    rw [Batching.step, Option.ite_none_left_eq_some, Option.some_inj] at hstep
    rw [← hstep.2]
    exact h.stop

/-- **A stream that is done forwards nothing**, whatever callbacks still run. -/
theorem Batching.forwarded_step_of_done {action : Action}
    (hstep : s.step action = some s') (h : s.Valid) (hdone : s.isDone = true) :
    s'.isDone = true ∧ s'.forwarded = s.forwarded := by
  cases action with
  | send event =>
    rw [step, if_pos hdone] at hstep
    exact absurd hstep nofun
  | fire =>
    rw [step, Option.ite_none_right_eq_some, Option.some_inj] at hstep
    rw [← hstep.2]
    exact ⟨hdone, rfl⟩
  | callback =>
    rw [step, Option.ite_none_left_eq_some, Option.some_inj] at hstep
    have hforwarded : s.flush.forwarded = s.forwarded := by
      rw [flush_of_clean (h.done hdone)]
    rw [← hstep.2]
    exact ⟨s.flush_frame.1.trans hdone, hforwarded⟩
  | done =>
    rw [step, if_pos hdone] at hstep
    exact absurd hstep nofun

theorem newBatchingStream_valid : newBatchingStream.Valid :=
  .of_clean rfl rfl nofun nofun

/-- **Batching loses and repeats nothing.** In every run the results forwarded and
those in the batch are the results sent, in order; once the stream is done all
have been forwarded, and nothing is forwarded afterwards; before that, if there is
anything in the batch, the timer is running or its callback waits for the lock; and a
callback that waits can get the lock and forwards the batch. -/
theorem batchingStream_exact {actions : List Action} {s : Batching}
    (h : Machine.run Batching.step newBatchingStream actions = some s) :
    s.forwardedResults ++ s.stream.batch.results = sentResults actions ∧
      (s.isDone = true → s.forwardedResults = sentResults actions ∧
        ∀ later s', Machine.run Batching.step s later = some s' → s'.forwarded = s.forwarded) ∧
      (s.isDone = false → s.stream.dirty = true ∨ s.stream.batch ≠ .empty →
        s.stream.flushScheduled = true ∧ (s.timerRunning = true ∨ 0 < s.callbacks)) ∧
      (0 < s.callbacks → ∃ s', s.step .callback = some s' ∧ s'.stream.batch = .empty ∧
        s'.forwardedResults = s.forwardedResults ++ s.stream.batch.results) := by
  have hvalid : s.Valid := Machine.run_invariant Batching.Valid.step h newBatchingStream_valid
  have haccepted : s.accepted = sentResults actions := accepted_run h
  refine ⟨haccepted, fun hdone => ⟨?_, fun later s' hlater => ?_⟩, fun hdone hbatch => ?_,
    fun hwaits => ?_⟩
  · rw [← haccepted, accepted, hvalid.clean (hvalid.done hdone)]
    exact (append_nil _).symm
  · have hinvariant : s'.Valid ∧ s'.isDone = true ∧ s'.forwarded = s.forwarded := by
      refine @Machine.run_invariant _ _ _
        (fun t => t.Valid ∧ t.isDone = true ∧ t.forwarded = s.forwarded) (fun hstep hs => ?_)
        _ _ _ hlater ⟨hvalid, hdone, rfl⟩
      obtain ⟨hdone', hforwarded⟩ := forwarded_step_of_done hstep hs.1 hs.2.1
      exact ⟨hs.1.step hstep, hdone', hforwarded.trans hs.2.2⟩
    exact hinvariant.2.2
  · have hdirty : s.stream.dirty = true := hbatch.elim id fun hne => by
      by_contra hclean
      exact hne (hvalid.clean (Bool.eq_false_iff.mpr hclean))
    have hscheduled := hvalid.scheduled hdone hdirty
    exact ⟨hscheduled, hvalid.waiting hdone hscheduled⟩
  · have hempty := flush_batch hvalid.clean
    have hforwarded := s.accepted_flush
    rw [accepted, hempty] at hforwarded
    exact ⟨_, if_neg hwaits.ne', hempty, (append_nil _).symm.trans hforwarded⟩

/-- A callback that gets the lock after `Done`. -/
theorem batchingStream_late_callback :
    ∃ s, Machine.run Batching.step newBatchingStream
        [.send repoEvent, .send repoEvent, .fire, .send repoEvent, .done, .callback] = some s ∧
      s.isDone = true ∧ s.forwardedResults = sentResults
        [.send repoEvent, .send repoEvent, .fire, .send repoEvent, .done, .callback] :=
  ⟨_, rfl, rfl, ((batchingStream_exact rfl).2.1 rfl).1⟩

end Streaming
