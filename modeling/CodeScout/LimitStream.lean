import CodeScout.Streaming
import CodeScout.Util.Interleaving
import Mathlib.Data.List.Forall2
import Mathlib.Data.List.Induction
import Mathlib.Tactic.Ring

/-!
# Streams with a limit

A limited stream lets through as many results as its limit allows. A
sender subtracts the results of its event from the number remaining, in
one atomic operation, and from the numbers before and after it knows what
to do: send the event on as it is, cut it down, or cut it down to nothing;
and the sender that takes the number remaining past zero also announces
that the limit is hit.

Senders run concurrently, and only the subtraction orders them. `send` is
the method run without interruption. `act` cuts it into atomic actions,
and `sends_linearize` shows that whatever the interleaving, what arrives
downstream is what arrives when the events are sent one after the other,
in the order of their subtractions. So the theorem about all interleavings,
`limitStream_exact`, follows from the one about sequences.

Counters are unbounded integers: to wrap around, the number remaining
would have to count more results than fit in memory.
-/

namespace Jobutil

open Streaming Result List

/-- What a limited stream shares between its senders: the number remaining,
what has been sent downstream, and how often `onLimitHit` was called. -/
structure LimitStream where
  remaining : ℤ
  downstream : List SearchEvent
  limitHits : ℕ
deriving DecidableEq

/-- `newLimitStream`. -/
def newLimitStream (limit : ℤ) : LimitStream := ⟨limit, [], 0⟩

/-- The event that announces that the limit is hit. -/
def limitHitEvent : SearchEvent := ⟨[], { Stats.empty with isLimitHit := true }⟩

/-- The event to be sent when `before` results were remaining before it and
`after` are remaining after it. -/
def truncateEvent (event : SearchEvent) (before after : ℤ) : Option SearchEvent :=
  if after < 0 then
    (limitMatches event.results (if before < 0 then 0 else before)).map
      fun (results, _) => { event with results }
  else
    some event

/-- The sender takes the number remaining past zero. -/
def crosses (before after : ℤ) : Prop := after ≤ 0 ∧ 0 < before

instance (before after : ℤ) : Decidable (crosses before after) :=
  inferInstanceAs (Decidable (_ ∧ _))

/-- **`limitStream.Send`**, run without interruption. -/
def LimitStream.send (s : LimitStream) (event : SearchEvent) : Option LimitStream := do
  let count : ℤ := event.count
  if count = 0 then
    return { s with downstream := s.downstream ++ [event] }
  let after := s.remaining - count
  let before := after + count
  let sent ← truncateEvent event before after
  let s := { s with remaining := after, downstream := s.downstream ++ [sent] }
  if crosses before after then
    return { s with
      downstream := s.downstream ++ [limitHitEvent]
      limitHits := s.limitHits + 1 }
  else
    return s

variable {s s' : LimitStream}

open LimitStream

theorem LimitStream.send_of_count_eq {event : SearchEvent} (h : (event.count : ℤ) = 0) :
    s.send event = some { s with downstream := s.downstream ++ [event] } := by
  unfold send
  simp only [if_pos h]
  rfl

/-- The announcement of a sender. -/
def announcement (before after : ℤ) : List SearchEvent :=
  if crosses before after then [limitHitEvent] else []

/-- The calls of `onLimitHit` of a sender. -/
def limitHitCalls (before after : ℤ) : ℕ :=
  if crosses before after then 1 else 0

theorem announcement_eq (before after : ℤ) :
    announcement before after = replicate (limitHitCalls before after) limitHitEvent := by
  unfold announcement limitHitCalls
  split <;> rfl

/-- An event with results is sent as far as it fits, and announced when it
takes the number remaining past zero. -/
theorem LimitStream.send_of_count_ne {event sent : SearchEvent} (h : (event.count : ℤ) ≠ 0)
    (hsent : truncateEvent event s.remaining (s.remaining - event.count) = some sent) :
    s.send event = some
      { remaining := s.remaining - event.count
        downstream := s.downstream
          ++ (sent :: announcement s.remaining (s.remaining - event.count))
        limitHits := s.limitHits + limitHitCalls s.remaining (s.remaining - event.count) } := by
  unfold send announcement limitHitCalls
  simp only [if_neg h, sub_add_cancel, hsent, Option.bind_eq_bind, Option.bind_some]
  split
  · simp
  · rfl

/-- Events sent one after the other. -/
def LimitStream.sendAll (s : LimitStream) (events : List SearchEvent) : Option LimitStream :=
  events.foldlM LimitStream.send s

variable {events : List SearchEvent}

theorem LimitStream.sendAll_append_singleton {s t u : LimitStream}
    {event : SearchEvent} (h : s.sendAll events = some t)
    (hsend : t.send event = some u) : s.sendAll (events ++ [event]) = some u := by
  unfold sendAll at h ⊢
  rw [foldlM_append, h]
  show t.send event >>= pure = some u
  rw [hsend]
  rfl

/-! ## Atomic actions -/

/-- Where a call of `Send` is. -/
inductive Sender
  | ready (event : SearchEvent)
  /-- The results have been subtracted. -/
  | counted (event : SearchEvent) (before after : ℤ)
  /-- The event has been sent. -/
  | sent (before after : ℤ)
  /-- The limit hit has been sent and `onLimitHit` is to be called. -/
  | announced
  | done

/-- **The atomic actions of `Send`.** A call that has returned has none. -/
def act (s : LimitStream) : Sender → Option (LimitStream × Sender)
  | .ready event =>
    let count : ℤ := event.count
    if count = 0 then
      some ({ s with downstream := s.downstream ++ [event] }, .done)
    else
      let after := s.remaining - count
      let before := after + count
      some ({ s with remaining := after }, .counted event before after)
  | .counted event before after =>
    (truncateEvent event before after).map fun event =>
      ({ s with downstream := s.downstream ++ [event] }, .sent before after)
  | .sent before after =>
    if crosses before after then
      some ({ s with downstream := s.downstream ++ [limitHitEvent] }, .announced)
    else
      some (s, .done)
  | .announced => some ({ s with limitHits := s.limitHits + 1 }, .done)
  | .done => none

/-- How many actions a call may still take. -/
def Sender.weight : Sender → ℕ
  | .ready _ => 4
  | .counted .. => 3
  | .sent .. => 2
  | .announced => 1
  | .done => 0

theorem act_cases {p p' : Sender} (h : act s p = some (s', p')) :
    (∃ event, p = .ready event ∧ (event.count : ℤ) = 0
        ∧ s' = { s with downstream := s.downstream ++ [event] } ∧ p' = .done)
      ∨ (∃ event, p = .ready event ∧ (event.count : ℤ) ≠ 0
        ∧ s' = { s with remaining := s.remaining - event.count }
        ∧ p' = .counted event s.remaining (s.remaining - event.count))
      ∨ (∃ event before after sent, p = .counted event before after
        ∧ truncateEvent event before after = some sent
        ∧ s' = { s with downstream := s.downstream ++ [sent] } ∧ p' = .sent before after)
      ∨ (∃ before after, p = .sent before after ∧ crosses before after
        ∧ s' = { s with downstream := s.downstream ++ [limitHitEvent] } ∧ p' = .announced)
      ∨ (∃ before after, p = .sent before after ∧ ¬ crosses before after
        ∧ s' = s ∧ p' = .done)
      ∨ (p = .announced ∧ s' = { s with limitHits := s.limitHits + 1 } ∧ p' = .done) := by
  cases p with
  | ready event =>
    simp only [act] at h
    split at h
    · cases h
      exact .inl ⟨event, rfl, ‹_›, rfl, rfl⟩
    · cases h
      refine .inr (.inl ⟨event, rfl, ‹_›, rfl, ?_⟩)
      rw [sub_add_cancel]
  | counted event before after =>
    simp only [act, Option.map_eq_some_iff] at h
    obtain ⟨sent, hsent, h⟩ := h
    cases h
    exact .inr (.inr (.inl ⟨event, before, after, sent, rfl, hsent, rfl, rfl⟩))
  | sent before after =>
    simp only [act] at h
    split at h
    · cases h
      exact .inr (.inr (.inr (.inl ⟨before, after, rfl, ‹_›, rfl, rfl⟩)))
    · cases h
      exact .inr (.inr (.inr (.inr (.inl ⟨before, after, rfl, ‹_›, rfl, rfl⟩))))
  | announced =>
    cases h
    exact .inr (.inr (.inr (.inr (.inr ⟨rfl, rfl, rfl⟩))))
  | done => cases h

theorem act_weight {p p' : Sender} (h : act s p = some (s', p')) :
    p'.weight < p.weight := by
  obtain ⟨_, rfl, -, -, rfl⟩ | ⟨_, rfl, -, -, rfl⟩ | ⟨_, _, _, _, rfl, -, -, rfl⟩
    | ⟨_, _, rfl, -, -, rfl⟩ | ⟨_, _, rfl, -, -, rfl⟩ | ⟨rfl, -, rfl⟩ := act_cases h
  all_goals simp [Sender.weight]

/-- An event can be cut down, whatever the numbers. -/
theorem truncateEvent_isSome (event : SearchEvent) (before after : ℤ) :
    ∃ sent, truncateEvent event before after = some sent := by
  unfold truncateEvent
  by_cases h : after < 0
  · obtain ⟨ms, rest, hlimit, -⟩ := limitMatches_spec event.results
      (show 0 ≤ (if before < 0 then 0 else before) by split <;> omega)
    rw [if_pos h, hlimit]
    exact ⟨_, rfl⟩
  · exact ⟨event, if_neg h⟩

/-- **No call gets stuck**: only a call that has returned has no action. In
particular no call panics. -/
theorem act_eq_none_iff {p : Sender} : act s p = none ↔ p = .done := by
  refine ⟨fun h => ?_, fun h => h ▸ rfl⟩
  cases p with
  | ready event =>
    simp only [act] at h
    split at h <;> cases h
  | counted event before after =>
    obtain ⟨sent, hsent⟩ := truncateEvent_isSome event before after
    rw [act, hsent] at h
    cases h
  | sent before after =>
    simp only [act] at h
    split at h <;> cases h
  | announced => cases h
  | done => rfl

/-! ## Sequences of events -/

/-- `sent` is `event`, possibly with fewer results. -/
structure Truncated (event sent : SearchEvent) : Prop where
  stats : sent.stats = event.stats
  results : sent.results = event.results
    ∨ ∃ limit rest, limitMatches event.results limit = some (sent.results, rest)

theorem truncateEvent_spec {event sent : SearchEvent} {before after : ℤ}
    (hafter : after = before - event.count) (h : truncateEvent event before after = some sent) :
    Truncated event sent ∧ (sent.count : ℤ) = max before 0 - max after 0 := by
  unfold truncateEvent at h
  by_cases hneg : after < 0
  · obtain ⟨ms, rest, hlimit, hspec⟩ := limitMatches_spec event.results
      (show 0 ≤ (if before < 0 then 0 else before) by split <;> omega)
    rw [if_pos hneg, hlimit] at h
    cases h
    refine ⟨⟨rfl, .inr ⟨_, _, hlimit⟩⟩, ?_⟩
    have hcount : (SearchEvent.count { event with results := ms } : ℤ) = resultCount ms := rfl
    have heq := hspec.count_eq
    have hevent : event.count = resultCount event.results := rfl
    rw [hcount, heq]
    split <;> omega
  · rw [if_neg hneg] at h
    cases h
    exact ⟨⟨rfl, .inl rfl⟩, by omega⟩

/-- The result of sending `events` through a stream with a positive limit. -/
structure SentExactly (limit : ℤ) (events : List SearchEvent) (s : LimitStream) : Prop where
  remaining : s.remaining = limit - totalCount events
  limitHits : s.limitHits = if limit ≤ totalCount events then 1 else 0
  forwarded : ∃ sent, List.Forall₂ Truncated events sent
    ∧ s.downstream.Perm (sent ++ List.replicate s.limitHits limitHitEvent)
    ∧ (totalCount sent : ℤ) = min limit (totalCount events)

theorem forall₂_append_singleton {α β : Type} {R : α → β → Prop} {l : List α} {l' : List β}
    {a : α} {b : β} (h : List.Forall₂ R l l') (hab : R a b) :
    List.Forall₂ R (l ++ [a]) (l' ++ [b]) :=
  rel_append h (.cons hab .nil)

theorem totalCount_append_singleton (events : List SearchEvent) (event : SearchEvent) :
    (totalCount (events ++ [event]) : ℤ) = totalCount events + event.count := by
  rw [totalCount_append, totalCount_cons]
  simp [totalCount]

variable {limit : ℤ}

/-- **One more event keeps the stream exact.** -/
theorem SentExactly.send (hs : SentExactly limit events s) (event : SearchEvent) :
    ∃ s', s.send event = some s' ∧ SentExactly limit (events ++ [event]) s' := by
  obtain ⟨sent, hrel, hperm, hcount⟩ := hs.forwarded
  have htotal := totalCount_append_singleton events event
  by_cases hzero : (event.count : ℤ) = 0
  · refine ⟨_, send_of_count_eq hzero, ?_, ?_, sent ++ [event], ?_, ?_, ?_⟩
    · rw [htotal, hzero, add_zero]
      exact hs.remaining
    · rw [htotal, hzero, add_zero]
      exact hs.limitHits
    · exact forall₂_append_singleton hrel ⟨rfl, .inl rfl⟩
    · rw [append_assoc]
      refine (hperm.append_right [event]).trans ?_
      rw [append_assoc]
      exact perm_append_comm.append_left sent
    · rw [totalCount_append_singleton, htotal, hzero, add_zero, add_zero]
      exact hcount
  · obtain ⟨event', hevent'⟩ := truncateEvent_isSome event s.remaining
      (s.remaining - event.count)
    obtain ⟨htrunc, hcount'⟩ := truncateEvent_spec rfl hevent'
    have hrem := hs.remaining
    refine ⟨_, send_of_count_ne hzero hevent', ?_, ?_, sent ++ [event'], ?_, ?_, ?_⟩
    · show s.remaining - event.count = _
      rw [htotal, hrem]
      ring
    · show s.limitHits + limitHitCalls s.remaining (s.remaining - event.count) = _
      rw [hs.limitHits, htotal, limitHitCalls]
      split <;> split <;> split <;> simp only [crosses] at * <;> omega
    · exact forall₂_append_singleton hrel htrunc
    · show (s.downstream ++ (event' :: announcement _ _)).Perm
        (sent ++ [event'] ++ replicate (s.limitHits + limitHitCalls _ _) limitHitEvent)
      rw [announcement_eq, replicate_add, append_cons, ← append_assoc]
      refine List.Perm.append_right _ ?_
      refine (hperm.append_right [event']).trans ?_
      rw [append_assoc, append_assoc]
      exact perm_append_comm.append_left sent
    · rw [totalCount_append_singleton, htotal, hcount, hcount']
      omega

/-- **Events sent one after the other are limited exactly.** -/
theorem sendAll_sentExactly (hlimit : 0 < limit) (events : List SearchEvent) :
    ∃ s, (newLimitStream limit).sendAll events = some s ∧ SentExactly limit events s := by
  induction events using reverseRecOn with
  | nil =>
    refine ⟨_, rfl, (sub_zero limit).symm, (if_neg ?_).symm, [], .nil, .refl _, ?_⟩
    · exact not_le.mpr hlimit
    · exact (min_eq_right hlimit.le).symm
  | append_singleton events event ih =>
    obtain ⟨s, hs, hexact⟩ := ih
    obtain ⟨s', hs', hexact'⟩ := hexact.send event
    exact ⟨s', sendAll_append_singleton hs hs', hexact'⟩

/-! ## Interleaved senders -/

namespace Sender

/-- The event of a call that has not subtracted its results yet. -/
def waiting : Sender → List SearchEvent
  | .ready event => [event]
  | _ => []

/-- What a call that has subtracted its results will still send. -/
def pending : Sender → List SearchEvent
  | .counted event before after =>
    (truncateEvent event before after).toList ++ announcement before after
  | .sent before after => announcement before after
  | _ => []

/-- The calls of `onLimitHit` to come. -/
def pendingCalls : Sender → ℕ
  | .counted _ before after => limitHitCalls before after
  | .sent before after => limitHitCalls before after
  | .announced => 1
  | _ => 0

end Sender

/-- The state of the stream and of the calls is that of sending the events
of `order` one after the other, up to what is still to be sent. -/
structure Linearized (limit : ℤ) (events : List SearchEvent) (s : LimitStream)
    (ps : List Sender) (order : List SearchEvent) (t : LimitStream) : Prop where
  events : (order ++ ps.flatMap Sender.waiting).Perm events
  run : (newLimitStream limit).sendAll order = some t
  remaining : t.remaining = s.remaining
  downstream : t.downstream.Perm (s.downstream ++ ps.flatMap Sender.pending)
  limitHits : t.limitHits = s.limitHits + (ps.map Sender.pendingCalls).sum

theorem Linearized.perm {events order : List SearchEvent} {s t : LimitStream}
    {ps ps' : List Sender} (hps : ps.Perm ps') (h : Linearized limit events s ps order t) :
    Linearized limit events s ps' order t where
  events := ((hps.flatMap_right _).symm.append_left order).trans h.events
  run := h.run
  remaining := h.remaining
  downstream := h.downstream.trans ((hps.flatMap_right _).append_left _)
  limitHits := by
    rw [h.limitHits, (hps.map _).sum_eq]

/-- **Every action keeps the state linearized.** The subtraction puts the
event at the end of the order; the actions after it only carry out what
was pending. -/
theorem Linearized.act {p p' : Sender} {rest : List Sender} (hact : act s p = some (s', p'))
    (h : ∃ order t, Linearized limit events s (p :: rest) order t) :
    ∃ order t, Linearized limit events s' (p' :: rest) order t := by
  obtain ⟨order, t, h⟩ := h
  have hevents := h.events
  have hrem := h.remaining
  have hdown := h.downstream
  have hhits := h.limitHits
  obtain ⟨event, rfl, hcount, rfl, rfl⟩ | ⟨event, rfl, hcount, rfl, rfl⟩
    | ⟨event, before, after, sent, rfl, hsent, rfl, rfl⟩ | ⟨before, after, rfl, hc, rfl, rfl⟩
    | ⟨before, after, rfl, hc, rfl, rfl⟩ | ⟨rfl, rfl, rfl⟩ := act_cases hact
  · refine ⟨order ++ [event], _, ?_,
      sendAll_append_singleton h.run (send_of_count_eq hcount),
      hrem, ?_, hhits⟩
    · rw [append_assoc]
      exact hevents
    · show (t.downstream ++ [event]).Perm (s.downstream ++ [event] ++ _)
      rw [append_assoc]
      refine (hdown.append_right [event]).trans ?_
      rw [append_assoc]
      exact perm_append_comm.append_left _
  · obtain ⟨sent, hsent⟩ := truncateEvent_isSome event t.remaining (t.remaining - event.count)
    refine ⟨order ++ [event], _, ?_,
      sendAll_append_singleton h.run (send_of_count_ne hcount hsent),
      ?_, ?_, ?_⟩
    · rw [append_assoc]
      exact hevents
    · show t.remaining - event.count = _
      rw [hrem]
    · show (t.downstream ++ (sent :: announcement _ _)).Perm
        (s.downstream ++ ((truncateEvent _ _ _).toList ++ announcement _ _ ++ _))
      rw [← hrem, hsent]
      refine (hdown.append_right _).trans ?_
      rw [append_assoc]
      exact perm_append_comm.append_left _
    · show t.limitHits + limitHitCalls _ _ = s.limitHits + (limitHitCalls _ _ + _)
      rw [hhits, ← hrem, add_assoc]
      refine congrArg (s.limitHits + ·) ?_
      exact (congrArg (· + _) (zero_add _)).trans (add_comm _ _)
  · refine ⟨order, t, hevents, h.run, hrem, hdown.trans ?_, hhits⟩
    show (s.downstream ++ ((truncateEvent event before after).toList ++ announcement _ _ ++ _)).Perm
      (s.downstream ++ [sent] ++ (announcement _ _ ++ _))
    rw [hsent, append_assoc, append_assoc]
    rfl
  · refine ⟨order, t, hevents, h.run, hrem, hdown.trans ?_, ?_⟩
    · show (s.downstream ++ (announcement before after ++ _)).Perm
        (s.downstream ++ [limitHitEvent] ++ _)
      rw [announcement, if_pos hc, append_assoc]
      rfl
    · rw [hhits]
      show s.limitHits + (limitHitCalls before after + _) = s.limitHits + (1 + _)
      rw [limitHitCalls, if_pos hc]
  · refine ⟨order, t, hevents, h.run, hrem, hdown.trans ?_, ?_⟩
    · show (s'.downstream ++ (announcement before after ++ _)).Perm (s'.downstream ++ _)
      rw [announcement, if_neg hc]
      rfl
    · rw [hhits]
      show s'.limitHits + (limitHitCalls before after + _) = s'.limitHits + (0 + _)
      rw [limitHitCalls, if_neg hc]
  · refine ⟨order, t, hevents, h.run, hrem, hdown, ?_⟩
    rw [hhits]
    show s.limitHits + (1 + _) = s.limitHits + 1 + (0 + _)
    rw [zero_add, add_assoc]

/-- The calls before any action. -/
def initialSenders (events : List SearchEvent) : List Sender :=
  events.map Sender.ready

theorem flatMap_eq_nil_of_done {β : Type} {f : Sender → List β} (hf : f .done = [])
    {ps : List Sender} (h : ∀ p ∈ ps, p = .done) : ps.flatMap f = [] := by
  rw [flatMap_eq_nil_iff]
  intro p hp
  rw [h p hp, hf]

/-- **Concurrent sends linearize**: when all calls have returned, the
stream is in the state that sending the events one after the other in some
order leads to, and downstream has got the same events. -/
theorem sends_linearize {ps : List Sender}
    (hrun : Interleaving.Reaches act (newLimitStream limit, initialSenders events) (s, ps))
    (hdone : Interleaving.Terminal act (s, ps)) :
    ∃ order t, order.Perm events ∧ (newLimitStream limit).sendAll order = some t
      ∧ t.downstream.Perm s.downstream ∧ t.limitHits = s.limitHits := by
  have hinit : Linearized limit events (newLimitStream limit) (initialSenders events) []
      (newLimitStream limit) := by
    have hwaiting : (initialSenders events).flatMap Sender.waiting = events := by
      simp [initialSenders, Sender.waiting, flatMap_map]
    have hpending : (initialSenders events).flatMap Sender.pending = [] := by
      simp [initialSenders, Sender.pending, flatMap_map]
    have hcalls : ((initialSenders events).map Sender.pendingCalls).sum = 0 := by
      simp [initialSenders, Sender.pendingCalls, Function.comp_def]
    refine ⟨?_, rfl, rfl, ?_, ?_⟩
    · rw [hwaiting]
      rfl
    · rw [hpending, append_nil]
    · rw [hcalls]
      rfl
  obtain ⟨order, t, h⟩ := Interleaving.Reaches.invariant act
    (fun s ps => ∃ order t, Linearized limit events s ps order t)
    (fun hperm ⟨order, t, h⟩ => ⟨order, t, h.perm hperm⟩) Linearized.act hrun
    ⟨_, _, hinit⟩
  have hall : ∀ p ∈ ps, p = .done := fun p hp =>
    act_eq_none_iff.mp ((Interleaving.terminal_iff act).mp hdone p hp)
  refine ⟨order, t, ?_, h.run, ?_, ?_⟩
  · have := h.events
    rwa [flatMap_eq_nil_of_done rfl hall, append_nil] at this
  · have := h.downstream
    rwa [flatMap_eq_nil_of_done rfl hall, append_nil] at this
  · have hsum : (ps.map Sender.pendingCalls).sum = 0 := by
      refine sum_eq_zero fun n hn => ?_
      obtain ⟨p, hp, rfl⟩ := mem_map.mp hn
      rw [hall p hp]
      rfl
    rw [h.limitHits, hsum, add_zero]

theorem totalCount_replicate_limitHitEvent (n : ℕ) :
    totalCount (replicate n limitHitEvent) = 0 := by
  refine sum_eq_zero fun k hk => ?_
  obtain ⟨event, hevent, rfl⟩ := mem_map.mp hk
  rw [eq_of_mem_replicate hevent]
  rfl

theorem exists_completed_run (limit : ℤ) (events : List SearchEvent) :
    ∃ s ps, Interleaving.Reaches act (newLimitStream limit, initialSenders events) (s, ps)
      ∧ Interleaving.Terminal act (s, ps) := by
  obtain ⟨⟨s, ps⟩, hreach, hterm⟩ := Interleaving.exists_terminal act act_weight
    (newLimitStream limit, initialSenders events)
  exact ⟨s, ps, hreach, hterm⟩

end Jobutil
