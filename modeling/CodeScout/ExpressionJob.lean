import CodeScout.Streaming
import CodeScout.ResultMerger
import CodeScout.Util.Interleaving

/-!
# And and or jobs

An and job runs its children concurrently and sends on what all of them
find; an or job also sends, when all children are done, what only some of
them found. Both pass every event of a child through the merger, with the
number of the child as its source, and send on what the merger returns if
there is anything to send.

The merger is locked for a whole call of `AddMatches`, and the sending that
follows is not. So a call of a child's stream takes two atomic actions, and
those of different calls interleave in any way. As the keys that the
merger returns do not depend on the order of its calls, neither do the keys
that are sent (`andJob_keys`, `orJob_keys`).
-/

namespace Jobutil

open Streaming Result List

variable (L : BitSetLib)

/-- What the calls of the children's streams share. -/
structure JobState where
  merger : Merger L
  downstream : List SearchEvent

/-- Where a call of a child's stream is. -/
inductive ChildSend
  | ready (childNum : ℕ) (event : SearchEvent)
  /-- The event has been merged and is to be sent. -/
  | merged (event : SearchEvent)
  | done

variable {L}

/-- **The stream that `AndJob.Run` and `OrJob.Run` give their children**, by
its atomic actions. -/
def childAct (s : JobState L) : ChildSend → Option (JobState L × ChildSend)
  | .ready childNum event =>
    (s.merger.addMatches event.results childNum).map fun (merger, results) =>
      let event := { event with results }
      if 0 < event.results.length ∨ event.stats.zero = false then
        ({ s with merger }, .merged event)
      else
        ({ s with merger }, .done)
  | .merged event => some ({ s with downstream := s.downstream ++ [event] }, .done)
  | .done => none

/-- A job with the given children before its children run; each child is
given by the events it sends. -/
def initialSends (children : List (List SearchEvent)) : List ChildSend :=
  children.zipIdx.flatMap fun (events, childNum) => events.map (.ready childNum)

variable (L) in
/-- Nothing was merged or sent. -/
def initialState (children : List (List SearchEvent)) : JobState L :=
  ⟨newMerger L children.length, []⟩

/-- What `OrJob.Run` sends after all children are done. -/
def unsentEvents (unsentTracked : List Match) : List SearchEvent :=
  if 0 < unsentTracked.length then [⟨unsentTracked, Stats.empty⟩] else []

/-- The keys of the results of some events. -/
def eventKeys (events : List SearchEvent) : List Key :=
  events.flatMap fun event => Merger.keys event.results

namespace ChildSend

/-- How many actions are left. -/
def weight : ChildSend → ℕ
  | .ready .. => 2
  | .merged _ => 1
  | .done => 0

/-- The call of `AddMatches` to come. -/
def waiting : ChildSend → List (List Match × ℕ)
  | .ready childNum event => [(event.results, childNum)]
  | _ => []

/-- The event to be sent. -/
def pending : ChildSend → List SearchEvent
  | .merged event => [event]
  | _ => []

end ChildSend

variable {s s' : JobState L}

variable {p p' : ChildSend}

/-- What an action can do. An event is dropped only if it has no results. -/
theorem childAct_cases (h : childAct s p = some (s', p')) :
    (∃ childNum event merger results, p = .ready childNum event
        ∧ s.merger.addMatches event.results childNum = some (merger, results)
        ∧ s' = { s with merger }
        ∧ (p' = .merged { event with results } ∨ p' = .done ∧ results = []))
      ∨ ∃ event, p = .merged event ∧ s' = { s with downstream := s.downstream ++ [event] }
        ∧ p' = .done := by
  cases p with
  | ready childNum event =>
    simp only [childAct, Option.map_eq_some_iff] at h
    obtain ⟨⟨merger, results⟩, hadd, h⟩ := h
    refine .inl ⟨childNum, event, merger, results, rfl, hadd, ?_⟩
    simp only at h
    split at h
    · cases h
      exact ⟨rfl, .inl rfl⟩
    · rename_i hno
      cases h
      refine ⟨rfl, .inr ⟨rfl, ?_⟩⟩
      push Not at hno
      exact eq_nil_of_length_eq_zero (Nat.le_zero.mp hno.1)
  | merged event =>
    cases h
    exact .inr ⟨event, rfl, rfl, rfl⟩
  | done => cases h

theorem childAct_weight (h : childAct s p = some (s', p')) : p'.weight < p.weight := by
  obtain ⟨_, _, _, _, rfl, -, -, rfl | ⟨rfl, -⟩⟩ | ⟨_, rfl, -, rfl⟩ := childAct_cases h
  all_goals simp [ChildSend.weight]

/-! ## Runs of a job -/

/-- The merger is in the state after the calls of `order`, and what these
calls returned has been sent or is to be sent. -/
structure JobInvariant (n : ℕ) (calls : List (List Match × ℕ)) (s : JobState L)
    (ps : List ChildSend) (order : List (List Match × ℕ)) (ks : List Key) : Prop where
  calls : (order ++ ps.flatMap ChildSend.waiting).Perm calls
  tracks : s.merger.Tracks n (Merger.history order)
  streams : Streams n [] (Merger.history order) ks
  sent : (eventKeys (s.downstream ++ ps.flatMap ChildSend.pending)).Perm ks

theorem eventKeys_append (l₁ l₂ : List SearchEvent) :
    eventKeys (l₁ ++ l₂) = eventKeys l₁ ++ eventKeys l₂ :=
  flatMap_append

theorem JobInvariant.perm {n : ℕ} {calls order : List (List Match × ℕ)}
    {ps ps' : List ChildSend} {ks : List Key} (hps : ps.Perm ps')
    (h : JobInvariant n calls s ps order ks) : JobInvariant n calls s ps' order ks where
  calls := ((hps.flatMap_right _).symm.append_left order).trans h.calls
  tracks := h.tracks
  streams := h.streams
  sent := (((hps.flatMap_right _).symm.append_left _).flatMap_right _).trans h.sent

open Merger

theorem history_append_singleton (order : List (List Match × ℕ)) (c : List Match × ℕ) :
    Merger.history (order ++ [c]) = Merger.history order ++ Merger.adds c.1 c.2 := by
  simp [history]

/-- **Every action keeps the invariant.** -/
theorem JobInvariant.act {n : ℕ} (hn : 2 ≤ n) {calls : List (List Match × ℕ)}
    (hcalls : ∀ c ∈ calls, c.2 < n)
    {rest : List ChildSend} (hact : childAct s p = some (s', p'))
    (h : ∃ order ks, JobInvariant n calls s (p :: rest) order ks) :
    ∃ order ks, JobInvariant n calls s' (p' :: rest) order ks := by
  obtain ⟨order, ks, h⟩ := h
  have hsent := h.sent
  obtain ⟨childNum, event, merger, results, rfl, hadd, rfl, hp'⟩ | ⟨event, rfl, rfl, rfl⟩ :=
    childAct_cases hact
  · have hsource : childNum < n := by
      refine hcalls (event.results, childNum) (h.calls.subset ?_)
      exact mem_append_right _ (mem_append_left _ mem_cons_self)
    obtain ⟨merger', out, hadd', htracks, hstreams⟩ :=
      addMatches_spec hn h.tracks event.results hsource
    cases hadd.symm.trans hadd'
    have hwaiting : p'.waiting = [] := by
      rcases hp' with rfl | ⟨rfl, -⟩ <;> rfl
    have hpending : eventKeys p'.pending = keys results := by
      rcases hp' with rfl | ⟨rfl, rfl⟩
      · exact flatMap_singleton _ _
      · rfl
    refine ⟨order ++ [(event.results, childNum)], ks ++ keys results, ?_, ?_, ?_, ?_⟩
    · rw [flatMap_cons, hwaiting, append_assoc]
      exact h.calls
    · rw [history_append_singleton]
      exact htracks
    · rw [history_append_singleton]
      exact h.streams.append (nil_subset _) (subset_append_left _ _) hstreams
    · rw [eventKeys_append] at hsent ⊢
      rw [flatMap_cons, eventKeys_append, hpending]
      refine .trans ?_ (hsent.append_right _)
      rw [append_assoc]
      exact perm_append_comm.append_left _
  · refine ⟨order, ks, h.calls, h.tracks, h.streams, ?_⟩
    show (eventKeys (s.downstream ++ [event] ++ _)).Perm ks
    rw [append_assoc]
    exact hsent

/-- The calls that a job makes to its merger, in the order of the
children. -/
def jobCalls (children : List (List SearchEvent)) : List (List Match × ℕ) :=
  (initialSends children).flatMap ChildSend.waiting

variable {children : List (List SearchEvent)}

theorem mem_jobCalls {c : List Match × ℕ} :
    c ∈ jobCalls children
      ↔ ∃ events, children[c.2]? = some events ∧ ∃ event ∈ events, event.results = c.1 := by
  unfold jobCalls initialSends
  simp only [mem_flatMap, mem_map, Prod.exists, mem_zipIdx_iff_getElem?]
  constructor
  · rintro ⟨_, ⟨events, i, hevents, event, hevent, rfl⟩, hc⟩
    rw [mem_singleton.mp hc]
    exact ⟨events, hevents, event, hevent, rfl⟩
  · rintro ⟨events, hevents, event, hevent, hc⟩
    refine ⟨_, ⟨events, c.2, hevents, event, hevent, rfl⟩, ?_⟩
    rw [ChildSend.waiting, hc]
    exact mem_singleton.mpr rfl

variable {order : List (List Match × ℕ)}

theorem mem_history_of_perm (horder : order.Perm (jobCalls children)) (k : Key) (i : ℕ) :
    (k, i) ∈ Merger.history order
      ↔ ∃ events, children[i]? = some events ∧ k ∈ eventKeys events := by
  unfold Merger.history Merger.adds eventKeys Merger.keys
  simp only [mem_flatMap, mem_map, horder.mem_iff, mem_jobCalls, Prod.mk.injEq]
  constructor
  · rintro ⟨c, ⟨events, hevents, event, hevent, hc⟩, m, hm, hk, rfl⟩
    exact ⟨events, hevents, event, hevent, m, hc ▸ hm, hk⟩
  · rintro ⟨events, hevents, event, hevent, m, hm, hk⟩
    exact ⟨(event.results, i), ⟨events, hevents, event, hevent, rfl⟩, m, hm, hk, rfl⟩

theorem addedByAll_history_iff (horder : order.Perm (jobCalls children)) (k : Key) :
    AddedByAll children.length (Merger.history order) k
      ↔ ∀ events ∈ children, k ∈ eventKeys events := by
  unfold AddedByAll
  simp only [mem_history_of_perm horder]
  constructor
  · intro h events hevents
    obtain ⟨i, hi, rfl⟩ := mem_iff_getElem.mp hevents
    obtain ⟨events', hget, hk⟩ := h i hi
    rw [getElem?_eq_getElem hi] at hget
    cases hget
    exact hk
  · intro h i hi
    exact ⟨children[i], getElem?_eq_getElem hi, h _ (getElem_mem hi)⟩

theorem added_history_iff (horder : order.Perm (jobCalls children)) (k : Key) :
    Added (Merger.history order) k ↔ ∃ events ∈ children, k ∈ eventKeys events := by
  unfold Added
  simp only [mem_history_of_perm horder]
  constructor
  · rintro ⟨i, events, hget, hk⟩
    exact ⟨events, mem_of_getElem? hget, hk⟩
  · rintro ⟨events, hevents, hk⟩
    obtain ⟨i, hi⟩ := mem_iff_getElem?.mp hevents
    exact ⟨i, events, hi, hk⟩

theorem eventKeys_unsentEvents (res : List Match) :
    eventKeys (unsentEvents res) = Merger.keys res := by
  unfold unsentEvents
  split
  · exact flatMap_singleton _ _
  · rename_i h
    rw [eq_nil_of_length_eq_zero (Nat.eq_zero_of_not_pos h)]
    rfl

section Completed

variable {ps : List ChildSend} (hn : 2 ≤ children.length)
  (hrun : Interleaving.Reaches childAct (initialState L children, initialSends children) (s, ps))
  (hdone : Interleaving.Terminal childAct (s, ps))

include hn hrun hdone

/-- **A completed run of a job**: no call has panicked, and the merger has
seen the events of all children, in some order. -/
theorem job_completed :
    (∀ p ∈ ps, p = .done) ∧ ∃ order ks, order.Perm (jobCalls children)
      ∧ s.merger.Tracks children.length (Merger.history order)
      ∧ Streams children.length [] (Merger.history order) ks
      ∧ (eventKeys s.downstream).Perm ks := by
  have hcalls : ∀ c ∈ jobCalls children, c.2 < children.length := by
    intro c hc
    obtain ⟨events, hevents, -⟩ := mem_jobCalls.mp hc
    exact (List.getElem?_eq_some_iff.mp hevents).1
  have hpending : (initialSends children).flatMap ChildSend.pending = [] := by
    rw [flatMap_eq_nil_iff]
    intro p hp
    obtain ⟨_, -, hp⟩ := mem_flatMap.mp hp
    obtain ⟨_, -, rfl⟩ := mem_map.mp hp
    rfl
  have hinit : JobInvariant children.length (jobCalls children) (initialState L children)
      (initialSends children) [] [] := by
    refine ⟨.refl _, newMerger_tracks _, Streams.refl, ?_⟩
    rw [hpending]
    exact .refl _
  obtain ⟨order, ks, h⟩ := Interleaving.Reaches.invariant childAct
    (fun s ps => ∃ order ks, JobInvariant children.length (jobCalls children) s ps order ks)
    (fun hperm ⟨order, ks, h⟩ => ⟨order, ks, h.perm hperm⟩) (JobInvariant.act hn hcalls) hrun
    ⟨_, _, hinit⟩
  have hall : ∀ p ∈ ps, p = .done := by
    intro p hp
    have hnone := (Interleaving.terminal_iff childAct).mp hdone p hp
    cases p with
    | ready childNum event =>
      have hsource : childNum < children.length := by
        refine hcalls (event.results, childNum) (h.calls.subset ?_)
        exact mem_append_right _ (mem_flatMap.mpr ⟨_, hp, mem_cons_self⟩)
      obtain ⟨_, _, hadd, -⟩ := addMatches_spec hn h.tracks event.results hsource
      rw [childAct, hadd] at hnone
      cases hnone
    | merged event => cases hnone
    | done => rfl
  have hnil : ∀ {β : Type} {f : ChildSend → List β}, f .done = [] → ps.flatMap f = [] := by
    intro β f hf
    rw [flatMap_eq_nil_iff]
    exact fun p hp => hall p hp ▸ hf
  have hperm := h.calls
  have hsent := h.sent
  rw [hnil rfl, append_nil] at hperm hsent
  exact ⟨hall, order, ks, hperm, h.tracks, h.streams, hsent⟩

/-- **An and job streams the intersection** of what its children find, each
key once. -/
theorem andJob_keys :
    (eventKeys s.downstream).Nodup
      ∧ ∀ k, k ∈ eventKeys s.downstream ↔ ∀ events ∈ children, k ∈ eventKeys events := by
  obtain ⟨-, order, ks, horder, -, hstreams, hsent⟩ := job_completed hn hrun hdone
  refine ⟨hsent.nodup_iff.mpr hstreams.nodup, fun k => ?_⟩
  rw [hsent.mem_iff, hstreams.mem_iff, Completed, addedByAll_history_iff horder, and_iff_left]
  exact fun hnil => absurd (hnil 0 (by omega)) not_mem_nil

/-- **An or job streams the union** of what its children find, each key
once. -/
theorem orJob_keys {res : List Match} (hres : s.merger.UnsentTracked res) :
    (eventKeys (s.downstream ++ unsentEvents res)).Nodup
      ∧ ∀ k, k ∈ eventKeys (s.downstream ++ unsentEvents res)
        ↔ ∃ events ∈ children, k ∈ eventKeys events := by
  obtain ⟨-, order, ks, horder, htracks, hstreams, hsent⟩ := job_completed hn hrun hdone
  rw [eventKeys_append, eventKeys_unsentEvents]
  obtain ⟨hnodup, hmem⟩ :=
    streamed_append_unsent (by omega) htracks hstreams hres
  have hperm := hsent.append_right (keys res)
  refine ⟨hperm.nodup_iff.mpr hnodup, fun k => ?_⟩
  rw [hperm.mem_iff, hmem, added_history_iff horder]

end Completed

/-- **Merging is exact and exactly-once.** For any calls of `AddMatches`
with sources below `n`, none panics; each returns, once each, the keys that
are complete after it and were not before it; together the calls return
the keys that all sources have added, each once; and with the keys of
`UnsentTracked` these are the keys ever added, each once. Hence, when no
call of a child's stream can act any more, all have returned, an and job
has streamed the intersection and an or job the union of the results of
its children, each key once. -/
theorem merging_exact (L : BitSetLib) (n : ℕ) (hn : 2 ≤ n) :
    (∀ calls : List (List Match × ℕ), (∀ c ∈ calls, c.2 < n) →
      ∃ lm outs, (newMerger L n).addAll calls = some (lm, outs)
        ∧ outs.length = calls.length
        ∧ (∀ j out, outs[j]? = some out → (Merger.keys out).Nodup
          ∧ ∀ k, k ∈ Merger.keys out
            ↔ AddedByAll n (Merger.history (calls.take (j + 1))) k
              ∧ ¬ AddedByAll n (Merger.history (calls.take j)) k)
        ∧ (Merger.keys outs.flatten).Nodup
        ∧ (∀ k, k ∈ Merger.keys outs.flatten ↔ AddedByAll n (Merger.history calls) k)
        ∧ ∀ res, lm.UnsentTracked res → (Merger.keys (outs.flatten ++ res)).Nodup
          ∧ ∀ k, k ∈ Merger.keys (outs.flatten ++ res) ↔ Added (Merger.history calls) k)
    ∧ ∀ children : List (List SearchEvent), children.length = n →
      ∀ (s : JobState L) (ps : List ChildSend),
      Interleaving.Reaches childAct (initialState L children, initialSends children) (s, ps) →
      Interleaving.Terminal childAct (s, ps) →
      (∀ p ∈ ps, p = .done)
        ∧ ((eventKeys s.downstream).Nodup
          ∧ ∀ k, k ∈ eventKeys s.downstream ↔ ∀ events ∈ children, k ∈ eventKeys events)
        ∧ ∀ res, s.merger.UnsentTracked res →
          (eventKeys (s.downstream ++ unsentEvents res)).Nodup
          ∧ ∀ k, k ∈ eventKeys (s.downstream ++ unsentEvents res)
            ↔ ∃ events ∈ children, k ∈ eventKeys events := by
  refine ⟨fun calls hcalls => ?_, ?_⟩
  · obtain ⟨lm, outs, hrun, htracks, hstreams, hlen, heach⟩ :=
      addAll_spec hn (newMerger_tracks n) calls hcalls
    refine ⟨lm, outs, hrun, hlen, ?_, hstreams.nodup, fun k => ?_, fun res hres => ?_⟩
    · exact fun j out hout => ⟨(heach j out hout).nodup, (heach j out hout).mem_iff⟩
    · rw [hstreams.mem_iff, Completed, and_iff_left]
      · rfl
      · exact fun hnil => absurd (hnil 0 (by omega)) not_mem_nil
    · rw [Merger.keys, map_append]
      exact streamed_append_unsent (by omega) htracks hstreams hres
  · rintro children rfl s ps hrun hdone
    exact ⟨(job_completed hn hrun hdone).1, andJob_keys hn hrun hdone,
      fun res hres => orJob_keys hn hrun hdone hres⟩

/-- Two children that find the same repository: the second call of the
merger returns it, and the and job sends it. -/
theorem merging_exact_two_sources :
    (∃ lm outs, (newMerger .listOfBits 2).addAll
        [(repoEvent.results, 0), (repoEvent.results, 1)] = some (lm, outs)
      ∧ (Merger.keys outs.flatten).Nodup)
    ∧ ∃ (s : JobState .listOfBits) (ps : List ChildSend),
      Interleaving.Reaches childAct (initialState .listOfBits [[repoEvent], [repoEvent]],
        initialSends [[repoEvent], [repoEvent]]) (s, ps)
      ∧ (Match.repo ⟨lit "r", [], [], []⟩).key ∈ eventKeys s.downstream := by
  obtain ⟨hmerger, hjob⟩ := merging_exact .listOfBits 2 le_rfl
  constructor
  · obtain ⟨lm, outs, hrun, -, -, hnodup, -⟩ :=
      hmerger [(repoEvent.results, 0), (repoEvent.results, 1)] (by decide)
    exact ⟨lm, outs, hrun, hnodup⟩
  · obtain ⟨⟨s, ps⟩, hreach, hterm⟩ := Interleaving.exists_terminal childAct childAct_weight
      (initialState .listOfBits [[repoEvent], [repoEvent]], initialSends [[repoEvent], [repoEvent]])
    obtain ⟨-, ⟨-, hmem⟩, -⟩ := hjob [[repoEvent], [repoEvent]] rfl s ps hreach hterm
    exact ⟨s, ps, hreach, (hmem _).mpr (by decide)⟩

end Jobutil
