import Mathlib
import CodeScout.Util.GoFloat
import CodeScout.Util.GoHeap
import CodeScout.Util.GoMap
import CodeScout.Util.GoString
import CodeScout.Util.Machine

/-!
# Merging the streams of replicas

`StreamSearch` of the `HorizontalSearcher` merges the events of several endpoints.
During rebalancing a repository can be on more than one of them: `Dedup` drops the
files of a repository that was first seen on another endpoint. What remains waits in a
queue by priority, and statistics are added up until the next event is sent.

Whatever the order in which the events of the endpoints arrive, when the queue is
flushed and in which order its events are sent, the files that have been sent for a
repository and those that wait are the files that its first endpoint has sent, and the
statistics that have been sent and those that wait add up to those received
(`Delivered`).
-/

namespace Backend

open List

/-! ## Results -/

/-- `zoekt.FileMatch`: its repository, and what else it has. -/
structure FileMatch (α : Type) where
  repository : GoString
  rest : α
deriving DecidableEq

/-- `zoekt.SearchResult`. -/
structure SearchResult (α Stats : Type) where
  files : List (FileMatch α)
  stats : Stats
  priority : GoFloat.Value
  maxPendingPriority : GoFloat.Value
deriving DecidableEq

variable {α Stats : Type}

/-! ## Repositories on several endpoints -/

/-- The variables of the first loop of `Dedup`. -/
structure DedupState (α : Type) where
  lastRepo : GoString := []
  lastSeen : Bool := false
  dedup : List (FileMatch α) := []

/-- An iteration of the first loop of `Dedup`. -/
def dedupFile (repoEndpoint : GoMap GoString GoString) (endpoint : GoString) (st : DedupState α)
    (fm : FileMatch α) : DedupState α :=
  if st.lastRepo = fm.repository then
    if st.lastSeen then st
    else ⟨fm.repository, false, st.dedup ++ [fm]⟩
  else match repoEndpoint.lookup fm.repository with
    | none => ⟨fm.repository, false, st.dedup ++ [fm]⟩
    | some ep =>
      if ep ≠ endpoint then ⟨fm.repository, true, st.dedup⟩
      else ⟨fm.repository, false, st.dedup ++ [fm]⟩

/-- An iteration of the second loop of `Dedup`, with the variable `lastRepo`. -/
def recordRepo (endpoint : GoString) (st : GoString × GoMap GoString GoString)
    (fm : FileMatch α) : GoString × GoMap GoString GoString :=
  if st.1 ≠ fm.repository then (fm.repository, st.2.insert fm.repository endpoint) else st

/-- `Dedup`, with the map after the call. -/
def dedup (repoEndpoint : GoMap GoString GoString) (endpoint : GoString)
    (fms : List (FileMatch α)) : List (FileMatch α) × GoMap GoString GoString :=
  if fms.length = 0 then (fms, repoEndpoint)
  else
    let kept := (fms.foldl (dedupFile repoEndpoint endpoint) {}).dedup
    (kept, (kept.foldl (recordRepo endpoint) ([], repoEndpoint)).2)

/-! ## The queue -/

/-- `queueSearchResult`. -/
structure QueueSearchResult (α Stats : Type) where
  result : SearchResult α Stats
  sizeBytes : UInt64

/-- `priorityQueue`, with the highest priority at the root. -/
def priorityQueue : Heap.Interface (List (QueueSearchResult α Stats))
    (QueueSearchResult α Stats) (QueueSearchResult α Stats) :=
  Heap.slice fun a b => b.result.priority.lt a.result.priority

/-- `resultQueue`. -/
structure ResultQueue (α Stats : Type) where
  maxQueueDepth : ℤ
  maxMatchCount : ℤ
  maxSizeBytes : ℤ
  matchCount : ℤ
  sizeBytes : UInt64
  queue : List (QueueSearchResult α Stats)
  endpointMaxPendingPriority : GoMap GoString GoFloat.Value
  stats : Stats

/-- What the queue uses of the search engine: the fields of its statistics that it
reads, the size of a result, and the statistics of a crash. -/
structure Engine (α Stats : Type) where
  isZero : Stats → Bool
  matchCount : Stats → ℤ
  sizeBytes : SearchResult α Stats → UInt64
  crash : Stats

section Queue

variable [AddMonoid Stats] (engine : Engine α Stats)

/-- `newResultQueue`. -/
def newResultQueue (maxQueueDepth maxMatchCount maxSizeBytes : ℤ) (endpoints : List GoString) :
    ResultQueue α Stats where
  maxQueueDepth := maxQueueDepth
  maxMatchCount := maxMatchCount
  maxSizeBytes := maxSizeBytes
  matchCount := 0
  sizeBytes := 0
  queue := []
  endpointMaxPendingPriority := endpoints.foldl (fun m e => m.insert e (.inf false)) ∅
  stats := 0

namespace ResultQueue

/-- `Enqueue`. -/
def enqueue (q : ResultQueue α Stats) (endpoint : GoString) (sr : SearchResult α Stats) :
    ResultQueue α Stats :=
  let sb := engine.sizeBytes sr
  { q with
    stats := q.stats + sr.stats
    matchCount := q.matchCount + engine.matchCount sr.stats
    sizeBytes := q.sizeBytes + sb
    endpointMaxPendingPriority :=
      q.endpointMaxPendingPriority.insert endpoint sr.maxPendingPriority
    queue := if sr.files.length ≠ 0 then priorityQueue.heapPush q.queue ⟨sr, sb⟩ else q.queue }

/-- `Done`. -/
def done (q : ResultQueue α Stats) (endpoint : GoString) : ResultQueue α Stats :=
  { q with endpointMaxPendingPriority := q.endpointMaxPendingPriority.erase endpoint }

/-- `pop`. `none` is a panic. -/
def pop (q : ResultQueue α Stats) : Option (SearchResult α Stats × ResultQueue α Stats) := do
  let (sr, queue) ← priorityQueue.heapPop q.queue
  return ({ sr.result with stats := q.stats },
    { q with
      queue
      matchCount := q.matchCount - engine.matchCount sr.result.stats
      sizeBytes := q.sizeBytes - sr.sizeBytes
      stats := 0 })

/-- `hasResultsToSend`. -/
def hasResultsToSend (q : ResultQueue α Stats) (maxPending : GoFloat.Value) : Bool :=
  if q.queue.length = 0 then false
  else if 0 ≤ q.maxQueueDepth ∧ q.maxQueueDepth < q.queue.length then true
  else if 0 ≤ q.maxMatchCount ∧ q.maxMatchCount < q.matchCount then true
  else if 0 ≤ q.maxSizeBytes ∧ q.maxSizeBytes < q.sizeBytes.toNat then true
  else q.queue.head?.any fun top =>
    maxPending.lt top.result.priority || (maxPending == top.result.priority && maxPending != .nan)

/-- The highest priority that an endpoint may still send. -/
def maxPending (order : RangeOrder) (q : ResultQueue α Stats) : GoFloat.Value :=
  (order.range [] q.endpointMaxPendingPriority.toPairs).foldl
    (fun highest pri => if highest.lt pri.2 then pri.2 else highest) (.inf true)

/-- The loop that sends events while a condition holds. It ends when the queue is
empty, at the latest. -/
def flush (cond : ResultQueue α Stats → Bool) :
    ℕ → ResultQueue α Stats → List (SearchResult α Stats) →
      Option (ResultQueue α Stats × List (SearchResult α Stats))
  | 0, q, sent => some (q, sent)
  | bound + 1, q, sent =>
    if cond q then do
      let (sr, q) ← q.pop engine
      flush cond bound q (sent ++ [sr])
    else some (q, sent)

/-- `FlushReady`, with the events that were sent before. -/
def flushReady (order : RangeOrder) (q : ResultQueue α Stats)
    (sent : List (SearchResult α Stats)) :=
  q.flush engine (fun q' => q'.hasResultsToSend (q.maxPending order)) q.queue.length sent

/-- `FlushAll`. -/
def flushAll (q : ResultQueue α Stats) (sent : List (SearchResult α Stats)) :
    Option (ResultQueue α Stats × List (SearchResult α Stats)) := do
  let (q, sent) ← q.flush engine (fun q' => 0 < q'.queue.length) q.queue.length sent
  if engine.isZero q.stats then return (q, sent)
  else return ({ q with stats := 0 }, sent ++ [⟨[], q.stats, .finite 0, .finite 0⟩])

end ResultQueue

/-! ## The stream -/

/-- The state that the endpoints share, under a lock, and what was sent. -/
structure Stream (α Stats : Type) where
  rq : ResultQueue α Stats
  dedupper : GoMap GoString GoString := ∅
  sent : List (SearchResult α Stats) := []

/-- What happens while the lock is held. -/
inductive Event (α Stats : Type) where
  /-- An endpoint sends a result, or nil. -/
  | receive (order : RangeOrder) (endpoint : GoString) (sr : Option (SearchResult α Stats))
  /-- An endpoint is done, or cannot be reached during a rollout. -/
  | done (endpoint : GoString) (isRolloutError : Bool)
  /-- The time for reordering is over. -/
  | reorderTimeout

/-- `crashEvent`. -/
def crashEvent : SearchResult α Stats := ⟨[], engine.crash, .finite 0, .finite 0⟩

/-- The sections of `StreamSearch` that hold the lock. -/
def Stream.step (s : Stream α Stats) : Event α Stats → Option (Stream α Stats)
  | .receive _ _ none => some s
  | .receive order endpoint (some sr) => do
    let (files, dedupper) := dedup s.dedupper endpoint sr.files
    let (rq, sent) ← (s.rq.enqueue engine endpoint { sr with files }).flushReady engine order s.sent
    return { rq, dedupper, sent }
  | .done endpoint isRolloutError =>
    let rq := if isRolloutError then s.rq.enqueue engine endpoint (crashEvent engine) else s.rq
    some { s with rq := rq.done endpoint }
  | .reorderTimeout => do
    let (rq, sent) ← s.rq.flushAll engine s.sent
    return { s with rq, sent }

/-- **`StreamSearch`** on the events of its endpoints, in the order in which they get
the lock: what it has sent when it returns without an error. -/
def streamSearch (rq : ResultQueue α Stats) (events : List (Event α Stats)) :
    Option (List (SearchResult α Stats)) := do
  let s ← Machine.run (Stream.step engine) { rq } events
  let (_, sent) ← s.rq.flushAll engine s.sent
  return sent

end Queue

/-! ## What is kept of an event -/

section Dedup

variable (repoEndpoint : GoMap GoString GoString) (endpoint : GoString)

/-- The repository was seen on another endpoint. -/
def seenElsewhere (repository : GoString) : Bool :=
  (repoEndpoint.lookup repository).any (· != endpoint)

variable {repoEndpoint endpoint}

/-- An iteration, when the last repository was looked up or there was none. -/
theorem dedupFile_eq (st : DedupState α) (fm : FileMatch α) (hfm : fm.repository ≠ [])
    (hst : st.lastRepo ≠ [] →
      st.lastSeen = seenElsewhere repoEndpoint endpoint st.lastRepo) :
    dedupFile repoEndpoint endpoint st fm
      = ⟨fm.repository, seenElsewhere repoEndpoint endpoint fm.repository,
          if seenElsewhere repoEndpoint endpoint fm.repository then st.dedup
          else st.dedup ++ [fm]⟩ := by
  unfold dedupFile
  by_cases hlast : st.lastRepo = fm.repository
  · have hseen := hst (hlast ▸ hfm)
    rw [hlast] at hseen
    rw [if_pos hlast, ← hseen]
    cases hs : st.lastSeen with
    | true =>
      rw [if_pos rfl, if_pos rfl, ← hlast, ← hs]
    | false => rfl
  · rw [if_neg hlast]
    cases hlookup : repoEndpoint.lookup fm.repository with
    | none => simp [seenElsewhere, hlookup]
    | some ep =>
      by_cases hep : ep = endpoint
      · simp [seenElsewhere, hlookup, hep]
      · simp [seenElsewhere, hlookup, hep]

theorem foldl_dedupFile (fms : List (FileMatch α)) (hfms : ∀ fm ∈ fms, fm.repository ≠ []) :
    ∀ st : DedupState α, (st.lastRepo ≠ [] →
        st.lastSeen = seenElsewhere repoEndpoint endpoint st.lastRepo) →
      (fms.foldl (dedupFile repoEndpoint endpoint) st).dedup
        = st.dedup ++ fms.filter fun fm =>
          !seenElsewhere repoEndpoint endpoint fm.repository := by
  induction fms with
  | nil => simp
  | cons fm fms ih =>
    intro st hst
    obtain ⟨hfm, hrest⟩ := forall_mem_cons.mp hfms
    rw [foldl_cons, dedupFile_eq st fm hfm hst, ih hrest _ fun _ => rfl, filter_cons]
    cases seenElsewhere repoEndpoint endpoint fm.repository with
    | true => rfl
    | false => simp

theorem foldl_recordRepo (fms : List (FileMatch α)) (hfms : ∀ fm ∈ fms, fm.repository ≠ []) :
    ∀ st : GoString × GoMap GoString GoString,
      (st.1 ≠ [] → st.2.lookup st.1 = some endpoint) → ∀ repository,
      (fms.foldl (recordRepo endpoint) st).2.lookup repository
        = if ∃ fm ∈ fms, fm.repository = repository then some endpoint
          else st.2.lookup repository := by
  induction fms with
  | nil => simp
  | cons fm fms ih =>
    intro st hst repository
    obtain ⟨hfm, hrest⟩ := forall_mem_cons.mp hfms
    have hlookup : ∀ r, (recordRepo endpoint st fm).2.lookup r
        = if fm.repository = r then some endpoint else st.2.lookup r := fun r => by
      unfold recordRepo
      by_cases hlast : st.1 = fm.repository
      · rw [if_neg (not_not.mpr hlast)]
        split
        case isTrue heq => rw [← heq, ← hlast, hst (hlast ▸ hfm)]
        case isFalse => rfl
      · rw [if_pos hlast]
        split
        case isTrue heq => rw [← heq, AList.lookup_insert]
        case isFalse hne => rw [AList.lookup_insert_ne (Ne.symm hne)]
    have hfst : (recordRepo endpoint st fm).1 = fm.repository := by
      unfold recordRepo
      split
      · rfl
      · rename_i hlast
        exact not_not.mp hlast
    rw [foldl_cons, ih hrest _ (fun _ => by rw [hfst, hlookup, if_pos rfl]), hlookup]
    by_cases heq : fm.repository = repository
    · simp [heq]
    · simp [heq]

/-- **What `Dedup` keeps**, and the endpoint of a repository afterwards. -/
theorem dedup_eq (repoEndpoint : GoMap GoString GoString) (endpoint : GoString)
    (fms : List (FileMatch α)) (hfms : ∀ fm ∈ fms, fm.repository ≠ []) :
    (dedup repoEndpoint endpoint fms).1
        = fms.filter (fun fm => !seenElsewhere repoEndpoint endpoint fm.repository)
      ∧ ∀ repository, (dedup repoEndpoint endpoint fms).2.lookup repository
        = if ∃ fm ∈ fms, fm.repository = repository then
            some ((repoEndpoint.lookup repository).getD endpoint)
          else repoEndpoint.lookup repository := by
  cases fms with
  | nil => simp [dedup]
  | cons fm fms =>
    have hkept : ((fm :: fms).foldl (dedupFile repoEndpoint endpoint) {}).dedup
        = (fm :: fms).filter fun fm => !seenElsewhere repoEndpoint endpoint fm.repository :=
      foldl_dedupFile (fm :: fms) hfms {} fun h => absurd rfl h
    have hdedup : dedup repoEndpoint endpoint (fm :: fms) = (_, _) := if_neg (Nat.succ_ne_zero _)
    rw [hdedup, hkept]
    refine ⟨rfl, fun repository => ?_⟩
    rw [foldl_recordRepo _ (fun fm hfm => hfms fm (mem_of_mem_filter hfm)) _ fun h => absurd rfl h]
    by_cases hmem : ∃ fm' ∈ fm :: fms, fm'.repository = repository
    · rw [if_pos hmem]
      obtain ⟨fm', hfm', rfl⟩ := hmem
      by_cases hseen : seenElsewhere repoEndpoint endpoint fm'.repository = true
      · rw [if_neg]
        · cases hlookup : repoEndpoint.lookup fm'.repository with
          | none => simp [seenElsewhere, hlookup] at hseen
          | some ep => rfl
        · rintro ⟨fm₁, hfm₁, heq⟩
          have hkeep := of_mem_filter hfm₁
          rw [heq, hseen] at hkeep
          cases hkeep
      · rw [if_pos ⟨fm', mem_filter.mpr ⟨hfm', by simpa using hseen⟩, rfl⟩]
        cases hlookup : repoEndpoint.lookup fm'.repository with
        | none => rfl
        | some ep =>
          have hep : ep = endpoint := by simpa [seenElsewhere, hlookup] using hseen
          rw [hep, Option.getD_some]
    · rw [if_neg hmem, if_neg fun ⟨fm', hfm', heq⟩ =>
        hmem ⟨fm', mem_of_mem_filter hfm', heq⟩]

end Dedup

/-! ## What was received -/

/-- The files of a repository. -/
def filesOf (repository : GoString) (files : List (FileMatch α)) : List (FileMatch α) :=
  files.filter fun fm => fm.repository = repository

/-- The first endpoint with an event that mentions a repository. -/
def owner (received : List (GoString × SearchResult α Stats)) (repository : GoString) :
    Option GoString :=
  (received.find? fun event => event.2.files.any fun fm => fm.repository = repository).map Prod.fst

/-- The files of a repository that an endpoint has sent. -/
def sentBy (received : List (GoString × SearchResult α Stats)) (repository endpoint : GoString) :
    List (FileMatch α) :=
  (received.filter fun event => event.1 = endpoint).flatMap fun event =>
    filesOf repository event.2.files

/-- The files of a repository that its first endpoint has sent. -/
def ownerFiles (received : List (GoString × SearchResult α Stats)) (repository : GoString) :
    List (FileMatch α) :=
  (owner received repository).elim [] (sentBy received repository)

theorem filesOf_dedup (repoEndpoint : GoMap GoString GoString) (endpoint : GoString)
    (fms : List (FileMatch α)) (hfms : ∀ fm ∈ fms, fm.repository ≠ []) (repository : GoString) :
    filesOf repository (dedup repoEndpoint endpoint fms).1
      = if (repoEndpoint.lookup repository).any (· != endpoint) then []
        else filesOf repository fms := by
  rw [(dedup_eq repoEndpoint endpoint fms hfms).1, filesOf, filter_filter]
  show _ = if seenElsewhere repoEndpoint endpoint repository = true then [] else _
  split
  case isTrue hseen =>
    refine filter_eq_nil_iff.mpr fun fm _ hkeep => ?_
    obtain ⟨heq, hunseen⟩ := Bool.and_eq_true_iff.mp hkeep
    rw [of_decide_eq_true heq, hseen] at hunseen
    cases hunseen
  case isFalse hseen =>
    refine filter_congr fun fm _ => ?_
    by_cases heq : fm.repository = repository
    · simp [heq, hseen]
    · simp [heq]

theorem filesOf_eq_nil {repository : GoString} {files : List (FileMatch α)}
    (h : ¬ ∃ fm ∈ files, fm.repository = repository) : filesOf repository files = [] :=
  filter_eq_nil_iff.mpr fun fm hfm heq => h ⟨fm, hfm, of_decide_eq_true heq⟩

section Append

variable (received : List (GoString × SearchResult α Stats))
  (event : GoString × SearchResult α Stats) (repository : GoString)

theorem sentBy_append (endpoint : GoString) :
    sentBy (received ++ [event]) repository endpoint = sentBy received repository endpoint
      ++ if event.1 = endpoint then filesOf repository event.2.files else [] := by
  rw [sentBy, filter_append, flatMap_append]
  refine congrArg _ ?_
  by_cases heq : event.1 = endpoint
  · simp [heq]
  · simp [heq]

theorem owner_append :
    owner (received ++ [event]) repository
      = if ∃ fm ∈ event.2.files, fm.repository = repository then
          some ((owner received repository).getD event.1)
        else owner received repository := by
  unfold owner
  rw [find?_append]
  cases hfind : received.find? fun event =>
      event.2.files.any fun fm => fm.repository = repository with
  | some first => simp
  | none =>
    by_cases hmem : ∃ fm ∈ event.2.files, fm.repository = repository
    · simp [hmem]
    · simp [hmem]

theorem ownerFiles_append :
    ownerFiles (received ++ [event]) repository = ownerFiles received repository
      ++ if (owner received repository).any (· != event.1) then []
        else filesOf repository event.2.files := by
  unfold ownerFiles
  rw [owner_append]
  cases howner : owner received repository with
  | some first =>
    have hsome : (if ∃ fm ∈ event.2.files, fm.repository = repository then
        some ((some first).getD event.1) else some first) = some first := ite_self _
    rw [hsome, Option.elim_some, Option.elim_some, sentBy_append]
    by_cases heq : event.1 = first
    · simp [heq]
    · simp [heq, Ne.symm heq]
  | none =>
    -- no earlier event mentions the repository
    have hearlier : ∀ endpoint, sentBy received repository endpoint = [] := fun endpoint => by
      refine flatMap_eq_nil_iff.mpr fun earlier hmem => filesOf_eq_nil ?_
      have hnone := find?_eq_none.mp (Option.map_eq_none_iff.mp howner) earlier
        (mem_of_mem_filter hmem)
      simpa using hnone
    by_cases hmem : ∃ fm ∈ event.2.files, fm.repository = repository
    · rw [if_pos hmem, Option.getD_none, Option.elim_some, sentBy_append, hearlier, if_pos rfl]
      rfl
    · rw [if_neg hmem, filesOf_eq_nil hmem]
      simp

end Append

section Deliver

variable [AddMonoid Stats]

/-- What was sent and what waits in the queue is what was received. -/
structure Delivered (received : List (GoString × SearchResult α Stats)) (rq : ResultQueue α Stats)
    (sent : List (SearchResult α Stats)) : Prop where
  files : ∀ repository ≠ [],
    (filesOf repository (sent.flatMap (·.files) ++ rq.queue.flatMap (·.result.files))).Perm
      (ownerFiles received repository)
  stats : (sent.map (·.stats)).sum + rq.stats = (received.map (·.2.stats)).sum

variable {engine : Engine α Stats} {received : List (GoString × SearchResult α Stats)}
  {rq rq' : ResultQueue α Stats} {sent : List (SearchResult α Stats)}

omit [AddMonoid Stats] in
theorem heapPop_perm {queue : List (QueueSearchResult α Stats)} (hne : queue ≠ []) :
    ∃ top rest, priorityQueue.heapPop queue = some (top, rest) ∧ queue.Perm (top :: rest) :=
  ⟨_, Heap.slice_heapPop_perm (getElem?_eq_getElem (length_pos_iff.mpr hne))⟩

/-- **Sending an event** does not change what was sent or waits. -/
theorem Delivered.pop (h : Delivered received rq sent) (hne : rq.queue ≠ []) :
    ∃ sr rq', rq.pop engine = some (sr, rq') ∧ Delivered received rq' (sent ++ [sr])
      ∧ rq'.queue.length + 1 = rq.queue.length := by
  obtain ⟨top, rest, hpop, hperm⟩ := heapPop_perm hne
  simp only [ResultQueue.pop, hpop, Option.bind_eq_bind, Option.bind_some]
  refine ⟨_, _, rfl, ⟨fun repository hr => ?_, ?_⟩, hperm.length_eq.symm⟩
  · refine List.Perm.trans (List.Perm.filter _ ?_) (h.files repository hr)
    have hfiles := hperm.flatMap_right fun qsr : QueueSearchResult α Stats => qsr.result.files
    rw [flatMap_cons] at hfiles
    rw [flatMap_append, append_assoc, flatMap_singleton]
    exact hfiles.symm.append_left _
  · rw [map_append, sum_append, add_zero]
    simpa using h.stats

/-- **The loops that send events** end when their condition does not hold, and
keep what sending one event keeps. -/
theorem flush_invariant (engine : Engine α Stats)
    {Inv : ResultQueue α Stats → List (SearchResult α Stats) → Prop}
    (hpop : ∀ {rq sent}, Inv rq sent → rq.queue ≠ [] → ∃ sr rq', rq.pop engine = some (sr, rq')
      ∧ Inv rq' (sent ++ [sr]) ∧ rq'.queue.length + 1 = rq.queue.length)
    (cond : ResultQueue α Stats → Bool) (hcond : ∀ rq, cond rq = true → rq.queue ≠ [])
    (bound : ℕ) : ∀ {rq sent}, Inv rq sent → rq.queue.length ≤ bound →
      ∃ rq' sent', rq.flush engine cond bound sent = some (rq', sent')
        ∧ Inv rq' sent' ∧ cond rq' = false := by
  induction bound with
  | zero =>
    intro rq sent h hbound
    refine ⟨rq, sent, rfl, h, Bool.eq_false_of_not_eq_true fun hc => hcond rq hc ?_⟩
    exact length_eq_zero_iff.mp (Nat.le_zero.mp hbound)
  | succ bound ih =>
    intro rq sent h hbound
    rw [ResultQueue.flush]
    by_cases hc : cond rq = true
    · obtain ⟨sr, rq₁, hstep, h₁, hlen⟩ := hpop h (hcond rq hc)
      obtain ⟨rq', sent', hflush, h', hc'⟩ := ih h₁ (by omega)
      refine ⟨rq', sent', ?_, h', hc'⟩
      rw [if_pos hc, hstep]
      exact hflush
    · exact ⟨rq, sent, if_neg hc, h, Bool.eq_false_of_not_eq_true hc⟩

omit [AddMonoid Stats] in
theorem queue_ne_nil_of_hasResultsToSend {maxPending : GoFloat.Value}
    (h : rq.hasResultsToSend maxPending = true) : rq.queue ≠ [] := fun hnil => by
  rw [ResultQueue.hasResultsToSend, hnil] at h
  exact Bool.false_ne_true h

theorem Delivered.flushReady (h : Delivered received rq sent) (order : RangeOrder) :
    ∃ rq' sent', rq.flushReady engine order sent = some (rq', sent')
      ∧ Delivered received rq' sent' := by
  obtain ⟨rq', sent', hflush, h', -⟩ := flush_invariant engine Delivered.pop
    (fun q' => q'.hasResultsToSend (rq.maxPending order))
    (fun _ => queue_ne_nil_of_hasResultsToSend) _ h le_rfl
  exact ⟨rq', sent', hflush, h'⟩

/-- **After `FlushAll` nothing waits.** -/
theorem Delivered.flushAll (hzero : ∀ stats, engine.isZero stats = true → stats = 0)
    (h : Delivered received rq sent) :
    ∃ rq' sent', rq.flushAll engine sent = some (rq', sent') ∧ Delivered received rq' sent'
      ∧ rq'.queue = [] ∧ rq'.stats = 0 := by
  obtain ⟨rq₁, sent₁, hflush, h₁, hc⟩ := flush_invariant engine Delivered.pop
    (fun q' => decide (0 < q'.queue.length))
    (fun rq hc => length_pos_iff.mp (of_decide_eq_true hc)) _ h le_rfl
  have hqueue : rq₁.queue = [] :=
    length_eq_zero_iff.mp (Nat.eq_zero_of_not_pos (of_decide_eq_false hc))
  rw [ResultQueue.flushAll, hflush]
  simp only [Option.bind_eq_bind, Option.bind_some]
  split
  case isTrue hz => exact ⟨rq₁, sent₁, rfl, h₁, hqueue, hzero _ hz⟩
  case isFalse =>
    refine ⟨_, _, rfl, ⟨fun repository hr => ?_, ?_⟩, hqueue, rfl⟩
    · simpa using h₁.files repository hr
    · simpa using h₁.stats

/-- A further event, of which the files of repositories seen elsewhere were dropped. -/
theorem Delivered.enqueue (engine : Engine α Stats) (h : Delivered received rq sent)
    (endpoint : GoString) (sr : SearchResult α Stats) (kept : List (FileMatch α))
    (hkept : ∀ repository ≠ [], filesOf repository kept
      = if (owner received repository).any (· != endpoint) then []
        else filesOf repository sr.files) :
    Delivered (received ++ [(endpoint, sr)])
      (rq.enqueue engine endpoint { sr with files := kept }) sent := by
  have hqueue : ((rq.enqueue engine endpoint { sr with files := kept }).queue.flatMap
      (·.result.files)).Perm (rq.queue.flatMap (·.result.files) ++ kept) := by
    unfold ResultQueue.enqueue
    dsimp only
    split
    · have hpush : (priorityQueue.heapPush rq.queue ⟨{ sr with files := kept },
          engine.sizeBytes { sr with files := kept }⟩).Perm _ := Heap.slice_heapPush_perm _ _
      have hfiles := hpush.flatMap_right fun qsr : QueueSearchResult α Stats => qsr.result.files
      exact hfiles.trans perm_append_comm
    · rename_i hempty
      rw [length_eq_zero_iff.mp (not_not.mp hempty), append_nil]
  constructor
  · intro repository hr
    rw [ownerFiles_append, ← hkept repository hr]
    refine List.Perm.trans ?_ ((h.files repository hr).append_right _)
    rw [filesOf, filesOf, filesOf, ← filter_append, append_assoc]
    exact (hqueue.append_left _).filter _
  · rw [map_append, sum_append, ← h.stats, add_assoc]
    simp [ResultQueue.enqueue]

theorem Delivered.done (h : Delivered received rq sent) (endpoint : GoString) :
    Delivered received (rq.done endpoint) sent :=
  ⟨h.files, h.stats⟩

/-! ## Runs -/

variable (engine) in
/-- The results that an event brings. -/
def Event.results : Event α Stats → List (GoString × SearchResult α Stats)
  | .receive _ endpoint sr => sr.toList.map (endpoint, ·)
  | .done endpoint isRolloutError => if isRolloutError then [(endpoint, crashEvent engine)] else []
  | .reorderTimeout => []

/-- The state of a stream in a run. -/
structure Stream.Sound (received : List (GoString × SearchResult α Stats)) (s : Stream α Stats) :
    Prop where
  delivered : Delivered received s.rq s.sent
  owner : ∀ repository ≠ [], s.dedupper.lookup repository = owner received repository

variable {s s' : Stream α Stats}

/-- **What an event keeps.** -/
theorem Stream.Sound.step (hzero : ∀ stats, engine.isZero stats = true → stats = 0)
    (h : s.Sound received) (event : Event α Stats)
    (hnames : ∀ result ∈ event.results engine, ∀ fm ∈ result.2.files, fm.repository ≠ []) :
    ∃ s', s.step engine event = some s' ∧ s'.Sound (received ++ event.results engine) := by
  cases event with
  | receive order endpoint sr =>
    cases sr with
    | none => exact ⟨s, rfl, by simpa [Event.results] using h⟩
    | some sr =>
      have hfms : ∀ fm ∈ sr.files, fm.repository ≠ [] :=
        hnames (endpoint, sr) mem_cons_self
      have hlookup := (dedup_eq s.dedupper endpoint sr.files hfms).2
      have henqueue := h.delivered.enqueue engine endpoint sr
        (dedup s.dedupper endpoint sr.files).1 fun repository hr => by
          rw [filesOf_dedup _ _ _ hfms, h.owner repository hr]
      obtain ⟨rq', sent', hflush, hdelivered⟩ := henqueue.flushReady order
      refine ⟨⟨rq', (dedup s.dedupper endpoint sr.files).2, sent'⟩, ?_, hdelivered,
        fun repository hr => ?_⟩
      · simp only [Stream.step, Option.bind_eq_bind]
        rw [hflush]
        rfl
      · rw [hlookup, h.owner repository hr]
        exact (owner_append received (endpoint, sr) repository).symm
  | done endpoint isRolloutError =>
    refine ⟨_, rfl, ?_⟩
    cases isRolloutError with
    | false =>
      simp only [Event.results, Bool.false_eq_true, if_false, append_nil]
      exact ⟨h.delivered.done endpoint, h.owner⟩
    | true =>
      have henqueue := h.delivered.enqueue engine endpoint (crashEvent engine) [] fun _ _ =>
        (ite_self _).symm
      refine ⟨henqueue.done endpoint, fun repository hr => ?_⟩
      rw [h.owner repository hr]
      -- a crash brings no files
      refine ((owner_append received (endpoint, crashEvent engine) repository).trans
        (if_neg ?_)).symm
      exact fun ⟨fm, hfm, _⟩ => not_mem_nil hfm
  | reorderTimeout =>
    obtain ⟨rq', sent', hflush, hdelivered, -⟩ := h.delivered.flushAll hzero
    refine ⟨{ s with rq := rq', sent := sent' }, ?_, ?_⟩
    · simp only [Stream.step, hflush]
      rfl
    · simpa [Event.results] using ⟨hdelivered, h.owner⟩

theorem Stream.Sound.run (hzero : ∀ stats, engine.isZero stats = true → stats = 0)
    (events : List (Event α Stats))
    (hnames : ∀ result ∈ events.flatMap (Event.results engine), ∀ fm ∈ result.2.files,
      fm.repository ≠ []) :
    ∀ {s received}, s.Sound received → ∃ s', Machine.run (Stream.step engine) s events = some s'
      ∧ s'.Sound (received ++ events.flatMap (Event.results engine)) := by
  induction events with
  | nil =>
    intro s received h
    exact ⟨s, rfl, by rw [flatMap_nil, append_nil]; exact h⟩
  | cons event events ih =>
    intro s received h
    rw [flatMap_cons] at hnames
    obtain ⟨hevent, hevents⟩ := forall_mem_append.mp hnames
    obtain ⟨s₁, hstep, h₁⟩ := h.step hzero event hevent
    obtain ⟨s', hrun, h'⟩ := ih hevents h₁
    refine ⟨s', Machine.run_cons.mpr ⟨s₁, hstep, hrun⟩, ?_⟩
    rw [flatMap_cons, ← append_assoc]
    exact h'

theorem sound_newResultQueue (maxQueueDepth maxMatchCount maxSizeBytes : ℤ)
    (endpoints : List GoString) :
    ({ rq := newResultQueue maxQueueDepth maxMatchCount maxSizeBytes endpoints }
      : Stream α Stats).Sound [] where
  delivered := ⟨fun _ _ => .refl _, zero_add 0⟩
  owner _ _ := rfl

/-- **Replicas are de-duplicated without loss.** In every order of the events of any
endpoints, the files that are sent for a repository are those that its first endpoint
has sent, each once, and the statistics that are sent add up to those received. -/
theorem streamSearch_delivers (engine : Engine α Stats)
    (hzero : ∀ stats, engine.isZero stats = true → stats = 0)
    (maxQueueDepth maxMatchCount maxSizeBytes : ℤ) (endpoints : List GoString)
    (events : List (Event α Stats))
    (hnames : ∀ result ∈ events.flatMap (Event.results engine), ∀ fm ∈ result.2.files,
      fm.repository ≠ []) :
    ∃ sent, streamSearch engine
        (newResultQueue maxQueueDepth maxMatchCount maxSizeBytes endpoints) events = some sent
      ∧ (∀ repository ≠ [], (filesOf repository (sent.flatMap (·.files))).Perm
        (ownerFiles (events.flatMap (Event.results engine)) repository))
      ∧ (sent.map (·.stats)).sum
        = ((events.flatMap (Event.results engine)).map (·.2.stats)).sum := by
  obtain ⟨s, hrun, hsound⟩ := Stream.Sound.run hzero events hnames
    (sound_newResultQueue maxQueueDepth maxMatchCount maxSizeBytes endpoints)
  obtain ⟨rq, sent, hflush, hdelivered, hqueue, hstats⟩ := hsound.delivered.flushAll hzero
  rw [nil_append] at hdelivered
  refine ⟨sent, ?_, fun repository hr => ?_, ?_⟩
  · simp only [streamSearch, hrun, Option.bind_eq_bind, Option.bind_some, hflush]
    rfl
  · have hfiles := hdelivered.files repository hr
    rw [hqueue, flatMap_nil, append_nil] at hfiles
    exact hfiles
  · rw [← hdelivered.stats, hstats, add_zero]

end Deliver

/-- Statistics that count the files and the crashes. -/
def countingEngine : Engine GoString ℕ where
  isZero stats := stats == 0
  matchCount stats := stats
  sizeBytes sr := sr.files.length.toUInt64
  crash := 1

/-- Two endpoints have a repository, and one of them has another one. -/
def rebalancing : List (Event GoString ℕ) :=
  [.receive .byEntries (lit "zoekt-0")
      (some ⟨[⟨lit "repo", lit "a.go"⟩], 1, .finite 1, .finite 1⟩),
    .receive .byEntries (lit "zoekt-1")
      (some ⟨[⟨lit "repo", lit "a.go"⟩, ⟨lit "other", lit "b.go"⟩], 2, .finite 2, .finite 1⟩),
    .done (lit "zoekt-0") false, .done (lit "zoekt-1") false]

theorem streamSearch_rebalancing :
    ∃ sent, streamSearch countingEngine
        (newResultQueue 24 (-1) (-1) [lit "zoekt-0", lit "zoekt-1"]) rebalancing = some sent
      ∧ (∀ repository ≠ [], (filesOf repository (sent.flatMap (·.files))).Perm
        (ownerFiles (rebalancing.flatMap (Event.results countingEngine)) repository))
      ∧ (sent.map (·.stats)).sum
        = ((rebalancing.flatMap (Event.results countingEngine)).map (·.2.stats)).sum :=
  streamSearch_delivers countingEngine (fun _ h => eq_of_beq h) 24 (-1) (-1)
    [lit "zoekt-0", lit "zoekt-1"] rebalancing (by decide +kernel)

end Backend
