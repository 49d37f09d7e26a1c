import CodeScout.HorizontalSearcher
import Mathlib

/-!
# The accounts of the result queue

The queue counts the matches that it holds and adds up the sizes of its results,
to send results when a maximum is exceeded. Both numbers are increased when a
result is enqueued, and decreased when it is sent. A result without files is
never put into the heap, and is counted all the same: what it adds is never
taken off again. So the accounts are right as long as these results add nothing
(`accounts_exact_iff`).
-/

namespace Backend

open List

variable {α Stats : Type} [AddMonoid Stats]

/-- The calls that change a queue. -/
inductive Call (α Stats : Type) where
  | enqueue (endpoint : GoString) (sr : SearchResult α Stats)
  | done (endpoint : GoString)
  | flushReady (order : RangeOrder)
  | flushAll

section

variable (engine : Engine α Stats)

/-- The queue after a call. What is sent is left out. -/
def ResultQueue.call (q : ResultQueue α Stats) : Call α Stats → Option (ResultQueue α Stats)
  | .enqueue endpoint sr => some (q.enqueue engine endpoint sr)
  | .done endpoint => some (q.done endpoint)
  | .flushReady order => (q.flushReady engine order []).map Prod.fst
  | .flushAll => (q.flushAll engine []).map Prod.fst

/-- The matches of the results in a queue. -/
def heldMatches (q : ResultQueue α Stats) : ℤ :=
  (q.queue.map fun held => engine.matchCount held.result.stats).sum

/-- The sizes of the results in a queue. -/
def heldSizes (q : ResultQueue α Stats) : List UInt64 :=
  q.queue.map fun held => engine.sizeBytes held.result

/-- **The accounts are exact**: they are what the queue holds. -/
structure Exact (q : ResultQueue α Stats) : Prop where
  matchCount : q.matchCount = heldMatches engine q
  sizeBytes : q.sizeBytes = (heldSizes engine q).sum

/-- What the queue holds exceeds a maximum. -/
def Exceeds (q : ResultQueue α Stats) : Prop :=
  0 ≤ q.maxQueueDepth ∧ q.maxQueueDepth < q.queue.length ∨
    0 ≤ q.maxMatchCount ∧ q.maxMatchCount < heldMatches engine q ∨
    0 ≤ q.maxSizeBytes ∧ q.maxSizeBytes < ((heldSizes engine q).map UInt64.toNat).sum

/-- The result without files that a call enqueues. -/
def Call.emptied : Call α Stats → List (SearchResult α Stats)
  | .enqueue _ sr => if sr.files.length ≠ 0 then [] else [sr]
  | .done _ | .flushReady _ | .flushAll => []

/-- The results without files that some calls enqueue. -/
def emptied (calls : List (Call α Stats)) : List (SearchResult α Stats) :=
  calls.flatMap Call.emptied

/-! ## What the accounts have too much -/

/-- The accounts have some matches and bytes more than the queue holds. -/
structure Surplus (q : ResultQueue α Stats) (matchCount : ℤ) (sizeBytes : UInt64) : Prop where
  cached : ∀ held ∈ q.queue, held.sizeBytes = engine.sizeBytes held.result
  matchCount : q.matchCount = heldMatches engine q + matchCount
  sizeBytes : q.sizeBytes = (heldSizes engine q).sum + sizeBytes

end

variable {engine : Engine α Stats} {q : ResultQueue α Stats} {m : ℤ} {b : UInt64}

/-- Sending a result takes off what it added. -/
theorem Surplus.pop (h : Surplus engine q m b) (hne : q.queue ≠ []) :
    ∃ sr q', q.pop engine = some (sr, q') ∧ Surplus engine q' m b ∧
      q'.queue.length + 1 = q.queue.length := by
  obtain ⟨top, rest, hpop, hperm⟩ := heapPop_perm hne
  have hmatches : heldMatches engine q = engine.matchCount top.result.stats +
      (rest.map fun held => engine.matchCount held.result.stats).sum := by
    rw [heldMatches, (hperm.map _).sum_eq, map_cons, sum_cons]
  have hsizes : (heldSizes engine q).sum = engine.sizeBytes top.result +
      (rest.map fun held => engine.sizeBytes held.result).sum := by
    rw [heldSizes, (hperm.map _).sum_eq, map_cons, sum_cons]
  simp only [ResultQueue.pop, hpop, Option.bind_eq_bind, Option.bind_some]
  refine ⟨_, _, rfl, ⟨fun held hmem => ?_, ?_, ?_⟩, hperm.length_eq.symm⟩
  · exact h.cached held (hperm.mem_iff.mpr (mem_cons_of_mem top hmem))
  · show q.matchCount - engine.matchCount top.result.stats = _
    rw [h.matchCount, hmatches, add_assoc, add_sub_cancel_left]
    rfl
  · show q.sizeBytes - top.sizeBytes = _
    rw [h.sizeBytes, hsizes, h.cached top (hperm.mem_iff.mpr mem_cons_self), add_assoc,
      add_sub_cancel_left]
    rfl

/-- **What an enqueued result adds**: nothing, if it is put into the heap. -/
theorem Surplus.enqueue (h : Surplus engine q m b) (endpoint : GoString)
    (sr : SearchResult α Stats) :
    Surplus engine (q.enqueue engine endpoint sr)
      (m + ((Call.enqueue endpoint sr).emptied.map fun sr => engine.matchCount sr.stats).sum)
      (b + ((Call.enqueue endpoint sr).emptied.map engine.sizeBytes).sum) := by
  by_cases hfiles : sr.files.length ≠ 0
  · have hperm : (q.enqueue engine endpoint sr).queue.Perm
        (⟨sr, engine.sizeBytes sr⟩ :: q.queue) := by
      show (if _ then _ else _ : List _).Perm _
      rw [if_pos hfiles]
      exact Heap.slice_heapPush_perm _ _
    have hemptied : (Call.enqueue endpoint sr).emptied = [] := if_pos hfiles
    rw [hemptied, map_nil, sum_nil, add_zero, map_nil, sum_nil, add_zero]
    refine ⟨fun held hmem => ?_, ?_, ?_⟩
    · rcases mem_cons.mp (hperm.mem_iff.mp hmem) with rfl | hmem
      · rfl
      · exact h.cached held hmem
    · rw [heldMatches, (hperm.map _).sum_eq, map_cons, sum_cons, add_assoc, add_comm]
      exact congrArg (· + _) h.matchCount
    · rw [heldSizes, (hperm.map _).sum_eq, map_cons, sum_cons, add_assoc, add_comm]
      exact congrArg (· + _) h.sizeBytes
  · have hqueue : (q.enqueue engine endpoint sr).queue = q.queue := if_neg hfiles
    have hemptied : (Call.enqueue endpoint sr).emptied = [sr] := if_neg hfiles
    rw [hemptied, map_singleton, sum_singleton, map_singleton, sum_singleton]
    refine ⟨hqueue ▸ h.cached, ?_, ?_⟩
    · rw [heldMatches, hqueue, ← add_assoc]
      exact congrArg (· + _) h.matchCount
    · rw [heldSizes, hqueue, ← add_assoc]
      exact congrArg (· + _) h.sizeBytes

/-- **A call never panics**, and adds what it enqueues without files. -/
theorem Surplus.call (h : Surplus engine q m b) (call : Call α Stats) :
    ∃ q', q.call engine call = some q' ∧ Surplus engine q'
      (m + (call.emptied.map fun sr => engine.matchCount sr.stats).sum)
      (b + (call.emptied.map engine.sizeBytes).sum) := by
  cases call with
  | enqueue endpoint sr => exact ⟨_, rfl, h.enqueue endpoint sr⟩
  | done endpoint =>
    simp only [Call.emptied, map_nil, sum_nil, add_zero]
    exact ⟨_, rfl, h.cached, h.matchCount, h.sizeBytes⟩
  | flushReady order =>
    simp only [Call.emptied, map_nil, sum_nil, add_zero]
    obtain ⟨q', sent, hflush, h', -⟩ := flush_invariant engine
      (fun {q _} (h : Surplus engine q m b) hne => h.pop hne)
      (fun q' => q'.hasResultsToSend (q.maxPending order))
      (fun _ => queue_ne_nil_of_hasResultsToSend) _ h le_rfl
    exact ⟨q', by rw [ResultQueue.call, ResultQueue.flushReady, hflush]; rfl, h'⟩
  | flushAll =>
    simp only [Call.emptied, map_nil, sum_nil, add_zero]
    obtain ⟨q', sent, hflush, h', -⟩ := flush_invariant engine
      (fun {q _} (h : Surplus engine q m b) hne => h.pop hne)
      (fun q' => decide (0 < q'.queue.length))
      (fun _ hc => length_pos_iff.mp (of_decide_eq_true hc)) _ h le_rfl
    rw [ResultQueue.call, ResultQueue.flushAll, hflush]
    simp only [Option.bind_eq_bind, Option.bind_some]
    split_ifs
    · exact ⟨q', rfl, h'⟩
    · exact ⟨_, rfl, h'.cached, h'.matchCount, h'.sizeBytes⟩

/-- **The surplus after some calls.** -/
theorem Surplus.run (h : Surplus engine q m b) (calls : List (Call α Stats)) :
    ∃ q', Machine.run (ResultQueue.call engine) q calls = some q' ∧ Surplus engine q'
      (m + ((emptied calls).map fun sr => engine.matchCount sr.stats).sum)
      (b + ((emptied calls).map engine.sizeBytes).sum) := by
  induction calls generalizing q m b with
  | nil =>
    simp only [emptied, flatMap_nil, map_nil, sum_nil, add_zero]
    exact ⟨q, rfl, h⟩
  | cons call calls ih =>
    obtain ⟨q₁, hfirst, h₁⟩ := h.call call
    obtain ⟨q', hrest, h'⟩ := ih h₁
    refine ⟨q', Machine.run_cons.mpr ⟨q₁, hfirst, hrest⟩, ?_⟩
    rwa [emptied, flatMap_cons, ← emptied, map_append, sum_append,
      map_append, sum_append, ← add_assoc,
      ← add_assoc]

/-! ## Maxima -/

theorem toNat_sum_le (sizes : List UInt64) : sizes.sum.toNat ≤ (sizes.map UInt64.toNat).sum := by
  induction sizes with
  | nil => exact le_rfl
  | cons size sizes ih =>
    rw [sum_cons, map_cons, sum_cons, UInt64.toNat_add]
    exact (Nat.mod_le _ _).trans (Nat.add_le_add_left ih _)

omit [AddMonoid Stats] in
/-- Results are sent ahead of their turn only if a maximum is exceeded. -/
theorem Exact.exceeds (h : Exact engine q) {maxPending : GoFloat.Value}
    (hsend : q.hasResultsToSend maxPending = true) :
    Exceeds engine q ∨ (q.queue.head?.any fun top => maxPending.lt top.result.priority ||
      (maxPending == top.result.priority && maxPending != .nan)) = true := by
  unfold ResultQueue.hasResultsToSend at hsend
  split_ifs at hsend with hempty hdepth hmatches hsize
  · exact .inl (.inl hdepth)
  · rw [h.matchCount] at hmatches
    exact .inl (.inr (.inl hmatches))
  · rw [h.sizeBytes] at hsize
    refine .inl (.inr (.inr ⟨hsize.1, hsize.2.trans_le ?_⟩))
    exact Int.ofNat_le.mpr (toNat_sum_le _)
  · exact .inr hsend

/-- **The accounts of the queue.** No sequence of calls panics. Afterwards the
accounts are exact if and only if the results that were enqueued without files
add up to no matches and no bytes; and if they are exact, results are sent ahead
of their turn only if what the queue holds exceeds a maximum. -/
theorem accounts_exact_iff (engine : Engine α Stats) (maxQueueDepth maxMatchCount maxSizeBytes : ℤ)
    (endpoints : List GoString) (calls : List (Call α Stats)) :
    ∃ q, Machine.run (ResultQueue.call engine)
        (newResultQueue maxQueueDepth maxMatchCount maxSizeBytes endpoints) calls = some q ∧
      (Exact engine q ↔ ((emptied calls).map fun sr => engine.matchCount sr.stats).sum = 0 ∧
        ((emptied calls).map engine.sizeBytes).sum = 0) ∧
      (Exact engine q → ∀ maxPending, q.hasResultsToSend maxPending = true →
        Exceeds engine q ∨ (q.queue.head?.any fun top => maxPending.lt top.result.priority ||
          (maxPending == top.result.priority && maxPending != .nan)) = true) := by
  have hnew : Surplus engine (newResultQueue (α := α) maxQueueDepth maxMatchCount maxSizeBytes
      endpoints) 0 0 :=
    ⟨fun _ hmem => absurd hmem not_mem_nil, rfl, rfl⟩
  obtain ⟨q, hrun, hsurplus⟩ := hnew.run calls
  rw [zero_add, zero_add] at hsurplus
  refine ⟨q, hrun, ?_, fun h _ => h.exceeds⟩
  constructor
  · intro h
    exact ⟨left_eq_add.mp (h.matchCount.symm.trans hsurplus.matchCount),
      left_eq_add.mp (h.sizeBytes.symm.trans hsurplus.sizeBytes)⟩
  · rintro ⟨hmatches, hsizes⟩
    exact ⟨by rw [hsurplus.matchCount, hmatches, add_zero],
      by rw [hsurplus.sizeBytes, hsizes, add_zero]⟩

/-- **A duplicate is counted and never taken off**: another endpoint has sent the
repository before, so that no file is left. -/
theorem accounts_duplicate :
    ∃ q, Machine.run (ResultQueue.call countingEngine)
        (newResultQueue 24 0 (-1) [lit "zoekt-0", lit "zoekt-1"])
        [.enqueue (lit "zoekt-1") ⟨(dedup (AList.singleton (lit "repo") (lit "zoekt-0"))
          (lit "zoekt-1") [⟨lit "repo", lit "a.go"⟩]).1, 1, .finite 1, .finite 1⟩] = some q ∧
      q.queue.length = 0 ∧ q.matchCount = 1 :=
  ⟨_, rfl, rfl, rfl⟩

end Backend
