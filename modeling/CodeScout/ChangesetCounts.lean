import CodeScout.ChangesetHistory
import CodeScout.Util.Outcome
import Mathlib

/-!
# Counts of changesets over time

`CalcCounts` looks at the history of each changeset at a number of instants
and counts in which states the changesets are. The counts add up because each
state of a history is counted in one place: `computeHistory` never leaves a
changeset in a state that the counts do not know.

The instants are found by walking back from the end, in steps of one of 150
parts of the time between start and end. The division is one of integers, in
nanoseconds: if start and end are less than 150 nanoseconds apart – if they
are the same, for example – the step is zero and the walk does not end
(`counts_iff`).
-/

namespace Changesets

open List

/-! ## Instants -/

def timestampCount : ℤ := 150

/-- `Sub`, which saturates. -/
def Time.sub (t u : Time) : ℤ := max (-9223372036854775808) (min 9223372036854775807 (t - u))

/-- The loop of `GenerateTimestamps`, from newest to oldest. -/
def walkBackwards (start timeStep : ℤ) : ℕ → Time → Outcome GoString (List Time)
  | 0, _ => .outOfFuel
  | fuel + 1, t =>
    if t < start then .ok []
    else do
      let ts ← walkBackwards start timeStep fuel (t - timeStep)
      .ok (t :: ts)

/-- The timestamps from the first to the last. -/
def generateTimestamps (fuel : ℕ) (start stop : Time) : Outcome GoString (List Time) := do
  let ts ← walkBackwards start ((stop.sub start).tdiv timestampCount) fuel stop
  .ok ts.reverse

/-! ## Counts -/

/-- The numbers of changesets in each state at a time. -/
structure ChangesetCounts where
  time : Time
  total : BitVec 32 := 0
  merged : BitVec 32 := 0
  closed : BitVec 32 := 0
  draft : BitVec 32 := 0
  opened : BitVec 32 := 0
  openApproved : BitVec 32 := 0
  openChangesRequested : BitVec 32 := 0
  openPending : BitVec 32 := 0
  deriving DecidableEq

/-- `StatesAtTime`. -/
def statesAtTime (hist : List ChangesetStatesAtTime) (t : Time) : Option ChangesetStatesAtTime :=
  (hist.takeWhile fun s => !(decide (t < s.t))).getLast?

namespace ChangesetCounts

/-- An open changeset, by the state of its reviews. -/
def addReview (c : ChangesetCounts) : ChangesetReviewState → ChangesetCounts
  | .pending => { c with openPending := c.openPending + 1 }
  | .approved => { c with openApproved := c.openApproved + 1 }
  | .changesRequested => { c with openChangesRequested := c.openChangesRequested + 1 }
  | .commented | .dismissed => c

/-- One more changeset. -/
def add (c : ChangesetCounts) (states : ChangesetStatesAtTime) : ChangesetCounts :=
  let c := { c with total := c.total + 1 }
  match states.externalState with
  | .draft => { c with draft := c.draft + 1 }
  | .opened => addReview { c with opened := c.opened + 1 } states.reviewState
  | .merged => { c with merged := c.merged + 1 }
  | .closed | .readOnly => { c with closed := c.closed + 1 }
  | .deleted => c

/-- One changeset. -/
def addHistory (hist : List ChangesetStatesAtTime) (c : ChangesetCounts) : ChangesetCounts :=
  match statesAtTime hist c.time with
  | none => c
  | some states => c.add states

end ChangesetCounts

/-- `CalcCounts`, for pointers to changesets in memory. -/
def calcCounts (fuel : ℕ) (order : RangeOrder) (memory : ℕ → Changeset) (start stop : Time)
    (cs : List ℕ) (es : List ChangesetEvent) : Outcome GoString (List ChangesetCounts) := do
  let ts ← generateTimestamps fuel start stop
  let byChangesetID : GoMap ℤ (List ChangesetEvent) :=
    es.foldl (fun m e => m.appendTo e.changesetID e) ∅
  let byChangeset : GoMap ℕ (List ChangesetEvent) :=
    cs.foldl (fun m c => m.insert c ((byChangesetID.lookup (memory c).id).getD [])) ∅
  (order.range [0] byChangeset.toPairs).foldlM
    (fun counts changeset => do
      let hist ← Outcome.ofExcept (computeHistory (memory changeset.1) changeset.2)
      .ok (counts.map (ChangesetCounts.addHistory hist)))
    (ts.map fun t => { time := t })

/-! ## Walking back -/

section

variable {start timeStep : ℤ}

theorem walkBackwards_of_pos (hpos : 0 < timeStep) (fuel : ℕ) {t : Time}
    (hfuel : t < start + fuel * timeStep) :
    ∃ ts, walkBackwards start timeStep (fuel + 1) t = .ok ts ∧ ts.Pairwise (· > ·) ∧
      (∀ t' ∈ ts, start ≤ t' ∧ t' ≤ t) ∧ (start ≤ t → ts.head? = some t) := by
  induction fuel generalizing t with
  | zero =>
    have hlt : t < start := by simpa using hfuel
    refine ⟨[], if_pos hlt, .nil, fun _ h => absurd h not_mem_nil, fun hle => ?_⟩
    exact absurd hlt (not_lt.mpr hle)
  | succ fuel ih =>
    by_cases hlt : t < start
    · refine ⟨[], if_pos hlt, .nil, fun _ h => absurd h not_mem_nil, fun hle => ?_⟩
      exact absurd hlt (not_lt.mpr hle)
    · have hback : t - timeStep < start + fuel * timeStep := by
        push_cast at hfuel
        linarith
      obtain ⟨ts, hts, hpairwise, hbounds, -⟩ := ih hback
      refine ⟨t :: ts, ?_, ?_, ?_, fun _ => rfl⟩
      · rw [walkBackwards, if_neg hlt, hts]
        rfl
      · exact pairwise_cons.mpr
          ⟨fun t' ht' => (hbounds t' ht').2.trans_lt (sub_lt_self t hpos), hpairwise⟩
      · refine forall_mem_cons.mpr ⟨⟨not_lt.mp hlt, le_rfl⟩, fun t' ht' => ?_⟩
        exact ⟨(hbounds t' ht').1, (hbounds t' ht').2.trans (sub_le_self t hpos.le)⟩

/-- **Steps of zero do not end the walk.** -/
theorem walkBackwards_zero (fuel : ℕ) {t : Time} (h : start ≤ t) :
    walkBackwards start 0 fuel t = .outOfFuel := by
  induction fuel with
  | zero => rfl
  | succ fuel ih =>
    rw [walkBackwards, if_neg (not_lt.mpr h), sub_zero, ih]
    rfl

end

section

variable {start stop : Time} (h : start ≤ stop)

include h

theorem timeStep_eq : (stop.sub start).tdiv timestampCount =
    min 9223372036854775807 (stop - start) / 150 := by
  have hsub : stop.sub start = min 9223372036854775807 (stop - start) :=
    max_eq_right (le_min (by decide) (by linarith))
  rw [hsub, timestampCount, Int.tdiv_eq_ediv_of_nonneg (le_min (by decide) (by linarith))]

theorem timeStep_pos_iff :
    0 < (stop.sub start).tdiv timestampCount ↔ timestampCount ≤ stop - start := by
  rw [timeStep_eq h, timestampCount, ← Int.add_one_le_iff,
    Int.le_ediv_iff_mul_le (by decide), le_min_iff]
  exact and_iff_right (by decide)

end

/-- **The timestamps** end with the last instant if the step is not zero. -/
theorem exists_generateTimestamps {start stop : Time} (h : start ≤ stop)
    (hfar : timestampCount ≤ stop - start) :
    ∃ ts, Outcome.Yields (fun fuel => generateTimestamps fuel start stop) ts ∧
      ts.Pairwise (· < ·) ∧ (∀ t ∈ ts, start ≤ t ∧ t ≤ stop) ∧ ts.getLast? = some stop := by
  have hpos := (timeStep_pos_iff h).mpr hfar
  obtain ⟨fuel, hfuel⟩ : ∃ fuel : ℕ,
      stop < start + fuel * (stop.sub start).tdiv timestampCount := by
    refine ⟨(stop - start).toNat + 1, ?_⟩
    have hone : (1 : ℤ) ≤ (stop.sub start).tdiv timestampCount := hpos
    have hmul : (((stop - start).toNat + 1 : ℕ) : ℤ) * 1 ≤
        ((stop - start).toNat + 1 : ℕ) * (stop.sub start).tdiv timestampCount :=
      mul_le_mul_of_nonneg_left hone (Int.natCast_nonneg _)
    push_cast at hmul ⊢
    rw [Int.toNat_of_nonneg (by linarith)] at hmul ⊢
    linarith
  obtain ⟨ts, hts, hpairwise, hbounds, hhead⟩ := walkBackwards_of_pos hpos fuel hfuel
  refine ⟨ts.reverse, ⟨fuel + 1, ?_⟩, pairwise_reverse.mpr hpairwise, ?_, ?_⟩
  · show generateTimestamps (fuel + 1) start stop = _
    rw [generateTimestamps, hts]
    rfl
  · exact fun t ht => hbounds t (mem_reverse.mp ht)
  · rw [getLast?_reverse]
    exact hhead h

theorem generateTimestamps_of_near {start stop : Time} (h : start ≤ stop)
    (hnear : ¬ timestampCount ≤ stop - start) (fuel : ℕ) :
    generateTimestamps fuel start stop = .outOfFuel := by
  have hzero : (stop.sub start).tdiv timestampCount = 0 := by
    refine le_antisymm (not_lt.mp (mt (timeStep_pos_iff h).mp hnear)) ?_
    rw [timeStep_eq h]
    exact Int.ediv_nonneg (le_min (by decide) (by linarith)) (by decide)
  rw [generateTimestamps, hzero, walkBackwards_zero fuel h]
  rfl

/-! ## States that are counted -/

/-- A state that the counts know. -/
def ChangesetStatesAtTime.Counted (s : ChangesetStatesAtTime) : Prop :=
  s.externalState ≠ .deleted ∧ s.reviewState ≠ .commented ∧ s.reviewState ≠ .dismissed

namespace History

/-- The present states and the recorded ones are counted. -/
structure Tidy (h : History) : Prop where
  current : ∀ t, ChangesetStatesAtTime.Counted ⟨t, h.currentExtState, h.currentReviewState⟩
  states : ∀ entry ∈ h.states, entry.Counted

variable {h : History}

theorem Tidy.pushStates (htidy : h.Tidy) (t : Time) : (h.pushStates t).Tidy := by
  refine ⟨htidy.current, fun entry hentry => ?_⟩
  rcases mem_append.mp hentry with hentry | hentry
  · exact htidy.states entry hentry
  · rw [mem_singleton.mp hentry]
    exact htidy.current t

theorem Tidy.moveTo (htidy : h.Tidy) {state : ChangesetExternalState} (t : Time)
    (hstate : state ≠ .deleted) : (h.moveTo state t).Tidy :=
  Tidy.pushStates (h := { h with currentExtState := state })
    ⟨fun t => ⟨hstate, (htidy.current t).2⟩, htidy.states⟩ t

theorem Tidy.setDraft (htidy : h.Tidy) (isDraft : Bool) :
    Tidy { h with isDraft := isDraft } :=
  ⟨htidy.current, htidy.states⟩

theorem reduceReviewStates_ne (reviews : GoMap GoString ChangesetReviewState) :
    reduceReviewStates reviews ≠ .commented ∧ reduceReviewStates reviews ≠ .dismissed := by
  unfold reduceReviewStates selectReviewState
  split_ifs <;> decide

theorem Tidy.setReviews (htidy : h.Tidy)
    (reviews : GoMap GoString ChangesetReviewState) (t : Time) : (h.setReviews reviews t).Tidy := by
  simp only [History.setReviews]
  split_ifs
  · refine Tidy.pushStates ⟨fun t => ⟨?_, ?_⟩, ?_⟩ t
    · exact (htidy.current t).1
    · exact reduceReviewStates_ne reviews
    · exact htidy.states
  · exact ⟨htidy.current, htidy.states⟩

theorem Tidy.review (htidy : h.Tidy) (e : ChangesetEvent)
    (s : ChangesetReviewState) : (h.review e s).Tidy := by
  unfold History.review
  split_ifs
  · exact htidy
  · exact htidy
  · exact htidy.setReviews _ _
  · exact htidy.setReviews _ _

theorem Tidy.withdraw (htidy : h.Tidy) (e : ChangesetEvent) :
    (h.withdraw e).Tidy := by
  unfold History.withdraw
  split_ifs
  · exact htidy
  · exact htidy
  · exact htidy
  · exact htidy.setReviews _ _

theorem Tidy.requestChanges (htidy : h.Tidy) (e : ChangesetEvent) :
    (h.requestChanges e).Tidy := by
  refine Tidy.pushStates ⟨fun t => ⟨?_, ?_⟩, ?_⟩ _
  · exact (htidy.current t).1
  · exact (by decide : ChangesetReviewState.changesRequested ≠ .commented ∧
      ChangesetReviewState.changesRequested ≠ .dismissed)
  · exact htidy.states

theorem Tidy.step {h h' : History} (htidy : h.Tidy) {e : ChangesetEvent} {t : Transition}
    (hdoes : Does h e t h') : h'.Tidy := by
  cases hdoes with
  | skip => exact htidy
  | review s => exact htidy.review e s
  | withdraw => exact htidy.withdraw e
  | requestChanges => exact htidy.requestChanges e
  | close =>
    rw [close]
    split_ifs
    · exact htidy
    · exact htidy.moveTo _ (by decide)
  | merge => exact htidy.moveTo _ (by decide)
  | markDraft =>
    rw [markDraft]
    split_ifs
    · exact (htidy.setDraft true).moveTo _ (by decide)
    · exact htidy.setDraft true
  | convertToDraft =>
    rw [convertToDraft]
    split_ifs
    · exact htidy.setDraft true
    · exact (htidy.setDraft true).moveTo _ (by decide)
  | ready =>
    rw [ready]
    split_ifs
    · exact (htidy.setDraft false).moveTo _ (by decide)
    · exact htidy.setDraft false
  | reopen =>
    rw [reopen]
    split_ifs
    · exact htidy
    · exact htidy.moveTo _ (by decide)
    · exact htidy.moveTo _ (by decide)

theorem Tidy.foldlM {events : List ChangesetEvent} {h h' : History} (htidy : h.Tidy)
    (hrun : events.foldlM History.step h = .ok h') : h'.Tidy := by
  induction events generalizing h with
  | nil => exact Except.ok.inj hrun ▸ htidy
  | cons e events ih =>
    obtain ⟨h₁, hstep, hrest⟩ := exists_of_foldlM_cons hrun
    exact ih (htidy.step (does_of_step hstep)) hrest

theorem tidy_start (ch : Changeset) (ce : List ChangesetEvent) : (start ch ce).Tidy := by
  refine Tidy.pushStates ⟨fun t => ⟨?_, ?_⟩, fun _ h => absurd h not_mem_nil⟩ _
  · show initialExternalState ch ce ≠ .deleted
    rw [initialExternalState_eq]
    split_ifs <;> decide
  · exact (by decide : ChangesetReviewState.pending ≠ .commented ∧
      ChangesetReviewState.pending ≠ .dismissed)

end History

/-- **Every state of a history is counted.** -/
theorem counted_of_computeHistory {ch : Changeset} {ce : List ChangesetEvent}
    {hist : List ChangesetStatesAtTime} (h : computeHistory ch ce = .ok hist) :
    ∀ entry ∈ hist, entry.Counted := by
  unfold computeHistory at h
  split_ifs at h
  obtain ⟨s, hread, rfl⟩ := Except.exists_of_map h
  have htidy := (History.tidy_start ch ce).foldlM hread
  have hfinish : (s.finish ch).Tidy := by
    unfold History.finish
    split_ifs
    · exact htidy.moveTo _ (by decide)
    · exact htidy
  exact hfinish.states

/-! ## Counts that add up -/

namespace ChangesetCounts

/-- The counts of a point add up, in 32 bits. -/
structure Consistent (c : ChangesetCounts) : Prop where
  total_eq : c.total = c.merged + c.closed + c.draft + c.opened
  opened_eq : c.opened = c.openApproved + c.openChangesRequested + c.openPending

theorem Consistent.add {c : ChangesetCounts} (h : c.Consistent) {s : ChangesetStatesAtTime}
    (hs : s.Counted) : (c.add s).Consistent := by
  obtain ⟨htotal, hopened⟩ := h
  unfold ChangesetCounts.add
  cases hstate : s.externalState with
  | draft | merged | closed | readOnly =>
    refine ⟨?_, hopened⟩
    simp only [htotal]
    ring
  | deleted => exact absurd hstate hs.1
  | opened =>
    cases hreview : s.reviewState with
    | pending | approved | changesRequested =>
      simp only [addReview]
      constructor
      · simp only [htotal]
        ring
      · simp only [hopened]
        ring
    | commented => exact absurd hreview hs.2.1
    | dismissed => exact absurd hreview hs.2.2

theorem Consistent.addHistory {c : ChangesetCounts} (h : c.Consistent)
    {hist : List ChangesetStatesAtTime} (hhist : ∀ entry ∈ hist, entry.Counted) :
    (c.addHistory hist).Consistent := by
  unfold ChangesetCounts.addHistory
  cases hstates : statesAtTime hist c.time with
  | none => exact h
  | some states =>
    exact h.add (hhist states ((takeWhile_sublist _).subset (mem_of_getLast? hstates)))

end ChangesetCounts

/-- **The counts of every point add up.** -/
theorem consistent_of_calcCounts {fuel : ℕ} {order : RangeOrder} {memory : ℕ → Changeset}
    {start stop : Time} {cs : List ℕ} {es : List ChangesetEvent} {counts : List ChangesetCounts}
    (h : calcCounts fuel order memory start stop cs es = .ok counts) :
    ∀ c ∈ counts, c.Consistent := by
  obtain ⟨ts, -, hloop⟩ := Outcome.bind_eq_ok.mp h
  refine Outcome.inv_of_foldlM_eq_ok (fun _ counts => ∀ c ∈ counts, ChangesetCounts.Consistent c)
    ?_ ?_ hloop
  · intro done changeset _ counts counts' hinv hstep
    obtain ⟨hist, hhist, hcounts⟩ := Outcome.bind_eq_ok.mp hstep
    cases hhistory : computeHistory (memory changeset.1) changeset.2 with
    | error message =>
      rw [hhistory] at hhist
      exact absurd hhist nofun
    | ok hist' =>
      rw [hhistory] at hhist
      cases hhist
      cases hcounts
      intro c hc
      obtain ⟨c, hmem, rfl⟩ := mem_map.mp hc
      exact (hinv c hmem).addHistory (counted_of_computeHistory hhistory)
  · intro c hc
    obtain ⟨t, -, rfl⟩ := mem_map.mp hc
    exact ⟨rfl, rfl⟩

/-- **The counts are consistent and finite** exactly if start and end are far
enough apart. -/
theorem counts_iff {start stop : Time} (h : start ≤ stop) :
    ((∃ ts, Outcome.Yields (fun fuel => generateTimestamps fuel start stop) ts ∧
        ts.Pairwise (· < ·) ∧ (∀ t ∈ ts, start ≤ t ∧ t ≤ stop) ∧ ts.getLast? = some stop) ∧
      ∀ fuel order memory cs es counts,
        calcCounts fuel order memory start stop cs es = .ok counts → ∀ c ∈ counts, c.Consistent) ↔
    timestampCount ≤ stop - start := by
  constructor
  · rintro ⟨⟨ts, ⟨fuel, hts⟩, -⟩, -⟩
    by_contra hnear
    have hnever := generateTimestamps_of_near h hnear fuel
    exact absurd (hnever.symm.trans hts) nofun
  · intro hfar
    refine ⟨exists_generateTimestamps h hfar, ?_⟩
    intro fuel order memory cs es counts hcounts
    exact consistent_of_calcCounts hcounts

/-- An hour, in nanoseconds. -/
def hour : Time := 3600000000000

/-- Over the first hour. -/
theorem counts_hour :
    (∃ ts, Outcome.Yields (fun fuel => generateTimestamps fuel 0 hour) ts ∧
      ts.Pairwise (· < ·) ∧ (∀ t ∈ ts, 0 ≤ t ∧ t ≤ hour) ∧ ts.getLast? = some hour) ∧
    ∀ fuel order memory cs es counts,
      calcCounts fuel order memory 0 hour cs es = .ok counts → ∀ c ∈ counts, c.Consistent :=
  (counts_iff (by decide)).mpr (by decide)

/-- **From an instant to itself** there are timestamps without end. -/
theorem generateTimestamps_same :
    hour ≤ hour ∧ ∀ fuel, generateTimestamps fuel hour hour = .outOfFuel :=
  ⟨le_rfl, generateTimestamps_of_near le_rfl (by decide)⟩

end Changesets
