import CodeScout.Util.GoMap
import CodeScout.Util.GoSort
import CodeScout.Util.GoUnicode
import Mathlib

/-!
# The check state of a GitHub pull request

The checks of a pull request are those of its newest commit. They are taken
from the commit that was synced last, and from the webhook events received
since – of which one may tell of a commit that is newer still. From then on
what was synced is out of date.

`computeGitHubCheckState` keeps three maps, for the contexts, the check suites
and the check runs. A newer commit empties the first of them and leaves the
other two as they are, so that suites and runs of the older commit stay in the
result unless an event happens to set them again. Whether they show there
depends on what the events report: `combineCheckStates` takes the most urgent
state, and an unknown one if there is none at all
(`computeGitHubCheckState_eq_iff`).
-/

namespace Changesets

open List

/-! ## Data -/

/-- An instant, counted from the zero value of `time.Time`. -/
abbrev Time := ℤ

/-- The state of the checks of a changeset. -/
inductive ChangesetCheckState where
  | unknown
  | pending
  | passed
  | failed
  deriving DecidableEq

/-- The state of a context. -/
structure Context where
  context : GoString
  state : GoString

/-- One check of a suite. -/
structure CheckRun where
  id : GoString
  status : GoString
  conclusion : GoString
  receivedAt : Time

/-- Checks that run together. -/
structure CheckSuite where
  id : GoString
  status : GoString
  conclusion : GoString
  receivedAt : Time
  checkRuns : List CheckRun

/-- The state of a context of a commit, as a webhook reports it. -/
structure CommitStatus where
  sha : GoString
  context : GoString
  state : GoString
  receivedAt : Time

/-- A commit of a pull request. -/
structure Commit where
  oid : GoString
  committedDate : Time

/-- A commit with its statuses and checks, as they were synced. -/
structure CommitWithChecks extends Commit where
  contexts : List Context
  checkSuites : List CheckSuite

/-- The commits of a pull request. -/
structure PullRequest where
  commits : List CommitWithChecks

/-- What an event is about. -/
inductive EventMetadata where
  | commitStatus (m : CommitStatus)
  | pullRequestCommit (m : Commit)
  | checkSuite (m : CheckSuite)
  | checkRun (m : CheckRun)
  | other

/-! ## The states of single checks -/

/-- `unicode.ToUpper` for the runes that have an upper case in ASCII: besides
the letters, the dotless i and the long s. -/
def upperRune (r : ℕ) : ℕ :=
  if 97 ≤ r ∧ r ≤ 122 then r - 32 else if r = 0x131 then 73 else if r = 0x17F then 83 else r

/-- `strings.ToUpper`, as far as a comparison with a word in ASCII can tell. -/
def toUpper (s : GoString) : GoString :=
  ofRunes ((runes s).map fun r => upperRune r.value)

/-- The state of a status. -/
def parseGithubCheckState (s : GoString) : ChangesetCheckState :=
  let s := toUpper s
  if s = lit "ERROR" ∨ s = lit "FAILURE" then .failed
  else if s = lit "EXPECTED" ∨ s = lit "PENDING" then .pending
  else if s = lit "SUCCESS" then .passed
  else .unknown

/-- The state of a suite or a run. -/
def parseGithubCheckSuiteState (status conclusion : GoString) : ChangesetCheckState :=
  let status := toUpper status
  let conclusion := toUpper conclusion
  if status = lit "IN_PROGRESS" ∨ status = lit "QUEUED" ∨ status = lit "REQUESTED" then .pending
  else if status ≠ lit "COMPLETED" then .unknown
  else if conclusion = lit "SUCCESS" ∨ conclusion = lit "NEUTRAL" then .passed
  else if conclusion = lit "ACTION_REQUIRED" then .pending
  else if conclusion = lit "CANCELLED" ∨ conclusion = lit "FAILURE" ∨ conclusion = lit "TIMED_OUT"
  then .failed
  else .unknown

/-- The state of a context. -/
def Context.checkState (c : Context) : ChangesetCheckState := parseGithubCheckState c.state

/-- The state of a status that came as an event. -/
def CommitStatus.checkState (s : CommitStatus) : ChangesetCheckState :=
  parseGithubCheckState s.state

/-- The state of a suite. -/
def CheckSuite.checkState (c : CheckSuite) : ChangesetCheckState :=
  parseGithubCheckSuiteState c.status c.conclusion

/-- The state of a run. -/
def CheckRun.checkState (r : CheckRun) : ChangesetCheckState :=
  parseGithubCheckSuiteState r.status r.conclusion

/-- Suites without runs stay queued forever and are ignored. -/
def CheckSuite.ignored (c : CheckSuite) : Bool :=
  (c.status = lit "QUEUED" ∨ c.status = lit "COMPLETED") ∧ c.checkRuns.length = 0

/-! ## The state of all checks -/

/-- **`combineCheckStates`**: what is unknown or pending counts before what failed. -/
def combineCheckStates (states : List ChangesetCheckState) : ChangesetCheckState :=
  if states.length = 0 then .unknown
  else if .unknown ∈ states then .unknown
  else if .pending ∈ states then .pending
  else if .failed ∈ states then .failed
  else if .passed ∈ states then .passed
  else .unknown

/-- The variables of `computeGitHubCheckState`. -/
structure Checks where
  latestCommitTime : Time
  latestOID : GoString
  statusPerContext : GoMap GoString ChangesetCheckState
  statusPerCheckSuite : GoMap GoString ChangesetCheckState
  statusPerCheckRun : GoMap GoString ChangesetCheckState
  statuses : List CommitStatus

/-- A check suite of the synced commit. -/
def Checks.addSuite (checks : Checks) (c : CheckSuite) : Checks :=
  if c.ignored then checks
  else
    { checks with
      statusPerCheckSuite := checks.statusPerCheckSuite.insert c.id c.checkState
      statusPerCheckRun :=
        c.checkRuns.foldl (fun m r => m.insert r.id r.checkState) checks.statusPerCheckRun }

/-- What the synced pull request says. -/
def Checks.ofSynced (pr : PullRequest) : Checks :=
  match pr.commits with
  | [] => ⟨0, [], ∅, ∅, ∅, []⟩
  | commit :: _ =>
    commit.checkSuites.foldl Checks.addSuite
      { latestCommitTime := commit.committedDate
        latestOID := commit.oid
        statusPerContext := commit.contexts.foldl (fun m c => m.insert c.context c.checkState) ∅
        statusPerCheckSuite := ∅
        statusPerCheckRun := ∅
        statuses := [] }

/-- What an event changes, if it is later than the last sync. -/
def Checks.onEvent (lastSynced : Time) (checks : Checks) : EventMetadata → Checks
  | .commitStatus m =>
    if lastSynced < m.receivedAt then { checks with statuses := checks.statuses ++ [m] } else checks
  | .pullRequestCommit m =>
    if checks.latestCommitTime < m.committedDate then
      { checks with
        latestCommitTime := m.committedDate
        latestOID := m.oid
        statusPerContext := ∅ }
    else checks
  | .checkSuite m =>
    if m.ignored then checks
    else if lastSynced < m.receivedAt then
      { checks with statusPerCheckSuite := checks.statusPerCheckSuite.insert m.id m.checkState }
    else checks
  | .checkRun m =>
    if lastSynced < m.receivedAt then
      { checks with statusPerCheckRun := checks.statusPerCheckRun.insert m.id m.checkState }
    else checks
  | .other => checks

/-- The statuses that were received, in the order of their times. -/
def Checks.addStatuses (sorter : SliceSort) (checks : Checks) :
    GoMap GoString ChangesetCheckState :=
  (sorter.sort (fun s s' => decide (s.receivedAt < s'.receivedAt)) checks.statuses).foldl
    (fun m s => if s.sha ≠ checks.latestOID then m else m.insert s.context s.checkState)
    checks.statusPerContext

/-- **`computeGitHubCheckState`.** -/
def computeGitHubCheckState (order : RangeOrder) (sorter : SliceSort) (lastSynced : Time)
    (pr : PullRequest) (events : List EventMetadata) : ChangesetCheckState :=
  let checks := events.foldl (Checks.onEvent lastSynced) (.ofSynced pr)
  combineCheckStates <|
    order.range [0] (checks.addStatuses sorter).values ++
      order.range [1] checks.statusPerCheckSuite.values ++
        order.range [2] checks.statusPerCheckRun.values

/-! ## The most urgent state -/

namespace ChangesetCheckState

/-- How urgent a state is. -/
def rank : ChangesetCheckState → ℕ
  | .passed => 0
  | .failed => 1
  | .pending => 2
  | .unknown => 3

theorem rank_injective : Function.Injective rank := by
  intro s t
  cases s <;> cases t <;> decide

theorem rank_le_unknown (s : ChangesetCheckState) : s.rank ≤ rank .unknown := by
  cases s <;> decide

end ChangesetCheckState

theorem combineCheckStates_mem {states : List ChangesetCheckState} (h : states ≠ []) :
    combineCheckStates states ∈ states ∧
      ∀ s ∈ states, s.rank ≤ (combineCheckStates states).rank := by
  have hlength : states.length ≠ 0 := mt length_eq_zero_iff.mp h
  obtain ⟨s, hs⟩ := exists_mem_of_ne_nil states h
  unfold combineCheckStates
  rw [if_neg hlength]
  split_ifs with hunknown hpending hfailed hpassed
  · exact ⟨hunknown, fun s _ => s.rank_le_unknown⟩
  all_goals first
    | (refine ⟨by assumption, fun s hs => ?_⟩
       cases s <;> first | contradiction | decide)
    | (cases s <;> contradiction)

/-- **What shows of states that linger**, beside others that are reported:
nothing, if each is outweighed by a reported one – or if nothing is reported
and one of them is unknown, which is the state of no checks as well. -/
def Outweighed (lingers reported : ChangesetCheckState → Prop) : Prop :=
  (∀ s, lingers s → ∃ r, reported r ∧ s.rank ≤ r.rank) ∨ (∀ r, ¬ reported r) ∧ lingers .unknown

theorem combineCheckStates_eq_iff {lingers reported : ChangesetCheckState → Prop}
    {all fresh : List ChangesetCheckState} (hall : ∀ s, s ∈ all ↔ lingers s ∨ reported s)
    (hfresh : ∀ s, s ∈ fresh ↔ reported s) :
    combineCheckStates all = combineCheckStates fresh ↔ Outweighed lingers reported := by
  by_cases hnil : fresh = []
  · -- nothing is reported
    have hnone : ∀ r, ¬ reported r := fun r hr => by
      have hmem := (hfresh r).mpr hr
      rw [hnil] at hmem
      exact not_mem_nil hmem
    rw [hnil]
    constructor
    · intro heq
      by_cases hall' : all = []
      · refine .inl fun s hs => ?_
        have hmem := (hall s).mpr (.inl hs)
        rw [hall'] at hmem
        exact absurd hmem not_mem_nil
      · have hmem := (combineCheckStates_mem hall').1
        rw [heq] at hmem
        exact .inr ⟨hnone, ((hall _).mp hmem).resolve_right (hnone _)⟩
    · rintro (hout | ⟨-, hunknown⟩)
      · have hempty : all = [] := eq_nil_iff_forall_not_mem.mpr fun s hs =>
          ((hall s).mp hs).elim (fun hs => (hout s hs).elim fun r hr => hnone r hr.1) (hnone s)
        rw [hempty]
      · have hmem := (hall _).mpr (.inl hunknown)
        have hmax := (combineCheckStates_mem (ne_nil_of_mem hmem)).2 _ hmem
        exact ChangesetCheckState.rank_injective
          (le_antisymm (ChangesetCheckState.rank_le_unknown _) hmax)
  · obtain ⟨hmem, hmax⟩ := combineCheckStates_mem hnil
    have hmem' : combineCheckStates fresh ∈ all := (hall _).mpr (.inr ((hfresh _).mp hmem))
    obtain ⟨hall', hmax'⟩ := combineCheckStates_mem (ne_nil_of_mem hmem')
    constructor
    · intro heq
      refine .inl fun s hs => ⟨_, (hfresh _).mp hmem, ?_⟩
      rw [← heq]
      exact hmax' s ((hall s).mpr (.inl hs))
    · rintro (hout | ⟨hnone, -⟩)
      · refine ChangesetCheckState.rank_injective (le_antisymm ?_ (hmax' _ hmem'))
        rcases (hall _).mp hall' with hlingers | hreported
        · obtain ⟨r, hr, hle⟩ := hout _ hlingers
          exact hle.trans (hmax r ((hfresh r).mpr hr))
        · exact hmax _ ((hfresh _).mpr hreported)
      · exact absurd ((hfresh _).mp hmem) (hnone _)

/-! ## What is synced and what events report -/

section

variable (commit : CommitWithChecks) (lastSynced : Time) (events : List EventMetadata)

/-- The check suites of a commit, with their states. -/
def syncedSuites : List (GoString × ChangesetCheckState) :=
  (commit.checkSuites.filter fun c => !c.ignored).map fun c => (c.id, c.checkState)

/-- The runs of the suites that count. -/
def syncedRuns : List (GoString × ChangesetCheckState) :=
  (commit.checkSuites.filter fun c => !c.ignored).flatMap fun c =>
    c.checkRuns.map fun r => (r.id, r.checkState)

/-- The check suite of an event that counts. -/
def EventMetadata.suite : EventMetadata → Option (GoString × ChangesetCheckState)
  | .checkSuite m =>
    if !m.ignored ∧ lastSynced < m.receivedAt then some (m.id, m.checkState) else none
  | _ => none

/-- The run of an event that counts. -/
def EventMetadata.run : EventMetadata → Option (GoString × ChangesetCheckState)
  | .checkRun m => if lastSynced < m.receivedAt then some (m.id, m.checkState) else none
  | _ => none

/-- The status of an event that counts. -/
def EventMetadata.status : EventMetadata → Option CommitStatus
  | .commitStatus m => if lastSynced < m.receivedAt then some m else none
  | _ => none

/-- The newest commit after an event. -/
def Commit.onEvent (newest : Commit) : EventMetadata → Commit
  | .pullRequestCommit m => if newest.committedDate < m.committedDate then m else newest
  | _ => newest

/-- The contexts of the newest commit, as the statuses set them. -/
def reportedContexts (sorter : SliceSort) : List (GoString × ChangesetCheckState) :=
  ((sorter.sort (fun s s' => decide (s.receivedAt < s'.receivedAt))
    (events.filterMap (EventMetadata.status lastSynced))).filter fun s =>
      s.sha = (events.foldl Commit.onEvent commit.toCommit).oid).map fun s =>
        (s.context, s.checkState)

/-- A state that events report. -/
def Reported (sorter : SliceSort) (s : ChangesetCheckState) : Prop :=
  (∃ k, GoMap.lastValue (reportedContexts commit lastSynced events sorter) k = some s) ∨
  (∃ k, GoMap.lastValue (events.filterMap (EventMetadata.suite lastSynced)) k = some s) ∨
  ∃ k, GoMap.lastValue (events.filterMap (EventMetadata.run lastSynced)) k = some s

/-- A state of the synced commit that no event sets again. -/
def Lingers (s : ChangesetCheckState) : Prop :=
  (∃ k, GoMap.lastValue (syncedSuites commit) k = some s ∧
    GoMap.lastValue (events.filterMap (EventMetadata.suite lastSynced)) k = none) ∨
  ∃ k, GoMap.lastValue (syncedRuns commit) k = some s ∧
    GoMap.lastValue (events.filterMap (EventMetadata.run lastSynced)) k = none

end

/-! ## Loops -/

open Checks EventMetadata

section

variable {lastSynced : Time}

theorem foldl_addSuite (suites : List CheckSuite) (checks : Checks) :
    suites.foldl Checks.addSuite checks =
      { checks with
        statusPerCheckSuite := checks.statusPerCheckSuite.assign
          ((suites.filter fun c => !c.ignored).map fun c => (c.id, c.checkState))
        statusPerCheckRun := checks.statusPerCheckRun.assign
          ((suites.filter fun c => !c.ignored).flatMap fun c =>
            c.checkRuns.map fun r => (r.id, r.checkState)) } := by
  induction suites generalizing checks with
  | nil => rfl
  | cons suite suites ih =>
    rw [foldl_cons, ih, addSuite]
    cases hignored : suite.ignored with
    | true => rw [if_pos rfl, filter_cons_of_neg (by simp [hignored])]
    | false =>
      rw [if_neg Bool.false_ne_true, filter_cons_of_pos (by simp [hignored]),
        flatMap_cons, GoMap.assign_append, GoMap.foldl_insert_eq_assign]
      rfl

theorem ofSynced_cons (commit : CommitWithChecks) (rest : List CommitWithChecks) :
    Checks.ofSynced ⟨commit :: rest⟩ =
      { latestCommitTime := commit.committedDate
        latestOID := commit.oid
        statusPerContext := commit.contexts.foldl (fun m c => m.insert c.context c.checkState) ∅
        statusPerCheckSuite := GoMap.assign ∅ (syncedSuites commit)
        statusPerCheckRun := GoMap.assign ∅ (syncedRuns commit)
        statuses := [] } :=
  foldl_addSuite _ _

/-- The commit that the variables hold. -/
def Checks.newest (checks : Checks) : Commit := ⟨checks.latestOID, checks.latestCommitTime⟩

/-- **What an event does to the variables**, except for the contexts. -/
theorem onEvent_spec (checks : Checks) (event : EventMetadata) :
    (checks.onEvent lastSynced event).newest = checks.newest.onEvent event ∧
    (checks.onEvent lastSynced event).statusPerCheckSuite =
      checks.statusPerCheckSuite.assign (event.suite lastSynced).toList ∧
    (checks.onEvent lastSynced event).statusPerCheckRun =
      checks.statusPerCheckRun.assign (event.run lastSynced).toList ∧
    (checks.onEvent lastSynced event).statuses =
      checks.statuses ++ (event.status lastSynced).toList := by
  cases event with
  | commitStatus m =>
    by_cases h : lastSynced < m.receivedAt
    · simp only [onEvent, status, if_pos h]
      exact ⟨rfl, rfl, rfl, rfl⟩
    · simp only [onEvent, status, if_neg h]
      exact ⟨rfl, rfl, rfl, (append_nil _).symm⟩
  | pullRequestCommit m =>
    have hstatuses : ∀ l : List CommitStatus, l = l ++ [] := fun l => (append_nil l).symm
    by_cases h : checks.latestCommitTime < m.committedDate
    · have hnewest : checks.newest.onEvent (.pullRequestCommit m) = m := if_pos h
      rw [hnewest]
      simp only [onEvent, if_pos h]
      exact ⟨rfl, rfl, rfl, hstatuses _⟩
    · have hnewest : checks.newest.onEvent (.pullRequestCommit m) = checks.newest := if_neg h
      have hchecks : checks.onEvent lastSynced (.pullRequestCommit m) = checks := if_neg h
      rw [hnewest, hchecks]
      exact ⟨rfl, rfl, rfl, hstatuses _⟩
  | checkSuite m =>
    have hstatuses : ∀ l : List CommitStatus, l = l ++ [] := fun l => (append_nil l).symm
    cases hignored : m.ignored with
    | true =>
      simp only [onEvent, suite, hignored, if_true, Bool.not_true,
        Bool.false_eq_true, false_and, if_false]
      exact ⟨rfl, rfl, rfl, hstatuses _⟩
    | false =>
      by_cases h : lastSynced < m.receivedAt
      · simp only [onEvent, suite, hignored, Bool.false_eq_true, if_false,
          Bool.not_false, true_and, if_pos h]
        exact ⟨rfl, rfl, rfl, hstatuses _⟩
      · simp only [onEvent, suite, hignored, Bool.false_eq_true, if_false,
          Bool.not_false, true_and, if_neg h]
        exact ⟨rfl, rfl, rfl, hstatuses _⟩
  | checkRun m =>
    have hstatuses : ∀ l : List CommitStatus, l = l ++ [] := fun l => (append_nil l).symm
    by_cases h : lastSynced < m.receivedAt
    · simp only [onEvent, run, if_pos h]
      exact ⟨rfl, rfl, rfl, hstatuses _⟩
    · simp only [onEvent, run, if_neg h]
      exact ⟨rfl, rfl, rfl, hstatuses _⟩
  | other => exact ⟨rfl, rfl, rfl, (append_nil _).symm⟩

theorem filterMap_cons_toList {α β : Type} (f : α → Option β) (a : α) (l : List α) :
    (a :: l).filterMap f = (f a).toList ++ l.filterMap f := by
  cases h : f a with
  | none => rw [filterMap_cons_none h]; rfl
  | some b => rw [filterMap_cons_some h]; rfl

theorem foldl_onEvent_spec (events : List EventMetadata) (checks : Checks) :
    (events.foldl (Checks.onEvent lastSynced) checks).newest =
      events.foldl Commit.onEvent checks.newest ∧
    (events.foldl (Checks.onEvent lastSynced) checks).statusPerCheckSuite =
      checks.statusPerCheckSuite.assign (events.filterMap (EventMetadata.suite lastSynced)) ∧
    (events.foldl (Checks.onEvent lastSynced) checks).statusPerCheckRun =
      checks.statusPerCheckRun.assign (events.filterMap (EventMetadata.run lastSynced)) ∧
    (events.foldl (Checks.onEvent lastSynced) checks).statuses =
      checks.statuses ++ events.filterMap (EventMetadata.status lastSynced) := by
  induction events generalizing checks with
  | nil => exact ⟨rfl, rfl, rfl, (append_nil _).symm⟩
  | cons event events ih =>
    obtain ⟨hnewest, hsuites, hruns, hstatuses⟩ := @onEvent_spec lastSynced checks event
    obtain ⟨ihnewest, ihsuites, ihruns, ihstatuses⟩ := ih (checks.onEvent lastSynced event)
    simp only [filterMap_cons_toList, GoMap.assign_append, ← append_assoc]
    rw [foldl_cons, foldl_cons, ← hnewest, ← hsuites, ← hruns, ← hstatuses]
    exact ⟨ihnewest, ihsuites, ihruns, ihstatuses⟩

/-- Contexts once emptied stay empty: the statuses come later. -/
theorem foldl_onEvent_empty (events : List EventMetadata) {checks : Checks}
    (h : checks.statusPerContext = ∅) :
    (events.foldl (Checks.onEvent lastSynced) checks).statusPerContext = ∅ := by
  induction events generalizing checks with
  | nil => exact h
  | cons event events ih =>
    refine ih ?_
    cases event with
    | commitStatus | checkSuite | checkRun =>
      simp only [onEvent]
      split_ifs <;> exact h
    | pullRequestCommit m =>
      simp only [onEvent]
      split_ifs
      · rfl
      · exact h
    | other => exact h

/-- **A newer commit empties the contexts.** -/
theorem foldl_onEvent_newer (events : List EventMetadata) {checks : Checks} {newer : Commit}
    (hmem : .pullRequestCommit newer ∈ events)
    (hnewer : checks.latestCommitTime < newer.committedDate) :
    (events.foldl (Checks.onEvent lastSynced) checks).statusPerContext = ∅ := by
  induction events generalizing checks with
  | nil => exact absurd hmem not_mem_nil
  | cons event events ih =>
    rw [foldl_cons]
    by_cases hempty : (checks.onEvent lastSynced event).statusPerContext = ∅
    · exact foldl_onEvent_empty events hempty
    · -- the event is no newer commit, so the newer one comes later
      have htime : (checks.onEvent lastSynced event).latestCommitTime = checks.latestCommitTime ∧
          event ≠ .pullRequestCommit newer := by
        cases event with
        | pullRequestCommit m =>
          simp only [onEvent] at hempty ⊢
          split_ifs at hempty ⊢ with hlt
          · exact absurd rfl hempty
          · refine ⟨rfl, fun heq => hlt ?_⟩
            rw [pullRequestCommit.inj heq]
            exact hnewer
        | commitStatus | checkSuite | checkRun =>
          simp only [onEvent]
          split_ifs <;> exact ⟨rfl, nofun⟩
        | other => exact ⟨rfl, nofun⟩
      refine ih ((mem_cons.mp hmem).resolve_left htime.2.symm) ?_
      rw [htime.1]
      exact hnewer

theorem addStatuses_eq (sorter : SliceSort) {checks : Checks} (h : checks.statusPerContext = ∅) :
    checks.addStatuses sorter = GoMap.assign ∅
      (((sorter.sort (fun s s' => decide (s.receivedAt < s'.receivedAt)) checks.statuses).filter
        fun s => s.sha = checks.newest.oid).map fun s => (s.context, s.checkState)) := by
  rw [GoMap.assign, foldl_map, foldl_filter, addStatuses, h]
  congr 1
  funext m s
  by_cases hsha : s.sha = checks.latestOID
  · exact (if_neg (not_not_intro hsha)).trans (if_pos (decide_eq_true hsha)).symm
  · exact (if_pos hsha).trans (if_neg (mt of_decide_eq_true hsha)).symm

end

/-! ## The newest commit -/

section

variable {commit : CommitWithChecks} {lastSynced : Time} {events : List EventMetadata}

/-- A commit as if nothing had been checked of it. -/
def CommitWithChecks.withoutChecks (commit : CommitWithChecks) : CommitWithChecks :=
  { commit with contexts := [], checkSuites := [] }

/-- The states that are combined if a newer commit is known. -/
theorem computeGitHubCheckState_eq_combine (order : RangeOrder) (sorter : SliceSort)
    (rest : List CommitWithChecks) {newer : Commit} (hmem : .pullRequestCommit newer ∈ events)
    (hnewer : commit.committedDate < newer.committedDate) :
    ∃ states, computeGitHubCheckState order sorter lastSynced ⟨commit :: rest⟩ events =
        combineCheckStates states ∧
      ∀ s, s ∈ states ↔ Lingers commit lastSynced events s ∨
        Reported commit lastSynced events sorter s := by
  obtain ⟨hnewest, hsuites, hruns, hstatuses⟩ :=
    @foldl_onEvent_spec lastSynced events (.ofSynced ⟨commit :: rest⟩)
  have hempty : (events.foldl (onEvent lastSynced)
      (.ofSynced ⟨commit :: rest⟩)).statusPerContext = ∅ := by
    refine foldl_onEvent_newer events hmem ?_
    rw [ofSynced_cons]
    exact hnewer
  refine ⟨_, rfl, fun s => ?_⟩
  simp only [mem_append, RangeOrder.mem_range]
  have hcommit : (ofSynced ⟨commit :: rest⟩).newest = commit.toCommit := by
    rw [ofSynced_cons]
    rfl
  rw [addStatuses_eq sorter hempty, hnewest, hsuites, hruns, hstatuses, hcommit, ofSynced_cons]
  simp only [GoMap.mem_values_assign, GoMap.lookup_assign_empty, AList.lookup_empty, nil_append,
    reduceCtorEq, false_and, exists_false, false_or]
  have hsplit : ∀ A B C D E : Prop, ((A ∨ B ∨ C) ∨ D ∨ E) ↔ (B ∨ D) ∨ A ∨ C ∨ E := by tauto
  exact hsplit _ _ _ _ _

/-- **The check state reflects the newest commit only** if what lingers of the
older one is outweighed. Its contexts do not matter in any case. -/
theorem computeGitHubCheckState_eq_iff (order : RangeOrder) (sorter : SliceSort)
    (rest : List CommitWithChecks)
    (h : ∃ newer, .pullRequestCommit newer ∈ events ∧
      commit.committedDate < newer.committedDate) :
    computeGitHubCheckState order sorter lastSynced ⟨commit :: rest⟩ events =
        computeGitHubCheckState order sorter lastSynced ⟨commit.withoutChecks :: rest⟩ events ↔
      Outweighed (Lingers commit lastSynced events)
        (Reported commit lastSynced events sorter) := by
  obtain ⟨newer, hmem, hnewer⟩ := h
  obtain ⟨all, hall, hmemAll⟩ :=
    @computeGitHubCheckState_eq_combine commit lastSynced _ order sorter rest _ hmem hnewer
  obtain ⟨fresh, hfresh, hmemFresh⟩ :=
    @computeGitHubCheckState_eq_combine commit.withoutChecks lastSynced _ order sorter rest _ hmem
      hnewer
  rw [hall, hfresh]
  refine combineCheckStates_eq_iff hmemAll fun s => (hmemFresh s).trans (or_iff_right ?_)
  -- without checks nothing lingers
  rintro (⟨k, hk, -⟩ | ⟨k, hk, -⟩)
  · exact absurd hk nofun
  · exact absurd hk nofun

end

/-- A commit with a context that is pending, and a suite. -/
def olderCommit (suite : CheckSuite) : CommitWithChecks where
  oid := lit "a"
  committedDate := 1
  contexts := [⟨lit "ci", lit "PENDING"⟩]
  checkSuites := [suite]

/-- A newer commit, for which a context succeeds. -/
def newerCommit : List EventMetadata :=
  [.pullRequestCommit ⟨lit "b", 2⟩, .commitStatus ⟨lit "b", lit "ci", lit "SUCCESS", 4⟩]

/-- A suite that has not started. -/
def queuedSuite : CheckSuite := ⟨lit "suite", lit "QUEUED", [], 0, []⟩

/-- The same suite with a run that failed. -/
def failedSuite : CheckSuite :=
  ⟨lit "suite", lit "COMPLETED", lit "FAILURE", 0,
    [⟨lit "run", lit "COMPLETED", lit "FAILURE", 0⟩]⟩

/-- A suite without runs, which is ignored, and a context leave no trace. -/
theorem computeGitHubCheckState_queuedSuite :
    computeGitHubCheckState .byEntries .byInsertion 3 ⟨[olderCommit queuedSuite]⟩ newerCommit =
      computeGitHubCheckState .byEntries .byInsertion 3
        ⟨[(olderCommit queuedSuite).withoutChecks]⟩ newerCommit := by
  refine (computeGitHubCheckState_eq_iff .byEntries .byInsertion []
    ⟨⟨lit "b", 2⟩, mem_cons_self, by decide⟩).mpr (.inl fun s hs => ?_)
  have hsuites : syncedSuites (olderCommit queuedSuite) = [] := by decide +kernel
  have hruns : syncedRuns (olderCommit queuedSuite) = [] := by decide +kernel
  unfold Lingers at hs
  rw [hsuites, hruns] at hs
  rcases hs with ⟨k, hk, -⟩ | ⟨k, hk, -⟩
  · exact absurd hk nofun
  · exact absurd hk nofun

/-- **A failed suite of the older commit** fails the newer one, whose only
check has passed. -/
theorem computeGitHubCheckState_failedSuite :
    computeGitHubCheckState .byEntries .byInsertion 3 ⟨[olderCommit failedSuite]⟩ newerCommit =
      .failed ∧
    computeGitHubCheckState .byEntries .byInsertion 3
      ⟨[(olderCommit failedSuite).withoutChecks]⟩ newerCommit = .passed := by
  decide +kernel

end Changesets
