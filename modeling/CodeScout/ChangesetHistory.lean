import CodeScout.GithubChecks
import CodeScout.Util.GoMap
import CodeScout.Util.Outcome
import Mathlib

/-!
# The history of a changeset

`computeHistory` replays the events of a changeset and records, each time one
of them changes something, the external state and the review state. Whether
the changeset is a draft is tracked beside the external state, because it may
change while the changeset is closed; it is looked at again when the changeset
is reopened.

Of the external state the events make a small machine (`Lifecycle`), and all
but one of its transitions respect that a closed changeset is closed until it
is reopened or merged. The exception is the conversion to a draft on GitHub,
which takes the changeset out of any state that is not final – unlike the
corresponding event of GitLab, which moves open changesets only. So the history
is sound exactly if no event of that kind comes while the changeset is closed
(`sound_iff`).
-/

namespace Changesets

open List

/-! ## Changesets and events -/

/-- The state of a changeset on the code host. -/
inductive ChangesetExternalState where
  | draft
  | opened
  | closed
  | merged
  | deleted
  | readOnly
  deriving DecidableEq

/-- The state of a review. -/
inductive ChangesetReviewState where
  | approved
  | changesRequested
  | pending
  | commented
  | dismissed
  deriving DecidableEq

/-- The kinds that `computeHistory` tells apart. -/
inductive ChangesetEventKind where
  | gitHubClosed
  | bitbucketServerDeclined
  | gitLabClosed
  | bitbucketCloudPullRequestRejected
  | gitHubMerged
  | bitbucketServerMerged
  | gitLabMerged
  | bitbucketCloudPullRequestFulfilled
  | azureDevOpsPullRequestMerged
  | gitLabMarkWorkInProgress
  | gitHubConvertToDraft
  | gitLabUnmarkWorkInProgress
  | gitHubReadyForReview
  | gitHubReopened
  | bitbucketServerReopened
  | gitLabReopened
  | gitHubReviewed
  | bitbucketServerApproved
  | bitbucketServerReviewed
  | gitLabApproved
  | bitbucketCloudApproved
  | bitbucketCloudPullRequestApproved
  | azureDevOpsPullRequestApproved
  | bitbucketServerUnapproved
  | bitbucketServerDismissed
  | gitLabUnapproved
  | bitbucketCloudPullRequestChangesRequestRemoved
  | bitbucketCloudPullRequestUnapproved
  | azureDevOpsPullRequestRejected
  | azureDevOpsPullRequestApprovedWithSuggestions
  | azureDevOpsPullRequestWaitingForAuthor
  | other (kind : GoString)
  deriving DecidableEq

/-- The types of metadata that are looked at. -/
inductive EventType where
  | gitHubPullRequestReview (state : GoString)
  | gitHubReadyForReview
  | gitHubConvertToDraft
  | gitLabMarkWorkInProgress
  | gitLabUnmarkWorkInProgress
  | other
  deriving DecidableEq

/-- An event, with its time and the author of the review as they are read from
the metadata. -/
structure ChangesetEvent where
  changesetID : ℤ
  kind : ChangesetEventKind
  metadata : EventType
  timestamp : Time
  reviewAuthor : GoString
  deriving DecidableEq

/-- What a code host says of a changeset: whether it is a draft, and since when it exists.
-/
inductive ChangesetMetadata where
  | gitHubPullRequest (isDraft : Bool) (createdAt : Time)
  | gitLabMergeRequest (workInProgress : Bool) (createdAt : Time)
  | azureDevOpsPullRequest (isDraft : Bool) (creationDate : Time)
  | gerritChange (workInProgress : Bool) (created : Time)
  | bitbucketServerPullRequest (createdDate : Time)
  | bitbucketCloudPullRequest (createdOn : Time)
  | other

/-- A changeset, as far as its history goes. -/
structure Changeset where
  id : ℤ
  metadata : ChangesetMetadata
  externalDeletedAt : Time

/-- When the changeset was opened on the code host. -/
def Changeset.externalCreatedAt (ch : Changeset) : Time :=
  match ch.metadata with
  | .gitHubPullRequest _ createdAt => createdAt
  | .bitbucketServerPullRequest createdDate => createdDate
  | .gitLabMergeRequest _ createdAt => createdAt
  | .bitbucketCloudPullRequest createdOn => createdOn
  | .azureDevOpsPullRequest _ creationDate => creationDate
  | .gerritChange _ created => created
  | .other => 0

/-- The review state that GitHub reports; an invalid one counts as pending. -/
def parseReviewState (state : GoString) : ChangesetReviewState :=
  let s := toUpper state
  if s = lit "APPROVED" then .approved
  else if s = lit "CHANGES_REQUESTED" then .changesRequested
  else if s = lit "PENDING" then .pending
  else if s = lit "COMMENTED" then .commented
  else if s = lit "DISMISSED" then .dismissed
  else .pending

/-- `ReviewState`, for the kinds that are told apart here. -/
def ChangesetEvent.reviewState (e : ChangesetEvent) : Except GoString ChangesetReviewState :=
  match e.kind with
  | .bitbucketServerApproved | .gitLabApproved | .bitbucketCloudApproved
  | .bitbucketCloudPullRequestApproved | .azureDevOpsPullRequestApproved => .ok .approved
  | .bitbucketServerReviewed | .azureDevOpsPullRequestWaitingForAuthor
  | .azureDevOpsPullRequestApprovedWithSuggestions => .ok .changesRequested
  | .gitHubReviewed =>
    match e.metadata with
    | .gitHubPullRequestReview state => .ok (parseReviewState state)
    | _ => .error (lit "ChangesetEvent metadata event not PullRequestReview")
  | .bitbucketServerUnapproved | .bitbucketServerDismissed | .gitLabUnapproved
  | .bitbucketCloudPullRequestUnapproved | .bitbucketCloudPullRequestChangesRequestRemoved
  | .azureDevOpsPullRequestRejected => .ok .dismissed
  | _ => .ok .pending

/-! ## The history -/

/-- The two states from an instant on. -/
structure ChangesetStatesAtTime where
  t : Time
  externalState : ChangesetExternalState
  reviewState : ChangesetReviewState
  deriving DecidableEq

/-- The draft flag of the code hosts that have one. -/
def ChangesetMetadata.isDraft : ChangesetMetadata → Option Bool
  | .gitHubPullRequest isDraft _ => some isDraft
  | .gitLabMergeRequest workInProgress _ => some workInProgress
  | .azureDevOpsPullRequest isDraft _ => some isDraft
  | .gerritChange workInProgress _ => some workInProgress
  | _ => none

/-- Whether a changeset was open before an event. -/
def EventType.openBefore (isOpen : Bool) : EventType → Bool
  | .gitLabUnmarkWorkInProgress | .gitHubReadyForReview => false
  | .gitLabMarkWorkInProgress | .gitHubConvertToDraft => true
  | _ => isOpen

/-- **`initialExternalState`**: the state before the first event. -/
def initialExternalState (ch : Changeset) (ce : List ChangesetEvent) : ChangesetExternalState :=
  match ch.metadata.isDraft with
  | none => .opened
  | some isDraft =>
    -- from the current time to the past
    if ce.reverse.foldl (fun isOpen e => e.metadata.openBefore isOpen) !isDraft then .opened
    else .draft

/-- The state that several reviews add up to. -/
def selectReviewState (states : List ChangesetReviewState) : ChangesetReviewState :=
  if .changesRequested ∈ states then .changesRequested
  else if .approved ∈ states then .approved
  else .pending

/-- The state of the last reviews of all authors. -/
def reduceReviewStates (statesByAuthor : GoMap GoString ChangesetReviewState) :
    ChangesetReviewState :=
  selectReviewState statesByAuthor.values

/-- The variables of `computeHistory`. -/
structure History where
  states : List ChangesetStatesAtTime
  currentExtState : ChangesetExternalState
  currentReviewState : ChangesetReviewState
  lastReviewByAuthor : GoMap GoString ChangesetReviewState
  isDraft : Bool

namespace History

/-- The current states are recorded. -/
def pushStates (h : History) (t : Time) : History :=
  { h with states := h.states ++ [⟨t, h.currentExtState, h.currentReviewState⟩] }

/-- Move to an external state. -/
def moveTo (h : History) (state : ChangesetExternalState) (t : Time) : History :=
  pushStates { h with currentExtState := state } t

/-- Merged and read-only are final states. -/
def isFinal (h : History) : Bool :=
  h.currentExtState = .merged ∨ h.currentExtState = .readOnly

/-- Recompute the review state from the last review of each author. -/
def setReviews (h : History) (reviews : GoMap GoString ChangesetReviewState) (t : Time) :
    History :=
  let newReviewState := reduceReviewStates reviews
  if newReviewState ≠ h.currentReviewState then
    pushStates
      { h with lastReviewByAuthor := reviews, currentReviewState := newReviewState } t
  else { h with lastReviewByAuthor := reviews }

/-- A review, which replaces the last one of its author. -/
def review (h : History) (e : ChangesetEvent) (s : ChangesetReviewState) : History :=
  if s ≠ .approved ∧ s ≠ .changesRequested ∧ s ≠ .dismissed then h
  else if e.reviewAuthor = [] then h
  else if s = .dismissed then h.setReviews (h.lastReviewByAuthor.erase e.reviewAuthor) e.timestamp
  else h.setReviews (h.lastReviewByAuthor.insert e.reviewAuthor s) e.timestamp

/-- A review that is taken back. -/
def withdraw (h : History) (e : ChangesetEvent) : History :=
  if e.reviewAuthor = [] then h
  else if e.kind = .bitbucketServerUnapproved ∧
      h.lastReviewByAuthor.lookup e.reviewAuthor ≠ some .approved then h
  else if e.kind = .bitbucketServerDismissed ∧
      h.lastReviewByAuthor.lookup e.reviewAuthor ≠ some .changesRequested then h
  else h.setReviews (h.lastReviewByAuthor.erase e.reviewAuthor) e.timestamp

/-- An event of Azure DevOps that asks for changes. -/
def requestChanges (h : History) (e : ChangesetEvent) : History :=
  pushStates
    { h with
      currentReviewState := .changesRequested
      lastReviewByAuthor := h.lastReviewByAuthor.insert e.reviewAuthor .changesRequested }
    e.timestamp

/-- The changeset is closed. -/
def close (h : History) (t : Time) : History :=
  if h.isFinal then h else h.moveTo .closed t

/-- GitLab's mark as work in progress, which matters for an open changeset. -/
def markDraft (h : History) (t : Time) : History :=
  if h.currentExtState = .opened then moveTo { h with isDraft := true } .draft t
  else { h with isDraft := true }

/-- GitHub's conversion to a draft. -/
def convertToDraft (h : History) (t : Time) : History :=
  if h.isFinal then { h with isDraft := true } else moveTo { h with isDraft := true } .draft t

/-- A draft is ready for review. -/
def ready (h : History) (t : Time) : History :=
  if h.currentExtState = .draft then moveTo { h with isDraft := false } .opened t
  else { h with isDraft := false }

/-- The changeset is opened again. -/
def reopen (h : History) (t : Time) : History :=
  if h.isFinal then h else h.moveTo (if h.isDraft then .draft else .opened) t

/-- **One event.** -/
def step (h : History) (e : ChangesetEvent) : Except GoString History :=
  if e.timestamp = 0 then .ok h
  else
    match e.kind with
    | .gitHubClosed | .bitbucketServerDeclined | .gitLabClosed
    | .bitbucketCloudPullRequestRejected => .ok (h.close e.timestamp)
    | .gitHubMerged | .bitbucketServerMerged | .gitLabMerged
    | .bitbucketCloudPullRequestFulfilled | .azureDevOpsPullRequestMerged =>
      .ok (h.moveTo .merged e.timestamp)
    | .gitLabMarkWorkInProgress => .ok (h.markDraft e.timestamp)
    | .gitHubConvertToDraft => .ok (h.convertToDraft e.timestamp)
    | .gitLabUnmarkWorkInProgress | .gitHubReadyForReview => .ok (h.ready e.timestamp)
    | .gitHubReopened | .bitbucketServerReopened | .gitLabReopened => .ok (h.reopen e.timestamp)
    | .gitHubReviewed | .bitbucketServerApproved | .bitbucketServerReviewed | .gitLabApproved
    | .bitbucketCloudApproved | .bitbucketCloudPullRequestApproved
    | .azureDevOpsPullRequestApproved => e.reviewState.map (h.review e)
    | .bitbucketServerUnapproved | .bitbucketServerDismissed | .gitLabUnapproved
    | .bitbucketCloudPullRequestChangesRequestRemoved | .bitbucketCloudPullRequestUnapproved =>
      .ok (h.withdraw e)
    | .azureDevOpsPullRequestRejected | .azureDevOpsPullRequestApprovedWithSuggestions
    | .azureDevOpsPullRequestWaitingForAuthor => .ok (h.requestChanges e)
    | .other _ => .ok h

/-- The history before the first event. -/
def start (ch : Changeset) (ce : List ChangesetEvent) : History :=
  pushStates
    { states := []
      currentExtState := initialExternalState ch ce
      currentReviewState := .pending
      lastReviewByAuthor := ∅
      isDraft := initialExternalState ch ce = .draft }
    ch.externalCreatedAt

/-- There is no event for the deletion of a changeset. -/
def finish (ch : Changeset) (h : History) : History :=
  if ch.externalDeletedAt ≠ 0 then h.moveTo .closed ch.externalDeletedAt else h

end History

/-- `sort.IsSorted`. -/
def isSorted (ce : List ChangesetEvent) : Bool :=
  (ce.zip ce.tail).all fun (e, e') => !(decide (e'.timestamp < e.timestamp))

/-- **`computeHistory`.** -/
def computeHistory (ch : Changeset) (ce : List ChangesetEvent) :
    Except GoString (List ChangesetStatesAtTime) :=
  if isSorted ce = false then .error (lit "changeset events not sorted")
  else if ch.externalCreatedAt = 0 then
    .error (lit "changeset ExternalCreatedAt has zero value")
  else (ce.foldlM History.step (.start ch ce)).map fun h => (h.finish ch).states

/-! ## The lifecycle -/

/-- What an event does to the external state. -/
inductive Transition where
  | keep
  | close
  | merge
  | markDraft
  | convertToDraft
  | ready
  | reopen
  deriving DecidableEq

/-- Events without a time are skipped. -/
def ChangesetEvent.transition (e : ChangesetEvent) : Transition :=
  if e.timestamp = 0 then .keep
  else
    match e.kind with
    | .gitHubClosed | .bitbucketServerDeclined | .gitLabClosed
    | .bitbucketCloudPullRequestRejected => .close
    | .gitHubMerged | .bitbucketServerMerged | .gitLabMerged
    | .bitbucketCloudPullRequestFulfilled | .azureDevOpsPullRequestMerged => .merge
    | .gitLabMarkWorkInProgress => .markDraft
    | .gitHubConvertToDraft => .convertToDraft
    | .gitLabUnmarkWorkInProgress | .gitHubReadyForReview => .ready
    | .gitHubReopened | .bitbucketServerReopened | .gitLabReopened => .reopen
    | _ => .keep

/-- The external state, and whether the changeset is a draft. -/
structure Lifecycle where
  state : ChangesetExternalState
  isDraft : Bool

namespace Lifecycle

/-- The changeset stays as it is. -/
def Final (l : Lifecycle) : Prop := l.state = .merged ∨ l.state = .readOnly

instance (l : Lifecycle) : Decidable l.Final := inferInstanceAs (Decidable (_ ∨ _))

/-- What a transition does. -/
def next (l : Lifecycle) : Transition → Lifecycle
  | .keep => l
  | .close => if l.Final then l else { l with state := .closed }
  | .merge => { l with state := .merged }
  | .markDraft => ⟨if l.state = .opened then .draft else l.state, true⟩
  | .convertToDraft => ⟨if l.Final then l.state else .draft, true⟩
  | .ready => ⟨if l.state = .draft then .opened else l.state, false⟩
  | .reopen => if l.Final then l else { l with state := if l.isDraft then .draft else .opened }

/-- What transitions do, one after the other. -/
def run (l : Lifecycle) (transitions : List Transition) : Lifecycle := transitions.foldl next l

variable {l : Lifecycle}

theorem next_merged (h : l.state = .merged) (t : Transition) :
    (l.next t).state = .merged := by
  have hfinal : l.Final := .inl h
  cases t <;> simp [next, h, hfinal]

theorem not_final_next {t : Transition} (h : ¬ l.Final) (ht : t ≠ .merge) :
    ¬ (l.next t).Final := by
  have hopened : ∀ isDraft : Bool, ¬ (Lifecycle.mk .opened isDraft).Final := by decide
  have hdraft : ∀ isDraft : Bool, ¬ (Lifecycle.mk .draft isDraft).Final := by decide
  cases t with
  | keep => exact h
  | merge => exact absurd rfl ht
  | close =>
    rw [next, if_neg h]
    exact (by decide : ∀ isDraft : Bool, ¬ (Lifecycle.mk .closed isDraft).Final) _
  | convertToDraft =>
    rw [next, if_neg h]
    exact hdraft _
  | markDraft =>
    rw [next]
    split_ifs
    · exact hdraft _
    · exact h
  | ready =>
    rw [next]
    split_ifs
    · exact hopened _
    · exact h
  | reopen =>
    rw [next, if_neg h]
    cases l.isDraft
    · exact hopened _
    · exact hdraft _

/-- **A changeset that has not been merged** is in no final state. -/
theorem not_final_run {ts : List Transition} (h : ¬ l.Final)
    (hts : .merge ∉ ts) : ¬ (l.run ts).Final := by
  induction ts generalizing l with
  | nil => exact h
  | cons t ts ih =>
    rw [mem_cons, not_or] at hts
    exact ih (not_final_next h (Ne.symm hts.1)) hts.2

/-- **A closed changeset** is left by three transitions only. -/
theorem next_closed {t : Transition} (h : l.state = .closed)
    (hreopen : t ≠ .reopen) (hmerge : t ≠ .merge) (hconvert : t ≠ .convertToDraft) :
    (l.next t).state = .closed := by
  cases t with
  | keep => exact h
  | close => rw [next]; split_ifs <;> [exact h; rfl]
  | markDraft => simp [next, h]
  | ready => simp [next, h]
  | merge => exact absurd rfl hmerge
  | convertToDraft => exact absurd rfl hconvert
  | reopen => exact absurd rfl hreopen

end Lifecycle

/-- Whether a transition makes the changeset a draft, or ready. -/
def Transition.marks : Transition → Option Bool
  | .markDraft | .convertToDraft => some true
  | .ready => some false
  | _ => none

/-- The last transition that says so decides whether it is a draft. -/
theorem Lifecycle.isDraft_run (l : Lifecycle) (ts : List Transition) :
    (l.run ts).isDraft = (ts.reverse.findSome? Transition.marks).getD l.isDraft := by
  induction ts using reverseRecOn with
  | nil => rfl
  | append_singleton ts t ih =>
    rw [run, foldl_append, foldl_cons, foldl_nil, ← run, reverse_append,
      reverse_singleton, singleton_append, findSome?_cons]
    cases t with
    | keep | merge => exact ih
    | markDraft | convertToDraft | ready => rfl
    | close | reopen =>
      rw [next]
      split_ifs <;> exact ih

/-! ## The lifecycle of the history -/

namespace History

/-- Where a history is in the life of its changeset. -/
def lifecycle (h : History) : Lifecycle := ⟨h.currentExtState, h.isDraft⟩

theorem isFinal_iff (h : History) : h.isFinal = true ↔ h.lifecycle.Final := decide_eq_true_iff

/-- **What a step records**: entries with the external state after it. -/
structure Steps (h : History) (t : Transition) (h' : History) : Prop where
  lifecycle_eq : h'.lifecycle = h.lifecycle.next t
  records : ∃ new, h'.states = h.states ++ new ∧
    (∀ entry ∈ new, entry.externalState = h'.currentExtState) ∧
    (t = .convertToDraft ∨ t = .reopen → ¬ h.lifecycle.Final → new ≠ [])

variable {h h' : History}

variable {t : Transition}

theorem Steps.currentExtState_eq (hsteps : Steps h t h') :
    h'.currentExtState = (h.lifecycle.next t).state :=
  congrArg Lifecycle.state hsteps.lifecycle_eq

theorem Steps.keep (hext : h'.currentExtState = h.currentExtState) (hdraft : h'.isDraft = h.isDraft)
    (hstates : h'.states = h.states ∨
      ∃ t, h'.states = h.states ++ [⟨t, h'.currentExtState, h'.currentReviewState⟩]) :
    Steps h .keep h' := by
  refine ⟨by rw [lifecycle, hext, hdraft]; rfl, ?_⟩
  rcases hstates with hstates | ⟨t, hstates⟩
  · exact ⟨[], by rw [hstates, append_nil], fun _ h => absurd h not_mem_nil, by simp⟩
  · refine ⟨_, hstates, fun entry hentry => ?_, by simp⟩
    rw [mem_singleton.mp hentry]

theorem Steps.moveTo {h h₀ : History} {state : ChangesetExternalState}
    (time : Time) (hstates : h₀.states = h.states)
    (hnext : h.lifecycle.next t = ⟨state, h₀.isDraft⟩) : Steps h t (h₀.moveTo state time) := by
  refine ⟨hnext.symm, _, congrArg (· ++ _) hstates, fun entry hentry => ?_, fun _ _ => by simp⟩
  rw [mem_singleton.mp hentry]
  rfl

theorem Steps.stay (hstates : h'.states = h.states)
    (hlifecycle : h'.lifecycle = h.lifecycle.next t)
    (hfinal : t = .convertToDraft ∨ t = .reopen → h.lifecycle.Final) : Steps h t h' :=
  ⟨hlifecycle, [], by rw [hstates, append_nil], fun _ h => absurd h not_mem_nil,
    fun ht hnot => absurd (hfinal ht) hnot⟩

theorem steps_setReviews (h : History) (reviews : GoMap GoString ChangesetReviewState) (t : Time) :
    Steps h .keep (h.setReviews reviews t) := by
  simp only [setReviews]
  split_ifs
  · exact .keep rfl rfl (.inr ⟨t, rfl⟩)
  · exact .keep rfl rfl (.inl rfl)

theorem steps_review (h : History) (e : ChangesetEvent) (s : ChangesetReviewState) :
    Steps h .keep (h.review e s) := by
  unfold review
  split_ifs
  · exact .keep rfl rfl (.inl rfl)
  · exact .keep rfl rfl (.inl rfl)
  · exact steps_setReviews _ _ _
  · exact steps_setReviews _ _ _

theorem steps_withdraw (h : History) (e : ChangesetEvent) : Steps h .keep (h.withdraw e) := by
  unfold withdraw
  split_ifs
  · exact .keep rfl rfl (.inl rfl)
  · exact .keep rfl rfl (.inl rfl)
  · exact .keep rfl rfl (.inl rfl)
  · exact steps_setReviews _ _ _

theorem steps_close (h : History) (t : Time) : Steps h .close (h.close t) := by
  by_cases hfinal : h.lifecycle.Final
  · rw [close, if_pos (h.isFinal_iff.mpr hfinal)]
    exact .stay rfl (if_pos hfinal).symm fun _ => hfinal
  · rw [close, if_neg (mt h.isFinal_iff.mp hfinal)]
    exact .moveTo t rfl (if_neg hfinal)

theorem steps_markDraft (h : History) (t : Time) : Steps h .markDraft (h.markDraft t) := by
  by_cases hopened : h.currentExtState = .opened
  · rw [markDraft, if_pos hopened]
    exact .moveTo t rfl (congrArg (Lifecycle.mk · true) (if_pos hopened))
  · rw [markDraft, if_neg hopened]
    exact .stay rfl (congrArg (Lifecycle.mk · true) (if_neg hopened)).symm (by simp)

theorem steps_convertToDraft (h : History) (t : Time) :
    Steps h .convertToDraft (h.convertToDraft t) := by
  by_cases hfinal : h.lifecycle.Final
  · rw [convertToDraft, if_pos (h.isFinal_iff.mpr hfinal)]
    exact .stay rfl (congrArg (Lifecycle.mk · true) (if_pos hfinal)).symm fun _ => hfinal
  · rw [convertToDraft, if_neg (mt h.isFinal_iff.mp hfinal)]
    exact .moveTo t rfl (congrArg (Lifecycle.mk · true) (if_neg hfinal))

theorem steps_ready (h : History) (t : Time) : Steps h .ready (h.ready t) := by
  by_cases hdraft : h.currentExtState = .draft
  · rw [ready, if_pos hdraft]
    exact .moveTo t rfl (congrArg (Lifecycle.mk · false) (if_pos hdraft))
  · rw [ready, if_neg hdraft]
    exact .stay rfl (congrArg (Lifecycle.mk · false) (if_neg hdraft)).symm (by simp)

theorem steps_reopen (h : History) (t : Time) : Steps h .reopen (h.reopen t) := by
  by_cases hfinal : h.lifecycle.Final
  · rw [reopen, if_pos (h.isFinal_iff.mpr hfinal)]
    exact .stay rfl (if_pos hfinal).symm fun _ => hfinal
  · rw [reopen, if_neg (mt h.isFinal_iff.mp hfinal)]
    exact .moveTo t rfl (if_neg hfinal)

/-- **What an event does**, and to the external state. -/
inductive Does (h : History) (e : ChangesetEvent) : Transition → History → Prop
  | skip : Does h e .keep h
  | review (s : ChangesetReviewState) : Does h e .keep (h.review e s)
  | withdraw : Does h e .keep (h.withdraw e)
  | requestChanges : Does h e .keep (h.requestChanges e)
  | close : Does h e .close (h.close e.timestamp)
  | merge : Does h e .merge (h.moveTo .merged e.timestamp)
  | markDraft : Does h e .markDraft (h.markDraft e.timestamp)
  | convertToDraft : Does h e .convertToDraft (h.convertToDraft e.timestamp)
  | ready : Does h e .ready (h.ready e.timestamp)
  | reopen : Does h e .reopen (h.reopen e.timestamp)

variable {e : ChangesetEvent}

theorem does_of_step (hstep : h.step e = .ok h') :
    Does h e e.transition h' := by
  unfold step at hstep
  unfold ChangesetEvent.transition
  by_cases hzero : e.timestamp = 0
  · rw [if_pos hzero] at hstep ⊢
    cases hstep
    exact .skip
  rw [if_neg hzero] at hstep ⊢
  cases hkind : e.kind with
  | gitHubReviewed | bitbucketServerApproved | bitbucketServerReviewed | gitLabApproved
  | bitbucketCloudApproved | bitbucketCloudPullRequestApproved | azureDevOpsPullRequestApproved =>
    rw [hkind] at hstep
    obtain ⟨s, -, rfl⟩ := Except.exists_of_map hstep
    exact .review s
  | _ =>
    rw [hkind] at hstep
    cases hstep
    constructor

theorem Does.steps (hdoes : Does h e t h') :
    Steps h t h' := by
  cases hdoes with
  | skip => exact .keep rfl rfl (.inl rfl)
  | review s => exact steps_review h e s
  | withdraw => exact steps_withdraw h e
  | requestChanges => exact .keep rfl rfl (.inr ⟨e.timestamp, rfl⟩)
  | close => exact steps_close h _
  | merge => exact .moveTo e.timestamp rfl rfl
  | markDraft => exact steps_markDraft h _
  | convertToDraft => exact steps_convertToDraft h _
  | ready => exact steps_ready h _
  | reopen => exact steps_reopen h _

/-- **Each event takes the lifecycle one step.** -/
theorem steps_step (hstep : h.step e = .ok h') :
    Steps h e.transition h' :=
  (does_of_step hstep).steps

/-! ## Runs -/

theorem exists_of_foldlM_append {events events' : List ChangesetEvent}
    (hrun : (events ++ events').foldlM step h = .ok h') :
    ∃ h₁, events.foldlM step h = .ok h₁ ∧ events'.foldlM step h₁ = .ok h' := by
  rw [foldlM_append] at hrun
  exact Except.exists_of_bind hrun

variable {events : List ChangesetEvent}

theorem exists_of_foldlM_cons (hrun : (e :: events).foldlM step h = .ok h') :
    ∃ h₁, h.step e = .ok h₁ ∧ events.foldlM step h₁ = .ok h' := by
  rw [foldlM_cons] at hrun
  exact Except.exists_of_bind hrun

theorem lifecycle_foldlM (hrun : events.foldlM step h = .ok h') :
    h'.lifecycle = h.lifecycle.run (events.map ChangesetEvent.transition) := by
  induction events generalizing h with
  | nil => rw [← Except.ok.inj hrun]; rfl
  | cons e events ih =>
    obtain ⟨h₁, hstep, hrest⟩ := exists_of_foldlM_cons hrun
    rw [ih hrest, (steps_step hstep).lifecycle_eq]
    rfl

/-- **What holds of the state throughout a run** holds of the entries. -/
theorem entries_foldlM {P : ChangesetExternalState → Prop}
    (hkeep : ∀ e ∈ events, ∀ l : Lifecycle, P l.state → P (l.next e.transition).state)
    (hrun : events.foldlM step h = .ok h') (hP : P h.currentExtState) :
    P h'.currentExtState ∧
      ∃ new, h'.states = h.states ++ new ∧ ∀ entry ∈ new, P entry.externalState := by
  induction events generalizing h with
  | nil =>
    rw [← Except.ok.inj hrun]
    exact ⟨hP, [], (append_nil _).symm, fun _ h => absurd h not_mem_nil⟩
  | cons e events ih =>
    obtain ⟨h₁, hstep, hrest⟩ := exists_of_foldlM_cons hrun
    obtain ⟨hlifecycle, new, hnew, hentries, -⟩ := steps_step hstep
    have hstate : P h₁.currentExtState := by
      have hnext := hkeep e mem_cons_self h.lifecycle hP
      rw [← hlifecycle] at hnext
      exact hnext
    obtain ⟨hP', later, hlater, hentries'⟩ :=
      ih (fun e he => hkeep e (mem_cons_of_mem _ he)) hrest hstate
    refine ⟨hP', new ++ later, by rw [hlater, hnew, append_assoc], fun entry hentry => ?_⟩
    rcases mem_append.mp hentry with hentry | hentry
    · rw [hentries entry hentry]
      exact hstate
    · exact hentries' entry hentry

/-- **A merged state is never left.** -/
theorem merged_foldlM (hrun : events.foldlM step h = .ok h')
    (hpairwise : h.states.Pairwise fun entry later =>
      entry.externalState = .merged → later.externalState = .merged)
    (hcurrent : ∀ entry ∈ h.states, entry.externalState = .merged →
      h.currentExtState = .merged) :
    h'.states.Pairwise fun entry later =>
      entry.externalState = .merged → later.externalState = .merged := by
  induction events generalizing h with
  | nil =>
    rw [← Except.ok.inj hrun]
    exact hpairwise
  | cons e events ih =>
    obtain ⟨h₁, hstep, hrest⟩ := exists_of_foldlM_cons hrun
    obtain ⟨hlifecycle, new, hnew, hentries, -⟩ := steps_step hstep
    have hmerged : h.currentExtState = .merged → h₁.currentExtState = .merged := fun hmerged => by
      have hnext := Lifecycle.next_merged (l := h.lifecycle) hmerged e.transition
      rw [← hlifecycle] at hnext
      exact hnext
    refine ih hrest ?_ ?_
    · rw [hnew, pairwise_append]
      refine ⟨hpairwise, pairwise_of_forall_mem_list ?_, ?_⟩
      · intro entry hentry later hlater hstate
        rw [hentries later hlater, ← hentries entry hentry]
        exact hstate
      · intro entry hentry later hlater hstate
        rw [hentries later hlater]
        exact hmerged (hcurrent entry hentry hstate)
    · intro entry hentry hstate
      rw [hnew] at hentry
      rcases mem_append.mp hentry with hentry | hentry
      · exact hmerged (hcurrent entry hentry hstate)
      · rw [← hentries entry hentry]
        exact hstate

end History

/-! ## Sound histories -/

section

variable (ch : Changeset) (ce : List ChangesetEvent)

/-- What is recorded after the first events. -/
def read (events : List ChangesetEvent) : Except GoString History :=
  events.foldlM History.step (.start ch ce)

/-- The number of entries after the first events. -/
def entryCount (events : List ChangesetEvent) : ℕ :=
  match read ch ce events with
  | .ok h => h.states.length
  | .error _ => 0

/-- Whether the metadata of an event makes the changeset a draft, or ready. -/
def EventType.marks : EventType → Option Bool
  | .gitLabUnmarkWorkInProgress | .gitHubReadyForReview => some false
  | .gitLabMarkWorkInProgress | .gitHubConvertToDraft => some true
  | _ => none

/-- **Created as a draft**: what the first event changed, it was before; if no
event changed it, it was what it is. -/
def createdAsDraft : Bool :=
  match ch.metadata.isDraft with
  | none => false
  | some isDraft => ((ce.findSome? fun e => e.metadata.marks).map not).getD isDraft

/-- The latest event that says so made the changeset a draft, or it was
created as one. -/
def draftBefore (before : List ChangesetEvent) : Bool :=
  ((before.map ChangesetEvent.transition).reverse.findSome? Transition.marks).getD
    (createdAsDraft ch ce)

/-- **A sound history**: closed is closed until the changeset is reopened or
merged, merged is final, and what is reopened is a draft if it was one. -/
structure Sound (hist : List ChangesetStatesAtTime) : Prop where
  closed : ∀ before e between, before ++ e :: between <+: ce → e.transition = .close →
    (∀ e' ∈ before, e'.transition ≠ .merge) →
    (∀ e' ∈ between, e'.transition ≠ .reopen ∧ e'.transition ≠ .merge) →
    ∀ entry ∈ (hist.take (entryCount ch ce (before ++ e :: between))).drop
      (entryCount ch ce before), entry.externalState = .closed
  merged : hist.Pairwise fun entry later =>
    entry.externalState = .merged → later.externalState = .merged
  reopened : ∀ before e, before ++ [e] <+: ce → e.transition = .reopen →
    (∀ e' ∈ before, e'.transition ≠ .merge) →
    ∃ entry, hist[entryCount ch ce before]? = some entry ∧
      (entry.externalState = .draft ↔ draftBefore ch ce before = true)

/-- A conversion to a draft on GitHub, after the changeset was closed and
before it is reopened or merged. -/
def ConvertedWhileClosed : Prop :=
  ∃ before e between d, before ++ e :: between ++ [d] <+: ce ∧ e.transition = .close ∧
    d.transition = .convertToDraft ∧ (∀ e' ∈ before, e'.transition ≠ .merge) ∧
    ∀ e' ∈ between, e'.transition ≠ .reopen ∧ e'.transition ≠ .merge

end

open History

section

variable {ch : Changeset} {ce : List ChangesetEvent}

theorem foldl_openBefore (events : List ChangesetEvent) (isOpen : Bool) :
    events.reverse.foldl (fun isOpen e => e.metadata.openBefore isOpen) isOpen =
      (((events.findSome? fun e => e.metadata.marks).map not).getD !isOpen).not := by
  induction events with
  | nil => exact (Bool.not_not _).symm
  | cons e events ih =>
    rw [reverse_cons, foldl_append, foldl_cons, foldl_nil, ih, findSome?_cons]
    cases e.metadata with
    | gitHubReadyForReview | gitHubConvertToDraft | gitLabMarkWorkInProgress
    | gitLabUnmarkWorkInProgress => rfl
    | gitHubPullRequestReview state => rfl
    | other => rfl

theorem initialExternalState_eq (ch : Changeset) (ce : List ChangesetEvent) :
    initialExternalState ch ce = if createdAsDraft ch ce then .draft else .opened := by
  unfold initialExternalState createdAsDraft
  cases ch.metadata.isDraft with
  | none => rfl
  | some isDraft =>
    have hnot : ∀ b : Bool, (if (!b) = true then ChangesetExternalState.opened else .draft) =
        if b = true then .draft else .opened := by decide
    simp only [foldl_openBefore, Bool.not_not]
    exact hnot _

theorem lifecycle_start (ch : Changeset) (ce : List ChangesetEvent) :
    (History.start ch ce).lifecycle =
      ⟨if createdAsDraft ch ce then .draft else .opened, createdAsDraft ch ce⟩ := by
  show Lifecycle.mk (initialExternalState ch ce) (initialExternalState ch ce = .draft) = _
  rw [initialExternalState_eq]
  cases createdAsDraft ch ce <;> rfl

theorem not_final_start (ch : Changeset) (ce : List ChangesetEvent) :
    ¬ (History.start ch ce).lifecycle.Final := by
  rw [lifecycle_start]
  cases createdAsDraft ch ce <;> decide

variable {events : List ChangesetEvent}

theorem not_final_read {h : History}
    (hread : read ch ce events = .ok h) (hmerge : ∀ e ∈ events, e.transition ≠ .merge) :
    ¬ h.lifecycle.Final := by
  rw [lifecycle_foldlM hread]
  refine Lifecycle.not_final_run (not_final_start ch ce) fun hmem => ?_
  obtain ⟨e, he, htransition⟩ := mem_map.mp hmem
  exact hmerge e he htransition

theorem entryCount_of_read {h : History}
    (hread : read ch ce events = .ok h) : entryCount ch ce events = h.states.length := by
  rw [entryCount, hread]

variable {hist : List ChangesetStatesAtTime} (hhist : computeHistory ch ce = .ok hist)
  (hdeleted : ch.externalDeletedAt = 0)

include hhist hdeleted

theorem exists_read : ∃ h, read ch ce ce = .ok h ∧ hist = h.states := by
  unfold computeHistory at hhist
  split_ifs at hhist
  obtain ⟨h, hread, rfl⟩ := Except.exists_of_map hhist
  have hfinish : h.finish ch = h := if_neg (not_not_intro hdeleted)
  exact ⟨h, hread, congrArg states hfinish⟩

/-- The history begins with what is recorded after the first events. -/
theorem exists_read_of_isPrefix (h : events <+: ce) :
    ∃ s, read ch ce events = .ok s ∧ s.states <+: hist := by
  obtain ⟨final, hread, rfl⟩ := exists_read hhist hdeleted
  obtain ⟨rest, rfl⟩ := h
  obtain ⟨s, hs, hrest⟩ := exists_of_foldlM_append hread
  obtain ⟨-, new, hnew, -⟩ := entries_foldlM (P := fun _ => True)
    (fun _ _ _ _ => trivial) hrest trivial
  exact ⟨s, hs, new, hnew.symm⟩

/-- A closed changeset stays closed if nothing converts it to a draft. -/
theorem closed_of_not_converted (hnot : ¬ ConvertedWhileClosed ce)
    {before between : List ChangesetEvent} {e : ChangesetEvent}
    (hevents : before ++ e :: between <+: ce) (hclose : e.transition = .close)
    (hbefore : ∀ e' ∈ before, e'.transition ≠ .merge)
    (hbetween : ∀ e' ∈ between, e'.transition ≠ .reopen ∧ e'.transition ≠ .merge) :
    ∀ entry ∈ (hist.take (entryCount ch ce (before ++ e :: between))).drop
      (entryCount ch ce before), entry.externalState = .closed := by
  obtain ⟨s, hs, hstates⟩ := exists_read_of_isPrefix hhist hdeleted hevents
  obtain ⟨s₀, hs₀, hrest⟩ := exists_of_foldlM_append hs
  obtain ⟨s₁, hstep, hrun⟩ := exists_of_foldlM_cons hrest
  obtain ⟨new, hnew, hentries, -⟩ := (steps_step hstep).records
  have hclosed : s₁.currentExtState = .closed := by
    rw [(steps_step hstep).currentExtState_eq, hclose, Lifecycle.next,
      if_neg (not_final_read hs₀ hbefore)]
  have hkeep : ∀ e' ∈ between, ∀ l : Lifecycle, l.state = .closed →
      (l.next e'.transition).state = .closed := by
    intro e' he' l hl
    refine Lifecycle.next_closed hl (hbetween e' he').1 (hbetween e' he').2 fun hconvert => hnot ?_
    obtain ⟨between₁, between₂, rfl⟩ := append_of_mem he'
    refine ⟨before, e, between₁, e', List.IsPrefix.trans ⟨between₂, ?_⟩ hevents, hclose, hconvert,
      hbefore, fun e'' he'' => hbetween e'' (mem_append_left _ he'')⟩
    simp only [append_assoc, cons_append, nil_append]
  obtain ⟨-, later, hlater, hentries'⟩ := entries_foldlM (P := (· = .closed)) hkeep hrun hclosed
  rw [entryCount_of_read hs, entryCount_of_read hs₀, ← prefix_iff_eq_take.mp hstates, hlater,
    hnew, append_assoc, drop_left]
  intro entry hentry
  rcases mem_append.mp hentry with hentry | hentry
  · rw [hentries entry hentry]
    exact hclosed
  · exact hentries' entry hentry

/-- **The history is sound** exactly if the changeset is not converted to a
draft on GitHub while it is closed. -/
theorem sound_iff : Sound ch ce hist ↔ ¬ ConvertedWhileClosed ce := by
  constructor
  · rintro hsound ⟨before, e, between, d, hevents, hclose, hconvert, hbefore, hbetween⟩
    -- the conversion records a draft
    obtain ⟨s, hs, hstates⟩ := exists_read_of_isPrefix hhist hdeleted hevents
    obtain ⟨s₁, hs₁, hlast⟩ := exists_of_foldlM_append hs
    obtain ⟨s₀, hs₀, hrun⟩ := exists_of_foldlM_append hs₁
    obtain ⟨s₂, hstep, hnil⟩ := exists_of_foldlM_cons hlast
    obtain rfl : s₂ = s := Except.ok.inj hnil
    obtain ⟨new, hnew, hentries, hrecords⟩ := (steps_step hstep).records
    obtain ⟨-, earlier, hearlier, -⟩ := entries_foldlM (P := fun _ => True)
      (fun _ _ _ _ => trivial) hrun trivial
    have hfinal : ¬ s₁.lifecycle.Final := by
      refine not_final_read hs₁ fun e' he' => ?_
      rcases mem_append.mp he' with he' | he'
      · exact hbefore e' he'
      rcases mem_cons.mp he' with rfl | he'
      · rw [hclose]
        decide
      · exact (hbetween e' he').2
    obtain ⟨entry, hentry⟩ := exists_mem_of_ne_nil new (hrecords (.inl hconvert) hfinal)
    have hdraft : entry.externalState = .draft := by
      rw [hentries entry hentry, (steps_step hstep).currentExtState_eq, hconvert,
        Lifecycle.next, if_neg hfinal]
    have hevents' : before ++ e :: (between ++ [d]) <+: ce := by
      rw [append_assoc] at hevents
      exact hevents
    have hs' : read ch ce (before ++ e :: (between ++ [d])) = .ok s₂ := by
      rw [append_assoc] at hs
      exact hs
    have hclosed := hsound.closed before e (between ++ [d]) hevents' hclose hbefore (by
      intro e' he'
      rcases mem_append.mp he' with he' | he'
      · exact hbetween e' he'
      · rw [mem_singleton.mp he', hconvert]
        decide) entry (by
      rw [entryCount_of_read hs', entryCount_of_read hs₀, ← prefix_iff_eq_take.mp hstates,
        hnew, hearlier, append_assoc, drop_left]
      exact mem_append_right _ hentry)
    rw [hdraft] at hclosed
    exact absurd hclosed (by decide)
  · intro hnot
    refine ⟨fun before e between => closed_of_not_converted hhist hdeleted hnot, ?_, ?_⟩
    · obtain ⟨h, hread, rfl⟩ := exists_read hhist hdeleted
      refine merged_foldlM hread (pairwise_singleton _ _) fun entry hentry hmerged => ?_
      rw [mem_singleton.mp hentry] at hmerged
      exact hmerged
    · intro before e hevents hreopen hbefore
      obtain ⟨s, hs, hstates⟩ := exists_read_of_isPrefix hhist hdeleted hevents
      obtain ⟨s₀, hs₀, hrest⟩ := exists_of_foldlM_append hs
      obtain ⟨s₁, hstep, hnil⟩ := exists_of_foldlM_cons hrest
      obtain rfl : s₁ = s := Except.ok.inj hnil
      obtain ⟨new, hnew, hentries, hrecords⟩ := (steps_step hstep).records
      have hfinal := not_final_read hs₀ hbefore
      obtain ⟨entry, more, rfl⟩ := exists_cons_of_ne_nil (hrecords (.inr hreopen) hfinal)
      refine ⟨entry, ?_, ?_⟩
      · obtain ⟨rest, rfl⟩ := hstates
        rw [entryCount_of_read hs₀, hnew, append_assoc, getElem?_append_right le_rfl, Nat.sub_self]
        rfl
      · have hdraft : s₀.isDraft = draftBefore ch ce before := by
          have hrun := congrArg Lifecycle.isDraft (lifecycle_foldlM hs₀)
          rw [Lifecycle.isDraft_run, lifecycle_start] at hrun
          exact hrun
        have hnext : s₁.currentExtState = if s₀.isDraft then .draft else .opened := by
          rw [(steps_step hstep).currentExtState_eq, hreopen, Lifecycle.next, if_neg hfinal]
          rfl
        rw [hentries entry mem_cons_self, hnext, hdraft]
        cases draftBefore ch ce before <;> decide

end

/-- A pull request that is no draft. -/
def pullRequest : Changeset := ⟨1, .gitHubPullRequest false 1, 0⟩

/-- A draft that was opened at instant 1. -/
def mergeRequest : Changeset := ⟨1, .gitLabMergeRequest true 1, 0⟩

/-- It is closed, marked as a draft and opened again. -/
def markedWhileClosed : List ChangesetEvent :=
  [⟨1, .gitLabClosed, .other, 2, []⟩,
    ⟨1, .gitLabMarkWorkInProgress, .gitLabMarkWorkInProgress, 3, []⟩,
    ⟨1, .gitLabReopened, .other, 4, []⟩]

/-- On GitLab the state changes when the changeset is reopened. -/
theorem sound_markedWhileClosed : Sound mergeRequest markedWhileClosed
    [⟨1, .opened, .pending⟩, ⟨2, .closed, .pending⟩, ⟨4, .draft, .pending⟩] := by
  refine (sound_iff rfl rfl).mpr ?_
  rintro ⟨before, e, between, d, hevents, -, hconvert, -⟩
  have hnone : ∀ d ∈ markedWhileClosed, d.transition ≠ .convertToDraft := by decide
  exact hnone d (hevents.subset (mem_append_right _ (mem_singleton_self d))) hconvert

/-- A pull request that is closed and then converted to a draft. -/
def convertedWhileClosed : List ChangesetEvent :=
  [⟨1, .gitHubClosed, .other, 2, []⟩, ⟨1, .gitHubConvertToDraft, .gitHubConvertToDraft, 3, []⟩]

/-- **On GitHub the conversion reopens the changeset**, in its history. -/
theorem computeHistory_convertedWhileClosed :
    computeHistory pullRequest convertedWhileClosed = .ok
      [⟨1, .opened, .pending⟩, ⟨2, .closed, .pending⟩, ⟨3, .draft, .pending⟩] ∧
    ¬ Sound pullRequest convertedWhileClosed
      [⟨1, .opened, .pending⟩, ⟨2, .closed, .pending⟩, ⟨3, .draft, .pending⟩] := by
  refine ⟨rfl, fun hsound => ?_⟩
  have hclosed := hsound.closed [] ⟨1, .gitHubClosed, .other, 2, []⟩
    [⟨1, .gitHubConvertToDraft, .gitHubConvertToDraft, 3, []⟩] ⟨[], rfl⟩ rfl
    (fun _ h => absurd h not_mem_nil) (by decide) ⟨3, .draft, .pending⟩ (by decide)
  exact absurd hclosed (by decide)

end Changesets
