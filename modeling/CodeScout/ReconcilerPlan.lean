import CodeScout.Util.GoString
import Mathlib

/-!
# Plans of the changeset reconciler

What `DeterminePlan` decides to do with a changeset: it looks at the
associations of the changeset with batch changes, at its states and at the
difference of its two specs, and writes down a list of operations.

Operations are either added to the list or *replace* it. Publishing,
archiving and reopening replace it, and with it the operation `detach` that
the associations asked for before. `detach_mem_determinePlan` says exactly
when a requested detach survives.
-/

namespace Reconciler

/-! ## Changesets -/

/-- The publication state of a changeset. The source keeps states as strings,
so there are also the ones it does not know. -/
inductive ChangesetPublicationState
  | unpublished
  | published
  | unknown (state : GoString)
  deriving DecidableEq

/-- What was chosen in the user interface. -/
inductive ChangesetUiPublicationState
  | unpublished
  | draft
  | published
  | unknown (state : GoString)
  deriving DecidableEq

/-- The state of a changeset on its code host, the empty string before it is
published. -/
inductive ChangesetExternalState
  | draft
  | open
  | closed
  | merged
  | deleted
  | readOnly
  | unknown (state : GoString)
  deriving DecidableEq

/-- What the reconciler can do with a changeset. -/
inductive ReconcilerOperation
  | push
  | update
  | undraft
  | publish
  | publishDraft
  | sync
  | importChangeset
  | close
  | reopen
  | sleep
  | detach
  | archive
  | reattach
  deriving DecidableEq

/-- The value of `published` in a spec, which may be anything that JSON or
YAML can express. -/
inductive PublishedValue
  | nil
  | bool (b : Bool)
  | string (s : GoString)
  | other
  deriving DecidableEq

namespace PublishedValue

/-- The changeset is to be published. -/
def isTrue : PublishedValue → Bool
  | .bool b => b
  | _ => false

/-- The changeset is to be published as a draft. -/
def isDraft : PublishedValue → Bool
  | .string s => s == lit "draft"
  | _ => false

/-- The spec leaves it to the user interface. -/
def isNil : PublishedValue → Bool
  | .nil => true
  | _ => false

end PublishedValue

/-- How a changeset belongs to a batch change. -/
structure BatchChangeAssoc where
  batchChangeID : ℤ
  detach : Bool := false
  archive : Bool := false
  isArchived : Bool := false
  deriving DecidableEq

/-- A changeset on a code host, or one that is to be published there. -/
structure Changeset where
  batchChanges : List BatchChangeAssoc
  externalServiceType : GoString
  externalState : ChangesetExternalState
  /-- The batch change that may write to the changeset, zero for a changeset
  that is only tracked. -/
  ownedByBatchChangeID : ℤ
  publicationState : ChangesetPublicationState
  uiPublicationState : Option ChangesetUiPublicationState
  closing : Bool
  deriving DecidableEq

/-- What a changeset should look like. -/
structure ChangesetSpec where
  baseRef : GoString
  title : GoString
  body : GoString
  published : PublishedValue
  diff : List UInt8
  commitMessage : GoString
  commitAuthorName : GoString
  commitAuthorEmail : GoString
  deriving DecidableEq

/-- What only some code hosts can do. -/
inductive CodehostCapability
  | labels
  | draftChangesets
  deriving DecidableEq

/-- The code hosts, and what they can do. -/
def supportedExternalServices : List (GoString × List CodehostCapability) :=
  [(lit "github", [.labels, .draftChangesets]),
    (lit "bitbucketServer", []),
    (lit "gitlab", [.labels, .draftChangesets]),
    (lit "bitbucketCloud", []),
    (lit "azuredevops", [.draftChangesets]),
    (lit "gerrit", [.draftChangesets])]

/-- Whether a code host can do something. -/
def externalServiceSupports (extSvcType : GoString) (capability : CodehostCapability) : Bool :=
  match supportedExternalServices.lookup extSvcType with
  | some es => es.contains capability
  | none => false

namespace Changeset

/-- The changeset is on the code host. -/
def isPublished (c : Changeset) : Bool := c.publicationState == .published

/-- The changeset is not on the code host yet. -/
def isUnpublished (c : Changeset) : Bool := c.publicationState == .unpublished

/-- The changeset belongs to a batch change. -/
def attachedTo (c : Changeset) (batchChangeID : ℤ) : Bool :=
  c.batchChanges.any fun assoc => assoc.batchChangeID == batchChangeID

/-- The code host of a changeset has drafts. -/
def supportsDraft (c : Changeset) : Bool :=
  externalServiceSupports c.externalServiceType .draftChangesets

end Changeset

/-! ## Publication states -/

/-- The two places where publication is decided. -/
structure PublicationStateCalculator where
  spec : PublishedValue
  ui : Option ChangesetUiPublicationState

/-- The calculator for a spec and a choice in the user interface. -/
def calculatePublicationState (specPublished : PublishedValue)
    (uiPublished : Option ChangesetUiPublicationState) : PublicationStateCalculator :=
  ⟨specPublished, uiPublished⟩

namespace PublicationStateCalculator

/-- The spec decides; the user interface only if it leaves it open. -/
def isPublished (c : PublicationStateCalculator) : Bool :=
  c.spec.isTrue || (c.spec.isNil && c.ui == some .published)

/-- The same for a draft. -/
def isDraft (c : PublicationStateCalculator) : Bool :=
  c.spec.isDraft || (c.spec.isNil && c.ui == some .draft)

end PublicationStateCalculator

/-! ## Differences of specs -/

/-- What differs between two specs. -/
structure ChangesetSpecDelta where
  titleChanged : Bool := false
  bodyChanged : Bool := false
  undraft : Bool := false
  baseRefChanged : Bool := false
  diffChanged : Bool := false
  commitMessageChanged : Bool := false
  authorNameChanged : Bool := false
  authorEmailChanged : Bool := false
  deriving DecidableEq

namespace ChangesetSpecDelta

/-- The commit has to be made again. -/
def needCommitUpdate (d : ChangesetSpecDelta) : Bool :=
  d.diffChanged || d.commitMessageChanged || d.authorNameChanged || d.authorEmailChanged

/-- The changeset has to be edited on the code host. -/
def needCodeHostUpdate (d : ChangesetSpecDelta) : Bool :=
  d.titleChanged || d.bodyChanged || d.baseRefChanged

/-- Something has to be done for the differences. -/
def attributesChanged (d : ChangesetSpecDelta) : Bool :=
  d.needCommitUpdate || d.needCodeHostUpdate

end ChangesetSpecDelta

/-- **The differences to the previous spec**, none if there is none. -/
def compareChangesetSpecs (previous : Option ChangesetSpec) (current : ChangesetSpec)
    (uiPublicationState : Option ChangesetUiPublicationState) : ChangesetSpecDelta :=
  match previous with
  | none => {}
  | some previous =>
    { titleChanged := previous.title != current.title
      bodyChanged := previous.body != current.body
      baseRefChanged := previous.baseRef != current.baseRef
      undraft := (calculatePublicationState previous.published uiPublicationState).isDraft &&
        (calculatePublicationState current.published uiPublicationState).isPublished
      diffChanged := previous.diff != current.diff
      commitMessageChanged := previous.commitMessage != current.commitMessage
      authorNameChanged := previous.commitAuthorName != current.commitAuthorName
      authorEmailChanged := previous.commitAuthorEmail != current.commitAuthorEmail }

/-! ## Plans -/

/-- What is to be done with a changeset, in which order. -/
structure Plan where
  changeset : Changeset
  changesetSpec : Option ChangesetSpec
  ops : List ReconcilerOperation := []
  delta : Option ChangesetSpecDelta := none
  deriving DecidableEq

namespace Plan

/-- One more operation. -/
def addOp (pl : Plan) (op : ReconcilerOperation) : Plan := { pl with ops := pl.ops ++ [op] }

/-- This operation instead of all others. -/
def setOp (pl : Plan) (op : ReconcilerOperation) : Plan := { pl with ops := [op] }

variable {op op' : ReconcilerOperation}

@[simp] theorem mem_ops_addOp {pl : Plan} :
    op ∈ (pl.addOp op').ops ↔ op ∈ pl.ops ∨ op = op' := by
  simp [addOp]

@[simp] theorem mem_ops_setOp {pl : Plan} :
    op ∈ (pl.setOp op').ops ↔ op = op' := by
  simp [setOp]

/-- An operation that may be added keeps the others. -/
theorem mem_ops_ite_addOp {pl : Plan} (h : op ≠ op')
    (b : Prop) [Decidable b] : op ∈ (if b then pl.addOp op' else pl).ops ↔ op ∈ pl.ops := by
  split_ifs <;> simp [h]

/-- An operation that may replace the list keeps the others only if it does
not. -/
theorem mem_ops_ite_setOp {pl : Plan} (h : op ≠ op')
    (b : Prop) [Decidable b] : op ∈ (if b then pl.setOp op' else pl).ops ↔ op ∈ pl.ops ∧ ¬b := by
  split_ifs with hb <;> simp [h, hb]

end Plan

/-- What the loop over the associations of a changeset finds out. -/
structure AssocFlags where
  wantDetach : Bool := false
  wantArchive : Bool := false
  isArchived : Bool := false
  isStillAttached : Bool := false
  isReattach : Bool := false
  wantDetachFromOwnerBatchChange : Bool := false

/-- One round of the loop over the associations. -/
def AssocFlags.visit (currentChangeset : Option Changeset) (wantedChangeset : Changeset)
    (flags : AssocFlags) (assoc : BatchChangeAssoc) : AssocFlags :=
  if assoc.detach then
    { flags with
      wantDetach := true
      wantDetachFromOwnerBatchChange := flags.wantDetachFromOwnerBatchChange ||
        assoc.batchChangeID == wantedChangeset.ownedByBatchChangeID }
  else if assoc.archive && assoc.batchChangeID == wantedChangeset.ownedByBatchChangeID &&
      wantedChangeset.isPublished then
    { flags with wantArchive := !assoc.isArchived, isArchived := assoc.isArchived }
  else if currentChangeset.any fun c => c.batchChanges.isEmpty then
    { flags with isReattach := true }
  else
    { flags with isStillAttached := true }

/-- The loop over the batch changes of the wanted changeset. -/
def AssocFlags.ofAssocs (currentChangeset : Option Changeset) (wantedChangeset : Changeset) :
    AssocFlags :=
  wantedChangeset.batchChanges.foldl (AssocFlags.visit currentChangeset wantedChangeset) {}

/-- A closed changeset is reopened when a batch change takes it over again. -/
def reopenAfterDetach (ch : Changeset) : Bool :=
  let closed := ch.externalState == .closed || ch.externalState == .readOnly
  if !closed then
    false
  else if ch.ownedByBatchChangeID == 0 then
    false
  else if ch.closing then
    false
  else
    ch.attachedTo ch.ownedByBatchChangeID

/-- The plan for a changeset that is not published yet. -/
def planUnpublished (currentSpec : ChangesetSpec) (wantedChangeset : Changeset) (pl : Plan) :
    Plan :=
  let state := calculatePublicationState currentSpec.published wantedChangeset.uiPublicationState
  if state.isPublished then
    (pl.setOp .publish).addOp .push
  else if state.isDraft && wantedChangeset.supportsDraft then
    (pl.setOp .publishDraft).addOp .push
  else
    pl

/-- Does a published changeset have to leave the draft state? -/
def needUndraft (currentSpec : ChangesetSpec) (wantedChangeset : Changeset)
    (delta : ChangesetSpecDelta) : Bool :=
  externalServiceSupports wantedChangeset.externalServiceType .draftChangesets &&
    (delta.undraft ||
      (calculatePublicationState currentSpec.published
          wantedChangeset.uiPublicationState).isPublished &&
        wantedChangeset.externalState == .draft)

/-- The operations for the changed attributes of a spec. -/
def planAttributes (delta : ChangesetSpecDelta) (pl : Plan) : Plan :=
  if delta.attributesChanged then
    let pl := if delta.needCommitUpdate then pl.addOp .push else pl
    if !delta.needCodeHostUpdate then
      (pl.addOp .sleep).addOp .sync
    else
      pl.addOp .update
  else
    pl

/-- The plan for a published changeset. -/
def planPublished (currentSpec : ChangesetSpec) (wantedChangeset : Changeset)
    (delta : ChangesetSpecDelta) (pl : Plan) : Plan :=
  if wantedChangeset.externalState == .merged || wantedChangeset.externalState == .readOnly then
    pl
  else
    let pl := if reopenAfterDetach wantedChangeset then pl.setOp .reopen else pl
    let pl := if needUndraft currentSpec wantedChangeset delta then pl.addOp .undraft else pl
    planAttributes delta pl

/-- The plan after the loop over the associations. -/
def planAssocs (flags : AssocFlags) (currentSpec : Option ChangesetSpec)
    (wantedChangeset : Changeset) : Plan :=
  let pl : Plan := { changeset := wantedChangeset, changesetSpec := currentSpec }
  let pl := if flags.wantDetach then pl.setOp .detach else pl
  if flags.wantArchive then pl.setOp .archive else pl

/-- The plan for a changeset without a spec, which is an imported one. -/
def planImported (flags : AssocFlags) (wantedChangeset : Changeset) (pl : Plan) : Plan :=
  if wantedChangeset.isUnpublished && flags.isStillAttached then
    pl.addOp .importChangeset
  else if flags.isReattach && !flags.wantDetach then
    pl.addOp .reattach
  else
    pl

/-- The plan for a changeset with a spec. In the case of an error the source
returns the plan as well. -/
def planSpec (flags : AssocFlags) (previousSpec : Option ChangesetSpec)
    (currentSpec : ChangesetSpec) (wantedChangeset : Changeset) (pl : Plan) :
    Plan × Option GoString :=
  let pl := if previousSpec.isSome && flags.isReattach && !flags.wantDetach then
      pl.addOp .reattach
    else pl
  let delta := compareChangesetSpecs previousSpec currentSpec wantedChangeset.uiPublicationState
  let pl := { pl with delta := some delta }
  match wantedChangeset.publicationState with
  | .unpublished => (planUnpublished currentSpec wantedChangeset pl, none)
  | .published => (planPublished currentSpec wantedChangeset delta pl, none)
  | .unknown state => (pl, some (lit "unknown changeset publication state: " ++ state))

/-- **`DeterminePlan`**: the plan, and the error if there is one. -/
def determinePlan (previousSpec currentSpec : Option ChangesetSpec)
    (currentChangeset : Option Changeset) (wantedChangeset : Changeset) :
    Plan × Option GoString :=
  let flags := AssocFlags.ofAssocs currentChangeset wantedChangeset
  let pl := planAssocs flags currentSpec wantedChangeset
  if wantedChangeset.closing then
    -- closing is final, nothing else is planned
    (if wantedChangeset.externalState != .readOnly then pl.addOp .close else pl, none)
  else if flags.wantDetachFromOwnerBatchChange || flags.wantArchive || flags.isArchived then
    (pl, none)
  else
    match currentSpec with
    | none => (planImported flags wantedChangeset pl, none)
    | some spec => planSpec flags previousSpec spec wantedChangeset pl

/-! ## The loop over the associations -/

section Flags

variable (currentChangeset : Option Changeset) (wantedChangeset : Changeset)

/-- What an association says about the archive, if it asks for archiving the
changeset in the batch change that owns it. -/
def archiveMark (assoc : BatchChangeAssoc) : Option Bool :=
  if !assoc.detach && assoc.archive &&
      assoc.batchChangeID == wantedChangeset.ownedByBatchChangeID && wantedChangeset.isPublished
  then some assoc.isArchived
  else none

/-- The last association that asks for archiving decides: is the changeset
archived already? -/
def lastArchiveMark : Option Bool :=
  (wantedChangeset.batchChanges.filterMap (archiveMark wantedChangeset)).getLast?

/-- Some association with the owner of the changeset is marked for detaching. -/
def detachesOwner : Bool :=
  wantedChangeset.batchChanges.any fun assoc =>
    assoc.detach && assoc.batchChangeID == wantedChangeset.ownedByBatchChangeID

/-- What the flags say about the associations visited so far. -/
structure AssocFlags.Reflect (flags : AssocFlags) (assocs : List BatchChangeAssoc) : Prop where
  detach : flags.wantDetach = assocs.any BatchChangeAssoc.detach
  owner : flags.wantDetachFromOwnerBatchChange = assocs.any fun assoc =>
    assoc.detach && assoc.batchChangeID == wantedChangeset.ownedByBatchChangeID
  wantArchive : flags.wantArchive
    = ((assocs.filterMap (archiveMark wantedChangeset)).getLast? == some false)
  isArchived : flags.isArchived
    = ((assocs.filterMap (archiveMark wantedChangeset)).getLast? == some true)

variable {currentChangeset wantedChangeset}

theorem AssocFlags.Reflect.visit {flags : AssocFlags} {assocs : List BatchChangeAssoc}
    (h : flags.Reflect wantedChangeset assocs) (assoc : BatchChangeAssoc) :
    (flags.visit currentChangeset wantedChangeset assoc).Reflect wantedChangeset
      (assocs ++ [assoc]) := by
  obtain ⟨hdetach, howner, hwant, his⟩ := h
  unfold AssocFlags.visit
  split_ifs with h₁ h₂ h₃
  · have hmark : archiveMark wantedChangeset assoc = none := by simp [archiveMark, h₁]
    constructor <;> simp [*]
  · have hmark : archiveMark wantedChangeset assoc = some assoc.isArchived := by
      simp_all [archiveMark]
    constructor <;> simp [*]
  · have hmark : archiveMark wantedChangeset assoc = none := by simp_all [archiveMark]
    constructor <;> simp [*]
  · have hmark : archiveMark wantedChangeset assoc = none := by simp_all [archiveMark]
    constructor <;> simp [*]

theorem AssocFlags.reflect_ofAssocs :
    (AssocFlags.ofAssocs currentChangeset wantedChangeset).Reflect wantedChangeset
      wantedChangeset.batchChanges := by
  unfold AssocFlags.ofAssocs
  induction wantedChangeset.batchChanges using List.reverseRecOn with
  | nil => constructor <;> rfl
  | append_singleton assocs assoc ih =>
    rw [List.foldl_append]
    exact ih.visit assoc

theorem AssocFlags.Reflect.wantArchive_eq {flags : AssocFlags}
    (h : flags.Reflect wantedChangeset wantedChangeset.batchChanges) :
    flags.wantArchive = (lastArchiveMark wantedChangeset == some false) :=
  h.wantArchive

/-- The condition for a plan that only detaches or archives. -/
theorem AssocFlags.Reflect.stops_eq {flags : AssocFlags}
    (h : flags.Reflect wantedChangeset wantedChangeset.batchChanges) :
    (flags.wantDetachFromOwnerBatchChange || flags.wantArchive || flags.isArchived)
      = (detachesOwner wantedChangeset || (lastArchiveMark wantedChangeset).isSome) := by
  have hisArchived : flags.isArchived = (lastArchiveMark wantedChangeset == some true) :=
    h.isArchived
  rw [h.owner, h.wantArchive_eq, hisArchived, Bool.or_assoc]
  congr 1
  rcases lastArchiveMark wantedChangeset with - | - | - <;> rfl

end Flags

/-! ## Detaching -/

/-- The changeset is published by the plan, which replaces what was planned
before. -/
def publishes (currentSpec : ChangesetSpec) (wantedChangeset : Changeset) : Bool :=
  let state := calculatePublicationState currentSpec.published wantedChangeset.uiPublicationState
  wantedChangeset.isUnpublished &&
    (state.isPublished || state.isDraft && wantedChangeset.supportsDraft)

/-- The changeset is closed on its code host but still attached to its
owner. -/
def reopens (wantedChangeset : Changeset) : Bool :=
  wantedChangeset.isPublished && wantedChangeset.externalState == .closed &&
    wantedChangeset.ownedByBatchChangeID != 0 &&
    wantedChangeset.attachedTo wantedChangeset.ownedByBatchChangeID

/-- The changeset is written to by the batch change that owns it: it is not
to be closed, and neither detached from its owner nor archived there. -/
def writesByOwner (wantedChangeset : Changeset) : Bool :=
  !wantedChangeset.closing && !detachesOwner wantedChangeset &&
    (lastArchiveMark wantedChangeset).isNone

variable {wanted : Changeset}

/-- What a changeset that is not to be closed needs for its owner to write to
it, in the order of the source. -/
theorem writesByOwner_of_not_closing (h : wanted.closing = false) :
    writesByOwner wanted = !(detachesOwner wanted || (lastArchiveMark wanted).isSome) := by
  simp [writesByOwner, h]

variable {pl : Plan} {spec : ChangesetSpec}

theorem detach_mem_planUnpublished (h : wanted.publicationState = .unpublished) :
    .detach ∈ (planUnpublished spec wanted pl).ops
      ↔ .detach ∈ pl.ops ∧ publishes spec wanted = false := by
  unfold planUnpublished publishes Changeset.isUnpublished
  dsimp only
  split_ifs with h₁ h₂
  · simp [h, h₁]
  · simp_all
  · simp_all

theorem detach_mem_planAttributes {delta : ChangesetSpecDelta} :
    .detach ∈ (planAttributes delta pl).ops ↔ .detach ∈ pl.ops := by
  unfold planAttributes
  dsimp only
  split_ifs <;> simp

theorem detach_mem_planPublished
    {delta : ChangesetSpecDelta} (h : wanted.publicationState = .published)
    (hclosing : wanted.closing = false) :
    .detach ∈ (planPublished spec wanted delta pl).ops
      ↔ .detach ∈ pl.ops ∧ reopens wanted = false := by
  unfold planPublished
  by_cases hdone : (wanted.externalState == .merged || wanted.externalState == .readOnly) = true
  · have : reopens wanted = false := by
      cases hstate : wanted.externalState <;> simp_all [reopens]
    rw [if_pos hdone]
    simp [this]
  · have hreopen : reopenAfterDetach wanted = reopens wanted := by
      cases hstate : wanted.externalState <;>
        simp_all [reopens, reopenAfterDetach, Changeset.isPublished, bne, beq_eq_decide]
    rw [if_neg hdone]
    dsimp only
    rw [detach_mem_planAttributes, Plan.mem_ops_ite_addOp (by decide),
      Plan.mem_ops_ite_setOp (by decide), hreopen, Bool.not_eq_true]

theorem detach_mem_planAssocs {flags : AssocFlags} (h : flags.wantDetach = true)
    (spec : Option ChangesetSpec) (wanted : Changeset) :
    .detach ∈ (planAssocs flags spec wanted).ops ↔ flags.wantArchive = false := by
  unfold planAssocs
  dsimp only
  rw [Plan.mem_ops_ite_setOp (by decide), if_pos h, Plan.mem_ops_setOp, Bool.not_eq_true]
  exact and_iff_right rfl

theorem detach_mem_planImported {flags : AssocFlags} :
    .detach ∈ (planImported flags wanted pl).ops ↔ .detach ∈ pl.ops := by
  unfold planImported
  split_ifs <;> simp

theorem detach_mem_planSpec {flags : AssocFlags} {previousSpec : Option ChangesetSpec}
    (hclosing : wanted.closing = false)
    (hok : (planSpec flags previousSpec spec wanted pl).2 = none) :
    .detach ∈ (planSpec flags previousSpec spec wanted pl).1.ops
      ↔ .detach ∈ pl.ops ∧ (publishes spec wanted || reopens wanted) = false := by
  unfold planSpec at hok ⊢
  cases hstate : wanted.publicationState with
  | unpublished =>
    have : reopens wanted = false := by simp [reopens, Changeset.isPublished, hstate]
    simp [detach_mem_planUnpublished hstate, Plan.mem_ops_ite_addOp, this]
  | published =>
    have : publishes spec wanted = false := by simp [publishes, Changeset.isUnpublished, hstate]
    simp [detach_mem_planPublished hstate hclosing, Plan.mem_ops_ite_addOp, this]
  | unknown state => simp [hstate] at hok

/-- **When a pending detach survives.** If some association is marked for
detaching, then the plan contains the operation `detach` unless the changeset
is archived, or the batch change that owns it publishes or reopens it. -/
theorem detach_mem_determinePlan (previousSpec currentSpec : Option ChangesetSpec)
    (currentChangeset : Option Changeset) (wanted : Changeset)
    (hok : (determinePlan previousSpec currentSpec currentChangeset wanted).2 = none)
    (hdetach : ∃ assoc ∈ wanted.batchChanges, assoc.detach = true) :
    .detach ∈ (determinePlan previousSpec currentSpec currentChangeset wanted).1.ops
      ↔ lastArchiveMark wanted ≠ some false ∧
        ¬ (writesByOwner wanted = true ∧
          ∃ spec, currentSpec = some spec ∧ (publishes spec wanted || reopens wanted) = true) := by
  have hflags : (AssocFlags.ofAssocs currentChangeset wanted).Reflect wanted
      wanted.batchChanges := AssocFlags.reflect_ofAssocs
  rw [← List.any_eq_true, ← hflags.detach] at hdetach
  have hmarked := detach_mem_planAssocs hdetach currentSpec wanted
  rw [hflags.wantArchive_eq, beq_eq_false_iff_ne] at hmarked
  unfold determinePlan at hok ⊢
  by_cases hclosing : wanted.closing = true
  · have hwrites : writesByOwner wanted = false := by simp [writesByOwner, hclosing]
    rw [if_pos hclosing, Plan.mem_ops_ite_addOp (by decide), hmarked]
    simp [hwrites]
  rw [if_neg hclosing] at hok ⊢
  rw [Bool.not_eq_true] at hclosing
  rw [hflags.stops_eq] at hok ⊢
  have hwrites := writesByOwner_of_not_closing hclosing
  by_cases hstop : (detachesOwner wanted || (lastArchiveMark wanted).isSome) = true
  · rw [hstop, Bool.not_true] at hwrites
    simp [hstop, hmarked, hwrites]
  rw [Bool.not_eq_true] at hstop
  rw [hstop, Bool.not_false] at hwrites
  rw [hstop, if_neg Bool.false_ne_true] at hok ⊢
  cases currentSpec with
  | none => simp [detach_mem_planImported, hmarked]
  | some spec => simp [detach_mem_planSpec hclosing hok, hmarked, hwrites]

section Example

/-- A changeset of batch change 1 that batch change 2 wants to let go. -/
def sharedChangeset (publicationState : ChangesetPublicationState)
    (externalState : ChangesetExternalState) : Changeset where
  batchChanges := [{ batchChangeID := 1 }, { batchChangeID := 2, detach := true }]
  externalServiceType := lit "github"
  externalState := externalState
  ownedByBatchChangeID := 1
  publicationState := publicationState
  uiPublicationState := none
  closing := false

/-- A spec that asks for publishing. -/
def publishedSpec (title : GoString) : ChangesetSpec where
  baseRef := lit "refs/heads/main"
  title := title
  body := []
  published := .bool true
  diff := []
  commitMessage := []
  commitAuthorName := []
  commitAuthorEmail := []

/-- Publishing a changeset that another batch change lets go: the plan only
publishes. -/
theorem determinePlan_forgets_detach :
    let wanted := sharedChangeset .unpublished (.unknown [])
    let plan := determinePlan none (some (publishedSpec [])) none wanted
    plan.2 = none ∧ (∃ assoc ∈ wanted.batchChanges, assoc.detach = true) ∧
      plan.1.ops = [.publish, .push] ∧ .detach ∉ plan.1.ops := by
  decide

/-- An open changeset is updated and detached. -/
theorem detach_mem_update :
    .detach ∈ (determinePlan (some (publishedSpec [])) (some (publishedSpec (lit "title"))) none
      (sharedChangeset .published .open)).1.ops :=
  (detach_mem_determinePlan _ _ _ _ (by decide) (by decide)).mpr (by
    refine ⟨by decide, ?_⟩
    rintro ⟨-, spec, hspec, hwrite⟩
    cases hspec
    revert hwrite
    decide)

end Example

end Reconciler
