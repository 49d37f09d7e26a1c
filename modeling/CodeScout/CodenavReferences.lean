import CodeScout.LineTranslation
import CodeScout.Util.Outcome
import Mathlib

/-!
# Paging through references

`GetReferences` gathers the locations of one page. It first goes through the
visible uploads, whose indexes are asked for a part of their locations at a time,
and then searches for monikers in batches of other uploads: first the uploads
that define one of them, then the uploads that refer to one, as they are found by
scanning the table of references. Locations of these batches that enclose the
requested position have been found before and are left out.

The cursor says where the next page starts. What is `left` of the whole list at a
cursor is what the page gathers, followed by what is left at the cursor it
returns (`getReferences_eq`); all lemmas below have this form. A page that is not
the last one is full, so that less is left after each, and following the cursors
comes to an end (`exists_pages`).
-/

namespace Codenav

open Outcome List

/-- An upload: `shared.Dump`. -/
structure Dump where
  id : ℤ := 0
  repositoryID : ℤ := 0
  commit : GoString := []
  root : GoString := []
deriving DecidableEq

/-- An upload, with the requested path and position in its commit. -/
structure VisibleUpload where
  upload : Dump
  targetPath : GoString
  targetPosition : Position := {}
  targetPathWithoutRoot : GoString
deriving DecidableEq

/-- A range of a document of an upload. -/
structure Location where
  dumpID : ℤ
  path : GoString
  range : Range
deriving DecidableEq

/-! ## Cursors -/

/-- The phase of a `ReferencesCursor`: `"local"`, `"remote"` or `"done"`. -/
inductive Phase where
  | localPhase
  | remotePhase
  | donePhase
deriving DecidableEq

/-- An offset into the visible uploads, and one into the locations of that
upload. -/
structure LocalCursor where
  uploadOffset : ℕ := 0
  locationOffset : ℕ := 0

/-- An offset into the table of references, which is negative at the end of it, the
batch of uploads that is searched, and an offset into its locations. There is no
batch before the first search. -/
structure RemoteCursor where
  uploadOffset : ℤ := 0
  uploadBatchIDs : Option (List ℤ) := none
  locationOffset : ℕ := 0

/-- `ReferencesCursor` -/
structure ReferencesCursor where
  phase : Phase := .localPhase
  localCursor : LocalCursor := {}
  remoteCursor : RemoteCursor := {}

/-- What `GetReferences` asks, for one position and its monikers. Locations are
returned from an offset on up to a limit, with how many there are. -/
structure ReferenceBackends where
  getReferenceLocations : VisibleUpload → ℕ → ℕ → Except GoString (List Location × ℕ)
  getUploadsWithDefinitionsForMonikers : Except GoString (List Dump)
  /-- The ids that a scan from an offset on finds, how many records it has scanned, and
  how many there are. -/
  getUploadIDsWithReferences : ℤ → Except GoString (List ℤ × ℕ × ℕ)
  getBulkMonikerLocations : List ℤ → ℕ → ℕ → Except GoString (List Location × ℕ)

/-! ## Pages -/

/-- `rangeContainsPosition` -/
def rangeContainsPosition (r : Range) (pos : Position) : Bool :=
  if pos.line < r.start.line then false
  else if pos.line > r.stop.line then false
  else if pos.line = r.start.line ∧ pos.character < r.start.character then false
  else if pos.line = r.stop.line ∧ pos.character > r.stop.character then false
  else true

/-- **`isSourceLocation`**: the location encloses the requested position. -/
def isSourceLocation (visibleUploads : List VisibleUpload) (location : Location) : Bool :=
  visibleUploads.any fun visible =>
    location.dumpID = visible.upload.id && location.path = visible.targetPath
      && rangeContainsPosition location.range visible.targetPosition

/-- The loop of `getPageRemoteLocations` that leaves out such locations. -/
def withoutSource (visibleUploads : List VisibleUpload) (locations : List Location) :
    List Location :=
  locations.filter fun location => !isSourceLocation visibleUploads location

section

variable (backends : ReferenceBackends) (visibleUploads : List VisibleUpload)

/-- The loop of `getPageLocalLocations`, from upload `i` on. -/
def localLoop (limit i : ℕ) (allLocations : List Location) (cursor : LocalCursor) :
    List VisibleUpload → Outcome GoString (List Location × LocalCursor)
  | [] => .ok (allLocations, cursor)
  | visible :: visibles =>
    if allLocations.length ≥ limit then .ok (allLocations, cursor)
    else if i < cursor.uploadOffset then localLoop limit (i + 1) allLocations cursor visibles
    else do
      let (locations, totalCount) ← (Outcome.ofExcept (backends.getReferenceLocations visible
        (limit - allLocations.length) cursor.locationOffset)).mapError
          (lit "in an lsifstore locations call: " ++ ·)
      let locationOffset := cursor.locationOffset + locations.length
      localLoop limit (i + 1) (allLocations ++ locations)
        (if locationOffset ≥ totalCount then
          { uploadOffset := cursor.uploadOffset + 1, locationOffset := 0 }
        else { cursor with locationOffset }) visibles

/-- **`getPageLocalLocations`.** -/
def getPageLocalLocations (cursor : LocalCursor) (limit : ℕ) :
    Outcome GoString (List Location × Bool × LocalCursor) := do
  let (allLocations, cursor) ← localLoop backends limit 0 [] cursor visibleUploads
  .ok (allLocations, cursor.uploadOffset < visibleUploads.length, cursor)

/-- The cursor after a scan. It has no offset any more at the end of the table. -/
def RemoteCursor.afterScan (cursor : RemoteCursor) (referenceUploadIDs : List ℤ)
    (recordsScanned totalRecords : ℕ) : RemoteCursor :=
  let uploadOffset := cursor.uploadOffset + recordsScanned
  { cursor with
    uploadBatchIDs := some referenceUploadIDs
    uploadOffset := if uploadOffset ≥ totalRecords then -1 else uploadOffset }

/-- The cursor after some locations of its batch. It needs a new batch at the end of
them. -/
def RemoteCursor.afterPage (cursor : RemoteCursor) (numLocations totalCount : ℕ) :
    RemoteCursor :=
  let locationOffset := cursor.locationOffset + numLocations
  if locationOffset ≥ totalCount then { cursor with locationOffset := 0, uploadBatchIDs := some [] }
  else { cursor with locationOffset }

/-- The first loop of `getPageRemoteLocations`, which looks for a batch that is
not empty. There are none if it returns `false`. -/
def nextBatch : ℕ → RemoteCursor → Outcome GoString (Bool × RemoteCursor)
  | 0, _ => .outOfFuel
  | fuel + 1, cursor =>
    if (cursor.uploadBatchIDs.getD []).length ≠ 0 then .ok (true, cursor)
    else if cursor.uploadOffset < 0 then .ok (false, cursor)
    else do
      let (referenceUploadIDs, recordsScanned, totalRecords) ←
        .ofExcept (backends.getUploadIDsWithReferences cursor.uploadOffset)
      nextBatch fuel (cursor.afterScan referenceUploadIDs recordsScanned totalRecords)

/-- **`getPageRemoteLocations`.** -/
def getPageRemoteLocations (fuel : ℕ) (cursor : RemoteCursor) (limit : ℕ) :
    Outcome GoString (List Location × Bool × RemoteCursor) := do
  let (hasBatch, cursor) ← nextBatch backends fuel cursor
  if hasBatch then do
    let (locations, totalCount) ← .ofExcept (backends.getBulkMonikerLocations
      (cursor.uploadBatchIDs.getD []) limit cursor.locationOffset)
    let cursor := cursor.afterPage locations.length totalCount
    .ok (withoutSource visibleUploads locations,
      decide ((cursor.uploadBatchIDs.getD []).length > 0) || decide (cursor.uploadOffset ≥ 0),
      cursor)
  else .ok ([], false, cursor)

/-- The first phase of `GetReferences`. -/
def gatherLocal (limit : ℕ) (cursor : ReferencesCursor) :
    Outcome GoString (List Location × ReferencesCursor) :=
  if cursor.phase = .localPhase then do
    let (locations, hasMore, localCursor) ←
      getPageLocalLocations backends visibleUploads cursor.localCursor limit
    .ok (locations,
      { cursor with localCursor, phase := if hasMore then .localPhase else .remotePhase })
  else .ok ([], cursor)

/-- The batch of uploads that define a moniker and are not visible. -/
def definitionBatch (cursor : RemoteCursor) : Outcome GoString RemoteCursor :=
  if cursor.uploadBatchIDs = none then do
    let definitionUploads ← .ofExcept backends.getUploadsWithDefinitionsForMonikers
    .ok { cursor with
      uploadBatchIDs := some ((definitionUploads.map (·.id)).filter fun id =>
        !visibleUploads.any fun visible => id = visible.upload.id) }
  else .ok cursor

/-- The loop of the second phase, which ends with a full page or with the last
batch. -/
def remoteLoop (limit : ℕ) : ℕ → List Location → RemoteCursor →
    Outcome GoString (List Location × Phase × RemoteCursor)
  | 0, _, _ => .outOfFuel
  | fuel + 1, locations, cursor =>
    if locations.length < limit then do
      let (remoteLocations, hasMore, cursor) ← getPageRemoteLocations backends visibleUploads fuel
        cursor (limit - locations.length)
      if hasMore then remoteLoop limit fuel (locations ++ remoteLocations) cursor
      else .ok (locations ++ remoteLocations, .donePhase, cursor)
    else .ok (locations, .remotePhase, cursor)

/-- The second phase of `GetReferences`. -/
def gatherRemote (fuel limit : ℕ) (locations : List Location) (cursor : ReferencesCursor) :
    Outcome GoString (List Location × ReferencesCursor) :=
  if cursor.phase = .remotePhase then do
    let remoteCursor ← definitionBatch backends visibleUploads cursor.remoteCursor
    let (locations, phase, remoteCursor) ←
      remoteLoop backends visibleUploads limit fuel locations remoteCursor
    .ok (locations, { cursor with phase, remoteCursor })
  else .ok (locations, cursor)

/-- **`GetReferences`**: the locations of one page, before they are translated to
the requested commit, and the cursor of the next. -/
def getReferences (fuel limit : ℕ) (cursor : ReferencesCursor) :
    Outcome GoString (List Location × ReferencesCursor) := do
  let (locations, cursor) ← gatherLocal backends visibleUploads limit cursor
  gatherRemote backends visibleUploads fuel limit locations cursor

end

/-! ## What there is to gather -/

/-- **The batches that scans find** from an offset on. Each scan gets further, and
one that gets to the end of the table is the last. -/
inductive Scans (scan : ℤ → List ℤ × ℕ × ℕ) : ℤ → List (List ℤ) → Prop
  | last {offset : ℤ} (h : offset + (scan offset).2.1 ≥ (scan offset).2.2) :
      Scans scan offset [(scan offset).1]
  | more {offset : ℤ} {batches : List (List ℤ)} (hscanned : 0 < (scan offset).2.1)
      (h : offset + (scan offset).2.1 < (scan offset).2.2)
      (rest : Scans scan (offset + (scan offset).2.1) batches) :
      Scans scan offset ((scan offset).1 :: batches)

/-- **No call fails**: the indexes return parts of lists of locations, as many as they
are asked for, and the scans return the batches. -/
structure Serves (backends : ReferenceBackends) (locals : VisibleUpload → List Location)
    (definitions : List Dump) (scan : ℤ → List ℤ × ℕ × ℕ) (bulk : List ℤ → List Location) :
    Prop where
  localLocations : ∀ visible limit offset, 0 < limit →
    backends.getReferenceLocations visible limit offset
      = .ok (((locals visible).drop offset).take limit, (locals visible).length)
  definitionUploads : backends.getUploadsWithDefinitionsForMonikers = .ok definitions
  referenceUploads : ∀ offset, backends.getUploadIDsWithReferences offset = .ok (scan offset)
  bulkLocations : ∀ ids limit offset, 0 < limit →
    backends.getBulkMonikerLocations ids limit offset
      = .ok (((bulk ids).drop offset).take limit, (bulk ids).length)
  bulk_nil : bulk [] = []

section

variable (locals : VisibleUpload → List Location) (bulk : List ℤ → List Location)

/-- What is left of visible uploads from an offset into the first one on. -/
def localLeft (offset : ℕ) : List VisibleUpload → List Location
  | [] => []
  | visible :: visibles => (locals visible).drop offset ++ visibles.flatMap locals

@[simp] theorem localLeft_zero (visibles : List VisibleUpload) :
    localLeft locals 0 visibles = visibles.flatMap locals := by
  cases visibles with
  | nil => rfl
  | cons visible visibles => rw [localLeft, drop_zero, flatMap_cons]

/-- The batch of a cursor. -/
def RemoteCursor.batch (cursor : RemoteCursor) : List ℤ :=
  cursor.uploadBatchIDs.getD []

/-- What is left of the batch of a cursor and of batches after it. -/
def remoteLeft (cursor : RemoteCursor) (batches : List (List ℤ)) : List Location :=
  (bulk cursor.batch).drop cursor.locationOffset ++ batches.flatMap bulk

/-- What there is to do: locations, batches to scan for and a batch to finish. -/
def remoteWork (cursor : RemoteCursor) (batches : List (List ℤ)) : ℕ :=
  (remoteLeft bulk cursor batches).length + batches.length + if cursor.batch = [] then 0 else 1

end

/-- The cursor is before the given batches. -/
structure RemoteAt (scan : ℤ → List ℤ × ℕ × ℕ) (cursor : RemoteCursor) (batches : List (List ℤ)) :
    Prop where
  started : cursor.uploadBatchIDs ≠ none
  reset : cursor.batch = [] → cursor.locationOffset = 0
  offset : cursor.uploadOffset < 0 ∧ batches = []
    ∨ 0 ≤ cursor.uploadOffset ∧ Scans scan cursor.uploadOffset batches

section

variable {backends : ReferenceBackends} {visibleUploads : List VisibleUpload}
  {locals : VisibleUpload → List Location} {definitions : List Dump}
  {scan : ℤ → List ℤ × ℕ × ℕ} {bulk : List ℤ → List Location}
  (hserves : Serves backends locals definitions scan bulk)

/-! ## The first phase -/

theorem localLoop_of_full {limit i : ℕ} {allLocations : List Location} {cursor : LocalCursor}
    (h : limit ≤ allLocations.length) (visibles : List VisibleUpload) :
    localLoop backends limit i allLocations cursor visibles = .ok (allLocations, cursor) := by
  cases visibles with
  | nil => rfl
  | cons visible visibles => rw [localLoop, if_pos h]

theorem take_drop_eq_of_le {α : Type} {l : List α} {offset limit : ℕ}
    (h : l.length ≤ offset + ((l.drop offset).take limit).length) :
    (l.drop offset).take limit = l.drop offset := by
  refine take_of_length_le ?_
  rw [length_take, length_drop] at h
  rw [length_drop]
  omega

include hserves

/-- **The loop over the visible uploads** gathers a part of what is left. It ends
with a full page or after the last upload. -/
theorem localLoop_eq {limit i : ℕ} {allLocations : List Location} {cursor : LocalCursor}
    {visibles : List VisibleUpload} (hvisibles : visibleUploads.drop i = visibles)
    (hi : i ≤ cursor.uploadOffset) (hoffset : cursor.uploadOffset ≤ visibleUploads.length)
    (hall : allLocations.length ≤ limit) :
    ∃ new cursor', localLoop backends limit i allLocations cursor visibles
        = .ok (allLocations ++ new, cursor')
      ∧ localLeft locals cursor.locationOffset (visibleUploads.drop cursor.uploadOffset)
        = new ++ localLeft locals cursor'.locationOffset
          (visibleUploads.drop cursor'.uploadOffset)
      ∧ (allLocations ++ new).length ≤ limit
      ∧ cursor'.uploadOffset ≤ visibleUploads.length
      ∧ (cursor'.uploadOffset < visibleUploads.length → (allLocations ++ new).length = limit) := by
  induction visibles generalizing i allLocations cursor with
  | nil =>
    have hend := drop_eq_nil_iff.mp hvisibles
    refine ⟨[], cursor, ?_, rfl, ?_, hoffset, fun h => ?_⟩
    · rw [append_nil, localLoop]
    · rwa [append_nil]
    · omega
  | cons visible visibles ih =>
    have hnext : visibleUploads.drop (i + 1) = visibles := by
      rw [← drop_drop, hvisibles]
      rfl
    by_cases hfull : allLocations.length ≥ limit
    · refine ⟨[], cursor, ?_, rfl, ?_, hoffset, fun _ => ?_⟩
      · rw [append_nil, localLoop_of_full hfull]
      · rwa [append_nil]
      · rw [append_nil]
        exact le_antisymm hall hfull
    rw [localLoop, if_neg hfull]
    by_cases hskip : i < cursor.uploadOffset
    · rw [if_pos hskip]
      exact ih hnext hskip hoffset hall
    obtain rfl : i = cursor.uploadOffset := by omega
    rw [if_neg (lt_irrefl _), hserves.localLocations _ _ _ (by omega)]
    simp only [Outcome.ofExcept, mapError, ok_bind]
    have hlt : cursor.uploadOffset < visibleUploads.length := by
      by_contra hge
      rw [drop_eq_nil_of_le (not_lt.mp hge)] at hvisibles
      cases hvisibles
    have hlength : (allLocations ++ ((locals visible).drop cursor.locationOffset).take
        (limit - allLocations.length)).length ≤ limit := by
      rw [length_append, length_take]
      omega
    by_cases hcomplete : cursor.locationOffset + (((locals visible).drop
        cursor.locationOffset).take (limit - allLocations.length)).length
        ≥ (locals visible).length
    · rw [if_pos hcomplete]
      obtain ⟨new, cursor', hloop, hleft, hrest⟩ := @ih _ _
        { uploadOffset := cursor.uploadOffset + 1, locationOffset := 0 } hnext le_rfl hlt hlength
      rw [append_assoc] at hloop hrest
      refine ⟨_, cursor', hloop, ?_, hrest⟩
      rw [append_assoc, ← hleft, hvisibles, hnext, localLeft_zero, localLeft,
        take_drop_eq_of_le hcomplete]
    · rw [if_neg hcomplete]
      have hfull' : limit ≤ (allLocations ++ ((locals visible).drop cursor.locationOffset).take
          (limit - allLocations.length)).length := by
        rw [length_take, length_drop] at hcomplete
        rw [length_append, length_take, length_drop]
        omega
      refine ⟨_, _, localLoop_of_full hfull' visibles, ?_, hlength, hoffset,
        fun _ => le_antisymm hlength hfull'⟩
      rw [hvisibles, localLeft, localLeft, ← append_assoc, ← drop_drop,
        prefix_iff_eq_append.mp (List.take_prefix _ _)]

/-! ## The second phase -/

variable {cursor : RemoteCursor}

variable {batches : List (List ℤ)}

omit hserves in
/-- The batch that a scan finds is the first one, and the cursor behind the scan is
before the others. -/
theorem Scans.exists_rest
    (hscans : Scans scan cursor.uploadOffset batches) (hnonneg : 0 ≤ cursor.uploadOffset)
    (hoffset : cursor.locationOffset = 0) :
    ∃ rest, batches = (scan cursor.uploadOffset).1 :: rest
      ∧ RemoteAt scan (cursor.afterScan (scan cursor.uploadOffset).1
        (scan cursor.uploadOffset).2.1 (scan cursor.uploadOffset).2.2) rest := by
  cases hscans with
  | last hlast =>
    refine ⟨[], rfl, Option.some_ne_none _, fun _ => hoffset, .inl ⟨?_, rfl⟩⟩
    simp only [RemoteCursor.afterScan, if_pos hlast]
    decide
  | more hscanned hlt hrest =>
    refine ⟨_, rfl, Option.some_ne_none _, fun _ => hoffset, .inr ?_⟩
    simp only [RemoteCursor.afterScan, if_neg (not_le.mpr hlt)]
    exact ⟨Int.add_nonneg hnonneg (Int.natCast_nonneg _), hrest⟩

variable {fuel limit : ℕ}

/-- **Looking for a batch** changes nothing of what is left. -/
theorem nextBatch_eq (hat : RemoteAt scan cursor batches) (hfuel : batches.length < fuel) :
    ∃ found cursor' batches', nextBatch backends fuel cursor = .ok (found, cursor')
      ∧ RemoteAt scan cursor' batches'
      ∧ remoteLeft bulk cursor batches = remoteLeft bulk cursor' batches'
      ∧ remoteWork bulk cursor' batches' ≤ remoteWork bulk cursor batches
      ∧ (found = true → cursor'.batch ≠ [])
      ∧ (found = false → cursor'.batch = [] ∧ batches' = []) := by
  induction fuel generalizing cursor batches with
  | zero => exact absurd hfuel (Nat.not_lt_zero _)
  | succ fuel ih =>
    rw [nextBatch]
    by_cases hbatch : cursor.batch = []
    · have hlength : ¬(cursor.uploadBatchIDs.getD []).length ≠ 0 := by
        rw [not_not, length_eq_zero_iff]
        exact hbatch
      rw [if_neg hlength]
      rcases hat.offset with ⟨hneg, rfl⟩ | ⟨hnonneg, hscans⟩
      · rw [if_pos hneg]
        exact ⟨false, cursor, [], rfl, hat, rfl, le_rfl, (nomatch ·), fun _ => ⟨hbatch, rfl⟩⟩
      rw [if_neg (not_lt.mpr hnonneg), hserves.referenceUploads]
      simp only [Outcome.ofExcept, ok_bind]
      obtain ⟨rest, rfl, hat'⟩ := hscans.exists_rest hnonneg (hat.reset hbatch)
      obtain ⟨found, cursor', batches', hnext, hat'', hleft, hwork, hfound⟩ :=
        ih hat' (Nat.succ_lt_succ_iff.mp hfuel)
      -- what was left of the batches is now left of the batch of the cursor and of the others
      have hscan : remoteLeft bulk cursor ((scan cursor.uploadOffset).1 :: rest)
          = remoteLeft bulk (cursor.afterScan (scan cursor.uploadOffset).1
            (scan cursor.uploadOffset).2.1 (scan cursor.uploadOffset).2.2) rest := by
        rw [remoteLeft, remoteLeft, hbatch, hserves.bulk_nil, flatMap_cons]
        simp [RemoteCursor.afterScan, RemoteCursor.batch, hat.reset hbatch]
      refine ⟨found, cursor', batches', hnext, hat'', hscan.trans hleft, hwork.trans ?_, hfound⟩
      rw [remoteWork, remoteWork, ← hscan, if_pos hbatch, length_cons]
      split <;> omega
    · have hlength : (cursor.uploadBatchIDs.getD []).length ≠ 0 := by
        rw [Ne, length_eq_zero_iff]
        exact hbatch
      rw [if_pos hlength]
      exact ⟨true, cursor, batches, rfl, hat, rfl, le_rfl, fun _ => hbatch, (nomatch ·)⟩

/-- The cursor after a page of its batch. Either it is further in the batch or it has
finished it. -/
theorem RemoteAt.afterPage
    (hat : RemoteAt scan cursor batches) (hbatch : cursor.batch ≠ []) (hlimit : 0 < limit) :
    let raw := ((bulk cursor.batch).drop cursor.locationOffset).take limit
    let cursor' := cursor.afterPage raw.length (bulk cursor.batch).length
    RemoteAt scan cursor' batches
      ∧ remoteLeft bulk cursor batches = raw ++ remoteLeft bulk cursor' batches
      ∧ remoteWork bulk cursor' batches < remoteWork bulk cursor batches := by
  intro raw cursor'
  by_cases hcomplete : cursor.locationOffset + raw.length ≥ (bulk cursor.batch).length
  · have hcursor : cursor' = { cursor with locationOffset := 0, uploadBatchIDs := some [] } :=
      if_pos hcomplete
    have hleft : remoteLeft bulk cursor batches = raw ++ remoteLeft bulk cursor' batches := by
      have hraw : raw = (bulk cursor.batch).drop cursor.locationOffset :=
        take_drop_eq_of_le hcomplete
      have hempty : (bulk cursor'.batch).drop cursor'.locationOffset = [] := by
        rw [hcursor]
        exact hserves.bulk_nil
      rw [remoteLeft, remoteLeft, hempty, hraw, nil_append]
    refine ⟨?_, hleft, ?_⟩
    · rw [hcursor]
      exact ⟨Option.some_ne_none _, fun _ => rfl, hat.offset⟩
    · have hdone : cursor'.batch = [] := by
        rw [hcursor]
        rfl
      rw [remoteWork, remoteWork, hleft, if_pos hdone, if_neg hbatch, length_append]
      omega
  · have hcursor : cursor' = { cursor with
        locationOffset := cursor.locationOffset + raw.length } := if_neg hcomplete
    have hsame : cursor'.batch = cursor.batch := by
      rw [hcursor]
      rfl
    have hleft : remoteLeft bulk cursor batches = raw ++ remoteLeft bulk cursor' batches := by
      have hoffset : cursor'.locationOffset = cursor.locationOffset + raw.length := by rw [hcursor]
      rw [remoteLeft, remoteLeft, hsame, hoffset, ← append_assoc, ← drop_drop,
        prefix_iff_eq_append.mp (List.take_prefix _ _)]
    refine ⟨?_, hleft, ?_⟩
    · refine ⟨?_, fun h => absurd (hsame ▸ h) hbatch, ?_⟩
      · rw [hcursor]
        exact hat.started
      · rw [hcursor]
        exact hat.offset
    · -- the page is full, as the batch is not finished
      have hraw : raw.length = limit := by
        have hlength : raw.length =
            min limit ((bulk cursor.batch).length - cursor.locationOffset) := by
          rw [length_take, length_drop]
        omega
      rw [remoteWork, remoteWork, hleft, hsame, length_append]
      omega

/-- **A page of a batch** is a part of what is left, without the locations that
enclose the position. Less is left to do if there are more pages. -/
theorem getPageRemoteLocations_eq (hat : RemoteAt scan cursor batches)
    (hfuel : batches.length < fuel) (hlimit : 0 < limit) :
    ∃ raw hasMore cursor' batches', getPageRemoteLocations backends visibleUploads fuel cursor
        limit = .ok (withoutSource visibleUploads raw, hasMore, cursor')
      ∧ RemoteAt scan cursor' batches' ∧ raw.length ≤ limit
      ∧ remoteLeft bulk cursor batches = raw ++ remoteLeft bulk cursor' batches'
      ∧ (hasMore = true → remoteWork bulk cursor' batches' < remoteWork bulk cursor batches)
      ∧ (hasMore = false → remoteLeft bulk cursor' batches' = []) := by
  obtain ⟨found, cursor', batches', hnext, hat', hleft, hwork, hfound, hnone⟩ :=
    nextBatch_eq hserves hat hfuel
  rw [getPageRemoteLocations, hnext]
  simp only [ok_bind]
  cases found with
  | false =>
    obtain ⟨hbatch, rfl⟩ := hnone rfl
    refine ⟨[], false, cursor', [], rfl, hat', Nat.zero_le _, hleft, (nomatch ·), fun _ => ?_⟩
    rw [remoteLeft, hbatch, hserves.bulk_nil, drop_nil]
    rfl
  | true =>
    have hbatch := hfound rfl
    rw [if_pos rfl, hserves.bulkLocations _ _ _ hlimit]
    simp only [Outcome.ofExcept, ok_bind]
    obtain ⟨hat'', hleft', hwork'⟩ := RemoteAt.afterPage hserves hat' hbatch hlimit
    refine ⟨_, _, _, batches', rfl, hat'', ?_, hleft.trans hleft', fun _ => hwork'.trans_le hwork,
      fun hmore => ?_⟩
    · exact length_take_le _ _
    · simp only [Bool.or_eq_false_iff, decide_eq_false_iff_not, not_lt, not_le] at hmore
      have hdone := length_eq_zero_iff.mp (Nat.le_zero.mp hmore.1)
      obtain ⟨-, rfl⟩ | ⟨hnonneg, -⟩ := hat''.offset
      · rw [remoteLeft, RemoteCursor.batch, hdone, hserves.bulk_nil, drop_nil]
        rfl
      · exact absurd hmore.2 (not_lt.mpr hnonneg)

omit hserves in
theorem withoutSource_append (locations locations' : List Location) :
    withoutSource visibleUploads (locations ++ locations')
      = withoutSource visibleUploads locations ++ withoutSource visibleUploads locations' :=
  filter_append _ _

variable (visibleUploads) in
/-- **The loop of the second phase** ends with a full page or with nothing left. -/
theorem remoteLoop_eq {locations : List Location} (hat : RemoteAt scan cursor batches)
    (hfuel : remoteWork bulk cursor batches + 1 < fuel) (hlocations : locations.length ≤ limit) :
    ∃ new phase cursor' batches', remoteLoop backends visibleUploads limit fuel locations cursor
        = .ok (locations ++ new, phase, cursor')
      ∧ RemoteAt scan cursor' batches' ∧ (locations ++ new).length ≤ limit
      ∧ withoutSource visibleUploads (remoteLeft bulk cursor batches)
        = new ++ withoutSource visibleUploads (remoteLeft bulk cursor' batches')
      ∧ (phase = .donePhase ∧ remoteLeft bulk cursor' batches' = []
        ∨ phase = .remotePhase ∧ (locations ++ new).length = limit) := by
  induction fuel generalizing locations cursor batches with
  | zero => exact absurd hfuel (Nat.not_lt_zero _)
  | succ fuel ih =>
    rw [remoteLoop]
    by_cases hlt : locations.length < limit
    · have hbatches : batches.length < fuel := by
        rw [remoteWork] at hfuel
        omega
      obtain ⟨raw, hasMore, cursor', batches', hpage, hat', hraw, hleft, hmore, hend⟩ :=
        getPageRemoteLocations_eq hserves hat hbatches (Nat.sub_pos_of_lt hlt)
      have hlength : (locations ++ withoutSource visibleUploads raw).length ≤ limit := by
        have hfiltered : (withoutSource visibleUploads raw).length ≤ raw.length :=
          length_filter_le _ _
        rw [length_append]
        omega
      rw [if_pos hlt, hpage]
      simp only [ok_bind]
      rw [hleft, withoutSource_append]
      cases hasMore with
      | false =>
        rw [if_neg Bool.false_ne_true]
        exact ⟨_, _, cursor', batches', rfl, hat', hlength, rfl, .inl ⟨rfl, hend rfl⟩⟩
      | true =>
        rw [if_pos rfl]
        have hless := hmore rfl
        obtain ⟨new, phase, cursor'', batches'', hloop, hat'', hlength', hleft', hphase⟩ :=
          ih hat' (by omega) hlength
        rw [append_assoc] at hloop hlength' hphase
        refine ⟨_, phase, cursor'', batches'', hloop, hat'', hlength', ?_, hphase⟩
        rw [hleft', append_assoc]
    · rw [if_neg hlt]
      refine ⟨[], .remotePhase, cursor, batches, ?_, hat, ?_, rfl, .inr ⟨rfl, ?_⟩⟩
      · rw [append_nil]
      · rwa [append_nil]
      · rw [append_nil]
        exact le_antisymm hlocations (not_lt.mp hlt)

end

/-! ## Following the cursors -/

section

variable (locals : VisibleUpload → List Location) (definitions : List Dump)
  (scan : ℤ → List ℤ × ℕ × ℕ) (bulk : List ℤ → List Location)
  (visibleUploads : List VisibleUpload)

/-- The ids of the uploads that define a moniker and are not visible. -/
def definitionIDs : List ℤ :=
  (definitions.map (·.id)).filter fun id =>
    !visibleUploads.any fun visible => id = visible.upload.id

/-- The locations of batches that do not enclose the requested position. -/
def remoteLocations (batches : List (List ℤ)) : List Location :=
  withoutSource visibleUploads (batches.flatMap bulk)

/-- **What is left at a cursor.** -/
inductive Left (batches : List (List ℤ)) : ReferencesCursor → List Location → Prop
  | inLocal {localCursor : LocalCursor}
      (h : localCursor.uploadOffset ≤ visibleUploads.length) :
      Left batches { phase := .localPhase, localCursor }
        (localLeft locals localCursor.locationOffset
            (visibleUploads.drop localCursor.uploadOffset)
          ++ remoteLocations bulk visibleUploads
            (definitionIDs definitions visibleUploads :: batches))
  | inRemote {localCursor : LocalCursor} {remoteCursor : RemoteCursor} {rest : List (List ℤ)}
      (h : RemoteAt scan remoteCursor rest) :
      Left batches { phase := .remotePhase, localCursor, remoteCursor }
        (withoutSource visibleUploads (remoteLeft bulk remoteCursor rest))
  | inDone {localCursor : LocalCursor} {remoteCursor : RemoteCursor} :
      Left batches { phase := .donePhase, localCursor, remoteCursor } []

/-- **Requesting references again with the returned cursor**, up to the phase
`"done"`: the pages that are gathered. A page is what is returned with enough
fuel. -/
inductive Pages (backends : ReferenceBackends) (limit : ℕ) :
    ReferencesCursor → List (List Location) → Prop
  | last {cursor cursor' : ReferencesCursor} {locations : List Location}
      (h : ∃ enough, ∀ fuel ≥ enough, getReferences backends visibleUploads fuel limit cursor
        = .ok (locations, cursor'))
      (hdone : cursor'.phase = .donePhase) : Pages backends limit cursor [locations]
  | next {cursor cursor' : ReferencesCursor} {locations : List Location}
      {pages : List (List Location)}
      (h : ∃ enough, ∀ fuel ≥ enough, getReferences backends visibleUploads fuel limit cursor
        = .ok (locations, cursor'))
      (hmore : cursor'.phase ≠ .donePhase) (rest : Pages backends limit cursor' pages) :
      Pages backends limit cursor (locations :: pages)

end

section

variable {backends : ReferenceBackends} {visibleUploads : List VisibleUpload}

/-! More fuel changes nothing that was returned. -/

theorem nextBatch_extends (fuel : ℕ) (cursor : RemoteCursor) :
    Extends (nextBatch backends fuel cursor) (nextBatch backends (fuel + 1) cursor) := by
  induction fuel generalizing cursor with
  | zero => exact .inl rfl
  | succ fuel ih =>
    rw [nextBatch, nextBatch]
    split
    · exact .refl _
    · split
      · exact .refl _
      · exact (Extends.refl _).bind fun found => ih _

theorem getPageRemoteLocations_extends (fuel : ℕ) (cursor : RemoteCursor) (limit : ℕ) :
    Extends (getPageRemoteLocations backends visibleUploads fuel cursor limit)
      (getPageRemoteLocations backends visibleUploads (fuel + 1) cursor limit) :=
  (nextBatch_extends fuel cursor).bind fun _ => .refl _

theorem remoteLoop_extends (limit fuel : ℕ) (locations : List Location) (cursor : RemoteCursor) :
    Extends (remoteLoop backends visibleUploads limit fuel locations cursor)
      (remoteLoop backends visibleUploads limit (fuel + 1) locations cursor) := by
  induction fuel generalizing locations cursor with
  | zero => exact .inl rfl
  | succ fuel ih =>
    rw [remoteLoop, remoteLoop]
    split
    · refine (getPageRemoteLocations_extends fuel cursor _).bind fun page => ?_
      dsimp only
      split
      · exact ih _ _
      · exact .refl _
    · exact .refl _

theorem getReferences_extends (fuel limit : ℕ) (cursor : ReferencesCursor) :
    Extends (getReferences backends visibleUploads fuel limit cursor)
      (getReferences backends visibleUploads (fuel + 1) limit cursor) := by
  refine (Extends.refl _).bind fun found => ?_
  dsimp only [gatherRemote]
  split
  · exact (Extends.refl _).bind fun remoteCursor =>
      (remoteLoop_extends limit fuel _ remoteCursor).bind fun _ => .refl _
  · exact .refl _

theorem eq_of_enough {α : Type} {x : ℕ → Outcome GoString α} {a b : α}
    (ha : ∃ enough, ∀ fuel ≥ enough, x fuel = .ok a)
    (hb : ∃ enough, ∀ fuel ≥ enough, x fuel = .ok b) : a = b := by
  obtain ⟨n, hn⟩ := ha
  obtain ⟨m, hm⟩ := hb
  exact ok.inj ((hn _ (le_max_left n m)).symm.trans (hm _ (le_max_right n m)))

theorem enough_of_eq {limit fuel : ℕ} {cursor : ReferencesCursor}
    {page : List Location × ReferencesCursor}
    (h : getReferences backends visibleUploads fuel limit cursor = .ok page) :
    ∃ enough, ∀ fuel ≥ enough, getReferences backends visibleUploads fuel limit cursor = .ok page :=
  Yields.of_le (fun fuel => getReferences_extends fuel limit cursor) ⟨fuel, h⟩

variable {locals : VisibleUpload → List Location} {definitions : List Dump}
  {scan : ℤ → List ℤ × ℕ × ℕ} {bulk : List ℤ → List Location} {batches : List (List ℤ)}
  (hserves : Serves backends locals definitions scan bulk) {limit : ℕ}
include hserves

theorem gatherRemote_eq {locations : List Location} (hlocations : locations.length ≤ limit)
    {localCursor : LocalCursor} {remoteCursor remoteCursor' : RemoteCursor} {rest : List (List ℤ)}
    (hbatch : definitionBatch backends visibleUploads remoteCursor = .ok remoteCursor')
    (hat : RemoteAt scan remoteCursor' rest) :
    ∃ fuel new cursor' left', gatherRemote backends visibleUploads fuel limit locations
        { phase := .remotePhase, localCursor, remoteCursor } = .ok (locations ++ new, cursor')
      ∧ Left locals definitions scan bulk visibleUploads batches cursor' left'
      ∧ withoutSource visibleUploads (remoteLeft bulk remoteCursor' rest) = new ++ left'
      ∧ (locations ++ new).length ≤ limit
      ∧ (cursor'.phase = .donePhase ∧ left' = []
        ∨ cursor'.phase ≠ .donePhase ∧ (locations ++ new).length = limit) := by
  obtain ⟨new, phase, cursor', rest', hloop, hat', hlength, hleft, hphase⟩ :=
    remoteLoop_eq visibleUploads hserves hat (Nat.lt_succ_self _) hlocations
  have hrun : gatherRemote backends visibleUploads (remoteWork bulk remoteCursor' rest + 2) limit
      locations
      { phase := .remotePhase, localCursor, remoteCursor }
      = .ok (locations ++ new, { phase, localCursor, remoteCursor := cursor' }) := by
    rw [gatherRemote, if_pos rfl, hbatch, ok_bind, hloop]
    rfl
  rcases hphase with ⟨rfl, hend⟩ | ⟨rfl, hfull⟩
  · rw [hend] at hleft
    exact ⟨_, new, _, _, hrun, .inDone, hleft, hlength, .inl ⟨rfl, rfl⟩⟩
  · exact ⟨_, new, _, _, hrun, .inRemote hat', hleft, hlength, .inr ⟨(nomatch ·), hfull⟩⟩

theorem definitionBatch_eq (hscans : Scans scan 0 batches) :
    ∃ remoteCursor, definitionBatch backends visibleUploads {} = .ok remoteCursor
      ∧ RemoteAt scan remoteCursor batches
      ∧ remoteLeft bulk remoteCursor batches
        = (definitionIDs definitions visibleUploads :: batches).flatMap bulk := by
  refine ⟨{ uploadBatchIDs := some (definitionIDs definitions visibleUploads) }, ?_,
    ⟨Option.some_ne_none _, fun _ => rfl, .inr ⟨le_rfl, hscans⟩⟩, ?_⟩
  · rw [definitionBatch, if_pos rfl, hserves.definitionUploads]
    rfl
  · rw [remoteLeft, flatMap_cons]
    rfl

variable {cursor : ReferencesCursor} {left : List Location} (hscans : Scans scan 0 batches)
  (hleft : Left locals definitions scan bulk visibleUploads batches cursor left)
include hscans hleft

/-- **One page.** What is left at the cursor is the page and what is left at the
cursor that is returned. A page is full unless it is the last one. -/
theorem getReferences_eq :
    ∃ fuel locations cursor' left', getReferences backends visibleUploads fuel limit cursor
        = .ok (locations, cursor')
      ∧ Left locals definitions scan bulk visibleUploads batches cursor' left'
      ∧ left = locations ++ left' ∧ locations.length ≤ limit
      ∧ (cursor'.phase = .donePhase ∧ left' = []
        ∨ cursor'.phase ≠ .donePhase ∧ locations.length = limit) := by
  cases hleft with
  | inLocal hoffset =>
    rename_i localCursor
    obtain ⟨new, cursor', hloop, hleft, hlength, hoffset', hfull⟩ :=
      localLoop_eq hserves drop_zero (Nat.zero_le _) hoffset
        (show ([] : List Location).length ≤ limit from Nat.zero_le _)
    rw [nil_append] at hloop hlength hfull
    have hpage : gatherLocal backends visibleUploads limit { phase := .localPhase, localCursor }
        = .ok (new, { localCursor := cursor', phase :=
          if cursor'.uploadOffset < visibleUploads.length then .localPhase
          else .remotePhase }) := by
      rw [gatherLocal, if_pos rfl, getPageLocalLocations, hloop]
      simp only [ok_bind, decide_eq_true_eq]
    rw [hleft, append_assoc]
    by_cases hmore : cursor'.uploadOffset < visibleUploads.length
    · rw [if_pos hmore] at hpage
      refine ⟨0, new, _, _, ?_, .inLocal hoffset', rfl, hlength, .inr ⟨(nomatch ·), hfull hmore⟩⟩
      rw [getReferences, hpage, ok_bind]
      rfl
    · -- all visible uploads are finished, so the page goes on with the batches
      rw [if_neg hmore] at hpage
      obtain ⟨remoteCursor, hbatch, hat, hall⟩ := definitionBatch_eq hserves hscans
      obtain ⟨fuel, more, cursor'', left', hgather, hleft', heq, hlength', hphase⟩ :=
        gatherRemote_eq hserves hlength hbatch hat
      refine ⟨fuel, new ++ more, cursor'', left', ?_, hleft', ?_, hlength', hphase⟩
      · rw [getReferences, hpage, ok_bind]
        exact hgather
      · rw [remoteLocations, ← hall, heq, drop_eq_nil_of_le (not_lt.mp hmore), localLeft,
          nil_append, append_assoc]
  | inRemote hat =>
    rename_i localCursor remoteCursor rest
    have hbatch : definitionBatch backends visibleUploads remoteCursor = .ok remoteCursor := by
      rw [definitionBatch, if_neg hat.started]
    obtain ⟨fuel, new, cursor', left', hgather, hleft', heq, hlength, hphase⟩ :=
      gatherRemote_eq hserves (show ([] : List Location).length ≤ limit from Nat.zero_le _) hbatch
        hat
    refine ⟨fuel, new, cursor', left', ?_, hleft', heq, hlength, hphase⟩
    rw [getReferences, gatherLocal, if_neg (nomatch ·), ok_bind]
    exact hgather
  | inDone =>
    exact ⟨0, [], _, [], rfl, .inDone, rfl, Nat.zero_le _, .inl ⟨rfl, rfl⟩⟩

/-- **Following the cursors comes to an end.** -/
theorem exists_pages (hlimit : 1 ≤ limit) :
    ∃ pages, Pages visibleUploads backends limit cursor pages := by
  induction hn : left.length using Nat.strong_induction_on generalizing cursor left with
  | _ n ih =>
    obtain ⟨fuel, locations, cursor', left', hpage, hleft', rfl, -, hphase⟩ :=
      getReferences_eq hserves hscans hleft
    rcases hphase with ⟨hdone, -⟩ | ⟨hmore, hfull⟩
    · exact ⟨_, .last (enough_of_eq hpage) hdone⟩
    · have hless : left'.length < n := by
        rw [← hn, length_append]
        omega
      obtain ⟨pages, hpages⟩ := ih _ hless hleft' rfl
      exact ⟨_, .next (enough_of_eq hpage) hmore hpages⟩

/-- **The pages are what was left**, cut into parts that are not longer than the
limit. -/
theorem Pages.flatten_eq {pages : List (List Location)}
    (hpages : Pages visibleUploads backends limit cursor pages) :
    (∀ page ∈ pages, page.length ≤ limit) ∧ pages.flatten = left := by
  induction hpages generalizing left with
  | last hpage hdone =>
    obtain ⟨fuel, locations, cursor', left', hpage', -, rfl, hlength, hphase⟩ :=
      getReferences_eq hserves hscans hleft
    obtain ⟨rfl, rfl⟩ := Prod.mk.inj (eq_of_enough hpage (enough_of_eq hpage'))
    rcases hphase with ⟨-, rfl⟩ | ⟨hmore, -⟩
    · exact ⟨forall_mem_singleton.mpr hlength, rfl⟩
    · exact absurd hdone hmore
  | next hpage hmore rest ih =>
    obtain ⟨fuel, locations, cursor', left', hpage', hleft', rfl, hlength, -⟩ :=
      getReferences_eq hserves hscans hleft
    obtain ⟨rfl, rfl⟩ := Prod.mk.inj (eq_of_enough hpage (enough_of_eq hpage'))
    obtain ⟨hlengths, hflatten⟩ := ih hleft'
    exact ⟨forall_mem_cons.mpr ⟨hlength, hlengths⟩, by rw [flatten_cons, hflatten]⟩

end

/-- **Paging through references.** If no call fails, then following the cursors
from the first one on comes to the phase `"done"`, with pages that are not longer
than the limit. Together they are the locations of the visible uploads, then those of
the batch of definitions and of each batch of references that do not enclose the
requested position. -/
theorem getReferences_pages (backends : ReferenceBackends) (visibleUploads : List VisibleUpload)
    {locals : VisibleUpload → List Location} {definitions : List Dump}
    {scan : ℤ → List ℤ × ℕ × ℕ} {bulk : List ℤ → List Location} {batches : List (List ℤ)}
    (hserves : Serves backends locals definitions scan bulk) (hscans : Scans scan 0 batches)
    {limit : ℕ} (hlimit : 1 ≤ limit) :
    (∃ pages, Pages visibleUploads backends limit {} pages)
    ∧ ∀ pages, Pages visibleUploads backends limit {} pages →
      (∀ page ∈ pages, page.length ≤ limit)
      ∧ pages.flatten = visibleUploads.flatMap locals
        ++ remoteLocations bulk visibleUploads
          (definitionIDs definitions visibleUploads :: batches) := by
  have hleft : Left locals definitions scan bulk visibleUploads batches {}
      (localLeft locals 0 (visibleUploads.drop 0) ++ remoteLocations bulk visibleUploads
        (definitionIDs definitions visibleUploads :: batches)) := .inLocal (Nat.zero_le _)
  rw [localLeft_zero, drop_zero] at hleft
  exact ⟨exists_pages hserves hscans hleft hlimit,
    fun pages hpages => hpages.flatten_eq hserves hscans hleft⟩

/-! ### Pages of two locations -/

/-- Backends that have lists of locations and batches. -/
def ReferenceBackends.ofLists (locals : VisibleUpload → List Location) (definitions : List Dump)
    (scan : ℤ → List ℤ × ℕ × ℕ) (bulk : List ℤ → List Location) : ReferenceBackends where
  getReferenceLocations visible limit offset :=
    .ok (((locals visible).drop offset).take limit, (locals visible).length)
  getUploadsWithDefinitionsForMonikers := .ok definitions
  getUploadIDsWithReferences offset := .ok (scan offset)
  getBulkMonikerLocations ids limit offset :=
    .ok (((bulk ids).drop offset).take limit, (bulk ids).length)

/-- The locations of an upload: one in each of the first lines. -/
def firstLines (lines : ℕ) (id : ℤ) : List Location :=
  (List.range lines).map fun line =>
    { dumpID := id, path := lit "main.go", range := ⟨⟨line, 0⟩, ⟨line, 3⟩⟩ }

/-- A visible upload with three locations, one in an upload that has the definition,
and one in an upload that a scan finds. -/
theorem getReferences_pages_of_two :
    ∃ pages, Pages [{ upload := { id := 1 }, targetPath := [], targetPathWithoutRoot := [] }]
        (.ofLists (fun visible => firstLines 3 visible.upload.id) [{ id := 1 }, { id := 2 }]
          (fun _ => ([3], 1, 1)) (fun ids => ids.flatMap (firstLines 1))) 2 {} pages
      ∧ (∀ page ∈ pages, page.length ≤ 2)
      ∧ pages.flatten = firstLines 3 1 ++ (firstLines 1 2 ++ firstLines 1 3) := by
  obtain ⟨⟨pages, hpages⟩, hall⟩ := getReferences_pages
    (.ofLists (fun visible => firstLines 3 visible.upload.id) [{ id := 1 }, { id := 2 }]
      (fun _ => ([3], 1, 1)) (fun ids => ids.flatMap (firstLines 1)))
    [{ upload := { id := 1 }, targetPath := [], targetPathWithoutRoot := [] }]
    ⟨fun _ _ _ _ => rfl, rfl, fun _ => rfl, fun _ _ _ _ => rfl, rfl⟩
    (.last (by decide)) (Nat.le_succ 1)
  obtain ⟨hlengths, hflatten⟩ := hall pages hpages
  exact ⟨pages, hpages, hlengths, hflatten.trans (by decide +kernel)⟩

end Codenav
