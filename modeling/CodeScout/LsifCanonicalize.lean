import CodeScout.LsifCorrelate
import CodeScout.Util.Outcome
import Mathlib

/-!
# Canonicalizing the state of a dump

The canonicalization merges documents with one path, copies what reference
results link to, and follows the next edges of ranges and result sets: what a
range or a result set lacks it gets from the next result set, which is
canonicalized first.

Functions that recurse along links have fuel. Loops over maps and sets visit
their elements in any order.
-/

namespace Conversion

/-- The number of the loop of an identifier. -/
def loopOf (loop : ℕ) (id : ℤ) : List ℕ := [loop, id.toNat, (-id).toNat]

/-! ## Documents -/

/-- The documents of each path, sorted. -/
def documentIDs (order : RangeOrder) (state : State) : GoMap GoString (List ℤ) :=
  let ids := (order.range [0] state.documentData.toPairs).foldl
    (fun ids document => ids.appendTo document.2 document.1) ∅
  (order.range [1] ids.toPairs).foldl
    (fun ids entry => ids.insert entry.1 (entry.2.insertionSort (· ≤ ·))) ids

/-- For each document of which there are several, the one that stands for it. -/
def canonicalIDs (order : RangeOrder) (state : State) : Outcome Empty (GoMap ℤ ℤ) :=
  let ids := documentIDs order state
  (order.range [2] state.documentData.toPairs).foldlM (fun canonical document =>
    (Outcome.ofOption ((ids.lookup document.2).bind List.head?)).bind fun canonicalID =>
      .ok (if document.1 ≠ canonicalID then canonical.insert document.1 canonicalID
        else canonical)) ∅

/-- The loop over the documents of one result. -/
def moveDocuments (canonical : GoMap ℤ ℤ) (documentIDs : List ℤ) (ranges : IDSetMap) : IDSetMap :=
  documentIDs.foldl (fun ranges documentID =>
    match canonical.lookup documentID with
    | none => ranges
    | some canonicalID =>
      IDSetMap.unionIDSet (ranges.erase documentID) canonicalID (ranges.lookup documentID)) ranges

/-- Ranges are moved to the canonical documents, in each result. -/
def canonicalizeDocumentsInDefinitionReferences (order : RangeOrder) (loop : ℕ)
    (data : GoMap ℤ IDSetMap) (canonical : GoMap ℤ ℤ) : GoMap ℤ IDSetMap :=
  (order.range [loop] data.toPairs).foldl (fun data entry =>
    data.insert entry.1
      (moveDocuments canonical (order.range (loopOf loop entry.1) entry.2.keys) entry.2)) data

/-- **One document for each path.** -/
def canonicalizeDocuments (order : RangeOrder) (state : State) : Outcome Empty State :=
  (canonicalIDs order state).bind fun canonical =>
    let state := { state with
      definitionData :=
        canonicalizeDocumentsInDefinitionReferences order 3 state.definitionData canonical
      referenceData :=
        canonicalizeDocumentsInDefinitionReferences order 4 state.referenceData canonical
      implementationData :=
        canonicalizeDocumentsInDefinitionReferences order 5 state.implementationData canonical }
    .ok ((order.range [6] canonical.toPairs).foldl (fun state entry => { state with
      documentData := state.documentData.erase entry.1
      contains :=
        (state.contains.unionIDSet entry.2 (state.contains.lookup entry.1)).erase entry.1
      diagnostics :=
        (state.diagnostics.unionIDSet entry.2 (state.diagnostics.lookup entry.1)).erase entry.1 })
      state)

/-! ## Reference results -/

/-- The ranges of a reference result are added to those of another. -/
def copyReferences (order : RangeOrder) (data : GoMap ℤ IDSetMap) (nextID id : ℤ) :
    Outcome Empty (GoMap ℤ IDSetMap) :=
  (Outcome.ofOption (data.lookup nextID)).bind fun source =>
    (order.range (loopOf 7 nextID ++ loopOf 7 id) source.toPairs).foldlM (fun data entry =>
      (Outcome.ofOption (data.lookup id)).bind fun target =>
        .ok (data.insert id (target.unionIDSet entry.1 (some entry.2)))) data

/-- The identifiers that were visited, and the reference results. -/
abbrev Visits := IDSet × GoMap ℤ IDSetMap

/-- The search through linked reference results, which adds what they have. -/
def visit (order : RangeOrder) (linked : GoMap ℤ (List ℤ)) :
    ℕ → Visits → ℤ → Outcome Empty Visits
  | 0, _, _ => .outOfFuel
  | fuel + 1, (visited, data), id =>
    if id ∈ visited then .ok (visited, data)
    else
      match linked.lookup id with
      | none => .ok (IDSet.add visited id, data)
      | some nextIDs => nextIDs.foldlM (fun visits nextID =>
          (visit order linked fuel visits nextID).bind fun visits =>
            (copyReferences order visits.2 nextID id).bind fun data => .ok (visits.1, data))
          (IDSet.add visited id, data)

/-- **Reference results have all that is linked to them.** -/
def canonicalizeReferenceResults (order : RangeOrder) (fuel : ℕ) (state : State) :
    Outcome Empty State :=
  ((order.range [8] state.referenceData.keys).foldlM
      (visit order state.linkedReferenceResults fuel) ([], state.referenceData)).bind
    fun visits => .ok { state with referenceData := visits.2 }

/-! ## Monikers -/

/-- The loop of `ExtractSet`. -/
def extractFrom (order : RangeOrder) (loop : List ℕ) (links : IDSetMap) :
    ℕ → IDSet → IDSet → Outcome Empty IDSet
  | 0, _, _ => .outOfFuel
  | fuel + 1, s, frontier =>
    match order.range (loop ++ [s.length, frontier.length]) frontier with
    | [] => .ok s
    | v :: frontier =>
      if v ∈ s then extractFrom order loop links fuel s frontier
      else extractFrom order loop links fuel (s.add v) (IDSet.union frontier (links.ids v))

/-- `ExtractSet` -/
def extractSet (order : RangeOrder) (loop : List ℕ) (links : IDSetMap) (fuel : ℕ) (id : ℤ) :
    Outcome Empty IDSet :=
  extractFrom order loop links fuel [] [id]

/-- Whether a moniker is local. -/
def State.isLocal (state : State) (id : ℤ) : Bool :=
  (state.monikerData.lookup id).elim false (·.kind == lit "local")

/-- The set is `none` where the source has a nil pointer. -/
def gatherMonikers (order : RangeOrder) (loop : List ℕ) (fuel : ℕ) (state : State)
    (source : Option IDSet) : Outcome Empty (Option IDSet) :=
  match source with
  | none => .ok none
  | some source =>
    if source.length = 0 then .ok none
    else
      ((order.range loop source).foldlM (fun monikers sourceID =>
        (extractSet order (loop ++ loopOf 0 sourceID) state.linkedMonikers fuel sourceID).bind
          fun set => .ok ((order.range (loop ++ loopOf 1 sourceID) set).foldl
            (fun monikers id => if !state.isLocal id then IDSet.add monikers id else monikers)
            monikers)) []).bind fun monikers => .ok (some monikers)

/-- The monikers of a range or result set get those linked to them. -/
def addLinkedMonikers (order : RangeOrder) (loop : List ℕ) (fuel : ℕ) (state : State) (id : ℤ) :
    Outcome Empty State :=
  (gatherMonikers order loop fuel state (state.monikers.lookup id)).bind fun monikers =>
    .ok { state with monikers := state.monikers.unionIDSet id monikers }

/-! ## Result sets and ranges -/

/-- The result set at an identifier. -/
def State.resultSet (state : State) (id : ℤ) : ResultSet := (state.resultSetData.lookup id).getD {}

/-- The result set to which an element passes on. -/
def next (state : State) (id : ℤ) : Option (ℤ × ResultSet) :=
  (state.nextData.lookup id).map fun nextID => (nextID, state.resultSet nextID)

/-- An identifier that is zero is taken from the next element. -/
def ResultIDs.merge (item nextItem : ResultIDs) : ResultIDs where
  definitionResultID :=
    if item.definitionResultID = 0 then nextItem.definitionResultID else item.definitionResultID
  referenceResultID :=
    if item.referenceResultID = 0 then nextItem.referenceResultID else item.referenceResultID
  implementationResultID :=
    if item.implementationResultID = 0 then nextItem.implementationResultID
    else item.implementationResultID
  hoverResultID :=
    if item.hoverResultID = 0 then nextItem.hoverResultID else item.hoverResultID

/-- The monikers of the next element are added to those of an element. -/
def State.mergeMonikers (state : State) (itemID nextID : ℤ) : State :=
  { state with monikers := state.monikers.unionIDSet itemID (state.monikers.lookup nextID) }

/-- A result set with what it leaves to the next one. -/
def mergeNextResultSetData (state : State) (itemID : ℤ) (item : ResultSet) (nextID : ℤ)
    (nextItem : ResultSet) : State × ResultSet :=
  (state.mergeMonikers itemID nextID, ⟨item.toResultIDs.merge nextItem.toResultIDs⟩)

/-- A range with what it leaves to the next result set. -/
def mergeNextRangeData (state : State) (itemID : ℤ) (item : Range) (nextID : ℤ)
    (nextItem : ResultSet) : State × Range :=
  (state.mergeMonikers itemID nextID, ⟨item.toResultIDs.merge nextItem.toResultIDs⟩)

/-- A result set with what the chain after it has. -/
def canonicalizeResultSetData : ℕ → State → ℤ → ResultSet → Outcome Empty (State × ResultSet)
  | 0, _, _, _ => .outOfFuel
  | fuel + 1, state, id, item =>
    match next state id with
    | some (nextID, nextItem) =>
      (canonicalizeResultSetData fuel state nextID nextItem).bind fun (state, nextItem) =>
        let (state, item) := mergeNextResultSetData state id item nextID nextItem
        .ok ({ state with
          nextData := state.nextData.erase id
          resultSetData := state.resultSetData.insert id item }, item)
    | none => .ok ({ state with resultSetData := state.resultSetData.insert id item }, item)

/-- **Result sets are complete**, with their linked monikers. -/
def canonicalizeResultSets (order : RangeOrder) (fuel : ℕ) (state : State) :
    Outcome Empty State :=
  ((order.range [9] state.resultSetData.keys).foldlM (fun state id =>
    (canonicalizeResultSetData fuel state id (state.resultSet id)).bind fun result =>
      .ok result.1) state).bind fun state =>
  (order.range [10] state.resultSetData.keys).foldlM
    (fun state id => addLinkedMonikers order (loopOf 11 id) fuel state id) state

/-- What the next element has is merged into a range, which is written back. -/
def mergeRange (state : State) (rangeID : ℤ) : State :=
  let rangeData := (state.rangeData.lookup rangeID).getD {}
  match next state rangeID with
  | some (nextID, nextItem) =>
    let (state, rangeData) := mergeNextRangeData state rangeID rangeData nextID nextItem
    { state with
      nextData := state.nextData.erase rangeID
      rangeData := state.rangeData.insert rangeID rangeData }
  | none => { state with rangeData := state.rangeData.insert rangeID rangeData }

/-- The loop body of `canonicalizeRanges`. -/
def canonicalizeRange (order : RangeOrder) (fuel : ℕ) (state : State) (rangeID : ℤ) :
    Outcome Empty State :=
  addLinkedMonikers order (loopOf 12 rangeID) fuel (mergeRange state rangeID) rangeID

/-- **Ranges are complete.** -/
def canonicalizeRanges (order : RangeOrder) (fuel : ℕ) (state : State) : Outcome Empty State :=
  (order.range [13] state.rangeData.keys).foldlM (canonicalizeRange order fuel) state

/-- **`canonicalize`**, in the order of the source. -/
def canonicalize (order : RangeOrder) (fuel : ℕ) (state : State) : Outcome Empty State :=
  (canonicalizeDocuments order state).bind fun state =>
  (canonicalizeReferenceResults order fuel state).bind fun state =>
  (canonicalizeResultSets order fuel state).bind fun state =>
  canonicalizeRanges order fuel state

end Conversion
