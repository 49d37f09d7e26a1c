import CodeScout.Util.GoMap
import CodeScout.Util.GoQuote
import CodeScout.Util.GoStrconv
import Mathlib

/-!
# Correlating LSIF dumps

A dump is a sequence of vertices and edges. The correlation reads it once and
builds a state of maps, from identifiers to what the vertices with them stand
for and what the edges link them to. An edge is rejected if a vertex it links
was not seen before as one of the right kind.

Sets of identifiers are lists without order here. The state leaves out what is
only passed on: positions of ranges, schemes and identifiers of monikers and
the details of diagnostics.
-/

namespace Conversion

/-! ## Sets of identifiers -/

/-- `IDSet` -/
abbrev IDSet := List ℤ

/-- A set with one more identifier. -/
def IDSet.add (s : IDSet) (id : ℤ) : IDSet := if id ∈ s then s else s ++ [id]

/-- The identifiers of two sets. -/
def IDSet.union (s other : IDSet) : IDSet := other.foldl IDSet.add s

theorem IDSet.mem_add {s : IDSet} {id id' : ℤ} : id' ∈ s.add id ↔ id' ∈ s ∨ id' = id := by
  unfold IDSet.add
  split_ifs with h
  · exact ⟨.inl, fun h' => h'.elim (fun hmem => hmem) fun heq => heq ▸ h⟩
  · rw [List.mem_append, List.mem_singleton]

theorem IDSet.mem_union {s other : IDSet} {id : ℤ} :
    id ∈ s.union other ↔ id ∈ s ∨ id ∈ other := by
  unfold IDSet.union
  induction other generalizing s with
  | nil => simp
  | cons id' other ih => rw [List.foldl_cons, ih, IDSet.mem_add, List.mem_cons, or_assoc]

/-- `DefaultIDSetMap` -/
abbrev IDSetMap := GoMap ℤ IDSet

/-- `AddID` -/
def IDSetMap.addID (m : IDSetMap) (key id : ℤ) : IDSetMap :=
  m.insert key (IDSet.add ((m.lookup key).getD []) id)

/-- `UnionIDSet`. The set is `none` where the source has a nil pointer. -/
def IDSetMap.unionIDSet (m : IDSetMap) (key : ℤ) (other : Option IDSet) : IDSetMap :=
  match other with
  | none => m
  | some other =>
    if other.length = 0 then m
    else m.insert key (IDSet.union ((m.lookup key).getD []) other)

/-- The identifiers in the set at a key. -/
def IDSetMap.ids (m : IDSetMap) (key : ℤ) : IDSet := (m.lookup key).getD []

theorem IDSetMap.mem_ids_unionIDSet {m : IDSetMap} {key key' id : ℤ} {other : Option IDSet} :
    id ∈ (m.unionIDSet key other).ids key' ↔
      id ∈ m.ids key' ∨ key' = key ∧ id ∈ other.getD [] := by
  unfold IDSetMap.unionIDSet
  cases other with
  | none => simp
  | some other =>
    dsimp only
    split_ifs with hlength
    · rw [List.eq_nil_of_length_eq_zero hlength]
      simp
    · unfold IDSetMap.ids
      by_cases hkey : key' = key
      · subst hkey
        rw [AList.lookup_insert, Option.getD_some, Option.getD_some, IDSet.mem_union,
          and_iff_right rfl]
      · rw [AList.lookup_insert_ne hkey]
        simp [hkey]

/-! ## Elements -/

/-- The results linked to a range or a result set. Zero stands for no result. -/
@[ext]
structure ResultIDs where
  definitionResultID : ℤ := 0
  referenceResultID : ℤ := 0
  implementationResultID : ℤ := 0
  hoverResultID : ℤ := 0
  deriving DecidableEq

/-- A range of a document, as far as its results go. -/
structure Range extends ResultIDs
  deriving DecidableEq

/-- Results that several ranges share. -/
structure ResultSet extends ResultIDs
  deriving DecidableEq

/-- A name of a symbol across dumps. -/
structure Moniker where
  kind : GoString
  packageInformationID : ℤ := 0
  deriving DecidableEq

/-- The package that a moniker belongs to. -/
structure PackageInformation where
  name : GoString
  version : GoString
  deriving DecidableEq

/-- A message of a tool. -/
structure Diagnostic where
  message : GoString
  deriving DecidableEq

/-- The first vertex of a dump. -/
structure MetaData where
  version : GoString
  projectRoot : GoString
  deriving DecidableEq

/-- The payload of an edge, with the many targets that some edges have. -/
structure Edge where
  outV : ℤ
  inV : ℤ
  inVs : List ℤ
  document : ℤ
  deriving DecidableEq

/-- What an element carries besides its label. -/
inductive Payload where
  | edge (edge : Edge)
  | metaData (metaData : MetaData)
  | text (text : GoString)
  | range (range : Range)
  | moniker (moniker : Moniker)
  | packageInformation (info : PackageInformation)
  | diagnostics (diagnostics : List Diagnostic)
  /-- A payload that no handler looks at. -/
  | other
  deriving DecidableEq

/-- A line of a dump: a vertex or an edge. -/
structure Element where
  id : ℤ
  type : GoString
  label : GoString
  payload : Payload
  deriving DecidableEq

/-! ## The state -/

/-- What a dump says, while it is read and canonicalized. -/
structure State where
  lsifVersion : GoString
  projectRoot : GoString
  documentData : GoMap ℤ GoString
  rangeData : GoMap ℤ Range
  resultSetData : GoMap ℤ ResultSet
  definitionData : GoMap ℤ IDSetMap
  referenceData : GoMap ℤ IDSetMap
  implementationData : GoMap ℤ IDSetMap
  hoverData : GoMap ℤ GoString
  monikerData : GoMap ℤ Moniker
  packageInformationData : GoMap ℤ PackageInformation
  diagnosticResults : GoMap ℤ (List Diagnostic)
  nextData : GoMap ℤ ℤ
  importedMonikers : IDSet
  exportedMonikers : IDSet
  implementedMonikers : IDSet
  linkedMonikers : IDSetMap
  linkedReferenceResults : GoMap ℤ (List ℤ)
  monikers : IDSetMap
  contains : IDSetMap
  diagnostics : IDSetMap

/-- Nothing has been read. -/
def newState : State :=
  ⟨[], [], ∅, ∅, ∅, ∅, ∅, ∅, ∅, ∅, ∅, ∅, ∅, [], [], [], ∅, ∅, ∅, ∅, ∅⟩

/-- The state of the correlation, with what only its checks need. -/
structure WrappedState extends State where
  dumpRoot : GoString
  unsupportedVertices : IDSet
  rangeToDoc : GoMap ℤ ℤ

/-- The state in which the correlation of a dump starts. -/
def newWrappedState (dumpRoot : GoString) : WrappedState :=
  { toState := newState, dumpRoot, unsupportedVertices := [], rangeToDoc := ∅ }

/-! ## Errors -/

/-- The errors that end a correlation. -/
inductive CorrelateError where
  | unknownElementType (type : GoString)
  | missingMetaData
  | unexpectedPayload
  | malformedDump (id references : ℤ) (kinds : List GoString)
  | notRelative (uri root err : GoString)
  | containedElsewhere (range document other : ℤ)
  | linkedElsewhere (id range document other : ℤ)
  deriving DecidableEq

/-- The text of an error. -/
def CorrelateError.message (isPrint : ℕ → Bool) : CorrelateError → GoString
  | .unknownElementType type => lit "unknown element type " ++ type
  | .missingMetaData => lit "no metadata defined"
  | .unexpectedPayload => lit "unexpected payload for element"
  | .malformedDump id references kinds =>
    lit "unknown reference to " ++ formatInt references ++ lit " (expected a " ++
      (lit " or ").intercalate kinds ++ lit ") in element " ++ formatInt id
  | .notRelative uri root err =>
    lit "document URI " ++ quote isPrint uri ++ lit " is not relative to project root " ++
      quote isPrint root ++ lit " (" ++ err ++ lit ")"
  | .containedElsewhere range document other =>
    lit "validate: range " ++ formatInt range ++ lit " is contained in document " ++
      formatInt document ++ lit ", but linked to a different document " ++ formatInt other
  | .linkedElsewhere id range document other =>
    lit "at item edge " ++ formatInt id ++ lit ", range " ++ formatInt range ++
      lit " can't be linked to document " ++ formatInt document ++
      lit " because it's already linked to " ++ formatInt other ++ lit " by a previous item edge"

/-! ## Vertices -/

/-- What a handler returns. -/
abbrev Correlated := Except CorrelateError WrappedState

section

variable (rel : GoString → GoString → Except GoString GoString) (state : WrappedState)
  (element : Element)

/-- The root of the project ends with a slash and with the root of the dump. -/
def correlateMetaData : Correlated :=
  match element.payload with
  | .metaData payload =>
    let root := payload.projectRoot
    let root := if !(lit "/").isSuffixOf root then root ++ lit "/" else root
    let root :=
      if state.dumpRoot ≠ [] && !(lit "/" ++ state.dumpRoot).isSuffixOf root then
        root ++ state.dumpRoot
      else root
    .ok { state with lsifVersion := payload.version, projectRoot := root }
  | _ => .error .unexpectedPayload

/-- `rel` is `filepath.Rel`. -/
def correlateDocument : Correlated :=
  match element.payload with
  | .text payload =>
    if state.projectRoot = [] then .error .missingMetaData
    else
      match rel state.projectRoot payload with
      | .error err => .error (.notRelative payload state.projectRoot err)
      | .ok relativeURI =>
        .ok { state with documentData := state.documentData.insert element.id relativeURI }
  | _ => .error .unexpectedPayload

/-- A range, without results so far. -/
def correlateRange : Correlated :=
  match element.payload with
  | .range payload => .ok { state with rangeData := state.rangeData.insert element.id payload }
  | _ => .error .unexpectedPayload

/-- A result set, without results so far. -/
def correlateResultSet : Correlated :=
  .ok { state with resultSetData := state.resultSetData.insert element.id {} }

/-- A definition result, without ranges so far. -/
def correlateDefinitionResult : Correlated :=
  .ok { state with definitionData := state.definitionData.insert element.id ∅ }

/-- A reference result, without ranges so far. -/
def correlateReferenceResult : Correlated :=
  .ok { state with referenceData := state.referenceData.insert element.id ∅ }

/-- An implementation result, without ranges so far. -/
def correlateImplementationResult : Correlated :=
  .ok { state with implementationData := state.implementationData.insert element.id ∅ }

/-- The text of a hover. -/
def correlateHoverResult : Correlated :=
  match element.payload with
  | .text payload => .ok { state with hoverData := state.hoverData.insert element.id payload }
  | _ => .error .unexpectedPayload

/-- A moniker, without its package so far. -/
def correlateMoniker : Correlated :=
  match element.payload with
  | .moniker payload =>
    .ok { state with monikerData := state.monikerData.insert element.id payload }
  | _ => .error .unexpectedPayload

/-- A package. -/
def correlatePackageInformation : Correlated :=
  match element.payload with
  | .packageInformation payload => .ok { state with
      packageInformationData := state.packageInformationData.insert element.id payload }
  | _ => .error .unexpectedPayload

/-- The diagnostics of a document. -/
def correlateDiagnosticResult : Correlated :=
  match element.payload with
  | .diagnostics payload =>
    .ok { state with diagnosticResults := state.diagnosticResults.insert element.id payload }
  | _ => .error .unexpectedPayload

/-- The handler for each label of a vertex. -/
def vertexHandlers : List (GoString × (WrappedState → Element → Correlated)) :=
  [(lit "metaData", correlateMetaData),
    (lit "document", correlateDocument rel),
    (lit "range", correlateRange),
    (lit "resultSet", correlateResultSet),
    (lit "definitionResult", correlateDefinitionResult),
    (lit "referenceResult", correlateReferenceResult),
    (lit "implementationResult", correlateImplementationResult),
    (lit "hoverResult", correlateHoverResult),
    (lit "moniker", correlateMoniker),
    (lit "packageInformation", correlatePackageInformation),
    (lit "diagnosticResult", correlateDiagnosticResult)]

/-- A vertex with another label is only remembered. -/
def correlateVertex : Correlated :=
  match (vertexHandlers rel).lookup element.label with
  | none =>
    .ok { state with unsupportedVertices := IDSet.add state.unsupportedVertices element.id }
  | some handler => handler state element

end

/-! ## Edges -/

section

variable (state : WrappedState) (id : ℤ) (edge : Edge)

/-- The document that a range is in, which must be the only one. -/
def correlateContainsEdge : Correlated :=
  if edge.outV ∉ state.documentData then .ok state
  else
    edge.inVs.foldlM (fun state inV =>
      if inV ∉ state.rangeData then .error (.malformedDump id inV [lit "range"])
      else
        match state.rangeToDoc.lookup inV with
        | some doc =>
          if doc ≠ edge.outV then .error (.containedElsewhere inV edge.outV doc)
          else .ok { state with contains := state.contains.addID edge.outV inV }
        | none => .ok { state with contains := state.contains.addID edge.outV inV }) state

/-- The result set to which a range or a result set passes on. -/
def correlateNextEdge : Correlated :=
  if edge.inV ∉ state.resultSetData then .error (.malformedDump id edge.inV [lit "resultSet"])
  else if edge.outV ∈ state.rangeData then
    .ok { state with nextData := state.nextData.insert edge.outV edge.inV }
  else if edge.outV ∈ state.resultSetData then
    .ok { state with nextData := state.nextData.insert edge.outV edge.inV }
  else .error (.malformedDump id edge.outV [lit "range", lit "resultSet"])

/-- A range in an item edge is linked to the document of the edge. -/
def linkRange (id : ℤ) (edge : Edge) (state : WrappedState) (inV : ℤ) : Correlated :=
  match state.rangeToDoc.lookup inV with
  | some doc =>
    if doc ≠ edge.document then .error (.linkedElsewhere id inV edge.document doc)
    else .ok { state with rangeToDoc := state.rangeToDoc.insert inV edge.document }
  | none => .ok { state with rangeToDoc := state.rangeToDoc.insert inV edge.document }

/-- The set map at a key gets a range of the document of an edge. -/
def addRange (data : GoMap ℤ IDSetMap) (edge : Edge) (inV : ℤ) : GoMap ℤ IDSetMap :=
  data.insert edge.outV (((data.lookup edge.outV).getD ∅).addID edge.document inV)

/-- The ranges of a result, or results that are linked. -/
def correlateItemEdge : Correlated :=
  if edge.document = 0 then .error (.malformedDump id edge.outV [lit "document"])
  else if edge.outV ∈ state.definitionData then
    edge.inVs.foldlM (fun state inV =>
      if inV ∉ state.rangeData then .error (.malformedDump id inV [lit "range"])
      else linkRange id edge
        { state with definitionData := addRange state.definitionData edge inV } inV) state
  else if edge.outV ∈ state.referenceData then
    edge.inVs.foldlM (fun state inV =>
      if inV ∈ state.referenceData then
        .ok { state with
          linkedReferenceResults := state.linkedReferenceResults.appendTo edge.outV inV }
      else if inV ∉ state.rangeData then .error (.malformedDump id inV [lit "range"])
      else linkRange id edge
        { state with referenceData := addRange state.referenceData edge inV } inV) state
  else if edge.outV ∈ state.implementationData then
    edge.inVs.foldlM (fun state inV =>
      if inV ∉ state.rangeData then .error (.malformedDump id inV [lit "range"])
      else .ok { state with
        implementationData := addRange state.implementationData edge inV }) state
  else if edge.outV ∉ state.unsupportedVertices then
    .error (.malformedDump id edge.outV [lit "vertex"])
  else .ok state

/-- An edge from a range or result set to a result, which is known as `known` and
set by `set`. -/
def correlateResultEdge {α : Type} (known : WrappedState → GoMap ℤ α) (kind : GoString)
    (set : ℤ → ResultIDs → ResultIDs) (state : WrappedState) (id : ℤ) (edge : Edge) :
    Correlated :=
  if edge.inV ∉ known state then .error (.malformedDump id edge.inV [kind])
  else
    match state.rangeData.lookup edge.outV with
    | some source =>
      .ok { state with rangeData := state.rangeData.insert edge.outV ⟨set edge.inV source.1⟩ }
    | none =>
      match state.resultSetData.lookup edge.outV with
      | some source => .ok { state with
          resultSetData := state.resultSetData.insert edge.outV ⟨set edge.inV source.1⟩ }
      | none => .error (.malformedDump id edge.outV [lit "range", lit "resultSet"])

/-- The definition result of a range or result set. -/
def correlateTextDocumentDefinitionEdge : WrappedState → ℤ → Edge → Correlated :=
  correlateResultEdge (·.definitionData) (lit "definitionResult")
    fun id ids => { ids with definitionResultID := id }

/-- The reference result of a range or result set. -/
def correlateTextDocumentReferencesEdge : WrappedState → ℤ → Edge → Correlated :=
  correlateResultEdge (·.referenceData) (lit "referenceResult")
    fun id ids => { ids with referenceResultID := id }

/-- The implementation result of a range or result set. -/
def correlateTextDocumentImplementationEdge : WrappedState → ℤ → Edge → Correlated :=
  correlateResultEdge (·.implementationData) (lit "implementationResult")
    fun id ids => { ids with implementationResultID := id }

/-- The hover result of a range or result set. -/
def correlateTextDocumentHoverEdge : WrappedState → ℤ → Edge → Correlated :=
  correlateResultEdge (·.hoverData) (lit "hoverResult")
    fun id ids => { ids with hoverResultID := id }

/-- A moniker of a range or result set. -/
def correlateMonikerEdge : Correlated :=
  if edge.inV ∉ state.monikerData then .error (.malformedDump id edge.inV [lit "moniker"])
  else if edge.outV ∈ state.rangeData then
    .ok { state with monikers := state.monikers.addID edge.outV edge.inV }
  else if edge.outV ∈ state.resultSetData then
    .ok { state with monikers := state.monikers.addID edge.outV edge.inV }
  else .error (.malformedDump id edge.outV [lit "range", lit "resultSet"])

/-- `Link` -/
def IDSetMap.link (m : IDSetMap) (id₁ id₂ : ℤ) : IDSetMap := (m.addID id₁ id₂).addID id₂ id₁

/-- Two monikers for the same symbol. -/
def correlateNextMonikerEdge : Correlated :=
  if edge.inV ∉ state.monikerData then .error (.malformedDump id edge.inV [lit "moniker"])
  else if edge.outV ∉ state.monikerData then .error (.malformedDump id edge.outV [lit "moniker"])
  else .ok { state with linkedMonikers := state.linkedMonikers.link edge.inV edge.outV }

/-- The package of a moniker, which makes it an import or an export. -/
def correlatePackageInformationEdge : Correlated :=
  if edge.inV ∉ state.packageInformationData then
    .error (.malformedDump id edge.inV [lit "packageInformation"])
  else
    match state.monikerData.lookup edge.outV with
    | none => .error (.malformedDump id edge.outV [lit "moniker"])
    | some source =>
      let state := { state with monikerData :=
        state.monikerData.insert edge.outV { source with packageInformationID := edge.inV } }
      if source.kind = lit "import" then
        .ok { state with importedMonikers := IDSet.add state.importedMonikers edge.outV }
      else if source.kind = lit "export" then
        .ok { state with exportedMonikers := IDSet.add state.exportedMonikers edge.outV }
      else if source.kind = lit "implementation" then
        .ok { state with implementedMonikers := IDSet.add state.implementedMonikers edge.outV }
      else .ok state

/-- The diagnostics of a document. -/
def correlateDiagnosticEdge : Correlated :=
  if edge.outV ∉ state.documentData then .error (.malformedDump id edge.outV [lit "document"])
  else if edge.inV ∉ state.diagnosticResults then
    .error (.malformedDump id edge.inV [lit "diagnosticResult"])
  else .ok { state with diagnostics := state.diagnostics.addID edge.outV edge.inV }

end

/-- The handler for each label of an edge. -/
def edgeHandlers : List (GoString × (WrappedState → ℤ → Edge → Correlated)) :=
  [(lit "contains", correlateContainsEdge),
    (lit "next", correlateNextEdge),
    (lit "item", correlateItemEdge),
    (lit "textDocument/definition", correlateTextDocumentDefinitionEdge),
    (lit "textDocument/references", correlateTextDocumentReferencesEdge),
    (lit "textDocument/implementation", correlateTextDocumentImplementationEdge),
    (lit "textDocument/hover", correlateTextDocumentHoverEdge),
    (lit "moniker", correlateMonikerEdge),
    (lit "nextMoniker", correlateNextMonikerEdge),
    (lit "packageInformation", correlatePackageInformationEdge),
    (lit "textDocument/diagnostic", correlateDiagnosticEdge)]

/-- An edge with another label is skipped. -/
def correlateEdge (state : WrappedState) (element : Element) : Correlated :=
  match element.payload with
  | .edge payload =>
    match edgeHandlers.lookup element.label with
    | none => .ok state
    | some handler => handler state element.id payload
  | _ => .ok state

/-! ## Dumps -/

/-- **One line of a dump.** -/
def correlateElement (rel : GoString → GoString → Except GoString GoString)
    (state : WrappedState) (element : Element) : Correlated :=
  if element.type = lit "vertex" then correlateVertex rel state element
  else if element.type = lit "edge" then correlateEdge state element
  else .error (.unknownElementType element.type)

/-- The state after all elements of a dump. -/
def correlate (rel : GoString → GoString → Except GoString GoString) (dumpRoot : GoString)
    (elements : List Element) : Correlated :=
  elements.foldlM (correlateElement rel) (newWrappedState dumpRoot)

end Conversion
