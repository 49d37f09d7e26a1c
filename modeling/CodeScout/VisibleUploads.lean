import CodeScout.GitLog
import Mathlib

/-!
# Uploads visible in a commit graph

An upload of code intelligence data belongs to a commit and has a token: two
uploads with the same token shadow one another. The graph of the commits is
decorated with the uploads that each commit sees. Only select commits store
them – those that define an upload, have several parents, or have a child
with several parents. Every other commit looks them up at the first ancestor
that stores its own, and adds the distance to it.

Both the search for that ancestor while the graph is populated and the one
at lookup follow parents without a bound of their own, so they take a
`fuel` here and return `none` when it is used up.
-/

namespace Commitgraph

open Gitdomain

/-! ## Uploads -/

/-- `UploadMeta`. -/
structure UploadMeta where
  uploadID : ℤ
  distance : UInt32
deriving DecidableEq, Repr

/-- `CommitGraphView`; the field `metas` is `Meta`. -/
structure CommitGraphView where
  metas : GoMap GoString (List UploadMeta) := ∅
  tokens : GoMap ℤ GoString := ∅

namespace CommitGraphView

/-- The uploads `Meta[commit]`. -/
def metaAt (view : CommitGraphView) (commit : GoString) : List UploadMeta :=
  (view.metas.lookup commit).getD []

/-- The token `Tokens[upload.UploadID]`. -/
def token (view : CommitGraphView) (upload : UploadMeta) : GoString :=
  (view.tokens.lookup upload.uploadID).getD []

/-- **`CommitGraphView.Add`.** -/
def add (view : CommitGraphView) (upload : UploadMeta) (commit token : GoString) :
    CommitGraphView where
  metas := view.metas.insert commit (view.metaAt commit ++ [upload])
  tokens := view.tokens.insert upload.uploadID token

end CommitGraphView

/-- The upload, seen from farther away. -/
def UploadMeta.addDistance (upload : UploadMeta) (distance : UInt32) : UploadMeta :=
  { upload with distance := upload.distance + distance }

/-- **`replaces`**: a smaller distance wins, ties are broken by the smaller
identifier. -/
def replaces (upload₁ upload₂ : UploadMeta) : Bool :=
  upload₁.distance < upload₂.distance
    || (upload₁.distance = upload₂.distance && upload₁.uploadID < upload₂.uploadID)

/-! ## Populating the graph -/

/-- The uploads of a commit by their tokens. -/
abbrev UploadsByToken := GoMap GoString UploadMeta

/-- The uploads that select commits store. -/
abbrev AncestorUploads := GoMap GoString UploadsByToken

/-- An iteration of the second loop of `reverseGraph`. -/
def addChild (reverse : GoMap GoString (List GoString)) (entry : GoString × List GoString) :
    GoMap GoString (List GoString) :=
  entry.2.foldl (fun reverse parent =>
    reverse.insert parent (parentsIn reverse parent ++ [entry.1])) reverse

/-- **`reverseGraph`**: the children of each commit. -/
def reverseGraph (order : RangeOrder) (graph : GoMap GoString (List GoString)) :
    GoMap GoString (List GoString) :=
  let reverse : GoMap GoString (List GoString) :=
    (order.range [0] graph.keys).foldl (fun reverse child => reverse.insert child []) ∅
  (order.range [1] graph.toPairs).foldl addChild reverse

/-- The loop that finds the nearest ancestors with data: it follows single
parents to one that stores uploads. -/
def nearestAncestors (graph : GoMap GoString (List GoString)) (uploads : AncestorUploads) :
    ℕ → List GoString → UInt32 → Option (List GoString × UInt32)
  | 0, _, _ => none
  | fuel + 1, ancestors, distance =>
    match ancestors with
    | [ancestor] =>
      if ancestor ∈ uploads then some (ancestors, distance)
      else nearestAncestors graph uploads fuel (parentsIn graph ancestor) (distance + 1)
    | _ => some (ancestors, distance)

/-- An iteration of the loop over the uploads that an ancestor sees. -/
def addUpload (view : CommitGraphView) (distance : UInt32) (uploadsByToken : UploadsByToken)
    (upload : UploadMeta) : UploadsByToken :=
  let token := view.token upload
  let upload := upload.addDistance distance
  match uploadsByToken.lookup token with
  | none => uploadsByToken.insert token upload
  | some currentUpload =>
    if replaces upload currentUpload then uploadsByToken.insert token upload
    else uploadsByToken

/-- The loop over the ancestors; `loop` tells the range loops apart. -/
def addAncestors (order : RangeOrder) (loop : ℕ) (view : CommitGraphView)
    (uploads : AncestorUploads) (distance : UInt32) :
    UploadsByToken → List GoString → UploadsByToken
  | uploadsByToken, [] => uploadsByToken
  | uploadsByToken, ancestor :: ancestors =>
    let visible := ((uploads.lookup ancestor).getD ∅).values
    addAncestors order loop view uploads distance
      ((order.range [2, loop, ancestors.length] visible).foldl (addUpload view distance)
        uploadsByToken) ancestors

/-- **`populateUploadsForCommit`.** -/
def populateUploadsForCommit (order : RangeOrder) (loop : ℕ) (uploads : AncestorUploads)
    (ancestors : List GoString) (distance : UInt32) (view : CommitGraphView)
    (commit : GoString) : UploadsByToken :=
  let defined := (view.metaAt commit).foldl
    (fun (m : UploadsByToken) upload => m.insert (view.token upload) upload) ∅
  addAncestors order loop view uploads distance defined ancestors

/-- The variable `dedicatedChildren`: no child has several parents. -/
def dedicatedChildren (graph reverse : GoMap GoString (List GoString)) (commit : GoString) :
    Bool :=
  (parentsIn reverse commit).all fun child => (parentsIn graph child).length ≤ 1

/-- The commit need not store uploads. -/
def isSkipped (graph reverse : GoMap GoString (List GoString)) (view : CommitGraphView)
    (commit : GoString) : Bool :=
  decide (commit ∉ view.metas ∧ (parentsIn graph commit).length ≤ 1)
    && dedicatedChildren graph reverse commit

/-- The iterations of `populateUploadsByTraversal`. -/
def populate (order : RangeOrder) (fuel : ℕ) (graph reverse : GoMap GoString (List GoString))
    (view : CommitGraphView) : ℕ → List GoString → AncestorUploads → Option AncestorUploads
  | _, [], uploads => some uploads
  | loop, commit :: commits, uploads =>
    if isSkipped graph reverse view commit then
      populate order fuel graph reverse view (loop + 1) commits uploads
    else
      match nearestAncestors graph uploads fuel (parentsIn graph commit) 1 with
      | none => none
      | some (ancestors, distance) =>
        populate order fuel graph reverse view (loop + 1) commits
          (uploads.insert commit
            (populateUploadsForCommit order loop uploads ancestors distance view commit))

/-- **`populateUploadsByTraversal`.** -/
def populateUploadsByTraversal (order : RangeOrder) (fuel : ℕ)
    (graph : GoMap GoString (List GoString)) (commits : List GoString)
    (view : CommitGraphView) : Option AncestorUploads :=
  populate order fuel graph (reverseGraph order graph) view 0 commits ∅

/-! ## Lookups -/

/-- `Graph`. -/
structure Graph where
  commitGraphView : CommitGraphView
  graph : GoMap GoString (List GoString)
  commits : List GoString
  ancestorUploads : AncestorUploads

/-- **`NewGraph`.** -/
def newGraph (order : RangeOrder) (fuel : ℕ) (commitGraph : CommitGraph)
    (commitGraphView : CommitGraphView) : Option Graph :=
  (populateUploadsByTraversal order fuel commitGraph.graph commitGraph.order
    commitGraphView).map fun ancestorUploads =>
      ⟨commitGraphView, commitGraph.graph, commitGraph.order.insertionSort (· ≤ ·),
        ancestorUploads⟩

/-- **`traverseForCommit`**: the first ancestor that stores uploads, its
distance, and whether there is one. -/
def traverseForCommit (graph : GoMap GoString (List GoString)) (uploads : AncestorUploads) :
    ℕ → GoString → UInt32 → Option (GoString × UInt32 × Bool)
  | 0, _, _ => none
  | fuel + 1, commit, distance =>
    if commit ∈ uploads then some (commit, distance, true)
    else
      match parentsIn graph commit with
      | [] => some ([], 0, false)
      | parent :: _ => traverseForCommit graph uploads fuel parent (distance + 1)

/-- **`traverseForUploads`.** -/
def traverseForUploads (fuel : ℕ) (graph : GoMap GoString (List GoString))
    (uploads : AncestorUploads) (commit : GoString) : Option (UploadsByToken × UInt32) :=
  (traverseForCommit graph uploads fuel commit 0).map fun (commit, distance, _) =>
    ((uploads.lookup commit).getD ∅, distance)

/-- **`adjustVisibleUploads`.** -/
def adjustVisibleUploads (order : RangeOrder) (ancestorVisibleUploads : UploadsByToken)
    (ancestorDistance : UInt32) : List UploadMeta :=
  (order.range [3] ancestorVisibleUploads.values).map (·.addDistance ancestorDistance)

/-- **`Graph.UploadsVisibleAtCommit`.** -/
def Graph.uploadsVisibleAtCommit (order : RangeOrder) (fuel : ℕ) (g : Graph)
    (commit : GoString) : Option (List UploadMeta) :=
  (traverseForUploads fuel g.graph g.ancestorUploads commit).map
    fun (ancestorUploads, ancestorDistance) =>
      adjustVisibleUploads order ancestorUploads ancestorDistance

end Commitgraph
