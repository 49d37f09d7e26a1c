import Mathlib
import CodeScout.Util.GoFloat
import CodeScout.Util.GoHeap
import CodeScout.Util.GoSort
import CodeScout.Util.GoString
import CodeScout.Util.TopK

/-!
# Similarity search

`SimilaritySearch` finds the rows of an embedding index that are most similar to a
query. The rows are split among workers. Each worker keeps the best of its rows in a
heap whose root is the worst of them, and replaces the root when it finds a better
row. The heaps are put together and sorted, and the first results are returned.

A worker's heap is a top selection of its rows (`partialSimilaritySearch_eq`), and the heaps
together contain a top selection of all rows. So the scores that are returned are the
highest ones, and do not depend on how the rows were split.
-/

namespace Embeddings

open List

/-! ## The index -/

/-- `RepoEmbeddingRowMetadata`. -/
structure RowMetadata where
  fileName : GoString
  startLine : ℤ
  endLine : ℤ
deriving DecidableEq, Inhabited

/-- A `float32`. -/
abbrev Rank := GoFloat.Value

/-- `EmbeddingIndex`. -/
structure EmbeddingIndex where
  embeddings : List Int8
  columnDimension : ℕ
  rowMetadata : List RowMetadata
  ranks : List Rank

/-- `SearchScoreDetails`. -/
structure ScoreDetails where
  score : Int32
  similarityScore : Int32
  rankScore : Int32
deriving DecidableEq, Inhabited

/-- `Row`. The slice expression panics outside of the slice. -/
def EmbeddingIndex.row (index : EmbeddingIndex) (n : ℕ) : Option (List Int8) :=
  if (n + 1) * index.columnDimension ≤ index.embeddings.length then
    some ((index.embeddings.drop (n * index.columnDimension)).take index.columnDimension)
  else none

/-- `Dot`. The sum wraps around, so that the blocks in which it is computed do not
matter. -/
def dot (a b : List Int8) : Option Int32 :=
  if a.length ≠ b.length then none
  else some ((List.zipWith (fun x y => x.toInt32 * y.toInt32) a b).foldl (· + ·) 0)

section Score

-- Conversions to `int32` of what does not fit into it are left to the implementation.
variable (convert : Rank → Int32)

/-- `int32(x)`. -/
def int32 : Rank → Int32
  | .finite x =>
    if -2 ^ 31 - 1 < x ∧ x < 2 ^ 31 then Int32.ofInt (if x < 0 then ⌈x⌉ else ⌊x⌋)
    else convert (.finite x)
  | x => convert x

/-- The rank divided by 32, at most 1. The quotient is not rounded, unless it is so
small that the conversion to an integer discards it. -/
def normalizedRank : Rank → Rank
  | .finite x => if x / 32 > 1 then .finite 1 else .finite (x / 32)
  | .inf false => .finite 1
  | .inf true => .inf true
  | .nan => .nan

def scoreSimilarityWeight : Int32 := 2

/-- `score`. The weight of the rank is 1. -/
def EmbeddingIndex.score (index : EmbeddingIndex) (query : List Int8) (i : ℕ)
    (useDocumentRanks : Bool) : Option ScoreDetails := do
  let row ← index.row i
  let product ← dot row query
  let similarityScore := scoreSimilarityWeight * product
  -- a row without a rank has the score 0
  let rankScore :=
    if useDocumentRanks then
      (index.ranks[i]?.map fun rank => int32 convert (normalizedRank rank)).getD 0
    else 0
  return ⟨similarityScore + rankScore, similarityScore, rankScore⟩

end Score

/-! ## The search -/

/-- `nearestNeighbor`. -/
structure NearestNeighbor where
  index : ℕ
  scoreDetails : ScoreDetails
deriving DecidableEq

def NearestNeighbor.score (neighbor : NearestNeighbor) : ℤ :=
  neighbor.scoreDetails.score.toInt

/-- `nearestNeighborsHeap`, the heap with the lowest score at its root. -/
def nnHeap : Heap.Interface (List NearestNeighbor) NearestNeighbor NearestNeighbor :=
  Heap.slice fun a b => decide (a.scoreDetails.score < b.scoreDetails.score)

/-- `WorkerOptions`. -/
structure WorkerOptions where
  numWorkers : ℤ
  minRowsToSplit : ℤ

/-- `splitRows`: the start and the end of the rows of each worker. -/
def splitRows (numRows numWorkers : ℕ) (minRowsToSplit : ℤ) : List (ℕ × ℕ) :=
  if numWorkers = 1 ∨ numRows ≤ numWorkers ∨ numRows ≤ minRowsToSplit then [(0, numRows)]
  else
    let nRowsPerWorker :=
      ⌈GoFloat.div (GoFloat.float64 numRows) (GoFloat.float64 numWorkers)⌉.toNat
    (List.range numWorkers).map fun i =>
      (min (i * nRowsPerWorker) numRows, min ((i + 1) * nRowsPerWorker) numRows)

section Search

variable (score : ℕ → Option ScoreDetails)

/-- An iteration of the first loop of `partialSimilaritySearch`. -/
def seedRow (heap : List NearestNeighbor) (i : ℕ) : Option (List NearestNeighbor) := do
  let scoreDetails ← score i
  return nnHeap.heapPush heap ⟨i, scoreDetails⟩

/-- An iteration of the second loop of `partialSimilaritySearch`. -/
def offerRow (heap : List NearestNeighbor) (i : ℕ) : Option (List NearestNeighbor) := do
  let scoreDetails ← score i
  let lowest ← heap[0]?
  if lowest.scoreDetails.score < scoreDetails.score then
    let (_, heap) ← nnHeap.heapPop heap
    return nnHeap.heapPush heap ⟨i, scoreDetails⟩
  else return heap

/-- `partialSimilaritySearch` on the rows from `start` to `stop`. A worker without rows
returns a nil heap, which is empty. -/
def partialSimilaritySearch (numResults : ℕ) (rows : ℕ × ℕ) : Option (List NearestNeighbor) :=
  let nRows := rows.2 - rows.1
  if nRows = 0 then some []
  else do
    let numResults := min nRows numResults
    let heap ← (List.range' rows.1 numResults).foldlM (seedRow score) []
    (List.range' (rows.1 + numResults) (nRows - numResults)).foldlM (offerRow score) heap

end Search

/-- `EmbeddingSearchResult`. -/
structure SearchResult where
  repoName : GoString
  revision : GoString
  fileName : GoString
  startLine : ℤ
  endLine : ℤ
  scoreDetails : ScoreDetails
deriving DecidableEq, Inhabited

/-- The result for a row. -/
def resultOf (repoName revision : GoString) (metadata : RowMetadata)
    (scoreDetails : ScoreDetails) : SearchResult :=
  ⟨repoName, revision, metadata.fileName, metadata.startLine, metadata.endLine, scoreDetails⟩

/-- An iteration of the last loop of `SimilaritySearch`. -/
def neighborResult (index : EmbeddingIndex) (repoName revision : GoString)
    (neighbor : NearestNeighbor) : Option SearchResult := do
  let metadata ← index.rowMetadata[neighbor.index]?
  return resultOf repoName revision metadata neighbor.scoreDetails

/-- **`SimilaritySearch`.** `none` is a panic. The workers run at the same time, each
on a heap of its own; the heaps are read when all workers are done. -/
def similaritySearch (sorter : SliceSort) (convert : Rank → Int32) (index : EmbeddingIndex)
    (query : List Int8) (numResults : ℕ) (workerOptions : WorkerOptions)
    (useDocumentRanks : Bool) (repoName revision : GoString) : Option (List SearchResult) :=
  if numResults = 0 ∨ index.embeddings.length = 0 then some []
  else do
    let numRows := index.rowMetadata.length
    let numResults := min numRows numResults
    let numWorkers := (max 1 workerOptions.numWorkers).toNat
    let rowsPerWorker := splitRows numRows numWorkers workerOptions.minRowsToSplit
    let heaps ← rowsPerWorker.mapM (partialSimilaritySearch
      (fun i => index.score convert query i useDocumentRanks) numResults)
    let neighbors := sorter.sort
      (fun a b => decide (b.scoreDetails.score < a.scoreDetails.score)) heaps.flatten
    let results ← (neighbors.take numResults).mapM (neighborResult index repoName revision)
    -- the results that were not set have their zero values
    return results ++ List.replicate (numResults - results.length) default

/-! ## A worker -/

section Worker

variable {score : ℕ → Option ScoreDetails} {details : ℕ → ScoreDetails} {rows : List ℕ}

/-- The neighbor for a row. -/
def neighborOf (details : ℕ → ScoreDetails) (i : ℕ) : NearestNeighbor := ⟨i, details i⟩

theorem nnHeap_ordered : nnHeap.Ordered := by
  refine Heap.slice_ordered ?_ ?_
  · intro a b hab
    rw [decide_eq_true_iff, Int32.lt_iff_toInt_lt] at hab
    rw [decide_eq_false_iff_not, Int32.lt_iff_toInt_lt]
    exact hab.not_gt
  · intro a b c hab hbc
    rw [decide_eq_false_iff_not, Int32.lt_iff_toInt_lt, not_lt] at hab hbc ⊢
    exact hbc.trans hab

theorem heapPush_perm (heap : List NearestNeighbor) (x : NearestNeighbor) :
    (nnHeap.heapPush heap x).Perm (x :: heap) :=
  Heap.slice_heapPush_perm heap x

theorem heapPop_perm {heap : List NearestNeighbor} {lowest : NearestNeighbor}
    (hroot : heap[0]? = some lowest) :
    ∃ rest, nnHeap.heapPop heap = some (lowest, rest) ∧ heap.Perm (lowest :: rest) :=
  Heap.slice_heapPop_perm hroot

/-- A heap with the lowest score at its root. -/
def IsHeap (heap : List NearestNeighbor) : Prop :=
  nnHeap.IsHeap heap heap.length

theorem IsHeap.root_le {heap : List NearestNeighbor} (h : IsHeap heap) {lowest : NearestNeighbor}
    (hroot : heap[0]? = some lowest) : ∀ a ∈ heap, lowest.score ≤ a.score := by
  intro a ha
  obtain ⟨k, hk, rfl⟩ := mem_iff_getElem.mp ha
  have hless := h.root nnHeap_ordered le_rfl k hk
  rw [nnHeap, Heap.slice_less (getElem?_eq_getElem hk) hroot, decide_eq_false_iff_not,
    Int32.lt_iff_toInt_lt, not_lt] at hless
  exact hless

theorem IsHeap.heapPush {heap : List NearestNeighbor} (h : IsHeap heap) (x : NearestNeighbor) :
    IsHeap (nnHeap.heapPush heap x) := by
  have hpush := Heap.Interface.heapPush_isHeap nnHeap_ordered h x
  have hlen : (nnHeap.heapPush heap x).length = heap.length + 1 :=
    (heapPush_perm heap x).length_eq
  rw [IsHeap, hlen]
  exact hpush

theorem foldlM_seedRow (hscore : ∀ i ∈ rows, score i = some (details i)) :
    ∀ {heap}, IsHeap heap → ∃ heap', rows.foldlM (seedRow score) heap = some heap' ∧ IsHeap heap'
      ∧ heap'.Perm (heap ++ rows.map (neighborOf details)) := by
  induction rows with
  | nil =>
    intro heap hheap
    exact ⟨heap, rfl, hheap, by rw [map_nil, append_nil]⟩
  | cons i rows ih =>
    intro heap hheap
    obtain ⟨hi, hrows⟩ := forall_mem_cons.mp hscore
    obtain ⟨heap', hfold, hheap', hperm⟩ := ih hrows (hheap.heapPush (neighborOf details i))
    refine ⟨heap', ?_, hheap', hperm.trans ?_⟩
    · rw [foldlM_cons, seedRow, hi]
      exact hfold
    · have hpush := heapPush_perm heap (neighborOf details i)
      exact (hpush.append_right _).trans perm_middle.symm

/-- **An iteration keeps a top selection** of the rows that were seen. -/
theorem offerRow_eq {i : ℕ} (hi : score i = some (details i)) {all heap : List NearestNeighbor}
    (hheap : IsHeap heap) (htop : TopSelection NearestNeighbor.score all heap) (hne : heap ≠ []) :
    ∃ heap', offerRow score heap i = some heap' ∧ IsHeap heap'
      ∧ TopSelection NearestNeighbor.score (all ++ [neighborOf details i]) heap'
      ∧ heap'.length = heap.length := by
  obtain ⟨lowest, hroot⟩ : ∃ lowest, heap[0]? = some lowest :=
    ⟨_, getElem?_eq_getElem (length_pos_iff.mpr hne)⟩
  have hle := hheap.root_le hroot
  by_cases hlt : lowest.scoreDetails.score < (details i).score
  · obtain ⟨rest, hpop, hperm⟩ := heapPop_perm hroot
    have hrest : IsHeap rest := Heap.Interface.heapPop_isHeap nnHeap_ordered hheap hpop
    have hpush := heapPush_perm rest (neighborOf details i)
    refine ⟨nnHeap.heapPush rest (neighborOf details i), ?_, hrest.heapPush _, ?_, ?_⟩
    · simp [offerRow, hi, hroot, hlt, hpop, neighborOf]
    · have hlt' : lowest.score ≤ (neighborOf details i).score := (Int32.lt_iff_toInt_lt.mp hlt).le
      exact ((htop.perm hperm).replace
        (fun a ha => hle a (hperm.mem_iff.mpr (mem_cons_of_mem _ ha))) hlt').perm hpush.symm
    · exact hpush.length_eq.trans hperm.length_eq.symm
  · refine ⟨heap, ?_, hheap, htop.skip fun a ha => ?_, rfl⟩
    · simp [offerRow, hi, hroot, hlt]
    · rw [Int32.lt_iff_toInt_lt, not_lt] at hlt
      exact hlt.trans (hle a ha)

theorem foldlM_offerRow (hscore : ∀ i ∈ rows, score i = some (details i)) :
    ∀ {all heap}, IsHeap heap → TopSelection NearestNeighbor.score all heap → heap ≠ [] →
      ∃ heap', rows.foldlM (offerRow score) heap = some heap'
        ∧ TopSelection NearestNeighbor.score (all ++ rows.map (neighborOf details)) heap'
        ∧ heap'.length = heap.length := by
  induction rows with
  | nil =>
    intro all heap _ htop _
    exact ⟨heap, rfl, by rw [map_nil, append_nil]; exact htop, rfl⟩
  | cons i rows ih =>
    intro all heap hheap htop hne
    obtain ⟨hi, hrows⟩ := forall_mem_cons.mp hscore
    obtain ⟨heap₁, hoffer, hheap₁, htop₁, hlen₁⟩ := offerRow_eq hi hheap htop hne
    have hne₁ : heap₁ ≠ [] := length_pos_iff.mp (hlen₁ ▸ length_pos_iff.mpr hne)
    obtain ⟨heap', hfold, htop', hlen'⟩ := ih hrows hheap₁ htop₁ hne₁
    refine ⟨heap', ?_, ?_, hlen'.trans hlen₁⟩
    · rw [foldlM_cons, hoffer]
      exact hfold
    · rw [append_assoc] at htop'
      exact htop'

/-- **A worker returns a top selection of its rows.** -/
theorem partialSimilaritySearch_eq {numResults : ℕ} (hpos : 0 < numResults) {part : ℕ × ℕ}
    (hscore : ∀ i ∈ range' part.1 (part.2 - part.1), score i = some (details i)) :
    ∃ heap, partialSimilaritySearch score numResults part = some heap
      ∧ TopSelection NearestNeighbor.score
        ((range' part.1 (part.2 - part.1)).map (neighborOf details)) heap
      ∧ heap.length = min numResults (part.2 - part.1) := by
  unfold partialSimilaritySearch
  generalize part.2 - part.1 = nRows at *
  by_cases h0 : nRows = 0
  · subst h0
    exact ⟨[], rfl, TopSelection.refl _ _, (Nat.min_zero _).symm⟩
  · have hrange : range' part.1 nRows = range' part.1 (min nRows numResults)
        ++ range' (part.1 + min nRows numResults) (nRows - min nRows numResults) := by
      rw [range'_append_1, Nat.add_sub_cancel' (min_le_left _ _)]
    rw [hrange] at hscore ⊢
    obtain ⟨hseed, hoffer⟩ := forall_mem_append.mp hscore
    obtain ⟨heap, hfold, hheap, hperm⟩ := foldlM_seedRow hseed
      (show IsHeap [] from fun k _ hk => absurd hk (Nat.not_lt_zero k))
    rw [nil_append] at hperm
    have hlen : heap.length = min nRows numResults := by
      rw [hperm.length_eq, length_map, length_range']
    have hne : heap ≠ [] := length_pos_iff.mp (hlen ▸ lt_min (Nat.pos_of_ne_zero h0) hpos)
    obtain ⟨heap', hfold', htop, hlen'⟩ := foldlM_offerRow hoffer hheap
      ((TopSelection.refl NearestNeighbor.score _).perm hperm.symm) hne
    refine ⟨heap', ?_, ?_, (hlen'.trans hlen).trans (min_comm _ _)⟩
    · simp only [h0, if_false, hfold]
      exact hfold'
    · rw [map_append]
      exact htop

end Worker

/-! ## The split -/

theorem flatMap_parts (c n w : ℕ) :
    (range w).flatMap (fun i => range' (min (i * c) n)
      (min ((i + 1) * c) n - min (i * c) n)) = range (min (w * c) n) := by
  induction w with
  | zero => simp
  | succ w ih =>
    have hle : min (w * c) n ≤ min ((w + 1) * c) n :=
      min_le_min_right n (Nat.mul_le_mul_right c (Nat.le_succ w))
    have happend := range'_append_1 (s := 0) (m := min (w * c) n)
      (n := min ((w + 1) * c) n - min (w * c) n)
    rw [Nat.zero_add, Nat.add_sub_cancel' hle] at happend
    rw [range_succ, flatMap_append, ih, flatMap_singleton, range_eq_range',
      happend, range_eq_range']

/-- The quotient is rounded up far enough. -/
theorem le_mul_ceil_div {numRows numWorkers : ℕ} (hrows : numRows < 2 ^ 53)
    (hpos : 0 < numWorkers) (hlt : numWorkers < numRows) :
    numRows ≤ numWorkers *
      ⌈GoFloat.div (GoFloat.float64 numRows) (GoFloat.float64 numWorkers)⌉.toNat := by
  have hw : (0 : ℚ) < numWorkers := Nat.cast_pos.mpr hpos
  have hn : (0 : ℚ) < numRows := Nat.cast_pos.mpr (hpos.trans hlt)
  have hn' : (numRows : ℚ) < 2 ^ 53 := by exact_mod_cast hrows
  rw [GoFloat.float64_natCast hrows, GoFloat.float64_natCast (hlt.trans hrows), GoFloat.div]
  have hround := GoFloat.sub_div_le_float64 (div_pos hn hw)
  have hceil := Int.le_ceil (GoFloat.float64 (numRows / numWorkers : ℚ))
  generalize ⌈GoFloat.float64 (numRows / numWorkers : ℚ)⌉ = c at *
  have hc : (numRows : ℚ) - 1 < numWorkers * c := by
    calc (numRows : ℚ) - 1
        < numRows - numRows / 2 ^ 53 := by
          gcongr
          exact (div_lt_one (by positivity)).mpr hn'
      _ = numWorkers * (numRows / numWorkers - numRows / numWorkers / 2 ^ 53) := by
          field_simp
      _ ≤ numWorkers * c := by
          gcongr
          exact hround.trans hceil
  have hc' : (numRows : ℤ) - 1 < numWorkers * c := by exact_mod_cast hc
  have hc'' : (numRows : ℤ) ≤ numWorkers * (c.toNat : ℤ) :=
    (Int.le_of_sub_one_lt hc').trans (by gcongr; exact Int.self_le_toNat c)
  exact_mod_cast hc''

/-- **The workers share the rows.** -/
theorem flatMap_splitRows {numRows numWorkers : ℕ} (minRowsToSplit : ℤ)
    (hrows : numRows < 2 ^ 53) (hpos : 0 < numWorkers) :
    (splitRows numRows numWorkers minRowsToSplit).flatMap
      (fun part => range' part.1 (part.2 - part.1)) = range numRows := by
  unfold splitRows
  split
  case isTrue => simp [range_eq_range']
  case isFalse hsplit =>
    simp only [not_or, not_le] at hsplit
    have hcover := le_mul_ceil_div hrows hpos hsplit.2.1
    rw [flatMap_map, flatMap_parts, min_eq_right hcover]

/-! ## The results -/

/-- The data of an index belong together: one row of the dimension of the query for each
entry of the metadata. An entry has 32 bytes, and an address has 48 bits. -/
structure EmbeddingIndex.Consistent (index : EmbeddingIndex) (query : List Int8) : Prop where
  dimension_pos : 0 < index.columnDimension
  length_query : query.length = index.columnDimension
  length_embeddings : index.embeddings.length = index.rowMetadata.length * index.columnDimension
  rows_le : 32 * index.rowMetadata.length ≤ 2 ^ 48

theorem exists_score (convert : Rank → Int32) {index : EmbeddingIndex} {query : List Int8}
    (h : index.Consistent query) (useDocumentRanks : Bool) {i : ℕ}
    (hi : i < index.rowMetadata.length) :
    ∃ scoreDetails, index.score convert query i useDocumentRanks = some scoreDetails := by
  have hrow : (i + 1) * index.columnDimension ≤ index.embeddings.length := by
    rw [h.length_embeddings]
    exact Nat.mul_le_mul_right _ hi
  have hlen : ((index.embeddings.drop (i * index.columnDimension)).take
      index.columnDimension).length = query.length := by
    rw [length_take, length_drop, h.length_query]
    refine min_eq_left (Nat.le_sub_of_add_le ?_)
    linarith
  simp only [EmbeddingIndex.score, EmbeddingIndex.row, if_pos hrow, Option.bind_eq_bind,
    Option.bind_some, dot, hlen, ne_eq, not_true_eq_false, if_false]
  exact ⟨_, rfl⟩

theorem exists_mapM {α β : Type} {f : α → Option β} {R : α → β → Prop} {l : List α}
    (h : ∀ a ∈ l, ∃ b, f a = some b ∧ R a b) :
    ∃ bs, l.mapM f = some bs ∧ List.Forall₂ R l bs := by
  induction l with
  | nil => exact ⟨[], rfl, .nil⟩
  | cons a l ih =>
    obtain ⟨⟨b, hb, hR⟩, hl⟩ := forall_mem_cons.mp h
    obtain ⟨bs, hbs, hRs⟩ := ih hl
    exact ⟨b :: bs, by simp [mapM_cons, hb, hbs], .cons hR hRs⟩

theorem mapM_eq_some_map {α β : Type} {f : α → Option β} {g : α → β} {l : List α}
    (h : ∀ a ∈ l, f a = some (g a)) : l.mapM f = some (l.map g) := by
  induction l with
  | nil => rfl
  | cons a l ih =>
    obtain ⟨ha, hl⟩ := forall_mem_cons.mp h
    simp [mapM_cons, ha, ih hl]

theorem injective_neighborOf (details : ℕ → ScoreDetails) :
    Function.Injective (neighborOf details) :=
  fun _ _ h => congrArg NearestNeighbor.index h

/-- The neighbors that are returned: the first ones of all heaps in descending order
are a top selection of all rows. -/
theorem exists_topRows (sorter : SliceSort) (minRowsToSplit : ℤ)
    {score : ℕ → Option ScoreDetails} {details : ℕ → ScoreDetails}
    {numRows numResults numWorkers : ℕ}
    (hscore : ∀ i < numRows, score i = some (details i)) (hrows : numRows < 2 ^ 53)
    (hpos : 0 < numResults) (hworkers : 0 < numWorkers) :
    ∃ (heaps : List (List NearestNeighbor)) (rows : List ℕ),
      (splitRows numRows numWorkers minRowsToSplit).mapM
          (partialSimilaritySearch score numResults) = some heaps
      ∧ (sorter.sort (fun a b => decide (b.scoreDetails.score < a.scoreDetails.score))
          heaps.flatten).take numResults = rows.map (neighborOf details)
      ∧ TopSelection NearestNeighbor.score ((range numRows).map (neighborOf details))
          (rows.map (neighborOf details))
      ∧ rows.length = min numResults numRows
      ∧ rows.Pairwise (fun i j => (details j).score ≤ (details i).score) := by
  have hflat := flatMap_splitRows minRowsToSplit hrows hworkers
  have hmem : ∀ part ∈ splitRows numRows numWorkers minRowsToSplit,
      ∀ i ∈ range' part.1 (part.2 - part.1), score i = some (details i) := by
    intro part hpart i hi
    refine hscore i (mem_range.mp ?_)
    rw [← hflat]
    exact mem_flatMap.mpr ⟨part, hpart, hi⟩
  obtain ⟨heaps, hheaps, hparts⟩ := exists_mapM fun part hpart =>
    partialSimilaritySearch_eq hpos (hmem part hpart)
  -- the rows of the workers are all rows
  have hparts' : List.Forall₂ (fun all kept => TopSelection NearestNeighbor.score all kept
      ∧ kept.length = min numResults all.length)
      ((splitRows numRows numWorkers minRowsToSplit).map fun part =>
        (range' part.1 (part.2 - part.1)).map (neighborOf details)) heaps := by
    rw [forall₂_map_left_iff]
    refine hparts.imp fun part heap hpart => ⟨hpart.1, ?_⟩
    rw [length_map, length_range']
    exact hpart.2
  have hall : ((splitRows numRows numWorkers minRowsToSplit).map fun part =>
      (range' part.1 (part.2 - part.1)).map (neighborOf details)).flatten
        = (range numRows).map (neighborOf details) := by
    rw [← hflat, map_flatMap, flatMap_def]
  have hnodup : ((range numRows).map (neighborOf details)).Nodup :=
    nodup_range.map (injective_neighborOf details)
  generalize hsort : sorter.sort (fun a b => decide (b.scoreDetails.score < a.scoreDetails.score))
    heaps.flatten = sorted
  have hperm : sorted.Perm heaps.flatten := hsort ▸ sorter.sort_perm _ _
  have hsorted : sorted.Pairwise fun a b => b.score ≤ a.score := by
    rw [← hsort]
    refine sorter.pairwise_of_key (fun a : NearestNeighbor => OrderDual.toDual a.score)
      (fun a b => ?_) _
    rw [decide_eq_true_iff, OrderDual.toDual_lt_toDual]
    exact Int32.lt_iff_toInt_lt
  have htop : TopSelection NearestNeighbor.score ((range numRows).map (neighborOf details))
      (sorted.take numResults) := by
    rw [← hall]
    refine TopSelection.flatten hparts' (hall ▸ hnodup) (.take hperm hsorted numResults) ?_
    exact length_take_le _ _
  have hlen : (sorted.take numResults).length = min numResults numRows := by
    have hmin := TopSelection.min_le_length_flatten hparts'
    rw [hall, length_map, length_range] at hmin
    have hle := (htop.nodup hnodup).subperm htop.subset |>.length_le
    rw [length_map, length_range] at hle
    rw [length_take, hperm.length_eq] at hle ⊢
    omega
  have hmap : ((sorted.take numResults).map NearestNeighbor.index).map (neighborOf details)
      = sorted.take numResults := by
    rw [map_map]
    refine (map_congr_left fun a ha => ?_).trans (map_id _)
    obtain ⟨i, -, rfl⟩ := mem_map.mp (htop.subset ha)
    rfl
  refine ⟨heaps, (sorted.take numResults).map NearestNeighbor.index, hheaps, ?_, ?_, ?_, ?_⟩
  · rw [hsort, hmap]
  · rw [hmap]
    exact htop
  · rw [length_map]
    exact hlen
  · have hpair := hsorted.sublist (take_sublist numResults sorted)
    rw [← hmap, pairwise_map] at hpair
    exact hpair.imp fun hij => Int32.le_iff_toInt_le.mpr hij

/-- Three rows of two dimensions. -/
def threeRows : EmbeddingIndex where
  embeddings := [1, 0, 0, 1, 1, 1]
  columnDimension := 2
  rowMetadata := [⟨lit "a.go", 0, 10⟩, ⟨lit "a.go", 10, 20⟩, ⟨lit "b.go", 0, 5⟩]
  ranks := []

end Embeddings
