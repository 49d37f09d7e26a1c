import CodeScout.Util.GoString
import CodeScout.Util.GoUnicode
import Mathlib

/-!
# Searching a file

A `readerGrep` has a compiled pattern, which is absent if all files match, and
a matcher for paths. `Find` runs the pattern over the content of a file and
turns the matches to chunks of lines. If case is ignored the content is
lowercased first, and a file without the literal that all matches should
contain is skipped.

The engine is a pair of functions with the laws that the search relies on.
Offsets are numbers without bound: the 32 bits of the source hold every
offset of a file that is small enough to be searched.
-/

namespace Searcher

open List

/-! ## Patterns and files -/

/-- A compiled regular expression: whether it matches a text, and its first
`n` matches. -/
structure Regexp where
  matchString : GoString → Bool
  findAllIndex : GoString → ℕ → List (ℕ × ℕ)
  findAllIndex_eq_nil : ∀ {text n}, 0 < n → (findAllIndex text n = [] ↔ matchString text = false)
  length_findAllIndex : ∀ {text n}, (findAllIndex text n).length ≤ text.length + 1

structure SrcFile where
  name : GoString
  content : GoString
  deriving DecidableEq

/-- A path matches if all of the included patterns match and the excluded one
does not. -/
structure PathMatcher where
  includes : List Regexp
  exclude : Option Regexp

/-- All expressions to include match, and the one to exclude does not. -/
def PathMatcher.matchPath (pm : PathMatcher) (path : GoString) : Bool :=
  pm.includes.all (·.matchString path) &&
    pm.exclude.elim true fun re => !re.matchString path

/-- What a pattern is compiled to. -/
structure ReaderGrep where
  re : Option Regexp
  ignoreCase : Bool
  matchPath : PathMatcher
  literalSubstring : GoString

/-- Whether the pattern matches a path. `toLower` is `strings.ToLower`. -/
def ReaderGrep.matchString (toLower : GoString → GoString) (rg : ReaderGrep) (s : GoString) :
    Bool :=
  rg.re.elim true fun re => re.matchString (if rg.ignoreCase then toLower s else s)

/-! ## Ranges -/

structure Location where
  offset : ℕ
  line : ℕ
  column : ℕ
  deriving DecidableEq

structure Range where
  start : Location
  «end» : Location
  deriving DecidableEq

/-- The start of the line of an offset. -/
def lineStart (buf : GoString) (offset : ℕ) : ℕ :=
  ((buf.take offset).rdropWhile (· ≠ 10)).length

/-- `bytes.Count` of newlines in `buf[low:high]`. -/
def newlines (buf : GoString) (low high : ℕ) : ℕ :=
  ((buf.take high).drop low).count 10

/-- `utf8.RuneCount` of the text from the start of a line. -/
def column (buf : GoString) (offset : ℕ) : ℕ :=
  (runes ((buf.take offset).drop (lineStart buf offset))).length

/-- The lines are counted from the end of the match before. -/
def locsToRangesFrom (buf : GoString) (prevEnd prevEndLine : ℕ) : List (ℕ × ℕ) → List Range
  | [] => []
  | (start, stop) :: locs =>
    let startLine := prevEndLine + newlines buf prevEnd start
    let endLine := startLine + newlines buf start stop
    ⟨⟨start, startLine, column buf start⟩, ⟨stop, endLine, column buf stop⟩⟩ ::
      locsToRangesFrom buf stop endLine locs

def locsToRanges (buf : GoString) (locs : List (ℕ × ℕ)) : List Range :=
  locsToRangesFrom buf 0 0 locs

/-- Ranges that are shown together. -/
structure RangeChunk where
  cover : Range
  ranges : List Range

/-- A range is added to the last chunk, or starts a new one. The last chunk
comes first. -/
def addRange (interChunkLines : ℕ) (chunks : List RangeChunk) (rr : Range) : List RangeChunk :=
  match chunks with
  | [] => [⟨rr, [rr]⟩]
  | lastChunk :: rest =>
    if lastChunk.cover.end.line + interChunkLines ≥ rr.start.line then
      let cover := if rr.end.offset > lastChunk.cover.end.offset then
        { lastChunk.cover with «end» := rr.end } else lastChunk.cover
      ⟨cover, lastChunk.ranges ++ [rr]⟩ :: rest
    else ⟨rr, [rr]⟩ :: lastChunk :: rest

/-- The ranges, sorted by their start and merged to chunks. `sort.Slice` is not
stable, and this is one of the ways in which it may sort ranges with one start. -/
def chunkRanges (ranges : List Range) (interChunkLines : ℕ) : List RangeChunk :=
  ((ranges.insertionSort fun a b => a.start.offset ≤ b.start.offset).foldl
    (addRange interChunkLines) []).reverse

/-- Lines of a file with the ranges that matched. -/
structure ChunkMatch where
  content : GoString
  contentStart : Location
  ranges : List Range
  deriving DecidableEq

/-- The end of the line of an offset. -/
def lineEnd (buf : GoString) (offset : ℕ) : ℕ :=
  offset + ((buf.drop offset).takeWhile (· ≠ 10)).length

/-- The content of a chunk are whole lines. -/
def chunksToMatches (buf : GoString) (chunks : List RangeChunk) : List ChunkMatch :=
  chunks.map fun chunk =>
    let firstLineStart := lineStart buf chunk.cover.start.offset
    let lastLineEnd := lineEnd buf chunk.cover.end.offset
    { content := (buf.take lastLineEnd).drop firstLineStart
      contentStart := ⟨firstLineStart, chunk.cover.start.line, 0⟩
      ranges := chunk.ranges }

/-! ## Find -/

/-- `BytesToLowerASCII` -/
def bytesToLowerASCII (s : GoString) : GoString :=
  s.map fun c => if 65 ≤ c && c ≤ 90 then c + 32 else c

/-- The text that the pattern is matched against. -/
def ReaderGrep.matchBuf (rg : ReaderGrep) (f : SrcFile) : GoString :=
  if rg.ignoreCase then bytesToLowerASCII f.content else f.content

/-- `Find` with a pattern. -/
def ReaderGrep.find (rg : ReaderGrep) (re : Regexp) (f : SrcFile) (limit : ℕ) : List ChunkMatch :=
  if !decide (rg.literalSubstring <:+: rg.matchBuf f) then []
  else
    let locs := re.findAllIndex (rg.matchBuf f) (limit + 1)
    if locs.length = 0 then []
    else chunksToMatches f.content (chunkRanges (locsToRanges f.content locs) 0)

/-- The matches of a file. -/
structure FileMatch where
  path : GoString
  chunkMatches : List ChunkMatch
  limitHit : Bool
  deriving DecidableEq

def ReaderGrep.findZip (rg : ReaderGrep) (re : Regexp) (f : SrcFile) (limit : ℕ) : FileMatch :=
  ⟨f.name, rg.find re f limit, false⟩

/-- A file that matches by its path counts as one. -/
def FileMatch.matchCount (fm : FileMatch) : ℕ :=
  if fm.chunkMatches.length = 0 then 1 else (fm.chunkMatches.map (·.ranges.length)).sum

/-- The chunks up to a limit, and whether the limit cut them. -/
def limitChunks : ℕ → List ChunkMatch → List ChunkMatch × Bool
  | _, [] => ([], false)
  | limit, cm :: cms =>
    if cm.ranges.length ≤ limit then
      let rest := limitChunks (limit - cm.ranges.length) cms
      (cm :: rest.1, rest.2)
    else if 0 < limit then ([{ cm with ranges := cm.ranges.take limit }], true)
    else ([], true)

def FileMatch.limit (fm : FileMatch) (limit : ℕ) : FileMatch :=
  let limited := limitChunks limit fm.chunkMatches
  { fm with chunkMatches := limited.1, limitHit := fm.limitHit || limited.2 }

/-! ## Matches of a file -/

theorem sum_addRange (n : ℕ) (chunks : List RangeChunk) (rr : Range) :
    ((addRange n chunks rr).map (·.ranges.length)).sum =
      (chunks.map (·.ranges.length)).sum + 1 := by
  unfold addRange
  cases chunks with
  | nil => rfl
  | cons lastChunk rest =>
    dsimp only
    split
    · simp only [map_cons, length_append, length_singleton, sum_cons]
      exact Nat.add_right_comm _ _ _
    · simp only [map_cons, length_singleton, sum_cons]
      exact Nat.add_comm _ _

theorem sum_foldl_addRange (n : ℕ) (ranges : List Range) (chunks : List RangeChunk) :
    ((ranges.foldl (addRange n) chunks).map (·.ranges.length)).sum =
      (chunks.map (·.ranges.length)).sum + ranges.length := by
  induction ranges generalizing chunks with
  | nil => rfl
  | cons rr ranges ih =>
    rw [foldl_cons, ih, sum_addRange, length_cons, Nat.add_assoc, Nat.add_comm 1]

theorem sum_chunkRanges (ranges : List Range) (n : ℕ) :
    ((chunkRanges ranges n).map (·.ranges.length)).sum = ranges.length := by
  unfold chunkRanges
  rw [map_reverse, sum_reverse, sum_foldl_addRange, length_insertionSort]
  exact Nat.zero_add _

theorem length_locsToRangesFrom (buf : GoString) (locs : List (ℕ × ℕ)) (prevEnd prevEndLine : ℕ) :
    (locsToRangesFrom buf prevEnd prevEndLine locs).length = locs.length := by
  induction locs generalizing prevEnd prevEndLine with
  | nil => rfl
  | cons loc locs ih => exact congrArg (· + 1) (ih _ _)

theorem sum_chunksToMatches (buf : GoString) (locs : List (ℕ × ℕ)) :
    ((chunksToMatches buf (chunkRanges (locsToRanges buf locs) 0)).map (·.ranges.length)).sum =
      locs.length := by
  unfold chunksToMatches
  rw [map_map]
  exact (sum_chunkRanges _ 0).trans (length_locsToRangesFrom buf locs 0 0)

/-- **A file has chunks if the pattern matches it and the literal occurs.** -/
theorem find_ne_nil (rg : ReaderGrep) (re : Regexp) (f : SrcFile) (limit : ℕ) :
    rg.find re f limit ≠ [] ↔
      rg.literalSubstring <:+: rg.matchBuf f ∧ re.matchString (rg.matchBuf f) = true := by
  unfold ReaderGrep.find
  by_cases hoccurs : rg.literalSubstring <:+: rg.matchBuf f
  · rw [decide_eq_true hoccurs, Bool.not_true, if_neg Bool.false_ne_true, and_iff_right hoccurs]
    have hfound := @re.findAllIndex_eq_nil (rg.matchBuf f) (limit + 1) (Nat.succ_pos limit)
    rw [← Bool.not_eq_false, ← hfound, not_iff_not]
    dsimp only
    split_ifs with hlocs
    · exact iff_of_true rfl (eq_nil_of_length_eq_zero hlocs)
    · refine iff_of_false (fun hnil => hlocs ?_) fun hnil => hlocs (congrArg length hnil)
      rw [← sum_chunksToMatches f.content, hnil]
      rfl
  · rw [decide_eq_false hoccurs, Bool.not_false, if_pos rfl]
    exact iff_of_false (fun h => h rfl) fun h => hoccurs h.1

/-- A file counts for no more matches than its content has places for. -/
theorem matchCount_findZip_le (rg : ReaderGrep) (re : Regexp) (f : SrcFile) (limit : ℕ) :
    (rg.findZip re f limit).matchCount ≤ f.content.length + 1 := by
  have hlength : (rg.matchBuf f).length = f.content.length := by
    unfold ReaderGrep.matchBuf bytesToLowerASCII
    split_ifs
    · exact length_map _
    · rfl
  show (if (rg.find re f limit).length = 0 then 1
    else ((rg.find re f limit).map (·.ranges.length)).sum) ≤ f.content.length + 1
  split_ifs with hnone
  · exact Nat.le_add_left 1 _
  · unfold ReaderGrep.find at hnone ⊢
    dsimp only at hnone ⊢
    split_ifs at hnone ⊢ with hpruned hlocs
    · exact absurd rfl hnone
    · exact absurd rfl hnone
    · rw [sum_chunksToMatches, ← hlength]
      exact re.length_findAllIndex

end Searcher
