import CodeScout.SearcherGrep
import CodeScout.Util.GoSort
import Mathlib

/-!
# Chunks of lines

The matches of a file become ranges, with the line and the column of both ends,
and the ranges become chunks: a range that starts in the last line of a chunk, or
before it, is added to the chunk. A chunk is sent with its lines.

Lines are counted from one match to the next and columns from the start of a
line, but both are functions of the offset (`Location.Right`). So chunks that are
apart by their line numbers are apart in the text (`lineEnd_lt_lineStart`).
-/

namespace Searcher

open List

/-! ## Lines of a text -/

/-- The number of newlines before an offset. -/
def lineNumber (buf : GoString) (offset : ℕ) : ℕ :=
  (buf.take offset).count 10

/-- The text since the last newline before an offset. -/
def sinceNewline (buf : GoString) (offset : ℕ) : GoString :=
  (buf.take offset).rtakeWhile (· ≠ 10)

section Lines

variable (buf : GoString)

theorem lineNumber_mono {o o' : ℕ} (h : o ≤ o') : lineNumber buf o ≤ lineNumber buf o' :=
  (take_sublist_take_left h).count_le 10

theorem lineNumber_le (o : ℕ) : lineNumber buf o ≤ buf.length :=
  count_le_length.trans (length_take_le' o buf)

theorem lineNumber_add_newlines {low high : ℕ} (h : low ≤ high) :
    lineNumber buf low + newlines buf low high = lineNumber buf high := by
  have hlow : buf.take low = (buf.take high).take low := by
    rw [take_take, Nat.min_eq_left h]
  rw [lineNumber, hlow, newlines, ← count_append, take_append_drop, lineNumber]

theorem rdropWhile_append_sinceNewline (o : ℕ) :
    (buf.take o).rdropWhile (· ≠ 10) ++ sinceNewline buf o = buf.take o :=
  rdropWhile_append_rtakeWhile

theorem rdropWhile_isPrefix (o : ℕ) : (buf.take o).rdropWhile (· ≠ 10) <+: buf.take o :=
  ⟨_, rdropWhile_append_sinceNewline buf o⟩

theorem take_lineStart (o : ℕ) :
    buf.take (lineStart buf o) = (buf.take o).rdropWhile (· ≠ 10) := by
  have hbegins : buf.take o <+: buf := take_prefix o buf
  exact (prefix_iff_eq_take.mp ((rdropWhile_isPrefix buf o).trans hbegins)).symm

theorem lineStart_le (o : ℕ) : lineStart buf o ≤ o :=
  (rdropWhile_isPrefix buf o).length_le.trans (length_take_le o buf)

theorem lineStart_le_length (o : ℕ) : lineStart buf o ≤ buf.length :=
  (rdropWhile_isPrefix buf o).length_le.trans (length_take_le' o buf)

theorem column_eq (o : ℕ) : column buf o = (runes (sinceNewline buf o)).length := by
  have hsplit : (buf.take o).drop (lineStart buf o) = sinceNewline buf o := by
    conv_lhs => rw [← rdropWhile_append_sinceNewline]
    exact drop_left
  rw [column, hsplit]

theorem lineNumber_lineStart (o : ℕ) : lineNumber buf (lineStart buf o) = lineNumber buf o := by
  have hnone : (sinceNewline buf o).count 10 = 0 := by
    refine count_eq_zero.mpr fun hmem => ?_
    have hne : decide ((10 : UInt8) ≠ 10) = true :=
      mem_rtakeWhile_imp (p := fun b : UInt8 => decide (b ≠ 10)) hmem
    exact of_decide_eq_true hne rfl
  have hcount := congrArg (count 10) (rdropWhile_append_sinceNewline buf o)
  rw [count_append, hnone, ← take_lineStart] at hcount
  exact hcount

theorem getLast_rdropWhile {l : GoString} (h : l.rdropWhile (· ≠ 10) ≠ []) :
    (l.rdropWhile (· ≠ 10)).getLast h = 10 := by
  by_contra hbyte
  exact rdropWhile_last_not _ _ h (decide_eq_true hbyte)

theorem sinceNewline_lineStart (o : ℕ) : sinceNewline buf (lineStart buf o) = [] := by
  rw [sinceNewline, take_lineStart, rtakeWhile_eq_nil_iff]
  intro hne hbyte
  exact of_decide_eq_true hbyte (getLast_rdropWhile hne)

theorem lineStart_eq_zero_or (o : ℕ) :
    lineStart buf o = 0 ∨ buf[lineStart buf o - 1]? = some 10 := by
  refine or_iff_not_imp_left.mpr fun hpos => ?_
  have hne : (buf.take o).rdropWhile (· ≠ 10) ≠ [] := fun hnil =>
    hpos (length_eq_zero_iff.mpr hnil)
  have hlast := getLast?_eq_some_getLast hne
  rw [getLast_rdropWhile hne, ← take_lineStart, getLast?_eq_getElem?, length_take,
    Nat.min_eq_left (lineStart_le_length buf o),
    getElem?_take_of_lt (Nat.sub_one_lt hpos)] at hlast
  exact hlast

theorem le_lineEnd (o : ℕ) : o ≤ lineEnd buf o :=
  Nat.le_add_right _ _

theorem takeWhile_isPrefix (o : ℕ) : (buf.drop o).takeWhile (· ≠ 10) <+: buf.drop o :=
  takeWhile_prefix _

theorem take_lineEnd (o : ℕ) :
    buf.take (lineEnd buf o) = buf.take o ++ (buf.drop o).takeWhile (· ≠ 10) := by
  rw [lineEnd, take_add]
  exact congrArg (buf.take o ++ ·) (prefix_iff_eq_take.mp (takeWhile_isPrefix buf o)).symm

theorem lineEnd_le_length {o : ℕ} (h : o ≤ buf.length) : lineEnd buf o ≤ buf.length := by
  have hrest := (takeWhile_isPrefix buf o).length_le
  rw [length_drop] at hrest
  exact (Nat.add_le_add_left hrest o).trans_eq (Nat.add_sub_of_le h)

theorem lineNumber_lineEnd (o : ℕ) : lineNumber buf (lineEnd buf o) = lineNumber buf o := by
  have hnone : ((buf.drop o).takeWhile (· ≠ 10)).count 10 = 0 := by
    refine count_eq_zero.mpr fun hmem => ?_
    have hne : decide ((10 : UInt8) ≠ 10) = true :=
      mem_takeWhile_imp (p := fun b : UInt8 => decide (b ≠ 10)) hmem
    exact of_decide_eq_true hne rfl
  rw [lineNumber, take_lineEnd, count_append, hnone]
  rfl

theorem lineEnd_eq_length_or {o : ℕ} (h : o ≤ buf.length) :
    lineEnd buf o = buf.length ∨ buf[lineEnd buf o]? = some 10 := by
  have hsplit := takeWhile_append_dropWhile (p := fun b : UInt8 => decide (b ≠ 10))
    (l := buf.drop o)
  have hget : buf[lineEnd buf o]? = ((buf.drop o).dropWhile (· ≠ 10)).head? := by
    rw [lineEnd, ← getElem?_drop, head?_eq_getElem?]
    refine (congrArg (·[((buf.drop o).takeWhile (· ≠ 10)).length]?) hsplit.symm).trans ?_
    rw [getElem?_append_right le_rfl, Nat.sub_self]
  rw [hget]
  cases hrest : (buf.drop o).dropWhile (· ≠ 10) with
  | nil =>
    left
    have hlength := congrArg length hsplit
    rw [hrest, append_nil, length_drop] at hlength
    rw [lineEnd, hlength, Nat.add_sub_of_le h]
  | cons b rest =>
    right
    have hbyte := head?_dropWhile_not (fun b : UInt8 => decide (b ≠ 10)) (buf.drop o)
    rw [hrest] at hbyte
    exact congrArg some (by simpa using hbyte)

/-- **Offsets in different lines are apart**: the line of the first ends before
the line of the second starts. -/
theorem lineEnd_lt_lineStart {o o' : ℕ} (h : lineNumber buf o < lineNumber buf o') :
    lineEnd buf o < lineStart buf o' := by
  by_contra hle
  have hmono := lineNumber_mono buf (not_lt.mp hle)
  rw [lineNumber_lineStart, lineNumber_lineEnd] at hmono
  exact h.not_ge hmono

theorem length_runesUpTo_le (fuel : ℕ) (s : GoString) : (runesUpTo fuel s).length ≤ fuel := by
  induction fuel generalizing s with
  | zero => exact le_rfl
  | succ fuel ih =>
    cases s with
    | nil => exact Nat.zero_le _
    | cons b s => exact Nat.succ_le_succ (ih _)

end Lines

/-! ## Locations -/

/-- **The line and the column of a location are those of its offset.** -/
structure Location.Right (buf : GoString) (l : Location) : Prop where
  offset_le : l.offset ≤ buf.length
  line_eq : l.line = lineNumber buf l.offset
  column_eq : l.column = (runes (sinceNewline buf l.offset)).length

/-- All numbers of a location are at most the length of the text, so that an
`int32` holds them if it holds the length. -/
theorem Location.Right.le {buf : GoString} {l : Location} (h : l.Right buf) :
    l.offset ≤ buf.length ∧ l.line ≤ buf.length ∧ l.column ≤ buf.length := by
  refine ⟨h.offset_le, h.line_eq ▸ lineNumber_le buf _, h.column_eq ▸ ?_⟩
  have hsuffix : sinceNewline buf l.offset <:+ buf.take l.offset := rtakeWhile_suffix _ _
  exact (length_runesUpTo_le _ _).trans (hsuffix.length_le.trans (length_take_le' _ _))

/-- A range whose ends are right, and in order. -/
structure Range.Right (buf : GoString) (r : Range) : Prop where
  start : r.start.Right buf
  «end» : r.end.Right buf
  ordered : r.start.offset ≤ r.end.offset

/-- What `locsToRanges` asks of its locations: they are "sorted, non-overlapping,
and must be valid slices of buf". -/
structure ValidLocs (buf : GoString) (locs : List (ℕ × ℕ)) : Prop where
  sorted : locs.Pairwise fun a b => a.2 ≤ b.1
  slices : ∀ loc ∈ locs, loc.1 ≤ loc.2 ∧ loc.2 ≤ buf.length

theorem right_locsToRangesFrom {buf : GoString} {locs : List (ℕ × ℕ)} (h : ValidLocs buf locs) :
    ∀ {prevEnd prevEndLine : ℕ}, (∀ loc ∈ locs, prevEnd ≤ loc.1) →
      prevEndLine = lineNumber buf prevEnd →
      ∀ r ∈ locsToRangesFrom buf prevEnd prevEndLine locs, r.Right buf := by
  induction locs with
  | nil => exact fun _ _ r hr => absurd hr not_mem_nil
  | cons loc locs ih =>
    intro prevEnd prevEndLine hprev hline
    have hsorted := pairwise_cons.mp h.sorted
    have hslice := h.slices loc mem_cons_self
    -- the lines counted so far are the lines of the two offsets
    have hstart : prevEndLine + newlines buf prevEnd loc.1 = lineNumber buf loc.1 := by
      rw [hline, lineNumber_add_newlines buf (hprev loc mem_cons_self)]
    have hend : prevEndLine + newlines buf prevEnd loc.1 + newlines buf loc.1 loc.2 =
        lineNumber buf loc.2 := by
      rw [hstart, lineNumber_add_newlines buf hslice.1]
    refine forall_mem_cons.mpr ⟨⟨⟨hslice.1.trans hslice.2, hstart, column_eq buf _⟩,
      ⟨hslice.2, hend, column_eq buf _⟩, hslice.1⟩, ?_⟩
    exact ih ⟨hsorted.2, fun loc' hloc' => h.slices loc' (mem_cons_of_mem _ hloc')⟩ hsorted.1 hend

theorem right_locsToRanges {buf : GoString} {locs : List (ℕ × ℕ)} (h : ValidLocs buf locs) :
    ∀ r ∈ locsToRanges buf locs, r.Right buf :=
  right_locsToRangesFrom h (fun _ _ => Nat.zero_le _) rfl

theorem offsets_locsToRangesFrom (buf : GoString) (locs : List (ℕ × ℕ)) :
    ∀ prevEnd prevEndLine : ℕ, (locsToRangesFrom buf prevEnd prevEndLine locs).map
      (fun r => (r.start.offset, r.end.offset)) = locs := by
  induction locs with
  | nil => exact fun _ _ => rfl
  | cons loc locs ih => exact fun _ _ => congrArg (loc :: ·) (ih _ _)

/-! ## Merging ranges -/

/-- The merging of ranges that `sort.Slice` has sorted in some way: it is not
stable, and an empty match may start where another match does. -/
def chunkRangesBy (sorter : SliceSort) (ranges : List Range) (interChunkLines : ℕ) :
    List RangeChunk :=
  ((sorter.sort (fun a b => decide (a.start.offset < b.start.offset)) ranges).foldl
    (addRange interChunkLines) []).reverse

/-- Sorting by insertion is one of these ways. -/
theorem chunkRanges_eq (ranges : List Range) (n : ℕ) :
    chunkRanges ranges n = chunkRangesBy .byInsertion ranges n := by
  have hle : (fun a b : Range => a.start.offset ≤ b.start.offset) =
      fun a b => decide (b.start.offset < a.start.offset) = false := by
    funext a b
    rw [decide_eq_false_iff_not, not_lt]
  unfold chunkRanges chunkRangesBy SliceSort.byInsertion
  congr 3

/-- The cover of a chunk is a range of the text that has all ranges of the
chunk within. -/
structure RangeChunk.Covers (buf : GoString) (chunk : RangeChunk) : Prop where
  cover : chunk.cover.Right buf
  right : ∀ r ∈ chunk.ranges, r.Right buf
  within : ∀ r ∈ chunk.ranges,
    chunk.cover.start.offset ≤ r.start.offset ∧ r.end.offset ≤ chunk.cover.end.offset

/-- **Chunks as `chunkRanges` promises them**, the last one first: "for any
return value rangeChunks: rangeChunks[i].cover.End.Line + interChunkLines <
rangeChunks[i+1].cover.Start.Line". -/
structure Apart (buf : GoString) (n : ℕ) (chunks : List RangeChunk) : Prop where
  covers : ∀ chunk ∈ chunks, chunk.Covers buf
  apart : chunks.Pairwise fun d c => c.cover.end.line + n < d.cover.start.line

section Merging

variable {buf : GoString} {n : ℕ}

theorem Range.Right.line_le {r : Range} (h : r.Right buf) : r.start.line ≤ r.end.line := by
  rw [h.start.line_eq, h.end.line_eq]
  exact lineNumber_mono buf h.ordered

theorem covers_singleton {rr : Range} (h : rr.Right buf) : RangeChunk.Covers buf ⟨rr, [rr]⟩ where
  cover := h
  right := forall_mem_singleton.mpr h
  within := forall_mem_singleton.mpr ⟨le_rfl, le_rfl⟩

/-- A range that starts after the cover does is added to a chunk. -/
theorem RangeChunk.Covers.add {chunk : RangeChunk} {rr : Range} (h : chunk.Covers buf)
    (hrr : rr.Right buf) (hstart : chunk.cover.start.offset ≤ rr.start.offset) :
    RangeChunk.Covers buf ⟨if rr.end.offset > chunk.cover.end.offset then
      { chunk.cover with «end» := rr.end } else chunk.cover, chunk.ranges ++ [rr]⟩ := by
  have hright : ∀ r ∈ chunk.ranges ++ [rr], r.Right buf :=
    forall_mem_append.mpr ⟨h.right, forall_mem_singleton.mpr hrr⟩
  split
  case isTrue hlt =>
    refine ⟨⟨h.cover.start, hrr.end, hstart.trans hrr.ordered⟩, hright, ?_⟩
    refine forall_mem_append.mpr ⟨fun r hr => ?_, forall_mem_singleton.mpr ⟨hstart, le_rfl⟩⟩
    exact ⟨(h.within r hr).1, (h.within r hr).2.trans (le_of_lt hlt)⟩
  case isFalse hle =>
    exact ⟨h.cover, hright, forall_mem_append.mpr
      ⟨h.within, forall_mem_singleton.mpr ⟨hstart, not_lt.mp hle⟩⟩⟩

theorem Apart.addRange {chunks : List RangeChunk} {rr : Range} (h : Apart buf n chunks)
    (hrr : rr.Right buf) (hstart : ∀ chunk ∈ chunks, chunk.cover.start.offset ≤ rr.start.offset) :
    Apart buf n (addRange n chunks rr) := by
  cases chunks with
  | nil => exact ⟨forall_mem_singleton.mpr (covers_singleton hrr), pairwise_singleton _ _⟩
  | cons lastChunk rest =>
    have hcovers := forall_mem_cons.mp h.covers
    have hapart := pairwise_cons.mp h.apart
    unfold Searcher.addRange
    dsimp only
    split
    case isTrue _ =>
      refine ⟨forall_mem_cons.mpr
        ⟨hcovers.1.add hrr (hstart lastChunk mem_cons_self), hcovers.2⟩, ?_⟩
      refine pairwise_cons.mpr ⟨fun c hc => ?_, hapart.2⟩
      -- the start of the cover stays
      have hc := hapart.1 c hc
      split <;> exact hc
    case isFalse hline =>
      have hline := not_le.mp hline
      refine ⟨forall_mem_cons.mpr ⟨covers_singleton hrr, h.covers⟩,
        pairwise_cons.mpr ⟨forall_mem_cons.mpr ⟨hline, fun c hc => ?_⟩, h.apart⟩⟩
      calc c.cover.end.line + n < lastChunk.cover.start.line := hapart.1 c hc
        _ ≤ lastChunk.cover.end.line := hcovers.1.cover.line_le
        _ ≤ lastChunk.cover.end.line + n := Nat.le_add_right _ _
        _ < rr.start.line := hline

theorem start_addRange {chunks : List RangeChunk} {rr : Range} {o : ℕ}
    (h : ∀ chunk ∈ chunks, chunk.cover.start.offset ≤ o) (hrr : rr.start.offset ≤ o) :
    ∀ chunk ∈ addRange n chunks rr, chunk.cover.start.offset ≤ o := by
  cases chunks with
  | nil => exact forall_mem_singleton.mpr hrr
  | cons lastChunk rest =>
    have hlast := forall_mem_cons.mp h
    unfold addRange
    dsimp only
    split
    case isTrue _ =>
      refine forall_mem_cons.mpr ⟨?_, hlast.2⟩
      split <;> exact hlast.1
    case isFalse _ => exact forall_mem_cons.mpr ⟨hrr, h⟩

theorem ranges_addRange (chunks : List RangeChunk) (rr : Range) :
    (addRange n chunks rr).reverse.flatMap (·.ranges) =
      chunks.reverse.flatMap (·.ranges) ++ [rr] := by
  cases chunks with
  | nil => rfl
  | cons lastChunk rest =>
    unfold addRange
    dsimp only
    split <;> simp only [reverse_cons, flatMap_append, flatMap_singleton, append_assoc]

theorem Apart.foldl_addRange {ranges : List Range}
    (hsorted : ranges.Pairwise fun a b => a.start.offset ≤ b.start.offset)
    (hright : ∀ r ∈ ranges, r.Right buf) :
    ∀ {chunks : List RangeChunk}, Apart buf n chunks →
      (∀ r ∈ ranges, ∀ chunk ∈ chunks, chunk.cover.start.offset ≤ r.start.offset) →
      Apart buf n (ranges.foldl (Searcher.addRange n) chunks) := by
  induction ranges with
  | nil => exact fun h _ => h
  | cons rr ranges ih =>
    intro chunks h hstart
    have hsorted := pairwise_cons.mp hsorted
    have hright := forall_mem_cons.mp hright
    have hstart := forall_mem_cons.mp hstart
    exact ih hsorted.2 hright.2 (h.addRange hright.1 hstart.1)
      fun r hr => start_addRange (hstart.2 r hr) (hsorted.1 r hr)

theorem ranges_foldl_addRange (ranges : List Range) (chunks : List RangeChunk) :
    (ranges.foldl (addRange n) chunks).reverse.flatMap (·.ranges) =
      chunks.reverse.flatMap (·.ranges) ++ ranges := by
  induction ranges generalizing chunks with
  | nil => exact (append_nil _).symm
  | cons rr ranges ih => rw [foldl_cons, ih, ranges_addRange, append_assoc]; rfl

/-- **Every range is in one chunk.** -/
theorem ranges_chunkRangesBy (sorter : SliceSort) (ranges : List Range) :
    ((chunkRangesBy sorter ranges n).flatMap (·.ranges)).Perm ranges := by
  unfold chunkRangesBy
  rw [ranges_foldl_addRange]
  exact sorter.sort_perm _ ranges

theorem apart_chunkRangesBy (sorter : SliceSort) {ranges : List Range}
    (hright : ∀ r ∈ ranges, r.Right buf) :
    Apart buf n (chunkRangesBy sorter ranges n).reverse := by
  have hsorted := sorter.pairwise_of_key (fun r : Range => r.start.offset)
    (fun _ _ => decide_eq_true_iff) ranges
  have hnil : Apart buf n [] := ⟨fun _ h => absurd h not_mem_nil, List.Pairwise.nil⟩
  unfold chunkRangesBy
  rw [reverse_reverse]
  exact Apart.foldl_addRange hsorted (fun r hr => hright r (SliceSort.mem_sort.mp hr)) hnil
    fun _ _ _ h => absurd h not_mem_nil

end Merging

/-! ## Chunk matches -/

/-- The offset where the content of a chunk ends. -/
def ChunkMatch.contentEnd (cm : ChunkMatch) : ℕ :=
  cm.contentStart.offset + cm.content.length

/-- The locations that a chunk match has. -/
def ChunkMatch.locations (cm : ChunkMatch) : List Location :=
  cm.contentStart :: cm.ranges.flatMap fun r => [r.start, r.end]

/-- **A chunk of whole lines** of a text, with its ranges within. -/
structure ChunkMatch.WholeLines (buf : GoString) (cm : ChunkMatch) : Prop where
  content : cm.content = (buf.take cm.contentEnd).drop cm.contentStart.offset
  start : cm.contentStart.offset = 0 ∨ buf[cm.contentStart.offset - 1]? = some 10
  «end» : cm.contentEnd = buf.length ∨ buf[cm.contentEnd]? = some 10
  within : ∀ r ∈ cm.ranges,
    cm.contentStart.offset ≤ r.start.offset ∧ r.start.offset ≤ r.end.offset ∧
      r.end.offset ≤ cm.contentEnd
  right : ∀ l ∈ cm.locations, l.Right buf

/-- The chunk match of one chunk. -/
def chunkToMatch (buf : GoString) (chunk : RangeChunk) : ChunkMatch where
  content := (buf.take (lineEnd buf chunk.cover.end.offset)).drop
    (lineStart buf chunk.cover.start.offset)
  contentStart := ⟨lineStart buf chunk.cover.start.offset, chunk.cover.start.line, 0⟩
  ranges := chunk.ranges

section Matches

variable {buf : GoString} {chunk : RangeChunk}

theorem contentEnd_chunkToMatch (h : chunk.Covers buf) :
    (chunkToMatch buf chunk).contentEnd = lineEnd buf chunk.cover.end.offset := by
  have hle : lineStart buf chunk.cover.start.offset ≤ lineEnd buf chunk.cover.end.offset :=
    (lineStart_le buf _).trans (h.cover.ordered.trans (le_lineEnd buf _))
  unfold ChunkMatch.contentEnd chunkToMatch
  rw [length_drop, length_take,
    Nat.min_eq_left (lineEnd_le_length buf h.cover.end.offset_le), Nat.add_sub_of_le hle]

theorem wholeLines_chunkToMatch (h : chunk.Covers buf) :
    (chunkToMatch buf chunk).WholeLines buf := by
  have hend := contentEnd_chunkToMatch h
  refine ⟨?_, lineStart_eq_zero_or buf _, ?_, fun r hr => ?_, ?_⟩
  · rw [hend]
    rfl
  · rw [hend]
    exact lineEnd_eq_length_or buf h.cover.end.offset_le
  · rw [hend]
    exact ⟨(lineStart_le buf _).trans (h.within r hr).1, (h.right r hr).ordered,
      (h.within r hr).2.trans (le_lineEnd buf _)⟩
  · refine forall_mem_cons.mpr ⟨⟨lineStart_le_length buf _, ?_, ?_⟩, fun l hl => ?_⟩
    · exact h.cover.start.line_eq.trans (lineNumber_lineStart buf _).symm
    · show 0 = (runes (sinceNewline buf (lineStart buf _))).length
      rw [sinceNewline_lineStart]
      rfl
    · obtain ⟨r, hr, hl⟩ := mem_flatMap.mp hl
      have hends : ∀ l ∈ [r.start, r.end], l.Right buf := forall_mem_cons.mpr
        ⟨(h.right r hr).start, forall_mem_singleton.mpr (h.right r hr).end⟩
      exact hends l hl

/-- Chunks that are apart by their lines have contents that are apart. -/
theorem contentEnd_lt_contentStart {c d : RangeChunk} (hc : c.Covers buf) (hd : d.Covers buf)
    (h : c.cover.end.line < d.cover.start.line) :
    (chunkToMatch buf c).contentEnd < (chunkToMatch buf d).contentStart.offset := by
  rw [contentEnd_chunkToMatch hc]
  rw [hc.cover.end.line_eq, hd.cover.start.line_eq] at h
  exact lineEnd_lt_lineStart buf h

end Matches

/-- **Chunks cover the matches exactly.** Whichever way the ranges are sorted,
the contents of the chunks are whole lines, each ends before the next one starts,
and the ranges of the chunks are those of the matches, each one in one chunk and
within its content. Every location has the line and the column of its offset, in
numbers of 32 bits. -/
theorem chunksToMatches_exact (sorter : SliceSort) {buf : GoString} {locs : List (ℕ × ℕ)}
    (hbuf : buf.length < 2 ^ 31) (hlocs : ValidLocs buf locs) :
    let chunkMatches := chunksToMatches buf (chunkRangesBy sorter (locsToRanges buf locs) 0)
    (∀ cm ∈ chunkMatches, cm.WholeLines buf) ∧
    (chunkMatches.Pairwise fun a b => a.contentEnd < b.contentStart.offset) ∧
    (chunkMatches.flatMap (·.ranges)).Perm (locsToRanges buf locs) ∧
    (locsToRanges buf locs).map (fun r => (r.start.offset, r.end.offset)) = locs ∧
    ∀ cm ∈ chunkMatches, ∀ l ∈ cm.locations,
      l.offset < 2 ^ 31 ∧ l.line < 2 ^ 31 ∧ l.column < 2 ^ 31 := by
  intro chunkMatches
  have hapart := apart_chunkRangesBy (n := 0) sorter (right_locsToRanges hlocs)
  have hcovers : ∀ chunk ∈ chunkRangesBy sorter (locsToRanges buf locs) 0, chunk.Covers buf :=
    fun chunk hchunk => hapart.covers chunk (mem_reverse.mpr hchunk)
  have hwhole : ∀ cm ∈ chunkMatches, cm.WholeLines buf :=
    forall_mem_map.mpr fun chunk hchunk => wholeLines_chunkToMatch (hcovers chunk hchunk)
  refine ⟨hwhole, ?_, ?_, offsets_locsToRangesFrom buf locs 0 0, fun cm hcm l hl => ?_⟩
  · refine pairwise_map.mpr ((pairwise_reverse.mp hapart.apart).imp_of_mem ?_)
    exact fun hc hd hlines => contentEnd_lt_contentStart (hcovers _ hc) (hcovers _ hd) hlines
  · show ((map (chunkToMatch buf) _).flatMap _).Perm _
    rw [flatMap_map]
    exact ranges_chunkRangesBy sorter _
  · have hle := ((hwhole cm hcm).right l hl).le
    exact ⟨hle.1.trans_lt hbuf, hle.2.1.trans_lt hbuf, hle.2.2.trans_lt hbuf⟩

/-- The second match ends in the line after its own, which is sent too. -/
theorem chunksToMatches_two_lines :
    let chunkMatches := chunksToMatches [97, 10, 98, 10, 99]
      (chunkRangesBy .byInsertion (locsToRanges [97, 10, 98, 10, 99] [(0, 1), (2, 4)]) 0)
    chunkMatches.map (·.content) = [[97], [98, 10, 99]] ∧
      chunkMatches.Pairwise fun a b => a.contentEnd < b.contentStart.offset := by
  have hlocs : ValidLocs [97, 10, 98, 10, 99] [(0, 1), (2, 4)] := ⟨by decide, by decide⟩
  exact ⟨by decide, (chunksToMatches_exact .byInsertion (by decide) hlocs).2.1⟩

end Searcher
