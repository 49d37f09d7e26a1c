import CodeScout.Util.GoUnicode
import Mathlib

/-!
# Embeddable chunks

A text that is too long to be embedded is split between lines. A chunk ends
before a line when the lines that it has got exceed a number of tokens, or a
smaller number if the line looks like a good place. Chunks without a byte are left
out, and so are lines at the end without a token.

Nothing but empty lines gets lost in this way (`splitIntoEmbeddableChunks_covers`),
and a chunk exceeds the number of tokens by its last line only – for a number
that is not negative, since not even a chunk of one line has fewer than no tokens
before its last line (`splitIntoEmbeddableChunks_negative`).
-/

namespace Context

open List

def splittableLinePrefixes : List GoString :=
  [lit "//", lit "#", lit "/*", lit "func", lit "var", lit "const", lit "fn", lit "public",
    lit "private", lit "type"]

/-- A chunk may end before such a line. -/
def isSplittableLine (line : GoString) : Bool :=
  (trimSpace line).isEmpty || splittableLinePrefixes.any (·.isPrefixOf line)

/-- Numbers of tokens. -/
structure SplitOptions where
  noSplitTokensThreshold : ℤ
  chunkTokensThreshold : ℤ
  chunkEarlySplitTokensThreshold : ℤ

/-- The lines of a file from one line to before another. -/
structure EmbeddableChunk where
  fileName : GoString
  startLine : ℕ
  endLine : ℕ
  content : GoString
deriving DecidableEq

/-- A quarter of the length, rounded up. A quarter is exact as a `float64`. -/
def estimateTokens (text : GoString) : ℕ := (text.length + 3) / 4

/-- `strings.Join(lines[startLine:endLine], "\n")`. -/
def joined (lines : List GoString) (startLine endLine : ℕ) : GoString :=
  [10].intercalate ((lines.take endLine).drop startLine)

/-- The variables of the loop. -/
structure Splitting where
  chunks : List EmbeddableChunk := []
  startLine : ℕ := 0
  tokensSum : ℕ := 0

section

variable (options : SplitOptions) (fileName : GoString) (lines : List GoString)

/-- The lines so far are a chunk, unless they are empty. -/
def Splitting.addChunk (s : Splitting) (endLine : ℕ) : Splitting :=
  let content := joined lines s.startLine endLine
  ⟨if content.length > 0 then s.chunks ++ [⟨fileName, s.startLine, endLine, content⟩]
    else s.chunks, endLine, 0⟩

/-- One round of the loop, for a line and its number. -/
def Splitting.step (s : Splitting) (line : GoString × ℕ) : Splitting :=
  let s := if s.tokensSum > options.chunkTokensThreshold ∨
      s.tokensSum > options.chunkEarlySplitTokensThreshold ∧ isSplittableLine line.1 then
    s.addChunk fileName lines line.2 else s
  { s with tokensSum := s.tokensSum + estimateTokens line.1 }

/-- A short file is one chunk. -/
def splitIntoEmbeddableChunks (text : GoString) : List EmbeddableChunk :=
  if estimateTokens text < options.noSplitTokensThreshold then
    [⟨fileName, 0, text.count 10 + 1, text⟩]
  else
    let lines := text.splitOn 10
    let s := lines.zipIdx.foldl (Splitting.step options fileName lines) {}
    (if s.tokensSum > 0 then s.addChunk fileName lines lines.length else s).chunks

/-! ## What chunks are to be -/

/-- The tokens of the lines of an interval. -/
def tokens (startLine endLine : ℕ) : ℕ :=
  (((lines.take endLine).drop startLine).map estimateTokens).sum

/-- **Chunks cover lines**: they are increasing intervals with their lines as content,
and a line that is not empty is in exactly one of them. -/
structure Covers (chunks : List EmbeddableChunk) : Prop where
  increasing : chunks.Pairwise fun c d => c.endLine ≤ d.startLine
  content : ∀ c ∈ chunks, c.startLine < c.endLine ∧ c.endLine ≤ lines.length ∧
    c.content = joined lines c.startLine c.endLine
  once : ∀ i line, lines[i]? = some line → line ≠ [] →
    ∃! c, c ∈ chunks ∧ c.startLine ≤ i ∧ i < c.endLine

/-- No chunk exceeds a bound before its last line. -/
def Bounded (bound : ℤ) (chunks : List EmbeddableChunk) : Prop :=
  ∀ c ∈ chunks, tokens lines c.startLine (c.endLine - 1) ≤ bound

/-- The chunks of the lines up to one. -/
structure CoversUpTo (bound : ℤ) (stop : ℕ) (chunks : List EmbeddableChunk) : Prop where
  increasing : chunks.Pairwise fun c d => c.endLine ≤ d.startLine
  content : ∀ c ∈ chunks, c.startLine < c.endLine ∧ c.endLine ≤ stop ∧
    c.content = joined lines c.startLine c.endLine
  covered : ∀ i < stop, ∀ line, lines[i]? = some line → line ≠ [] →
    ∃ c ∈ chunks, c.startLine ≤ i ∧ i < c.endLine
  bounded : Bounded lines bound chunks

end

variable {options : SplitOptions} {fileName : GoString} {lines : List GoString} {bound : ℤ}
  {stop : ℕ} {chunks : List EmbeddableChunk}

/-- Intervals that increase have no line in common. -/
theorem CoversUpTo.covers (h : CoversUpTo lines bound lines.length chunks) :
    Covers lines chunks := by
  refine ⟨h.increasing, h.content, fun i line hline hne => ?_⟩
  obtain ⟨c, hc, hi⟩ := h.covered i (List.getElem?_eq_some_iff.mp hline).1 line hline hne
  refine ⟨c, ⟨hc, hi⟩, fun d hd => by_contra fun hdc => ?_⟩
  have : Std.Symm fun c d : EmbeddableChunk =>
      c.endLine ≤ d.startLine ∨ d.endLine ≤ c.startLine := ⟨fun _ _ => Or.symm⟩
  have hapart : chunks.Pairwise fun c d => c.endLine ≤ d.startLine ∨ d.endLine ≤ c.startLine :=
    h.increasing.imp Or.inl
  rcases hapart.forall hd.1 hc hdc with hle | hle
  · exact absurd (hd.2.2.trans_le hle) (not_lt.mpr hi.1)
  · exact absurd (hi.2.trans_le hle) (not_lt.mpr hd.2.1)

/-- Lines without a byte need no chunk. -/
theorem CoversUpTo.mono (h : CoversUpTo lines bound stop chunks) {stop' : ℕ} (hle : stop ≤ stop')
    (hempty : ∀ i line, stop ≤ i → i < stop' → lines[i]? = some line → line = []) :
    CoversUpTo lines bound stop' chunks where
  increasing := h.increasing
  content c hc := (h.content c hc).imp_right (.imp_left hle.trans')
  covered i hi line hline hne := by
    by_cases hi' : i < stop
    · exact h.covered i hi' line hline hne
    · exact absurd (hempty i line (not_lt.mp hi') hi hline) hne
  bounded := h.bounded

theorem drop_take_of_le {startLine endLine : ℕ} (h : endLine ≤ startLine) :
    (lines.take endLine).drop startLine = [] :=
  drop_eq_nil_of_le ((length_take_le _ _).trans h)

theorem getElem?_drop_take {startLine endLine i : ℕ} (hstart : startLine ≤ i) (hi : i < endLine) :
    ((lines.take endLine).drop startLine)[i - startLine]? = lines[i]? := by
  rw [getElem?_drop, Nat.add_sub_cancel' hstart, getElem?_take_of_lt hi]

theorem tokens_succ {startLine i : ℕ} {line : GoString} (hi : startLine ≤ i)
    (hline : lines[i]? = some line) :
    tokens lines startLine (i + 1) = tokens lines startLine i + estimateTokens line := by
  have hlength : startLine ≤ (lines.take i).length := by
    rw [length_take_of_le (List.getElem?_eq_some_iff.mp hline).1.le]
    exact hi
  rw [tokens, take_add_one, hline, drop_append_of_le_length hlength, map_append, sum_append]
  rfl

/-! ## The loop -/

/-- **What a round keeps**: the chunks cover the lines before the start of the next one,
and the sum is the one of the lines since then. -/
structure Splitting.Sound (lines : List GoString) (bound : ℤ) (i : ℕ) (s : Splitting) : Prop where
  chunks : CoversUpTo lines bound s.startLine s.chunks
  start_le : s.startLine ≤ i
  sum : s.tokensSum = tokens lines s.startLine i
  bounded : tokens lines s.startLine (i - 1) ≤ bound

variable {s : Splitting} {i : ℕ}

/-- **A chunk more**, unless it is without a byte. -/
theorem Splitting.Sound.addChunk (h : s.Sound lines bound i) :
    CoversUpTo lines bound i (s.addChunk fileName lines i).chunks := by
  unfold Splitting.addChunk
  dsimp only
  split_ifs with hlength
  · have hlt : s.startLine < i := by
      refine lt_of_not_ge fun hge => ?_
      rw [joined, drop_take_of_le hge] at hlength
      exact lt_irrefl 0 hlength
    obtain ⟨hinc, hcontent, hcovered, hbounded⟩ := h.chunks
    refine ⟨?_, ?_, fun j hj line hline hne => ?_, ?_⟩
    · refine pairwise_append.mpr ⟨hinc, pairwise_singleton _ _, fun c hc d hd => ?_⟩
      rw [mem_singleton.mp hd]
      exact (hcontent c hc).2.1
    · refine forall_mem_append.mpr ⟨fun c hc => ?_, forall_mem_singleton.mpr ⟨hlt, le_rfl, rfl⟩⟩
      exact (hcontent c hc).imp_right (.imp_left hlt.le.trans')
    · by_cases hj' : j < s.startLine
      · obtain ⟨c, hc, hin⟩ := hcovered j hj' line hline hne
        exact ⟨c, mem_append_left _ hc, hin⟩
      · exact ⟨_, mem_append_right _ mem_cons_self, not_lt.mp hj', hj⟩
    · exact forall_mem_append.mpr ⟨hbounded, forall_mem_singleton.mpr h.bounded⟩
  · refine h.chunks.mono h.start_le fun j line hstart hj hline => ?_
    -- the lines are among the texts that are joined
    have hnil : joined lines s.startLine i = [] :=
      eq_nil_of_length_eq_zero (Nat.eq_zero_of_not_pos hlength)
    refine flatten_eq_nil_iff.mp hnil line (mem_of_getElem? (i := 2 * (j - s.startLine)) ?_)
    rw [getElem?_intersperse_two_mul, getElem?_drop_take hstart hj, hline]

/-- The chunk after the loop, unless it is without a token. -/
theorem Splitting.Sound.finish (h : s.Sound lines bound lines.length) :
    CoversUpTo lines bound lines.length
      (if s.tokensSum > 0 then s.addChunk fileName lines lines.length else s).chunks := by
  split_ifs with hsum
  · exact h.addChunk
  · refine h.chunks.mono h.start_le fun i line hstart hi hline => ?_
    have hzero : tokens lines s.startLine lines.length = 0 :=
      h.sum.symm.trans (Nat.eq_zero_of_not_pos hsum)
    have hmem : line ∈ (lines.take lines.length).drop s.startLine :=
      mem_of_getElem? ((getElem?_drop_take hstart hi).trans hline)
    have htokens : (line.length + 3) / 4 = 0 :=
      sum_eq_zero_iff.mp hzero _ (mem_map_of_mem hmem)
    exact eq_nil_of_length_eq_zero (by omega)

variable (fileName) in
theorem Splitting.Sound.step {line : GoString}
    (h : s.Sound lines (max 0 options.chunkTokensThreshold) i) (hline : lines[i]? = some line) :
    (s.step options fileName lines (line, i)).Sound lines (max 0 options.chunkTokensThreshold)
      (i + 1) := by
  unfold Splitting.step
  dsimp only
  split_ifs with hsplit
  · have hnone : tokens lines i i = 0 := by
      rw [tokens, drop_take_of_le le_rfl]
      rfl
    refine ⟨h.addChunk, Nat.le_succ i, ?_, ?_⟩
    · rw [Splitting.addChunk, tokens_succ le_rfl hline, hnone]
    · rw [Splitting.addChunk, Nat.add_sub_cancel, hnone]
      exact le_max_left _ _
  · have hsum := not_lt.mp (not_or.mp hsplit).1
    rw [h.sum] at hsum
    refine ⟨h.chunks, h.start_le.trans (Nat.le_succ i), ?_, hsum.trans (le_max_right _ _)⟩
    rw [tokens_succ h.start_le hline, h.sum]

/-- **What the loop keeps**, by induction on the lines that were read. -/
theorem sound_foldl (options : SplitOptions) (fileName : GoString) (done rest : List GoString) :
    (done.zipIdx.foldl (Splitting.step options fileName (done ++ rest)) {}).Sound (done ++ rest)
      (max 0 options.chunkTokensThreshold) done.length := by
  induction done using reverseRecOn generalizing rest with
  | nil =>
    exact ⟨⟨.nil, nofun, nofun, nofun⟩, le_rfl, rfl, le_max_left _ _⟩
  | append_singleton done line ih =>
    have hline : (done ++ line :: rest)[done.length]? = some line := by
      rw [getElem?_append_right le_rfl, Nat.sub_self]
      rfl
    rw [zipIdx_append, foldl_append, append_assoc, length_append, Nat.zero_add]
    exact (ih (line :: rest)).step fileName hline

theorem length_splitOn (text : GoString) : (text.splitOn 10).length = text.count 10 + 1 := by
  induction text with
  | nil => rfl
  | cons b text ih =>
    rw [splitOn_cons_eq_if_modifyHead, count_cons]
    split_ifs
    · rw [length_cons, ih]
    · rw [length_modifyHead, ih, Nat.add_zero]

/-- **Chunks cover the text.** -/
theorem splitIntoEmbeddableChunks_covers (options : SplitOptions) (fileName text : GoString) :
    Covers (text.splitOn 10) (splitIntoEmbeddableChunks options fileName text) ∧
      (options.noSplitTokensThreshold ≤ estimateTokens text →
        Bounded (text.splitOn 10) (max 0 options.chunkTokensThreshold)
          (splitIntoEmbeddableChunks options fileName text)) := by
  have hlength := length_splitOn text
  unfold splitIntoEmbeddableChunks
  split_ifs with hshort
  · refine ⟨⟨pairwise_singleton _ _, ?_, fun i line hline _ => ?_⟩,
      fun h => absurd hshort (not_lt.mpr h)⟩
    · refine forall_mem_singleton.mpr ⟨Nat.succ_pos _, hlength.ge, ?_⟩
      rw [joined, drop_zero, take_of_length_le hlength.le, intercalate_splitOn]
    · have hi := (List.getElem?_eq_some_iff.mp hline).1
      exact ⟨_, ⟨mem_cons_self, Nat.zero_le i, hlength ▸ hi⟩, fun d hd => mem_singleton.mp hd.1⟩
  · have hsound := sound_foldl options fileName (text.splitOn 10) []
    rw [append_nil] at hsound
    exact ⟨hsound.finish.covers, fun _ => hsound.finish.bounded⟩

/-- With a negative number of tokens no chunk is short enough. -/
theorem splitIntoEmbeddableChunks_negative :
    splitIntoEmbeddableChunks ⟨0, -1, 0⟩ [] (lit "a") = [⟨[], 0, 1, lit "a"⟩] ∧
      ¬ Bounded ((lit "a").splitOn 10) (-1)
        (splitIntoEmbeddableChunks ⟨0, -1, 0⟩ [] (lit "a")) := by
  have h : splitIntoEmbeddableChunks ⟨0, -1, 0⟩ [] (lit "a") = [⟨[], 0, 1, lit "a"⟩] := by
    decide +kernel
  refine ⟨h, fun hbounded => ?_⟩
  rw [h] at hbounded
  exact absurd (hbounded _ mem_cons_self) (by decide +kernel)

end Context
