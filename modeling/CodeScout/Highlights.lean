import CodeScout.ResultMatch
import CodeScout.SearcherChunks
import CodeScout.Util.GoStrconv
import CodeScout.Util.GoUtf8
import Mathlib

/-!
# Highlights of a range

A range may go over several lines and is shown as highlights, which are within a
line each. The text of the range is scanned for lines, and columns are counted in
runes.

The length of a highlight is the difference of two columns in the last line and
the length of the line in bytes in all others, which is right for runes of one
byte only. The scanner gives up at a line that does not fit its buffer. And if the
range ends inside a line terminator, its carriage return is highlighted
(`rangeToHighlights_iff`).
-/

namespace Result

open List

/-! ## Scanning for lines -/

/-- `bufio.MaxScanTokenSize`. -/
def maxScanTokenSize : ℕ := 64 * 1024

/-- A line without a carriage return at its end. -/
def dropCR (line : GoString) : GoString :=
  if line.getLast? = some 13 then line.dropLast else line

/-- The lines that a scanner finds among the texts between newlines. There is no line
after the last newline, and the scanner stops at a line that does not fit its
buffer. -/
def scanLines : List GoString → List GoString
  | [] => []
  | [line] => if line = [] ∨ maxScanTokenSize ≤ line.length then [] else [dropCR line]
  | line :: next :: lines =>
    if maxScanTokenSize ≤ line.length then [] else dropCR line :: scanLines (next :: lines)

/-- A part of a line. -/
structure HighlightedRange where
  line : Int32
  character : Int32
  length : Int32
deriving DecidableEq

/-- The loop over the lines. -/
def highlightLines (r : Range) : ℤ → List GoString → List HighlightedRange
  | _, [] => []
  | lineNum, line :: lines =>
    let character := if lineNum = r.start.line then r.start.column else 0
    let length := if lineNum = r.stop.line then r.stop.column - character else line.length
    (if length > 0 then [⟨.ofInt lineNum, .ofInt character, .ofInt length⟩] else []) ++
      highlightLines r (lineNum + 1) lines

/-- The texts between the newlines of a range. -/
def rangeLines (s : GoString) (r : Range) : List GoString :=
  ((s.take r.stop.offset.toNat).drop r.start.offset.toNat).splitOn 10

/-- `none` is the panic of a slice that is out of range. -/
def rangeToHighlights (s : GoString) (r : Range) : Option (List HighlightedRange) :=
  if 0 ≤ r.start.offset ∧ r.start.offset ≤ r.stop.offset ∧ r.stop.offset ≤ s.length then
    some (highlightLines r r.start.line (scanLines (rangeLines s r)))
  else none

/-! ## The characters inside a range -/

/-- **A location of a text**, which is not inside a rune. -/
structure Location.At (s : GoString) (l : Location) : Prop where
  nonneg : 0 ≤ l.offset
  le_length : l.offset ≤ s.length
  valid : validString (s.take l.offset.toNat)
  line_eq : l.line = Searcher.lineNumber s l.offset.toNat
  column_eq : l.column = (runes (Searcher.sinceNewline s l.offset.toNat)).length

/-- A range of a text that is valid UTF-8. -/
structure Range.Of (s : GoString) (r : Range) : Prop where
  valid : validString s
  start : r.start.At s
  stop : r.stop.At s
  ordered : r.start.offset ≤ r.stop.offset

/-- The characters of each line that are inside a range, without the terminator of the
line. It may be that only the newline of the last one is after the range. -/
def lineRuns (beforeNewline : Bool) : List GoString → List GoString
  | [] => []
  | [line] => [if beforeNewline then dropCR line else line]
  | line :: next :: lines => dropCR line :: lineRuns beforeNewline (next :: lines)

/-- Highlights of runs of characters, without those that are empty. -/
def runHighlights : ℤ → ℤ → List GoString → List HighlightedRange
  | _, _, [] => []
  | line, character, run :: runs =>
    (if run = [] then [] else [⟨.ofInt line, .ofInt character, .ofInt (runes run).length⟩]) ++
      runHighlights (line + 1) 0 runs

/-- A newline follows a range. -/
def beforeNewline (s : GoString) (r : Range) : Bool :=
  s[r.stop.offset.toNat]? = some 10

/-- **The highlights of exactly the characters inside a range.** -/
def matchedHighlights (s : GoString) (r : Range) : List HighlightedRange :=
  runHighlights r.start.line r.start.column (lineRuns (beforeNewline s r) (rangeLines s r))

/-- **Ranges with the right highlights**: their lines fit the buffer of the scanner,
all but the last one have runes of one byte only, and the last one does not end inside
a line terminator. -/
structure Highlightable (beforeNewline : Bool) (lines : List GoString) : Prop where
  fits : ∀ line ∈ lines, line.length < maxScanTokenSize
  oneByte : ∀ line ∈ lines.dropLast, (runes (dropCR line)).length = (dropCR line).length
  ending : beforeNewline = true → ∀ line ∈ lines.getLast?, line.getLast? ≠ some 13

/-! ## Lines and their lengths -/

theorem runes_eq_nil {s : GoString} : runes s = [] ↔ s = [] := by
  refine ⟨fun h => ?_, fun h => by rw [h]; rfl⟩
  by_contra hne
  rw [runes_of_ne_nil hne] at h
  exact cons_ne_nil _ _ h

theorem length_runes_le (s : GoString) : (runes s).length ≤ s.length :=
  Searcher.length_runesUpTo_le _ _

theorem length_runes_of_cr {line : GoString} (h : line.getLast? = some 13) :
    (runes line).length = (runes (dropCR line)).length + 1 := by
  have hsplit : line = line.dropLast ++ [13] := (dropLast_append_getLast? 13 h).symm
  rw [dropCR, if_pos h]
  conv_lhs => rw [hsplit, runes_append_ascii _ (by decide), length_append]
  rfl

theorem length_dropCR (line : GoString) :
    (dropCR line).length ≤ line.length ∧ line.length ≤ (dropCR line).length + 1 := by
  rw [dropCR]
  split_ifs
  · rw [length_dropLast]
    exact ⟨Nat.sub_le _ _, Nat.le_add_of_sub_le le_rfl⟩
  · exact ⟨le_rfl, Nat.le_succ _⟩

theorem ofInt_inj {a b : ℕ} (ha : a < 2 ^ 31) (hb : b < 2 ^ 31)
    (h : Int32.ofInt a = Int32.ofInt b) : a = b := by
  have hint := congrArg Int32.toInt h
  rw [Int32.toInt_ofInt_of_le (by omega) (by omega), Int32.toInt_ofInt_of_le (by omega) (by omega)]
    at hint
  exact Int.ofNat.inj hint

theorem dropCR_ne_nil {line : GoString} (h : maxScanTokenSize ≤ line.length) :
    dropCR line ≠ [] := by
  intro hnil
  have hlength := (length_dropCR line).2
  rw [hnil] at hlength
  exact absurd (h.trans hlength) (by decide)

section

variable {beforeNewline : Bool} {line next : GoString} {lines : List GoString}

theorem highlightable_singleton : Highlightable beforeNewline [line] ↔
    line.length < maxScanTokenSize ∧ (beforeNewline = true → line.getLast? ≠ some 13) :=
  ⟨fun h => ⟨h.fits line mem_cons_self, fun hbefore => h.ending hbefore line rfl⟩,
    fun h => ⟨forall_mem_singleton.mpr h.1, fun _ hmem => absurd hmem not_mem_nil,
      fun hbefore _ hmem => Option.some.inj hmem ▸ h.2 hbefore⟩⟩

theorem highlightable_cons : Highlightable beforeNewline (line :: next :: lines) ↔
    line.length < maxScanTokenSize ∧ (runes (dropCR line)).length = (dropCR line).length ∧
      Highlightable beforeNewline (next :: lines) := by
  constructor
  · intro h
    have hfits := forall_mem_cons.mp h.fits
    have honeByte := forall_mem_cons.mp h.oneByte
    exact ⟨hfits.1, honeByte.1, hfits.2, honeByte.2, h.ending⟩
  · intro h
    exact ⟨forall_mem_cons.mpr ⟨h.1, h.2.2.fits⟩,
      forall_mem_cons.mpr ⟨h.2.1, h.2.2.oneByte⟩, h.2.2.ending⟩

variable {lineNum character : ℤ}

theorem highlight_eq_iff {run : GoString} {n : ℕ} (hn : n < 2 ^ 31)
    (hrun : run.length < 2 ^ 31) (hnil : run = [] ↔ n = 0) {rest rest' : List HighlightedRange} :
    (if (n : ℤ) > 0 then [⟨.ofInt lineNum, .ofInt character, .ofInt n⟩] else []) ++ rest =
        (if run = [] then [] else
          [⟨.ofInt lineNum, .ofInt character, .ofInt (runes run).length⟩]) ++ rest' ↔
      (runes run).length = n ∧ rest = rest' := by
  by_cases h : run = []
  · rw [if_pos h, hnil.mp h, h]
    exact (and_iff_right rfl).symm
  · have hpos : (n : ℤ) > 0 := Int.natCast_pos.mpr (Nat.pos_of_ne_zero (mt hnil.mpr h))
    rw [if_neg h, if_pos hpos, singleton_append, singleton_append, cons.injEq]
    refine and_congr_left fun _ => ⟨fun heq => ?_, fun heq => by rw [heq]⟩
    exact (ofInt_inj hn ((length_runes_le run).trans_lt hrun)
      (congrArg HighlightedRange.length heq)).symm

/-- A line that the scanner gives up at has a highlight. -/
theorem runHighlights_ne_nil {run : GoString} (h : run ≠ [])
    (runs : List GoString) : [] ≠ runHighlights lineNum character (run :: runs) := by
  rw [runHighlights, if_neg h]
  exact (cons_ne_nil _ _).symm

theorem highlightLines_singleton {r : Range}
    (hcharacter : character = if lineNum = r.start.line then r.start.column else 0)
    (hstop : lineNum = r.stop.line) (hcolumn : r.stop.column = character + (runes line).length) :
    highlightLines r lineNum (scanLines [line]) =
      runHighlights lineNum character (lineRuns beforeNewline [line]) ↔
      Highlightable beforeNewline [line] := by
  have hbound : maxScanTokenSize < 2 ^ 31 := by decide
  rw [highlightable_singleton, scanLines, lineRuns]
  by_cases hnil : line = []
  · rw [if_pos (.inl hnil), hnil]
    exact iff_of_true (by cases beforeNewline <;> rfl) ⟨by decide, fun _ => nofun⟩
  by_cases hlong : maxScanTokenSize ≤ line.length
  · rw [if_pos (.inr hlong)]
    refine iff_of_false (runHighlights_ne_nil ?_ []) fun h => h.1.not_ge hlong
    split_ifs
    · exact dropCR_ne_nil hlong
    · exact hnil
  have hshort := not_le.mp hlong
  have hrunes := (length_runes_le line).trans_lt (hshort.trans hbound)
  have hscanned : highlightLines r lineNum [dropCR line] = (if ((runes line).length : ℤ) > 0 then
      [⟨.ofInt lineNum, .ofInt character, .ofInt (runes line).length⟩] else []) ++ [] := by
    rw [highlightLines, ← hcharacter, if_pos hstop, hcolumn, add_sub_cancel_left]
    rfl
  rw [if_neg (not_or.mpr ⟨hnil, hlong⟩), hscanned]
  by_cases hcr : beforeNewline = true ∧ line.getLast? = some 13
  · -- the carriage return is one rune too many
    refine iff_of_false (fun heq => ?_) fun h => h.2 hcr.1 hcr.2
    have hpos : ((runes line).length : ℤ) > 0 := by
      rw [length_runes_of_cr hcr.2]
      exact Int.natCast_pos.mpr (Nat.succ_pos _)
    rw [if_pos hcr.1, if_pos hpos, runHighlights, runHighlights, append_nil, append_nil] at heq
    split_ifs at heq
    have hsame := ofInt_inj hrunes
      ((length_runes_le _).trans_lt (((length_dropCR line).1.trans_lt hshort).trans hbound))
      (congrArg HighlightedRange.length (cons.inj heq).1)
    rw [length_runes_of_cr hcr.2] at hsame
    exact Nat.succ_ne_self _ hsame
  · have hrun : (if beforeNewline then dropCR line else line) = line := by
      split_ifs with hbefore
      · rw [dropCR, if_neg fun h => hcr ⟨hbefore, h⟩]
      · rfl
    rw [hrun, runHighlights]
    exact iff_of_true ((highlight_eq_iff hrunes (hshort.trans hbound) (by
      rw [length_eq_zero_iff, runes_eq_nil])).mpr ⟨rfl, rfl⟩)
      ⟨hshort, fun hbefore h => hcr ⟨hbefore, h⟩⟩

/-- **The highlights of the lines of a range**, from one of them on. -/
theorem highlightLines_iff {r : Range} (hne : lines ≠ [])
    (hstart : r.start.line ≤ lineNum)
    (hcharacter : character = if lineNum = r.start.line then r.start.column else 0)
    (hstop : r.stop.line + 1 = lineNum + lines.length)
    (hcolumn : ∀ last ∈ lines.getLast?,
      r.stop.column = (if lines.length = 1 then character else 0) + (runes last).length) :
    highlightLines r lineNum (scanLines lines) =
      runHighlights lineNum character (lineRuns beforeNewline lines) ↔
      Highlightable beforeNewline lines := by
  induction lines generalizing lineNum character with
  | nil => exact absurd rfl hne
  | cons line lines ih =>
    cases lines with
    | nil =>
      exact highlightLines_singleton hcharacter (add_right_cancel hstop).symm (hcolumn line rfl)
    | cons next lines =>
      rw [length_cons, length_cons] at hstop
      have hnotlast : lineNum ≠ r.stop.line := by omega
      have hnext : lineNum + 1 ≠ r.start.line := by omega
      have htail := @ih (lineNum + 1) 0 (cons_ne_nil next lines) (by omega) (if_neg hnext).symm
        (by rw [length_cons]; omega) fun last hlast => by
          rw [hcolumn last hlast, if_neg (by simp), ite_self]
      rw [highlightable_cons, scanLines, lineRuns]
      split_ifs with hlong
      · exact iff_of_false (runHighlights_ne_nil (dropCR_ne_nil hlong) _) fun h => h.1.not_ge hlong
      · have hshort := (length_dropCR line).1.trans_lt (not_le.mp hlong)
        have hbound : (dropCR line).length < 2 ^ 31 := hshort.trans (by decide)
        rw [highlightLines, ← hcharacter, if_neg hnotlast, runHighlights,
          highlight_eq_iff hbound hbound length_eq_zero_iff.symm, htail]
        exact (and_iff_right (not_le.mp hlong)).symm

end

/-! ## Consistent ranges -/

theorem rtakeWhile_append_cons (a b : GoString) :
    (a ++ 10 :: b).rtakeWhile (· ≠ 10) = b.rtakeWhile (· ≠ 10) := by
  rw [rtakeWhile, rtakeWhile, reverse_append, reverse_cons, append_assoc, takeWhile_append]
  split_ifs with h
  · rw [(List.takeWhile_prefix _).eq_of_length h, singleton_append,
      takeWhile_cons_of_neg (by decide), append_nil]
  · rfl

theorem rtakeWhile_append_of_not_mem (a : GoString) {line : GoString} (h : 10 ∉ line) :
    (a ++ line).rtakeWhile (· ≠ 10) = a.rtakeWhile (· ≠ 10) ++ line := by
  have hall : ∀ b ∈ line.reverse, decide (b ≠ 10) = true := fun b hb =>
    decide_eq_true fun heq => h (heq ▸ mem_reverse.mp hb)
  rw [rtakeWhile, reverse_append, takeWhile_append_of_pos hall, reverse_append, reverse_reverse]
  rfl

theorem intercalate_lines {lines : List GoString} (hne : lines ≠ [])
    (h : ∀ line ∈ lines, 10 ∉ line) (a : GoString) :
    (([10] : GoString).intercalate lines).count 10 + 1 = lines.length ∧
      ∀ last ∈ lines.getLast?, (a ++ ([10] : GoString).intercalate lines).rtakeWhile (· ≠ 10) =
        (if lines.length = 1 then a.rtakeWhile (· ≠ 10) else []) ++ last := by
  induction lines generalizing a with
  | nil => exact absurd rfl hne
  | cons line lines ih =>
    have hline := forall_mem_cons.mp h
    cases lines with
    | nil =>
      rw [intercalate_singleton, count_eq_zero.mpr hline.1]
      refine ⟨rfl, fun last hlast => ?_⟩
      rw [← Option.some.inj hlast]
      exact rtakeWhile_append_of_not_mem a hline.1
    | cons next lines =>
      obtain ⟨hcount, hlast⟩ := ih (cons_ne_nil next lines) hline.2 []
      rw [intercalate_cons_cons, append_assoc, singleton_append, count_append,
        count_cons_self, count_eq_zero.mpr hline.1, Nat.zero_add, hcount]
      refine ⟨rfl, fun last hmem => ?_⟩
      have htail := hlast last hmem
      rw [nil_append, rtakeWhile_nil, ite_self] at htail
      rw [← append_assoc, rtakeWhile_append_cons, htail, if_neg (by simp)]

theorem validString_of_append {a b : GoString} (h : validString (a ++ 10 :: b)) :
    validString b := by
  unfold validString at h
  rw [runes_append_ascii a (by decide)] at h
  exact fun rune hrune => h rune (mem_append_right _ (mem_cons_of_mem _ hrune))

theorem validString_sinceNewline {s : GoString} {o : ℕ} (h : validString (s.take o)) :
    validString (Searcher.sinceNewline s o) := by
  rw [← Searcher.rdropWhile_append_sinceNewline s o] at h
  by_cases hnil : (s.take o).rdropWhile (· ≠ 10) = []
  · rwa [hnil] at h
  · rw [← dropLast_append_getLast hnil, Searcher.getLast_rdropWhile hnil, append_assoc] at h
    exact validString_of_append h

/-- **The highlights of a range cover exactly the characters inside of it** if its lines
fit the buffer, have runes of one byte before the last line, and do not end inside a
line terminator, and only then. -/
theorem rangeToHighlights_iff {s : GoString} {r : Range} (h : r.Of s) :
    rangeToHighlights s r = some (matchedHighlights s r) ↔
      Highlightable (beforeNewline s r) (rangeLines s r) := by
  have hle : r.start.offset.toNat ≤ r.stop.offset.toNat := Int.toNat_le_toNat h.ordered
  have hsplit : s.take r.start.offset.toNat ++ ([10] : GoString).intercalate (rangeLines s r) =
      s.take r.stop.offset.toNat := by
    rw [rangeLines, intercalate_splitOn]
    conv_rhs => rw [← take_append_drop r.start.offset.toNat (s.take r.stop.offset.toNat),
      take_take, Nat.min_eq_left hle]
  have hne : rangeLines s r ≠ [] := splitOn_ne_nil 10 _
  obtain ⟨hcount, hlast⟩ := intercalate_lines hne (fun _ => not_mem_of_mem_splitOn)
    (s.take r.start.offset.toNat)
  rw [hsplit] at hlast
  have hstop : r.stop.line + 1 = r.start.line + (rangeLines s r).length := by
    rw [h.stop.line_eq, h.start.line_eq, Searcher.lineNumber, ← hsplit, count_append, ← hcount,
      Nat.cast_add, Nat.cast_add, add_assoc]
    rfl
  have hcolumn : ∀ last ∈ (rangeLines s r).getLast?, r.stop.column =
      (if (rangeLines s r).length = 1 then r.start.column else 0) + (runes last).length := by
    intro last hmem
    rw [h.stop.column_eq, h.start.column_eq, Searcher.sinceNewline, hlast last hmem]
    split_ifs
    · have happend := runes_append_of_valid (validString_sinceNewline h.start.valid) last
      exact congrArg Nat.cast ((congrArg length happend).trans length_append)
    · exact (zero_add _).symm
  rw [rangeToHighlights, if_pos ⟨h.start.nonneg, h.ordered, h.stop.le_length⟩, Option.some.injEq]
  exact highlightLines_iff hne le_rfl (if_pos rfl).symm hstop hcolumn

/-- A range of two lines. -/
def twoLines : Range := ⟨⟨0, 0, 0⟩, ⟨3, 1, 1⟩⟩

theorem rangeToHighlights_two_lines :
    rangeToHighlights (lit "a\nb") twoLines = some [⟨0, 0, 1⟩, ⟨1, 0, 1⟩] := by
  have h : twoLines.Of (lit "a\nb") := ⟨by decide +kernel,
    ⟨by decide, by decide, by decide +kernel, by decide +kernel, by decide +kernel⟩,
    ⟨by decide, by decide +kernel, by decide +kernel, by decide +kernel, by decide +kernel⟩,
    by decide⟩
  have hlines : Highlightable (beforeNewline (lit "a\nb") twoLines)
      (rangeLines (lit "a\nb") twoLines) :=
    ⟨by decide +kernel, by decide +kernel, by decide +kernel⟩
  exact ((rangeToHighlights_iff h).mpr hlines).trans (by decide +kernel)

/-- **A line that is not the last one** is highlighted by its bytes: the first line has one
character and a highlight of length two. -/
theorem rangeToHighlights_bytes :
    (⟨⟨0, 0, 0⟩, ⟨4, 1, 1⟩⟩ : Range).Of (lit "é\nb") ∧
      rangeToHighlights (lit "é\nb") ⟨⟨0, 0, 0⟩, ⟨4, 1, 1⟩⟩ = some [⟨0, 0, 2⟩, ⟨1, 0, 1⟩] ∧
      matchedHighlights (lit "é\nb") ⟨⟨0, 0, 0⟩, ⟨4, 1, 1⟩⟩ = [⟨0, 0, 1⟩, ⟨1, 0, 1⟩] := by
  refine ⟨⟨by decide +kernel,
    ⟨by decide, by decide, by decide +kernel, by decide +kernel, by decide +kernel⟩,
    ⟨by decide, by decide +kernel, by decide +kernel, by decide +kernel, by decide +kernel⟩,
    by decide⟩,
    by decide +kernel, by decide +kernel⟩

end Result
