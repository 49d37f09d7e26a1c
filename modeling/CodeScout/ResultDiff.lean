import CodeScout.Util.GoStrconv
import CodeScout.Util.Outcome
import Mathlib.Data.List.TakeWhile

/-!
# Structured diffs

A diff search result carries its diff as text, one line for the two names
of each file, one for each hunk header and one for each line of a hunk.
`FormatDiffFiles` writes that text and `ParseDiffString` reads it back, a
line at a time, through a machine with three states.

The format has no framing. In the middle of a hunk the first byte of a
line decides what the line is – a line of the hunk, the header of the next
hunk, or the names of the next file – and the two names of a file are
separated by a space, the spaces inside them being escaped by a backslash.
So a name can be mistaken in two ways: the names line of any file but the
first is taken for a line of the hunk before it when the original name
starts with `+`, `-` or `@`, and the space between the names is taken for
an escaped one when the original name ends in a backslash.
`parseDiffString_formatDiffFiles_iff` says that these are the only ways:
on well-formed files the parser inverts the printer exactly when no name
does either.
-/

namespace Result

open List

/-- Consecutive lines of a diff. -/
structure Hunk where
  oldStart : Int64
  newStart : Int64
  oldCount : Int64
  newCount : Int64
  header : GoString
  lines : List GoString
deriving DecidableEq, Repr

/-- The diff of a file. -/
structure DiffFile where
  origName : GoString
  newName : GoString
  hunks : List Hunk
deriving DecidableEq, Repr

/-- The zero value `Hunk{}`. -/
def Hunk.zero : Hunk := ⟨0, 0, 0, 0, [], []⟩

/-- The zero value `DiffFile{}`. -/
def DiffFile.zero : DiffFile := ⟨[], [], []⟩

/-! ## Printing -/

/-- `escaper.Replace`: a backslash before every space. -/
def escape (name : GoString) : GoString :=
  name.flatMap (fun c => if c = 32 then [92, 32] else [c])

/-- `unescaper.Replace`: a space for every backslash and space. -/
def unescape : GoString → GoString
  | 92 :: 32 :: rest => 32 :: unescape rest
  | c :: rest => c :: unescape rest
  | [] => []

/-- The header line of a hunk. There is a space before the section header
only if that is not empty. -/
def formatHunkHeader (hunk : Hunk) : GoString :=
  lit "@@ -" ++ formatInt hunk.oldStart.toInt ++ lit "," ++ formatInt hunk.oldCount.toInt
    ++ lit " +" ++ formatInt hunk.newStart.toInt ++ lit "," ++ formatInt hunk.newCount.toInt
    ++ lit " @@" ++ (if hunk.header.isEmpty then [] else lit " " ++ hunk.header)

/-- **`FormatDiffFiles`.** -/
def formatDiffFiles (res : List DiffFile) : GoString :=
  res.flatMap (fun diffFile =>
    escape diffFile.origName ++ lit " " ++ escape diffFile.newName ++ lit "\n"
      ++ diffFile.hunks.flatMap (fun hunk =>
        formatHunkHeader hunk ++ lit "\n"
          ++ hunk.lines.flatMap (fun line => line ++ lit "\n")))

/-! ## Parsing -/

/-- What the parser fails with. -/
inductive DiffError
  /-- `invalid diff format` -/
  | invalidDiff
  /-- `Atoi` on a number that is no `int` -/
  | outOfRange (digits : GoString)
deriving DecidableEq, Repr

/-- The scan behind `splitRegex`, `(.*[^\\]) (.*)`: the groups of a match
are the texts before and after a space that follows a byte other than a
backslash, and the first group is greedy, so it is the last such space.
`seen` is the text before `rest`, reversed. The lines it is used on
contain no newline, and a byte of a longer UTF-8 sequence is neither a
space nor a backslash. -/
def splitNames (seen : GoString) (found : Option (GoString × GoString)) :
    GoString → Option (GoString × GoString)
  | [] => found
  | c :: rest =>
    let found' :=
      if c = 32 ∧ ∃ b ∈ seen.head?, b ≠ 92 then some (seen.reverse, rest) else found
    splitNames (c :: seen) found' rest

/-- **`splitDiffFiles`.** -/
def splitDiffFiles (fileLine : GoString) : Except DiffError (GoString × GoString) :=
  match splitNames [] none fileLine with
  | none => .error .invalidDiff
  | some (oldFile, newFile) => .ok (unescape oldFile, unescape newFile)

/-- Match a constant at the start of a text. -/
def dropLit (constant text : GoString) : Option GoString :=
  if constant.isPrefixOf text then some (text.drop constant.length) else none

/-- Match `(\d+)` at the start of a text. -/
def takeDigits (text : GoString) : Option (GoString × GoString) :=
  let digits := text.takeWhile isDigit
  if digits.isEmpty then none else some (digits, text.dropWhile isDigit)

/-- `headerRegex`, `@@ -(\d+),(\d+) \+(\d+),(\d+) @@\ ?(.*)`, matched at the
start of a text: its five groups. No two ways to match differ, since a
number is followed by a byte that is no digit. -/
def matchHeader (text : GoString) :
    Option (GoString × GoString × GoString × GoString × GoString) := do
  let text ← dropLit (lit "@@ -") text
  let (oldStart, text) ← takeDigits text
  let text ← dropLit (lit ",") text
  let (oldCount, text) ← takeDigits text
  let text ← dropLit (lit " +") text
  let (newStart, text) ← takeDigits text
  let text ← dropLit (lit ",") text
  let (newCount, text) ← takeDigits text
  let text ← dropLit (lit " @@") text
  let text := (dropLit (lit " ") text).getD text
  return (oldStart, oldCount, newStart, newCount, text.takeWhile (· ≠ 10))

/-- The leftmost match of `headerRegex` in a text. -/
def findHeader : GoString →
    Option (GoString × GoString × GoString × GoString × GoString)
  | [] => none
  | c :: rest => (matchHeader (c :: rest)).orElse (fun _ => findHeader rest)

/-- `Atoi` with its error. -/
def atoiOrError (digits : GoString) : Except DiffError Int64 :=
  match atoi digits with
  | none => .error (.outOfRange digits)
  | some i => .ok i

/-- **`parseHunkHeader`**, its results assigned to the fields of `hunk`. -/
def parseHunkHeader (hunk : Hunk) (headerLine : GoString) : Except DiffError Hunk :=
  match findHeader headerLine with
  | none => .error .invalidDiff
  | some (oldStart, oldCount, newStart, newCount, header) => do
    let oldStart ← atoiOrError oldStart
    let oldCount ← atoiOrError oldCount
    let newStart ← atoiOrError newStart
    let newCount ← atoiOrError newCount
    return { hunk with oldStart, oldCount, newStart, newCount, header }

/-- Where the parser is. -/
inductive DiffState
  | init
  | inDiff
  | inHunk
deriving DecidableEq, Repr

/-- The local variables of `ParseDiffString`. -/
structure DiffParser where
  state : DiffState
  res : List DiffFile
  currentDiff : DiffFile
  currentHunk : Hunk

namespace DiffParser

def start : DiffParser := ⟨.init, [], DiffFile.zero, Hunk.zero⟩

/-- The current file is complete. -/
def finishDiff (p : DiffParser) : DiffParser :=
  { p with res := p.res ++ [p.currentDiff], currentDiff := DiffFile.zero }

/-- The current hunk is complete. -/
def finishHunk (p : DiffParser) : DiffParser :=
  { p with
    currentDiff := { p.currentDiff with hunks := p.currentDiff.hunks ++ [p.currentHunk] }
    currentHunk := Hunk.zero }

/-- Read the names of the current file and expect its first hunk. -/
def readNames (p : DiffParser) (line : GoString) : Except DiffError DiffParser := do
  let (origName, newName) ← splitDiffFiles line
  return { p with currentDiff := { p.currentDiff with origName, newName }, state := .inDiff }

/-- Read the header of the current hunk and expect its lines. -/
def readHeader (p : DiffParser) (line : GoString) : Except DiffError DiffParser := do
  let currentHunk ← parseHunkHeader p.currentHunk line
  return { p with currentHunk, state := .inHunk }

/-- One round of the loop of `ParseDiffString`. -/
def step (p : DiffParser) (line : GoString) : Except DiffError DiffParser :=
  match line with
  | [] => .ok p
  | c :: _ =>
    match p.state with
    | .init => p.readNames line
    | .inDiff => p.readHeader line
    | .inHunk =>
      if c = 45 ∨ c = 43 ∨ c = 32 then
        .ok { p with currentHunk :=
          { p.currentHunk with lines := p.currentHunk.lines ++ [line] } }
      else if c = 64 then p.finishHunk.readHeader line
      else p.finishHunk.finishDiff.readNames line

end DiffParser

/-- **`ParseDiffString`.** -/
def parseDiffString (diff : GoString) : Except DiffError (List DiffFile) := do
  let p ← (diff.splitOn 10).foldlM DiffParser.step DiffParser.start
  return p.finishHunk.finishDiff.res

/-! ## Names -/

theorem escape_cons (c : UInt8) (s : GoString) :
    escape (c :: s) = (if c = 32 then [92, 32] else [c]) ++ escape s :=
  flatMap_cons

theorem escape_head_ne_space (s : GoString) : (escape s).head? ≠ some 32 := by
  cases s with
  | nil => simp [escape]
  | cons c s =>
    rw [escape_cons]
    by_cases hc : c = 32
    · rw [if_pos hc]
      simp
    · rw [if_neg hc]
      simpa using hc

theorem unescape_cons_of_head_ne {c : UInt8} {s : GoString} (h : s.head? ≠ some 32) :
    unescape (c :: s) = c :: unescape s := by
  unfold unescape
  split
  · rename_i rest heq
    rw [(cons.inj heq).2] at h
    exact absurd rfl h
  · rename_i c' rest _ heq
    obtain ⟨rfl, rfl⟩ := cons.inj heq
    rw [← unescape.eq_def]
  · rename_i heq
    cases heq

/-- **Unescaping inverts escaping**, whatever the name. -/
theorem unescape_escape (s : GoString) : unescape (escape s) = s := by
  induction s with
  | nil => rfl
  | cons c s ih =>
    rw [escape_cons]
    by_cases hc : c = 32
    · rw [if_pos hc, hc]
      show 32 :: unescape (escape s) = _
      rw [ih]
    · rw [if_neg hc]
      show unescape (c :: escape s) = _
      rw [unescape_cons_of_head_ne (escape_head_ne_space s), ih]

theorem escape_reverse_head? (s : GoString) : (escape s).reverse.head? = s.getLast? := by
  induction s using reverseRecOn with
  | nil => rfl
  | append_singleton s c _ =>
    have hsplit : escape (s ++ [c]) = escape s ++ (if c = 32 then [92, 32] else [c]) := by
      simp [escape]
    rw [hsplit, reverse_append, getLast?_concat]
    by_cases hc : c = 32
    · rw [if_pos hc, hc]
      rfl
    · rw [if_neg hc]
      rfl

/-- **No space of an escaped name separates two names**: the scan passes
over it and finds nothing. -/
theorem splitNames_escape (s rest seen : GoString)
    (found : Option (GoString × GoString)) :
    splitNames seen found (escape s ++ rest)
      = splitNames ((escape s).reverse ++ seen) found rest := by
  induction s generalizing seen with
  | nil => rfl
  | cons c s ih =>
    rw [escape_cons]
    by_cases hc : c = 32
    · rw [if_pos hc]
      show splitNames (32 :: 92 :: seen) _ (escape s ++ rest) = _
      simp only [head?_cons, Option.mem_def, Option.some.injEq, ne_eq,
        exists_eq_left', not_true_eq_false, and_false, if_false,
        show ¬ ((92 : UInt8) = 32) from by decide, false_and]
      rw [ih]
      simp
    · rw [if_neg hc]
      show splitNames (c :: seen) _ (escape s ++ rest) = _
      simp only [hc, false_and, if_false]
      rw [ih]
      simp

/-- The names line of a file. -/
def namesLine (f : DiffFile) : GoString :=
  escape f.origName ++ lit " " ++ escape f.newName

/-- **The names of a file are read back exactly when the original name does
not end in a backslash**; otherwise no space separates them. -/
theorem splitDiffFiles_namesLine (f : DiffFile) (hne : f.origName ≠ []) :
    splitDiffFiles (namesLine f)
      = if f.origName.getLast? = some 92 then .error .invalidDiff
        else .ok (f.origName, f.newName) := by
  obtain ⟨b, hb⟩ : ∃ b, f.origName.getLast? = some b :=
    ⟨_, getLast?_eq_some_getLast hne⟩
  have hscan : splitNames [] none (namesLine f)
      = if b = 92 then none else some (escape f.origName, escape f.newName) := by
    show splitNames [] none ((escape f.origName ++ [32]) ++ escape f.newName) = _
    have hhead : ((escape f.origName).reverse ++ []).head? = some b := by
      rw [append_nil, escape_reverse_head?, hb]
    rw [append_assoc, splitNames_escape]
    show splitNames (32 :: _) _ (escape f.newName) = _
    rw [← append_nil (escape f.newName), splitNames_escape, hhead]
    by_cases h : b = 92 <;> simp [h, splitNames]
  rw [splitDiffFiles, hscan, hb]
  by_cases h : b = 92
  · simp [h]
  · simp [h, unescape_escape]

/-! ## Hunk headers -/

theorem dropLit_append (p s : GoString) : dropLit p (p ++ s) = some s := by
  simp [dropLit]

theorem takeDigits_formatNat (n : ℕ) {c : UInt8} (hc : isDigit c = false) (s : GoString) :
    takeDigits (formatNat n ++ c :: s) = some (formatNat n, c :: s) := by
  have htake : (formatNat n ++ c :: s).takeWhile isDigit = formatNat n := by
    rw [takeWhile_append_of_pos (formatNat_isDigit n),
      takeWhile_cons_of_neg (by simp [hc]), append_nil]
  have hdrop : (formatNat n ++ c :: s).dropWhile isDigit = c :: s := by
    rw [dropWhile_append_of_pos (formatNat_isDigit n), dropWhile_cons_of_neg (by simp [hc])]
  rw [takeDigits, htake, hdrop, if_neg]
  simpa using formatNat_ne_nil n

/-- A hunk the format can carry. -/
structure Hunk.WellFormed (h : Hunk) : Prop where
  oldStart : 0 ≤ h.oldStart.toInt
  oldCount : 0 ≤ h.oldCount.toInt
  newStart : 0 ≤ h.newStart.toInt
  newCount : 0 ≤ h.newCount.toInt
  header : 10 ∉ h.header ∧ h.header.head? ≠ some 32
  lines : ∀ line ∈ h.lines, 10 ∉ line
    ∧ (line.head? = some 43 ∨ line.head? = some 45 ∨ line.head? = some 32)

theorem formatInt_of_nonneg {i : ℤ} (h : 0 ≤ i) : formatInt i = formatNat i.natAbs := by
  rw [formatInt, if_neg (not_lt.mpr h)]

theorem atoiOrError_formatInt {i : Int64} (h : 0 ≤ i.toInt) :
    atoiOrError (formatNat i.toInt.natAbs) = .ok i := by
  rw [atoiOrError, ← formatInt_of_nonneg h, atoi_formatInt i h]

theorem matchHeader_formatHunkHeader {h : Hunk} (hw : h.WellFormed) :
    matchHeader (formatHunkHeader h)
      = some (formatNat h.oldStart.toInt.natAbs, formatNat h.oldCount.toInt.natAbs,
          formatNat h.newStart.toInt.natAbs, formatNat h.newCount.toInt.natAbs,
          h.header) := by
  have hsection : ((dropLit (lit " ") (if h.header.isEmpty then [] else lit " " ++ h.header)).getD
        (if h.header.isEmpty then [] else lit " " ++ h.header)).takeWhile (· ≠ 10)
      = h.header := by
    by_cases he : h.header = []
    · rw [he]
      rfl
    · rw [if_neg (by simpa using he), dropLit_append, Option.getD_some, takeWhile_eq_self_iff]
      intro c hc
      simpa using fun h10 : c = 10 => hw.header.1 (h10 ▸ hc)
  have hcomma : ∀ s, lit "," ++ s = 44 :: s := fun s => rfl
  have hplus : ∀ s, lit " +" ++ s = 32 :: 43 :: s := fun s => rfl
  have hat : ∀ s, lit " @@" ++ s = 32 :: 64 :: 64 :: s := fun s => rfl
  rw [formatHunkHeader, formatInt_of_nonneg hw.oldStart, formatInt_of_nonneg hw.oldCount,
    formatInt_of_nonneg hw.newStart, formatInt_of_nonneg hw.newCount]
  simp only [append_assoc, matchHeader, dropLit_append, Option.bind_eq_bind, Option.bind_some]
  rw [hcomma, takeDigits_formatNat _ (by decide)]
  simp only [Option.bind_some, ← hcomma, dropLit_append]
  rw [hplus, takeDigits_formatNat _ (by decide)]
  simp only [Option.bind_some, ← hplus, dropLit_append]
  rw [hcomma, takeDigits_formatNat _ (by decide)]
  simp only [Option.bind_some, ← hcomma, dropLit_append]
  rw [hat, takeDigits_formatNat _ (by decide)]
  simp only [Option.bind_some, ← hat, dropLit_append]
  rw [hsection]
  rfl

theorem formatHunkHeader_eq_cons (h : Hunk) : ∃ s, formatHunkHeader h = 64 :: s :=
  ⟨_, rfl⟩

/-- **A printed header is read back.** -/
theorem parseHunkHeader_formatHunkHeader (hunk : Hunk) {h : Hunk} (hw : h.WellFormed) :
    parseHunkHeader hunk (formatHunkHeader h) = .ok { h with lines := hunk.lines } := by
  have hfind : findHeader (formatHunkHeader h) = matchHeader (formatHunkHeader h) := by
    obtain ⟨s, hs⟩ := formatHunkHeader_eq_cons h
    have hm := matchHeader_formatHunkHeader hw
    rw [hs] at hm ⊢
    rw [findHeader, hm]
    rfl
  rw [parseHunkHeader, hfind, matchHeader_formatHunkHeader hw]
  simp only [atoiOrError_formatInt hw.oldStart, atoiOrError_formatInt hw.oldCount,
    atoiOrError_formatInt hw.newStart, atoiOrError_formatInt hw.newCount]
  rfl

/-! ## The text as lines -/

def hunkLines (h : Hunk) : List GoString :=
  formatHunkHeader h :: h.lines

def fileLines (f : DiffFile) : List GoString :=
  namesLine f :: f.hunks.flatMap hunkLines

theorem joinLines_flatMap {α : Type} (l : List α) (g : α → List GoString) :
    joinLines (l.flatMap g) = l.flatMap (fun a => joinLines (g a)) :=
  flatMap_assoc

theorem formatDiffFiles_eq_joinLines (files : List DiffFile) :
    formatDiffFiles files = joinLines (files.flatMap fileLines) := by
  rw [joinLines_flatMap]
  refine flatMap_congr fun f _ => ?_
  show _ = namesLine f ++ [10] ++ joinLines (f.hunks.flatMap hunkLines)
  rw [joinLines_flatMap]
  rfl

/-- A file the format can carry. -/
structure DiffFile.WellFormed (f : DiffFile) : Prop where
  origName : f.origName ≠ [] ∧ 10 ∉ f.origName
  newName : f.newName ≠ [] ∧ 10 ∉ f.newName
  hunks_ne : f.hunks ≠ []
  hunks : ∀ h ∈ f.hunks, h.WellFormed

theorem not_mem_escape {s : GoString} (h : 10 ∉ s) : 10 ∉ escape s := by
  intro hmem
  obtain ⟨c, hc, hin⟩ := mem_flatMap.mp hmem
  by_cases hsp : c = 32
  · rw [if_pos hsp] at hin
    exact absurd hin (by decide)
  · rw [if_neg hsp, mem_singleton] at hin
    exact h (hin ▸ hc)

theorem not_mem_formatNat (n : ℕ) : 10 ∉ formatNat n := fun h =>
  absurd (formatNat_isDigit n _ h) (by decide)

theorem not_mem_formatHunkHeader {h : Hunk} (hw : h.WellFormed) :
    10 ∉ formatHunkHeader h := by
  have hsection : 10 ∉ (if h.header.isEmpty then [] else lit " " ++ h.header) := by
    split
    · exact not_mem_nil
    · rw [mem_append, not_or]
      exact ⟨by decide, hw.header.1⟩
  rw [formatHunkHeader, formatInt_of_nonneg hw.oldStart, formatInt_of_nonneg hw.oldCount,
    formatInt_of_nonneg hw.newStart, formatInt_of_nonneg hw.newCount]
  simp only [mem_append, not_or, not_mem_formatNat, not_false_eq_true, hsection, and_true]
  decide

variable {f : DiffFile}

theorem not_mem_fileLines (hw : f.WellFormed) :
    ∀ line ∈ fileLines f, 10 ∉ line := by
  intro line hline
  rcases mem_cons.mp hline with rfl | hline
  · rw [namesLine, mem_append, mem_append, not_or, not_or]
    exact ⟨⟨not_mem_escape hw.origName.2, by decide⟩, not_mem_escape hw.newName.2⟩
  · obtain ⟨h, hh, hline⟩ := mem_flatMap.mp hline
    rcases mem_cons.mp hline with rfl | hline
    · exact not_mem_formatHunkHeader (hw.hunks h hh)
    · exact ((hw.hunks h hh).lines line hline).1

namespace DiffParser

/-- The rounds of the loop over some lines. -/
def run (p : DiffParser) (lines : List GoString) : Except DiffError DiffParser :=
  lines.foldlM step p

theorem run_cons (p : DiffParser) (line : GoString) (lines : List GoString) :
    p.run (line :: lines) = p.step line >>= (·.run lines) :=
  foldlM_cons

theorem run_append (p : DiffParser) (l₁ l₂ : List GoString) :
    p.run (l₁ ++ l₂) = p.run l₁ >>= (·.run l₂) :=
  foldlM_append

end DiffParser

/-- **The parser runs over the printed lines**: the empty line that the
split leaves at the end is skipped. -/
theorem parseDiffString_formatDiffFiles (files : List DiffFile)
    (hw : ∀ f ∈ files, f.WellFormed) :
    parseDiffString (formatDiffFiles files)
      = (DiffParser.start.run (files.flatMap fileLines)).map
          (·.finishHunk.finishDiff.res) := by
  have hlines : ∀ line ∈ files.flatMap fileLines, 10 ∉ line := by
    intro line hline
    obtain ⟨f, hf, hline⟩ := mem_flatMap.mp hline
    exact not_mem_fileLines (hw f hf) line hline
  have hskip : ∀ p : DiffParser, p.run [[]] = .ok p := fun p => rfl
  rw [parseDiffString, formatDiffFiles_eq_joinLines, splitOn_joinLines _ hlines]
  show (DiffParser.start.run (_ ++ [[]]) >>= fun p => pure p.finishHunk.finishDiff.res) = _
  rw [DiffParser.run_append]
  cases DiffParser.start.run (files.flatMap fileLines) with
  | error e => rfl
  | ok p => rfl

/-! ## Reading a file back -/

namespace DiffParser

/-- The parser is in the middle of a hunk, and has read `out` if the text
ends here. -/
structure Read (p : DiffParser) (out : List DiffFile) : Prop where
  state : p.state = .inHunk
  res : p.finishHunk.finishDiff.res = out

variable {p : DiffParser}

theorem step_hunkLine (hp : p.state = .inHunk) {line : GoString}
    (hline : line.head? = some 43 ∨ line.head? = some 45 ∨ line.head? = some 32) :
    p.step line = .ok { p with currentHunk :=
      { p.currentHunk with lines := p.currentHunk.lines ++ [line] } } := by
  cases line with
  | nil => simp at hline
  | cons c rest =>
    have hc : c = 45 ∨ c = 43 ∨ c = 32 := by
      simp only [head?_cons, Option.some.injEq] at hline
      tauto
    unfold step
    rw [hp]
    exact if_pos hc

theorem run_hunkLines (hp : p.state = .inHunk) (lines : List GoString) (hlines : ∀ line ∈ lines,
      line.head? = some 43 ∨ line.head? = some 45 ∨ line.head? = some 32) :
    p.run lines = .ok { p with currentHunk :=
      { p.currentHunk with lines := p.currentHunk.lines ++ lines } } := by
  induction lines generalizing p with
  | nil => simp [run, pure, Except.pure]
  | cons line lines ih =>
    rw [run_cons, step_hunkLine hp (hlines line mem_cons_self)]
    show run _ lines = _
    rw [ih (by exact hp) fun l hl => hlines l (mem_cons_of_mem _ hl)]
    simp

/-- **A hunk is read back** by a parser that has just emptied its hunk. -/
theorem readHeader_run_hunk (hp : p.currentHunk = Hunk.zero) {h : Hunk} (hw : h.WellFormed) :
    (p.readHeader (formatHunkHeader h) >>= (·.run h.lines))
      = .ok { p with state := .inHunk, currentHunk := h } := by
  rw [readHeader, parseHunkHeader_formatHunkHeader _ hw, hp]
  show run { p with state := .inHunk, currentHunk := { h with lines := [] } } h.lines = _
  rw [run_hunkLines rfl _ fun line hline => (hw.lines line hline).2]
  rfl

/-- The header of another hunk ends the current one. -/
theorem run_hunk (hp : p.state = .inHunk) {h : Hunk} (hw : h.WellFormed) :
    p.run (hunkLines h) = .ok { p.finishHunk with currentHunk := h } := by
  have hstep : p.step (formatHunkHeader h) = p.finishHunk.readHeader (formatHunkHeader h) := by
    obtain ⟨s, hs⟩ := formatHunkHeader_eq_cons h
    rw [hs, step, hp]
    rfl
  rw [hunkLines, run_cons, hstep, readHeader_run_hunk rfl hw, ← hp]
  rfl

theorem run_hunks {out : List DiffFile}
    (hp : p.Read (out ++ [f])) (hs : List Hunk) (hw : ∀ h ∈ hs, h.WellFormed) :
    ∃ p', p.run (hs.flatMap hunkLines) = .ok p'
      ∧ p'.Read (out ++ [{ f with hunks := f.hunks ++ hs }]) := by
  induction hs generalizing p f with
  | nil => exact ⟨p, rfl, by simpa using hp⟩
  | cons h hs ih =>
    rw [flatMap_cons, run_append, run_hunk hp.state (hw h mem_cons_self)]
    have hread : Read { p.finishHunk with currentHunk := h }
        (out ++ [{ f with hunks := f.hunks ++ [h] }]) := by
      obtain ⟨hout, hf⟩ := append_inj' hp.res rfl
      refine ⟨hp.state, ?_⟩
      rw [← hout, ← singleton_inj.mp hf]
      rfl
    obtain ⟨p', hrun, hp'⟩ := ih hread fun h' hh => hw h' (mem_cons_of_mem _ hh)
    exact ⟨p', hrun, by simpa using hp'⟩

/-- **A file is read back** once its names line is taken for one. -/
theorem readNames_run_file (out : List DiffFile) (st : DiffState)
    (hw : f.WellFormed) (hlast : f.origName.getLast? ≠ some 92) :
    ∃ p', (readNames ⟨st, out, DiffFile.zero, Hunk.zero⟩ (namesLine f)
        >>= (·.run (f.hunks.flatMap hunkLines))) = .ok p' ∧ p'.Read (out ++ [f]) := by
  rw [readNames, splitDiffFiles_namesLine f hw.origName.1, if_neg hlast]
  obtain ⟨h, hs, hhunks⟩ := exists_cons_of_ne_nil hw.hunks_ne
  have hwh : ∀ h' ∈ h :: hs, h'.WellFormed := hhunks ▸ hw.hunks
  show ∃ p', run ⟨.inDiff, out, ⟨f.origName, f.newName, []⟩, Hunk.zero⟩
    (f.hunks.flatMap hunkLines) = .ok p' ∧ _
  rw [hhunks, flatMap_cons, run_append, hunkLines, run_cons]
  have hstep : step ⟨.inDiff, out, ⟨f.origName, f.newName, []⟩, Hunk.zero⟩ (formatHunkHeader h)
      = readHeader ⟨.inDiff, out, ⟨f.origName, f.newName, []⟩, Hunk.zero⟩
          (formatHunkHeader h) := rfl
  rw [hstep, readHeader_run_hunk rfl (hwh h mem_cons_self)]
  have hread : Read ⟨.inHunk, out, ⟨f.origName, f.newName, []⟩, h⟩
      (out ++ [⟨f.origName, f.newName, [h]⟩]) := ⟨rfl, rfl⟩
  obtain ⟨p', hrun, hp'⟩ := run_hunks hread hs fun h' hh => hwh h' (mem_cons_of_mem _ hh)
  refine ⟨p', hrun, ?_⟩
  have hf : (⟨f.origName, f.newName, [h] ++ hs⟩ : DiffFile) = f := by
    rw [singleton_append, ← hhunks]
  rwa [hf] at hp'

end DiffParser

/-! ## Names lines in the middle of a hunk -/

/-- The names line of the file reads as a line or as a header of the hunk
before it. -/
def DiffFile.ReadsAsHunk (f : DiffFile) : Prop :=
  f.origName.head? = some 43 ∨ f.origName.head? = some 45 ∨ f.origName.head? = some 64

instance (f : DiffFile) : Decidable f.ReadsAsHunk :=
  inferInstanceAs (Decidable (_ ∨ _))

/-- The first byte of a names line. A leading space of the name is behind
its backslash. -/
theorem namesLine_eq_cons (hne : f.origName ≠ []) :
    ∃ c s, namesLine f = c :: s ∧ c ≠ 32
      ∧ (f.ReadsAsHunk ↔ c = 43 ∨ c = 45 ∨ c = 64) := by
  obtain ⟨c, rest, hname⟩ := exists_cons_of_ne_nil hne
  unfold DiffFile.ReadsAsHunk namesLine
  rw [hname, escape_cons]
  by_cases hc : c = 32
  · rw [if_pos hc, hc]
    refine ⟨92, _, rfl, by decide, ?_⟩
    rw [head?_cons]
    decide
  · rw [if_neg hc]
    refine ⟨c, _, rfl, hc, ?_⟩
    simp

namespace DiffParser

variable {p p' : DiffParser}

/-- **The names line of the next file is read as such** when it does not
read as a line of a hunk. -/
theorem step_namesLine (hp : p.state = .inHunk) (hne : f.origName ≠ []) (hf : ¬ f.ReadsAsHunk) :
    p.step (namesLine f) = p.finishHunk.finishDiff.readNames (namesLine f) := by
  obtain ⟨c, s, hline, hsp, hiff⟩ := namesLine_eq_cons hne
  rw [hiff] at hf
  push Not at hf
  rw [hline, step, hp]
  simp [hsp, hf.1, hf.2.1, hf.2.2]

theorem readHeader_ok {line : GoString}
    (h : p.readHeader line = .ok p') : p'.state = .inHunk ∧ p'.res = p.res := by
  obtain ⟨hunk, -, h⟩ := Except.exists_of_bind h
  cases h
  exact ⟨rfl, rfl⟩

/-- Otherwise no file is completed. -/
theorem step_namesLine_readsAsHunk (hp : p.state = .inHunk)
    (hne : f.origName ≠ []) (hf : f.ReadsAsHunk)
    (h : p.step (namesLine f) = .ok p') : p'.state = .inHunk ∧ p'.res = p.res := by
  obtain ⟨c, s, hline, -, hiff⟩ := namesLine_eq_cons hne
  by_cases hc : c = 45 ∨ c = 43 ∨ c = 32
  · have hhead : (c :: s).head? = some 43 ∨ (c :: s).head? = some 45
        ∨ (c :: s).head? = some 32 := by
      simp only [head?_cons, Option.some.injEq]
      tauto
    rw [hline, step_hunkLine hp hhead] at h
    cases h
    exact ⟨hp, rfl⟩
  · have h64 : c = 64 := by
      have := hiff.mp hf
      tauto
    have hstep : p.step (c :: s) = p.finishHunk.readHeader (c :: s) := by
      rw [step, hp]
      exact (if_neg hc).trans (if_pos h64)
    rw [hline, hstep] at h
    exact ⟨(readHeader_ok h).1, (readHeader_ok h).2⟩

theorem read_of_inHunk (hp : p.state = .inHunk) :
    p.Read (p.res ++ [p.finishHunk.currentDiff]) :=
  ⟨hp, rfl⟩

variable {out : List DiffFile}

theorem Read.eq_append (hp : p.Read out) :
    out = p.res ++ [p.finishHunk.currentDiff] :=
  hp.res.symm

/-- **A file adds nothing to what has been read** when its names line is
taken for a part of the hunk before it. -/
theorem run_file_readsAsHunk (hp : p.Read out) (hw : f.WellFormed) (hf : f.ReadsAsHunk)
    (h : p.run (fileLines f) = .ok p') :
    ∃ out', p'.Read out' ∧ out'.length = out.length := by
  rw [fileLines, run_cons] at h
  obtain ⟨p₁, hstep, h⟩ := Except.exists_of_bind h
  obtain ⟨hstate, hres⟩ := step_namesLine_readsAsHunk hp.state hw.origName.1 hf hstep
  obtain ⟨p₂, hrun, hread⟩ := run_hunks (read_of_inHunk hstate) f.hunks hw.hunks
  cases hrun.symm.trans h
  exact ⟨_, hread, by simp [hres, hp.eq_append]⟩

/-- **A file is read back** in the middle of a hunk when its names line is
read as such and can be split. -/
theorem run_file (hp : p.Read out)
    (hw : f.WellFormed) (hf : ¬ f.ReadsAsHunk) (hlast : f.origName.getLast? ≠ some 92) :
    ∃ p', p.run (fileLines f) = .ok p' ∧ p'.Read (out ++ [f]) := by
  rw [fileLines, run_cons, step_namesLine hp.state hw.origName.1 hf]
  have hfinish : p.finishHunk.finishDiff = ⟨p.state, out, DiffFile.zero, Hunk.zero⟩ := by
    rw [← hp.res]
    rfl
  rw [hfinish]
  exact readNames_run_file out p.state hw hlast

/-- Names that cannot be split stop the parser. -/
theorem readNames_error (p : DiffParser) (hw : f.WellFormed)
    (hlast : f.origName.getLast? = some 92) :
    p.readNames (namesLine f) = .error .invalidDiff := by
  rw [readNames, splitDiffFiles_namesLine f hw.origName.1, if_pos hlast]
  rfl

theorem run_file_error (hp : p.Read out) (hw : f.WellFormed) (hf : ¬ f.ReadsAsHunk)
    (hlast : f.origName.getLast? = some 92) :
    p.run (fileLines f) = .error .invalidDiff := by
  rw [fileLines, run_cons, step_namesLine hp.state hw.origName.1 hf, readNames_error _ hw hlast]
  rfl

theorem run_file_length_le (hp : p.Read out)
    (hw : f.WellFormed) (h : p.run (fileLines f) = .ok p') :
    ∃ out', p'.Read out' ∧ out'.length ≤ out.length + 1 := by
  by_cases hf : f.ReadsAsHunk
  · obtain ⟨out', hread, hlen⟩ := run_file_readsAsHunk hp hw hf h
    exact ⟨out', hread, by omega⟩
  · by_cases hlast : f.origName.getLast? = some 92
    · rw [run_file_error hp hw hf hlast] at h
      cases h
    · obtain ⟨p₁, hrun, hread⟩ := run_file hp hw hf hlast
      cases hrun.symm.trans h
      exact ⟨_, hread, by simp⟩

theorem run_files_length_le (hp : p.Read out)
    (files : List DiffFile) (hw : ∀ f ∈ files, f.WellFormed)
    (h : p.run (files.flatMap fileLines) = .ok p') :
    ∃ out', p'.Read out' ∧ out'.length ≤ out.length + files.length := by
  induction files generalizing p out with
  | nil =>
    cases h
    exact ⟨out, hp, le_rfl⟩
  | cons f files ih =>
    rw [flatMap_cons, run_append] at h
    obtain ⟨p₁, hrun, h⟩ := Except.exists_of_bind h
    obtain ⟨out₁, hread₁, hlen₁⟩ := run_file_length_le hp (hw f mem_cons_self) hrun
    obtain ⟨out₂, hread₂, hlen₂⟩ := ih hread₁ (fun g hg => hw g (mem_cons_of_mem _ hg)) h
    refine ⟨out₂, hread₂, ?_⟩
    rw [length_cons]
    omega

/-- **The files after the first are read back exactly when each of them
is.** A file that is taken for a part of the hunk before it is missing at
the end, because no later line makes up for it. -/
theorem run_files_iff (hp : p.Read out) (files : List DiffFile) (hw : ∀ f ∈ files, f.WellFormed) :
    (∃ p', p.run (files.flatMap fileLines) = .ok p' ∧ p'.Read (out ++ files))
      ↔ ∀ f ∈ files, ¬ f.ReadsAsHunk ∧ f.origName.getLast? ≠ some 92 := by
  induction files generalizing p out with
  | nil =>
    simp only [not_mem_nil, false_implies, implies_true, iff_true]
    exact ⟨p, rfl, by simpa using hp⟩
  | cons f files ih =>
    have hwf := hw f mem_cons_self
    have hws : ∀ g ∈ files, g.WellFormed := fun g hg => hw g (mem_cons_of_mem _ hg)
    rw [forall_mem_cons, flatMap_cons, run_append]
    by_cases hf : f.ReadsAsHunk
    · simp only [hf, not_true_eq_false, false_and, iff_false]
      rintro ⟨p', hrun, hread⟩
      obtain ⟨p₁, hrun₁, hrun⟩ := Except.exists_of_bind hrun
      obtain ⟨out₁, hread₁, hlen₁⟩ := run_file_readsAsHunk hp hwf hf hrun₁
      obtain ⟨out₂, hread₂, hlen₂⟩ := run_files_length_le hread₁ files hws hrun
      have hout : out ++ f :: files = out₂ := hread.res.symm.trans hread₂.res
      have := congrArg length hout
      rw [length_append, length_cons] at this
      omega
    · by_cases hlast : f.origName.getLast? = some 92
      · rw [run_file_error hp hwf hf hlast]
        simp only [hlast, ne_eq, not_true_eq_false, and_false, false_and, iff_false]
        rintro ⟨p', hrun, -⟩
        cases hrun
      · obtain ⟨p₁, hrun, hread⟩ := run_file hp hwf hf hlast
        rw [hrun]
        show (∃ p', p₁.run (files.flatMap fileLines) = .ok p' ∧ _) ↔ _
        rw [append_cons, ih hread hws]
        simp [hf, hlast]

theorem start_step_namesLine (hw : f.WellFormed) :
    start.step (namesLine f) = start.readNames (namesLine f) := by
  obtain ⟨c, s, hline, -⟩ := namesLine_eq_cons hw.origName.1
  rw [hline]
  rfl

/-- **The first file is read back** when its names can be split, whatever
its first byte is. -/
theorem start_run_file (hw : f.WellFormed) (hlast : f.origName.getLast? ≠ some 92) :
    ∃ p', start.run (fileLines f) = .ok p' ∧ p'.Read [f] := by
  rw [fileLines, run_cons, start_step_namesLine hw]
  exact readNames_run_file [] .init hw hlast

theorem start_run_file_error (hw : f.WellFormed) (hlast : f.origName.getLast? = some 92) :
    start.run (fileLines f) = .error .invalidDiff := by
  rw [fileLines, run_cons, start_step_namesLine hw, readNames_error _ hw hlast]
  rfl

end DiffParser

/-- **The diff parser inverts the printer exactly** on the files none of
which has an original name ending in a backslash, and none of which but
the first has an original name starting with `+`, `-` or `@`. -/
theorem parseDiffString_formatDiffFiles_iff (files : List DiffFile) (hne : files ≠ [])
    (hw : ∀ f ∈ files, f.WellFormed) :
    parseDiffString (formatDiffFiles files) = .ok files
      ↔ (∀ f ∈ files, f.origName.getLast? ≠ some 92)
        ∧ ∀ f ∈ files.tail, f.origName.head? ≠ some 43 ∧ f.origName.head? ≠ some 45
          ∧ f.origName.head? ≠ some 64 := by
  obtain ⟨f, rest, rfl⟩ := exists_cons_of_ne_nil hne
  have hwf := hw f mem_cons_self
  rw [parseDiffString_formatDiffFiles _ hw, flatMap_cons, DiffParser.run_append,
    forall_mem_cons, tail_cons]
  by_cases hlast : f.origName.getLast? = some 92
  · rw [DiffParser.start_run_file_error hwf hlast]
    simp only [hlast, ne_eq, not_true_eq_false, false_and, iff_false]
    rintro ⟨⟩
  · obtain ⟨p, hrun, hread⟩ := DiffParser.start_run_file hwf hlast
    rw [hrun]
    show (p.run (rest.flatMap fileLines)).map _ = _ ↔ _
    have hiff := DiffParser.run_files_iff hread rest fun g hg => hw g (mem_cons_of_mem _ hg)
    have hok : (p.run (rest.flatMap fileLines)).map (·.finishHunk.finishDiff.res) = .ok (f :: rest)
        ↔ ∃ p', p.run (rest.flatMap fileLines) = .ok p' ∧ p'.Read ([f] ++ rest) := by
      cases hr : p.run (rest.flatMap fileLines) with
      | error e => simp [Except.map]
      | ok p' =>
        have hstate : p'.state = .inHunk := by
          obtain ⟨_, hread', -⟩ := DiffParser.run_files_length_le hread rest
            (fun g hg => hw g (mem_cons_of_mem _ hg)) hr
          exact hread'.state
        constructor
        · intro h
          exact ⟨p', rfl, hstate, Except.ok.inj h⟩
        · rintro ⟨q, hq, hreadq⟩
          cases hq
          exact congrArg Except.ok hreadq.res
    rw [hok, hiff]
    simp only [DiffFile.ReadsAsHunk, not_or, forall_and, ne_eq, hlast, not_false_eq_true, true_and]
    tauto

/-- A file that keeps its name, with one added line. -/
def fileNamed (name : GoString) : DiffFile :=
  ⟨name, name, [⟨1, 1, 0, 1, lit "func", [lit "+x"]⟩]⟩

theorem fileNamed_wellFormed {name : GoString} (h : name ≠ [] ∧ 10 ∉ name) :
    (fileNamed name).WellFormed := by
  refine ⟨h, h, cons_ne_nil _ _, ?_⟩
  intro hunk hhunk
  rw [mem_singleton.mp hhunk]
  exact ⟨by decide, by decide, by decide, by decide, by decide, by decide⟩

/-- Spaces, inner backslashes and a leading `@` of the first name do no
harm. -/
theorem parseDiffString_spaced_names :
    parseDiffString (formatDiffFiles [fileNamed (lit "@a b"), fileNamed (lit "c\\ d")])
      = .ok [fileNamed (lit "@a b"), fileNamed (lit "c\\ d")] := by
  refine (parseDiffString_formatDiffFiles_iff _ (cons_ne_nil _ _) ?_).mpr (by decide)
  rw [forall_mem_cons, forall_mem_singleton]
  exact ⟨fileNamed_wellFormed (by decide), fileNamed_wellFormed (by decide)⟩

/-- **A file called `+b` is lost**: its names line becomes a line of the
file before it, and its hunk a hunk of that file. A name that ends in a
backslash is rejected. -/
theorem parseDiffString_loses_plus_name :
    (∀ f ∈ [fileNamed (lit "a"), fileNamed (lit "+b"), fileNamed (lit "c\\")], f.WellFormed)
      ∧ parseDiffString (formatDiffFiles [fileNamed (lit "a"), fileNamed (lit "+b")])
        = .ok [⟨lit "a", lit "a", [⟨1, 1, 0, 1, lit "func", [lit "+x", lit "+b +b"]⟩,
            ⟨1, 1, 0, 1, lit "func", [lit "+x"]⟩]⟩]
      ∧ parseDiffString (formatDiffFiles [fileNamed (lit "c\\")]) = .error .invalidDiff := by
  refine ⟨?_, rfl, rfl⟩
  rw [forall_mem_cons, forall_mem_cons, forall_mem_singleton]
  exact ⟨fileNamed_wellFormed (by decide), fileNamed_wellFormed (by decide),
    fileNamed_wellFormed (by decide)⟩

end Result
