import CodeScout.ResultDiff
import CodeScout.ResultMatch
import CodeScout.Util.GoMap
import CodeScout.Util.GoSort
import Mathlib

/-!
# Dropping files from a diff

A commit match shows the diffs of its files, one after the other, and the ranges
in this text that a search has matched. Files that do not contain what they
should are dropped, and the ranges of the others move back.

The ranges are sorted first and then cut into groups, one for each file, at the
ends of the texts of the files. This is right for ranges that are apart, that do
not begin where the text of a file begins, and of which some are in the last
file. A range inside another one may be sorted before it, because the comparison
reads the end of a range where it should read the start. A range at the
beginning of a file is taken to be in the file before it. And when there are no
ranges after a file, its group is the group of all later files too
(`removeUnmatchedFileDiffs_iff`).
-/

namespace Result

open List

def Location.add (l o : Location) : Location :=
  ⟨l.offset + o.offset, l.line + o.line, l.column + o.column⟩

def Location.sub (l o : Location) : Location :=
  ⟨l.offset - o.offset, l.line - o.line, l.column - o.column⟩

def Range.sub (r : Range) (amount : Location) : Range :=
  ⟨r.start.sub amount, r.stop.sub amount⟩

end Result

namespace Jobutil

open Result List

/-! ## The filter -/

/-- The fields of a commit match that change. -/
structure DiffResult where
  diff : List DiffFile
  content : GoString
  matchedRanges : List Range
deriving DecidableEq

/-- The comparison that ranges are sorted by. -/
def startsBeforeEnd (a b : Range) : Bool := a.start.offset < b.stop.offset

/-- The text of a file. -/
def diffString (fileDiff : DiffFile) : GoString := formatDiffFiles [fileDiff]

/-- A range starts at an offset or before it. -/
def startsBy (offset : ℤ) (r : Range) : Bool := r.start.offset ≤ offset

/-- The loops that group the ranges, from the end of a text on and with the
ranges from `rangeNumStart` on. -/
def groupRanges : List GoString → ℤ → List Range → List (List Range)
  | [], _, _ => []
  | diffString :: diffStrings, diffStart, ranges =>
    let currentDiffEnd := diffStart + diffString.length
    if ranges.dropWhile (startsBy currentDiffEnd) = [] then
      ranges :: groupRanges diffStrings currentDiffEnd ranges
    else
      ranges.takeWhile (startsBy currentDiffEnd) ::
        groupRanges diffStrings currentDiffEnd (ranges.dropWhile (startsBy currentDiffEnd))

/-- The bytes and lines of a file. -/
def diffSize (fileDiff : DiffFile) : Location :=
  ⟨(diffString fileDiff).length, (diffString fileDiff).count 10, 0⟩

/-- The loop that keeps files with their groups, after some amount was
removed. -/
def filterDiffs (matched : DiffFile → Bool) :
    List (DiffFile × List Range) → Location → List (DiffFile × List Range)
  | [], _ => []
  | (fileDiff, ranges) :: rest, removedAmount =>
    if matched fileDiff then
      (fileDiff, ranges.map fun r => r.sub removedAmount) :: filterDiffs matched rest removedAmount
    else filterDiffs matched rest (removedAmount.add (diffSize fileDiff))

/-- A file is kept if all patterns matched. -/
def isMatched (includeMatchers : ℕ) (matchedFileCounts : GoMap GoString ℤ)
    (fileDiff : DiffFile) : Bool :=
  (matchedFileCounts.lookup fileDiff.newName).getD 0 = includeMatchers

/-- `sortFunc` is `slices.SortFunc`. -/
def removeUnmatchedFileDiffs (sortFunc : (Range → Range → Bool) → List Range → List Range)
    (includeMatchers : ℕ) (matchedFileCounts : GoMap GoString ℤ) (cm : DiffResult) :
    Option DiffResult :=
  let groupedRanges := groupRanges (cm.diff.map diffString) 0
    (sortFunc startsBeforeEnd cm.matchedRanges)
  let kept := filterDiffs (isMatched includeMatchers matchedFileCounts)
    (cm.diff.zip groupedRanges) ⟨0, 0, 0⟩
  if 0 < kept.length then
    some ⟨kept.map Prod.fst, kept.flatMap fun file => diffString file.1, kept.flatMap Prod.snd⟩
  else none

/-! ## Files and their ranges -/

/-- The length of the text of some files. -/
def textLength (files : List (DiffFile × List Range)) : ℤ :=
  (files.map fun file => ((diffString file.1).length : ℤ)).sum

/-- Ranges are within the texts of their files, which begin at an offset. -/
def Placed : ℤ → List (DiffFile × List Range) → Prop
  | _, [] => True
  | base, (fileDiff, ranges) :: rest =>
    (∀ r ∈ ranges, base ≤ r.start.offset ∧ r.start.offset ≤ r.stop.offset ∧
      r.stop.offset ≤ base + (diffString fileDiff).length) ∧
      Placed (base + (diffString fileDiff).length) rest

/-- **A commit match that shows some files**, each with its ranges. -/
structure Shows (cm : DiffResult) (files : List (DiffFile × List Range)) : Prop where
  diff : cm.diff = files.map Prod.fst
  content : cm.content = formatDiffFiles (files.map Prod.fst)
  ranges : cm.matchedRanges.Perm (files.flatMap Prod.snd)
  placed : Placed 0 files

/-- A result of sorting: what is less than another element, and not the other
way round, does not come after it. -/
structure IsSorted (less : Range → Range → Bool) (ranges sorted : List Range) : Prop where
  perm : sorted.Perm ranges
  pairwise : sorted.Pairwise fun a b => less b a = true → less a b = true

section

variable (matched : DiffFile → Bool)

/-- The bytes and lines of the files that are dropped. -/
def droppedSize (files : List DiffFile) : Location :=
  ((files.filter fun file => !matched file).map diffSize).foldl Location.add ⟨0, 0, 0⟩

/-- The ranges of the files that are kept, moved back by what is dropped before
them. -/
def keptRanges : List DiffFile → List (DiffFile × List Range) → List Range
  | _, [] => []
  | before, (file, ranges) :: rest =>
    (if matched file then ranges.map fun r => r.sub (droppedSize matched before) else []) ++
      keptRanges (before ++ [file]) rest

/-- **The highlights of the other files are kept.** -/
structure KeepsHighlights (files : List (DiffFile × List Range)) (result : Option DiffResult) :
    Prop where
  nil : result = none ↔ ∀ file ∈ files, matched file.1 = false
  diff : ∀ cm, result = some cm → cm.diff = (files.map Prod.fst).filter matched
  content : ∀ cm, result = some cm →
    cm.content = formatDiffFiles ((files.map Prod.fst).filter matched)
  ranges : ∀ cm, result = some cm → cm.matchedRanges.Perm (keptRanges matched [] files)
  sorted : ∀ cm, result = some cm →
    cm.matchedRanges.Pairwise fun a b => a.start.offset ≤ b.start.offset

end

/-- Ranges start after the first byte of their files, except in the first file. -/
def InsideFiles (base : ℤ) (files : List (DiffFile × List Range)) : Prop :=
  ∀ before file after, files = before ++ file :: after → before ≠ [] →
    ∀ r ∈ file.2, base + textLength before < r.start.offset

/-- **Ranges that are grouped as they should be**: none starts inside another
one, none starts with a file other than the first one, and some are in the last
file if there are any. -/
structure Groupable (files : List (DiffFile × List Range)) : Prop where
  apart : ∀ a ∈ files.flatMap Prod.snd, ∀ b ∈ files.flatMap Prod.snd,
    b.start.offset < a.start.offset → b.stop.offset ≤ a.start.offset
  inside : InsideFiles 0 files
  last : files.flatMap Prod.snd = [] ∨ ∃ file, files.getLast? = some file ∧ file.2 ≠ []

/-! ## Texts and places -/

variable {base : ℤ} {file : DiffFile × List Range}
  {files before after : List (DiffFile × List Range)} {ranges : List Range} {r : Range}

theorem textLength_cons (file : DiffFile × List Range) (files : List (DiffFile × List Range)) :
    textLength (file :: files) = (diffString file.1).length + textLength files :=
  sum_cons

theorem textLength_append (files files' : List (DiffFile × List Range)) :
    textLength (files ++ files') = textLength files + textLength files' := by
  rw [textLength, map_append, sum_append]
  rfl

theorem textLength_nonneg (files : List (DiffFile × List Range)) : 0 ≤ textLength files :=
  sum_nonneg fun n hn => by
    obtain ⟨file, -, rfl⟩ := mem_map.mp hn
    exact Int.natCast_nonneg _

/-- Where a range is that is in the text of some files. -/
theorem Placed.bounds (h : Placed base files) (hr : r ∈ files.flatMap Prod.snd) :
    base ≤ r.start.offset ∧ r.start.offset ≤ r.stop.offset ∧
      r.stop.offset ≤ base + textLength files := by
  induction files generalizing base with
  | nil => exact absurd hr not_mem_nil
  | cons file files ih =>
    obtain ⟨hown, hrest⟩ := h
    have hlength := textLength_nonneg files
    rw [textLength_cons]
    rcases mem_append.mp hr with hmem | hmem
    · obtain ⟨hlo, hle, hhi⟩ := hown r hmem
      exact ⟨hlo, hle, by omega⟩
    · obtain ⟨hlo, hle, hhi⟩ := ih hrest hmem
      exact ⟨by omega, hle, by omega⟩

theorem Placed.left {files files' : List (DiffFile × List Range)}
    (h : Placed base (files ++ files')) : Placed base files := by
  induction files generalizing base with
  | nil => trivial
  | cons file files ih => exact ⟨h.1, ih h.2⟩

theorem InsideFiles.tail (h : InsideFiles base (file :: files)) :
    InsideFiles (base + (diffString file.1).length) files := by
  rintro before file' after rfl hbefore r hr
  have hstart := h (file :: before) file' after rfl (cons_ne_nil _ _) r hr
  rwa [textLength_cons, ← add_assoc] at hstart

theorem InsideFiles.start_lt (h : InsideFiles base (file :: files))
    (hr : r ∈ files.flatMap Prod.snd) : base + (diffString file.1).length < r.start.offset := by
  obtain ⟨file', hfile', hmem⟩ := mem_flatMap.mp hr
  obtain ⟨before, after, rfl⟩ := append_of_mem hfile'
  have hstart := h (file :: before) file' after rfl (cons_ne_nil _ _) r hmem
  have hlength := textLength_nonneg before
  rw [textLength_cons] at hstart
  omega

/-! ## Groups -/

/-- Ranges that are in order of their start. -/
def InOrder (ranges : List Range) : Prop :=
  ranges.Pairwise fun a b => a.start.offset ≤ b.start.offset

/-- Ranges in order are cut at an offset. -/
theorem InOrder.cut (h : InOrder ranges) (offset : ℤ) :
    ranges.takeWhile (startsBy offset) = ranges.filter (startsBy offset) ∧
      ranges.dropWhile (startsBy offset) = ranges.filter fun r => !startsBy offset r := by
  induction ranges with
  | nil => exact ⟨rfl, rfl⟩
  | cons r ranges ih =>
    obtain ⟨hfirst, hrest⟩ := pairwise_cons.mp h
    cases hr : startsBy offset r with
    | true =>
      obtain ⟨htake, hdrop⟩ := ih hrest
      simp [hr, htake, hdrop]
    | false =>
      -- all later ranges start after the offset, too
      have hafter : ∀ r' ∈ r :: ranges, startsBy offset r' = false := by
        refine forall_mem_cons.mpr ⟨hr, fun r' hr' => ?_⟩
        have hlt := of_decide_eq_false hr
        exact decide_eq_false (not_le.mpr ((not_le.mp hlt).trans_le (hfirst r' hr')))
      rw [takeWhile_cons_of_neg (Bool.eq_false_iff.mp hr),
        dropWhile_cons_of_neg (Bool.eq_false_iff.mp hr)]
      refine ⟨(filter_eq_nil_iff.mpr fun r' hr' => ?_).symm,
        (filter_eq_self.mpr fun r' hr' => ?_).symm⟩
      · rw [hafter r' hr']
        exact Bool.false_ne_true
      · rw [hafter r' hr']
        rfl

/-- A group with the ranges of a file, in order. -/
def GroupOf (group : List Range) (file : DiffFile × List Range) : Prop :=
  group.Perm file.2 ∧ InOrder group

theorem groupRanges_nil (h : files.flatMap Prod.snd = []) :
    List.Forall₂ GroupOf (groupRanges (files.map fun file => diffString file.1) base []) files := by
  induction files generalizing base with
  | nil => exact .nil
  | cons file files ih =>
    obtain ⟨hown, hrest⟩ := append_eq_nil_iff.mp h
    exact .cons ⟨by rw [hown], List.Pairwise.nil⟩ (ih hrest)

/-- **Each group is of its file**, for ranges that can be grouped. -/
theorem groupRanges_groupOf (hplaced : Placed base files) (hinside : InsideFiles base files)
    (hlast : files.flatMap Prod.snd = [] ∨ ∃ file, files.getLast? = some file ∧ file.2 ≠ [])
    (hperm : ranges.Perm (files.flatMap Prod.snd)) (horder : InOrder ranges) :
    List.Forall₂ GroupOf (groupRanges (files.map fun file => diffString file.1) base ranges)
      files := by
  induction files generalizing base ranges with
  | nil => exact .nil
  | cons file files ih =>
    rw [flatMap_cons] at hperm
    obtain ⟨htake, hdrop⟩ := horder.cut (base + (diffString file.1).length)
    have hown : ∀ r ∈ file.2, startsBy (base + (diffString file.1).length) r = true :=
      fun r hr => decide_eq_true ((hplaced.1 r hr).2.1.trans (hplaced.1 r hr).2.2)
    have hlater : ∀ r ∈ files.flatMap Prod.snd,
        startsBy (base + (diffString file.1).length) r = false :=
      fun r hr => decide_eq_false (not_le.mpr (hinside.start_lt hr))
    have hgroup : (ranges.takeWhile (startsBy (base + (diffString file.1).length))).Perm
        file.2 := by
      rw [htake]
      refine (hperm.filter _).trans (.of_eq ?_)
      rw [filter_append, filter_eq_self.mpr hown,
        filter_eq_nil_iff.mpr fun r hr => by rw [hlater r hr]; exact Bool.false_ne_true,
        append_nil]
    have hremaining : (ranges.dropWhile (startsBy (base + (diffString file.1).length))).Perm
        (files.flatMap Prod.snd) := by
      rw [hdrop]
      refine (hperm.filter _).trans (.of_eq ?_)
      rw [filter_append, filter_eq_nil_iff.mpr fun r hr => by rw [hown r hr]; decide,
        filter_eq_self.mpr fun r hr => by rw [hlater r hr]; rfl, nil_append]
    rw [map_cons, groupRanges]
    split_ifs with hnone
    · have hempty : files.flatMap Prod.snd = [] := by
        rw [hnone] at hremaining
        exact hremaining.symm.eq_nil
      have hall : ranges.takeWhile (startsBy (base + (diffString file.1).length)) = ranges := by
        conv_rhs => rw [← takeWhile_append_dropWhile
          (p := startsBy (base + (diffString file.1).length)) (l := ranges), hnone, append_nil]
      rw [hall] at hgroup
      refine .cons ⟨hgroup, horder⟩ ?_
      cases files with
      | nil => exact .nil
      | cons file' files =>
        -- the last file has no ranges, so that there are none at all
        have hnil : ranges = [] := by
          rcases hlast with hlast | ⟨last, hlast, hne⟩
          · rw [flatMap_cons, hempty, append_nil] at hlast
            rw [hlast] at hgroup
            exact hgroup.eq_nil
          · rw [getLast?_cons_cons] at hlast
            have hmem := flatMap_eq_nil_iff.mp hempty last (mem_of_getLast? hlast)
            exact absurd hmem hne
        rw [hnil]
        exact groupRanges_nil hempty
    · refine .cons ⟨hgroup, horder.sublist (takeWhile_sublist _)⟩ ?_
      refine ih hplaced.2 hinside.tail ?_ hremaining (horder.sublist (dropWhile_sublist _))
      cases files with
      | nil => exact .inl rfl
      | cons file' files =>
        refine .inr ?_
        rcases hlast with hlast | ⟨last, hlast, hne⟩
        · have hempty : (file' :: files).flatMap Prod.snd = [] :=
            (append_eq_nil_iff.mp hlast).2
          rw [hempty] at hremaining
          exact absurd hremaining.eq_nil hnone
        · rw [getLast?_cons_cons] at hlast
          exact ⟨last, hlast, hne⟩

/-! ## What is kept -/

section

variable {matched : DiffFile → Bool}

theorem droppedSize_concat (files : List DiffFile) (file : DiffFile) :
    droppedSize matched (files ++ [file]) =
      if matched file then droppedSize matched files
      else (droppedSize matched files).add (diffSize file) := by
  unfold droppedSize
  rw [filter_append, map_append, foldl_append]
  cases hmatched : matched file with
  | true => simp [hmatched]
  | false => simp [hmatched]

variable {groups : List (List Range)}

theorem map_fst_filterDiffs {files : List DiffFile} (h : groups.length = files.length)
    (removed : Location) :
    (filterDiffs matched (files.zip groups) removed).map Prod.fst = files.filter matched := by
  induction files generalizing groups removed with
  | nil => rfl
  | cons file files ih =>
    cases groups with
    | nil => exact absurd h nofun
    | cons group groups =>
      have hlength : groups.length = files.length := Nat.succ.inj h
      rw [zip_cons_cons, filterDiffs]
      split_ifs with hmatched
      · rw [map_cons, ih hlength, filter_cons_of_pos hmatched]
      · rw [ih hlength, filter_cons_of_neg hmatched]

/-- **The ranges that are kept**, if each group is of its file. -/
theorem flatMap_snd_filterDiffs (h : List.Forall₂ GroupOf groups files)
    (before : List DiffFile) :
    ((filterDiffs matched ((files.map Prod.fst).zip groups) (droppedSize matched before)).flatMap
      Prod.snd).Perm (keptRanges matched before files) := by
  induction h generalizing before with
  | nil => exact .refl _
  | @cons group file groups files hgroup _ ih =>
    have hrest := ih (before ++ [file.1])
    rw [droppedSize_concat] at hrest
    rw [map_cons, zip_cons_cons, filterDiffs, keptRanges]
    split_ifs at hrest ⊢ with hmatched
    · rw [flatMap_cons]
      exact (hgroup.1.map _).append hrest
    · exact hrest

/-- The ranges that are kept are in order, and start after what is left of the
text before them. -/
theorem inOrder_filterDiffs (h : List.Forall₂ GroupOf groups files)
    (hplaced : Placed base files) (removed : Location) :
    InOrder ((filterDiffs matched ((files.map Prod.fst).zip groups) removed).flatMap Prod.snd) ∧
      ∀ r ∈ (filterDiffs matched ((files.map Prod.fst).zip groups) removed).flatMap Prod.snd,
        base - removed.offset ≤ r.start.offset := by
  induction h generalizing base removed with
  | nil => exact ⟨List.Pairwise.nil, fun r hr => absurd hr not_mem_nil⟩
  | @cons group file groups files hgroup _ ih =>
    rw [map_cons, zip_cons_cons, filterDiffs]
    split_ifs with hmatched
    · obtain ⟨horder, hbound⟩ := ih hplaced.2 removed
      rw [flatMap_cons]
      have hown : ∀ r ∈ group.map fun r => r.sub removed, base - removed.offset ≤ r.start.offset ∧
          r.start.offset ≤ base + (diffString file.1).length - removed.offset := by
        intro r hr
        obtain ⟨r, hmem, rfl⟩ := mem_map.mp hr
        obtain ⟨hlo, hle, hhi⟩ := hplaced.1 r (hgroup.1.mem_iff.mp hmem)
        exact ⟨sub_le_sub_right hlo _, sub_le_sub_right (hle.trans hhi) _⟩
      refine ⟨pairwise_append.mpr ⟨?_, horder, fun a ha b hb => ?_⟩, fun r hr => ?_⟩
      · exact pairwise_map.mpr (hgroup.2.imp fun hab => sub_le_sub_right hab _)
      · exact (hown a ha).2.trans (hbound b hb)
      · rcases mem_append.mp hr with hr | hr
        · exact (hown r hr).1
        · have := hbound r hr
          omega
    · obtain ⟨horder, hbound⟩ := ih hplaced.2 (removed.add (diffSize file.1))
      refine ⟨horder, fun r hr => (le_of_eq ?_).trans (hbound r hr)⟩
      show base - removed.offset = base + _ - (removed.offset + (diffString file.1).length)
      ring

end

theorem length_groupRanges (texts : List GoString) (base : ℤ) (ranges : List Range) :
    (groupRanges texts base ranges).length = texts.length := by
  induction texts generalizing base ranges with
  | nil => rfl
  | cons text texts ih =>
    rw [groupRanges]
    split_ifs
    · rw [length_cons, ih, length_cons]
    · rw [length_cons, ih, length_cons]

theorem flatMap_diffString (files : List DiffFile) :
    files.flatMap diffString = formatDiffFiles files := by
  unfold diffString formatDiffFiles
  simp only [flatMap_singleton]

/-- What is returned, apart from the ranges, is always right. -/
theorem removeUnmatchedFileDiffs_eq (sortFunc : (Range → Range → Bool) → List Range → List Range)
    (includeMatchers : ℕ) (counts : GoMap GoString ℤ) (cm : DiffResult) :
    removeUnmatchedFileDiffs sortFunc includeMatchers counts cm =
      if cm.diff.filter (isMatched includeMatchers counts) = [] then none
      else some ⟨cm.diff.filter (isMatched includeMatchers counts),
        formatDiffFiles (cm.diff.filter (isMatched includeMatchers counts)),
        (filterDiffs (isMatched includeMatchers counts) (cm.diff.zip (groupRanges
          (cm.diff.map diffString) 0 (sortFunc startsBeforeEnd cm.matchedRanges)))
          ⟨0, 0, 0⟩).flatMap Prod.snd⟩ := by
  have hlength := length_groupRanges (cm.diff.map diffString) 0
    (sortFunc startsBeforeEnd cm.matchedRanges)
  rw [length_map] at hlength
  have hkept := @map_fst_filterDiffs (isMatched includeMatchers counts) _ _ hlength ⟨0, 0, 0⟩
  rw [← hkept, ← flatMap_diffString, flatMap_map]
  unfold removeUnmatchedFileDiffs
  simp only [map_eq_nil_iff]
  split_ifs with hpos hnil hnil
  · rw [hnil] at hpos
    exact absurd hpos (Nat.lt_irrefl 0)
  · rfl
  · rfl
  · exact absurd (length_pos_iff.mpr hnil) hpos

theorem IsSorted.inOrder {ranges sorted : List Range}
    (h : IsSorted startsBeforeEnd ranges sorted)
    (hvalid : ∀ r ∈ ranges, r.start.offset ≤ r.stop.offset)
    (hapart : ∀ a ∈ ranges, ∀ b ∈ ranges,
      b.start.offset < a.start.offset → b.stop.offset ≤ a.start.offset) : InOrder sorted := by
  refine h.pairwise.imp_of_mem fun {a b} ha hb hab => ?_
  by_contra hlt
  have hlt := not_le.mp hlt
  have ha' := h.perm.mem_iff.mp ha
  have hinside := hab (decide_eq_true (hlt.trans_le (hvalid a ha')))
  exact (of_decide_eq_true hinside).not_ge (hapart a ha' b (h.perm.mem_iff.mp hb) hlt)

section

variable {cm : DiffResult}

/-- **Ranges that can be grouped are kept with their files.** -/
theorem keepsHighlights_of_groupable (h : Shows cm files) (hgroup : Groupable files)
    {sortFunc : (Range → Range → Bool) → List Range → List Range}
    (hsort : IsSorted startsBeforeEnd cm.matchedRanges (sortFunc startsBeforeEnd cm.matchedRanges))
    (includeMatchers : ℕ) (counts : GoMap GoString ℤ) :
    KeepsHighlights (isMatched includeMatchers counts) files
      (removeUnmatchedFileDiffs sortFunc includeMatchers counts cm) := by
  have hmem : ∀ r ∈ cm.matchedRanges, r ∈ files.flatMap Prod.snd := fun r hr =>
    h.ranges.mem_iff.mp hr
  have horder : InOrder (sortFunc startsBeforeEnd cm.matchedRanges) :=
    hsort.inOrder (fun r hr => (h.placed.bounds (hmem r hr)).2.1)
      fun a ha b hb => hgroup.apart a (hmem a ha) b (hmem b hb)
  have hgroups := groupRanges_groupOf h.placed hgroup.inside hgroup.last
    (hsort.perm.trans h.ranges) horder
  have htexts : cm.diff.map diffString = files.map fun file => diffString file.1 := by
    rw [h.diff, map_map]
    rfl
  have hresult := removeUnmatchedFileDiffs_eq sortFunc includeMatchers counts cm
  rw [htexts, h.diff] at hresult
  have hsome {cm' : DiffResult}
      (hcm' : removeUnmatchedFileDiffs sortFunc includeMatchers counts cm = some cm') :=
    (Option.ite_none_left_eq_some.mp (hresult.symm.trans hcm')).2
  refine ⟨?_, fun cm' hcm' => ?_, fun cm' hcm' => ?_, fun cm' hcm' => ?_, fun cm' hcm' => ?_⟩
  · rw [hresult]
    simp [filter_eq_nil_iff]
  · cases hsome hcm'
    rfl
  · cases hsome hcm'
    rfl
  · cases hsome hcm'
    exact flatMap_snd_filterDiffs hgroups []
  · cases hsome hcm'
    exact (inOrder_filterDiffs hgroups h.placed ⟨0, 0, 0⟩).1

end

/-! ## Where ranges are lost or doubled

To see that nothing less will do, all files are kept, or those before some
file. -/

/-- A range is in the first group of the files or is left for a later one. -/
theorem dropWhile_eq_nil_iff {offset : ℤ} :
    ranges.dropWhile (startsBy offset) = [] ↔ ∀ r ∈ ranges, r.start.offset ≤ offset := by
  rw [List.dropWhile_eq_nil_iff]
  exact forall₂_congr fun r _ => decide_eq_true_iff

theorem mem_dropWhile {offset : ℤ} (hr : r ∈ ranges)
    (hlt : offset < r.start.offset) : r ∈ ranges.dropWhile (startsBy offset) := by
  rw [← takeWhile_append_dropWhile (p := startsBy offset) (l := ranges)] at hr
  refine (mem_append.mp hr).resolve_left fun hmem => ?_
  have hle : startsBy offset r = true := mem_takeWhile_imp hmem
  exact hlt.not_ge (of_decide_eq_true hle)

theorem takeWhile_append_takeWhile_dropWhile {offset offset' : ℤ} (h : offset ≤ offset') :
    ranges.takeWhile (startsBy offset) ++
        (ranges.dropWhile (startsBy offset)).takeWhile (startsBy offset') =
      ranges.takeWhile (startsBy offset') := by
  have hall : ∀ r ∈ ranges.takeWhile (startsBy offset), startsBy offset' r = true := by
    intro r hr
    have hle : startsBy offset r = true := mem_takeWhile_imp hr
    exact decide_eq_true ((of_decide_eq_true hle).trans h)
  rw [← takeWhile_append_of_pos hall, takeWhile_append_dropWhile]

/-- No range is lost from the groups of all files. -/
theorem flatten_groupRanges (hfiles : files ≠ [])
    (hends : ∀ r ∈ ranges, r.start.offset ≤ base + textLength files) :
    ∃ extra, (groupRanges (files.map fun file => diffString file.1) base ranges).flatten =
      ranges ++ extra := by
  induction files generalizing base ranges with
  | nil => exact absurd rfl hfiles
  | cons file files ih =>
    rw [textLength_cons] at hends
    rw [map_cons, groupRanges]
    split_ifs with hnone
    · exact ⟨_, flatten_cons⟩
    · have hrest : files ≠ [] := by
        rintro rfl
        refine hnone (dropWhile_eq_nil_iff.mpr fun r hr => (hends r hr).trans_eq ?_)
        rw [textLength, map_nil, sum_nil, add_zero]
      have hends' : ∀ r ∈ ranges.dropWhile (startsBy (base + (diffString file.1).length)),
          r.start.offset ≤ base + (diffString file.1).length + textLength files := fun r hr => by
        rw [add_assoc]
        exact hends r ((dropWhile_sublist _).subset hr)
      obtain ⟨extra, hextra⟩ := ih hrest hends'
      exact ⟨extra, by rw [flatten_cons, hextra, ← append_assoc, takeWhile_append_dropWhile]⟩

/-- **If no range is doubled**, some range starts in the last file, after the
first byte. -/
theorem exists_in_last_of_length (hends : ∀ r ∈ ranges, r.start.offset ≤ base + textLength files)
    (hne : ranges ≠ []) (hlength : (groupRanges (files.map fun file => diffString file.1) base
      ranges).flatten.length = ranges.length) :
    files.length = 1 ∨ ∃ r ∈ ranges, base + textLength files.dropLast < r.start.offset := by
  induction files generalizing base ranges with
  | nil => exact absurd (length_eq_zero_iff.mp hlength.symm) hne
  | cons file files ih =>
    cases files with
    | nil => exact .inl rfl
    | cons file' files =>
      rw [textLength_cons, ← add_assoc] at hends
      rw [map_cons, groupRanges] at hlength
      split_ifs at hlength with hnone
      · -- the group is that of the next file, too
        obtain ⟨extra, hextra⟩ := flatten_groupRanges (cons_ne_nil file' files) hends
        rw [flatten_cons, hextra, length_append, length_append] at hlength
        have := length_pos_iff.mpr hne
        omega
      · have hsplit := congrArg length (takeWhile_append_dropWhile
          (p := startsBy (base + (diffString file.1).length)) (l := ranges))
        rw [length_append] at hsplit
        rw [flatten_cons, length_append] at hlength
        have hends' : ∀ r ∈ ranges.dropWhile (startsBy (base + (diffString file.1).length)),
            r.start.offset ≤ base + (diffString file.1).length + textLength (file' :: files) :=
          fun r hr => hends r ((dropWhile_sublist _).subset hr)
        have hsub := (dropWhile_sublist (l := ranges)
          (startsBy (base + (diffString file.1).length))).subset
        rw [dropLast_cons_of_ne_nil (cons_ne_nil _ _), textLength_cons]
        rcases ih hends' hnone (by omega) with hone | ⟨r, hr, hlt⟩
        · obtain rfl : files = [] := length_eq_zero_iff.mp (Nat.succ.inj hone)
          rw [dropWhile_eq_nil_iff] at hnone
          push Not at hnone
          rw [dropLast_singleton, textLength, map_nil, sum_nil, add_zero]
          exact .inr hnone
        · exact .inr ⟨r, hsub hr, by rwa [← add_assoc]⟩

/-- **The first groups** are the ranges that start up to the end of the files,
if there are later ones. -/
theorem flatten_take_groupRanges
    (hbefore : before ≠ []) (hlater : ∃ r ∈ ranges, base + textLength before < r.start.offset) :
    ((groupRanges ((before ++ after).map fun file => diffString file.1) base ranges).take
      before.length).flatten = ranges.takeWhile (startsBy (base + textLength before)) := by
  induction before generalizing base ranges with
  | nil => exact absurd rfl hbefore
  | cons file before ih =>
    obtain ⟨r, hr, hlt⟩ := hlater
    have hlength := textLength_nonneg before
    rw [textLength_cons] at hlt ⊢
    have hmem : r ∈ ranges.dropWhile (startsBy (base + (diffString file.1).length)) :=
      mem_dropWhile hr (by omega)
    rw [cons_append, map_cons, groupRanges, if_neg (ne_nil_of_mem hmem),
      length_cons, take_succ_cons, flatten_cons]
    cases before with
    | nil =>
      rw [textLength, map_nil, sum_nil, add_zero]
      exact append_nil _
    | cons file' before =>
      rw [ih (cons_ne_nil _ _) ⟨r, hmem, by rwa [add_assoc]⟩, ← add_assoc]
      exact takeWhile_append_takeWhile_dropWhile (le_add_of_nonneg_right hlength)

section

variable {matched : DiffFile → Bool}

theorem filterDiffs_of_forall_not {l : List (DiffFile × List Range)}
    (h : ∀ file ∈ l, matched file.1 = false) (removed : Location) :
    filterDiffs matched l removed = [] := by
  induction l generalizing removed with
  | nil => rfl
  | cons file l ih =>
    obtain ⟨hfile, hrest⟩ := forall_mem_cons.mp h
    rw [filterDiffs, if_neg (Bool.eq_false_iff.mp hfile)]
    exact ih hrest _

theorem filterDiffs_append_of_forall {l l' : List (DiffFile × List Range)}
    (h : ∀ file ∈ l, matched file.1 = true) :
    filterDiffs matched (l ++ l') ⟨0, 0, 0⟩ = l ++ filterDiffs matched l' ⟨0, 0, 0⟩ := by
  have hzero : (fun r : Range => r.sub ⟨0, 0, 0⟩) = id := by
    funext r
    simp [Range.sub, Location.sub]
  induction l with
  | nil => rfl
  | cons file l ih =>
    obtain ⟨hfile, hrest⟩ := forall_mem_cons.mp h
    rw [cons_append, filterDiffs, if_pos hfile, ih hrest, hzero, map_id]
    rfl

/-- If the first files are kept and the others are not, no range moves. -/
theorem keptRanges_append {dropped : List DiffFile}
    (hdropped : ∀ file ∈ dropped, matched file = true)
    (hbefore : ∀ file ∈ before, matched file.1 = true)
    (hafter : ∀ file ∈ after, matched file.1 = false) :
    keptRanges matched dropped (before ++ after) = before.flatMap Prod.snd := by
  have hzero : (fun r : Range => r.sub ⟨0, 0, 0⟩) = id := by
    funext r
    simp [Range.sub, Location.sub]
  induction before generalizing dropped with
  | nil =>
    rw [nil_append]
    clear hdropped
    induction after generalizing dropped with
    | nil => rfl
    | cons file after ih =>
      obtain ⟨hfile, hrest⟩ := forall_mem_cons.mp hafter
      rw [keptRanges, if_neg (Bool.eq_false_iff.mp hfile), ih hrest]
      rfl
  | cons file before ih =>
    obtain ⟨hfile, hrest⟩ := forall_mem_cons.mp hbefore
    have hsize : droppedSize matched dropped = ⟨0, 0, 0⟩ := by
      rw [droppedSize, filter_eq_nil_iff.mpr fun f hf => by rw [hdropped f hf]; decide]
      rfl
    rw [cons_append, keptRanges, if_pos hfile, hsize, hzero, map_id, ih _ hrest]
    · rfl
    · intro f hf
      rcases mem_append.mp hf with hf | hf
      · exact hdropped f hf
      · rwa [mem_singleton.mp hf]

end

theorem exists_counts (includeMatchers : ℕ) (keep : GoString → Bool) (names : List GoString) :
    ∃ counts : GoMap GoString ℤ, ∀ file : DiffFile, file.newName ∈ names →
      isMatched includeMatchers counts file = keep file.newName := by
  induction names with
  | nil => exact ⟨∅, fun _ hmem => absurd hmem not_mem_nil⟩
  | cons name names ih =>
    obtain ⟨counts, hcounts⟩ := ih
    refine ⟨counts.insert name (if keep name then includeMatchers else includeMatchers + 1),
      fun file hmem => ?_⟩
    unfold isMatched
    by_cases hname : file.newName = name
    · rw [hname, AList.lookup_insert, Option.getD_some]
      cases keep name with
      | true => exact decide_eq_true rfl
      | false => exact decide_eq_false (by rw [if_neg Bool.false_ne_true]; omega)
    · rw [AList.lookup_insert_ne hname]
      exact hcounts file ((mem_cons.mp hmem).resolve_left hname)

/-- By start, then by end. -/
def rangeKey (r : Range) : ℤ ×ₗ ℤ := toLex (r.start.offset, r.stop.offset)

theorem rangeKey_le_iff {a b : Range} : rangeKey a ≤ rangeKey b ↔ a.start.offset < b.start.offset ∨
    a.start.offset = b.start.offset ∧ a.stop.offset ≤ b.stop.offset :=
  Prod.Lex.toLex_le_toLex

theorem exists_isSorted (hvalid : ∀ r ∈ ranges, r.start.offset ≤ r.stop.offset) :
    ∃ sorted, IsSorted startsBeforeEnd ranges sorted ∧
      sorted.Pairwise fun a b => rangeKey a ≤ rangeKey b := by
  have hperm := SliceSort.byInsertion.sort_perm (fun a b => decide (rangeKey a < rangeKey b)) ranges
  have hkeys := SliceSort.byInsertion.pairwise_of_key rangeKey (fun a b => decide_eq_true_iff)
    ranges
  refine ⟨_, ⟨hperm, hkeys.imp_of_mem fun {a b} _ hb hkey hlt => decide_eq_true ?_⟩, hkeys⟩
  have hstop := hvalid b (hperm.mem_iff.mp hb)
  have hlt := of_decide_eq_true hlt
  rcases rangeKey_le_iff.mp hkey with hstart | ⟨hstart, hend⟩
  · exact hstart.trans_le hstop
  · rw [hstart]
    exact hlt.trans_le hend

/-- **If every sort brings ranges into order**, none starts inside another one:
two neighbours of which the second starts inside the first may be exchanged. -/
theorem apart_of_inOrder (hvalid : ∀ r ∈ ranges, r.start.offset ≤ r.stop.offset)
    (h : ∀ sorted, IsSorted startsBeforeEnd ranges sorted → InOrder sorted) :
    ∀ a ∈ ranges, ∀ b ∈ ranges, b.start.offset < a.start.offset →
      b.stop.offset ≤ a.start.offset := by
  obtain ⟨sorted, hsorted, hkeys⟩ := exists_isSorted hvalid
  let apart : Range → Range → Prop := fun p c => rangeKey p ≤ rangeKey c ∧
    (p.start.offset < c.start.offset → p.stop.offset ≤ c.start.offset)
  have htrans : IsTrans Range apart := ⟨fun p c d hpc hcd => by
    refine ⟨hpc.1.trans hcd.1, fun hlt => ?_⟩
    rcases rangeKey_le_iff.mp hpc.1 with hstart | ⟨hstart, hend⟩
    · refine (hpc.2 hstart).trans ?_
      exact (rangeKey_le_iff.mp hcd.1).elim le_of_lt fun heq => heq.1.le
    · exact hend.trans (hcd.2 (hstart ▸ hlt))⟩
  have hchain : List.IsChain apart sorted := by
    refine isChain_iff_forall_rel_of_append_cons_cons.mpr fun p c l₁ l₂ heq => ?_
    subst heq
    have hcons := (pairwise_append.mp hkeys).2.1
    refine ⟨(pairwise_cons.mp hcons).1 c mem_cons_self, fun hlt => ?_⟩
    by_contra hinside
    have hswap : IsSorted startsBeforeEnd ranges (l₁ ++ c :: p :: l₂) := by
      refine ⟨(List.Perm.append_left l₁ (.swap p c l₂)).trans hsorted.perm, ?_⟩
      obtain ⟨h₁, h₂, h₁₂⟩ := pairwise_append.mp hsorted.pairwise
      obtain ⟨hp, h₂⟩ := pairwise_cons.mp h₂
      obtain ⟨hc, h₂⟩ := pairwise_cons.mp h₂
      refine pairwise_append.mpr ⟨h₁, ?_, fun a ha b hb => h₁₂ a ha b ?_⟩
      · refine pairwise_cons.mpr ⟨forall_mem_cons.mpr ⟨fun _ => ?_, hc⟩,
          pairwise_cons.mpr ⟨fun b hb => hp b (mem_cons_of_mem c hb), h₂⟩⟩
        exact decide_eq_true (not_le.mp hinside)
      · exact (List.Perm.swap p c l₂).mem_iff.mp hb
    have horder := (pairwise_append.mp (h _ hswap)).2.1
    exact hlt.not_ge ((pairwise_cons.mp horder).1 p mem_cons_self)
  intro a ha b hb hlt
  have hsymm : Std.Symm fun x y => apart x y ∨ apart y x := ⟨fun _ _ => Or.symm⟩
  have hall : ∀ ⦃x⦄, x ∈ sorted → ∀ ⦃y⦄, y ∈ sorted → apart x y ∨ apart y x :=
    List.Pairwise.forall_of_forall (fun x _ => Or.inl ⟨le_rfl, fun hlt => absurd hlt (lt_irrefl _)⟩)
      (hchain.pairwise.imp Or.inl)
  rcases hall (hsorted.perm.mem_iff.mpr hb) (hsorted.perm.mem_iff.mpr ha) with hba | hab
  · exact hba.2 hlt
  · exact absurd ((rangeKey_le_iff.mp hab.1).elim le_of_lt fun heq => heq.1.le) hlt.not_ge

section

variable {cm : DiffResult} {includeMatchers : ℕ}

/-- **If the first files are kept and the others are not**, the first groups must
have exactly their ranges. -/
theorem KeepsHighlights.first_groups (h : Shows cm (before ++ after)) (hbefore : before ≠ [])
    {sortFunc : (Range → Range → Bool) → List Range → List Range} {counts : GoMap GoString ℤ}
    (hkeep : ∀ file ∈ before, isMatched includeMatchers counts file.1 = true)
    (hdrop : ∀ file ∈ after, isMatched includeMatchers counts file.1 = false)
    (hkeeps : KeepsHighlights (isMatched includeMatchers counts) (before ++ after)
      (removeUnmatchedFileDiffs sortFunc includeMatchers counts cm)) :
    (((groupRanges ((before ++ after).map fun file => diffString file.1) 0
      (sortFunc startsBeforeEnd cm.matchedRanges)).take before.length).flatten.Perm
        (before.flatMap Prod.snd)) ∧
    InOrder ((groupRanges ((before ++ after).map fun file => diffString file.1) 0
      (sortFunc startsBeforeEnd cm.matchedRanges)).take before.length).flatten := by
  have htexts : cm.diff.map diffString = (before ++ after).map fun file => diffString file.1 := by
    rw [h.diff, map_map]
    rfl
  have hresult := removeUnmatchedFileDiffs_eq sortFunc includeMatchers counts cm
  rw [htexts] at hresult
  generalize hgroups : groupRanges ((before ++ after).map fun file => diffString file.1) 0
    (sortFunc startsBeforeEnd cm.matchedRanges) = groups at hresult ⊢
  have hlength : groups.length = before.length + after.length := by
    rw [← hgroups, length_groupRanges, length_map, length_append]
  have hfirst : (groups.take before.length).length = (before.map Prod.fst).length := by
    rw [length_take, length_map, hlength, Nat.min_eq_left (Nat.le_add_right _ _)]
  have hne : cm.diff.filter (isMatched includeMatchers counts) ≠ [] := by
    obtain ⟨file, rest, rfl⟩ := exists_cons_of_ne_nil hbefore
    have hmem : file.1 ∈ cm.diff := by
      rw [h.diff]
      exact mem_cons_self
    exact ne_nil_of_mem (mem_filter.mpr ⟨hmem, hkeep file mem_cons_self⟩)
  -- what is kept are the first files with their groups
  have hkept : (filterDiffs (isMatched includeMatchers counts) (cm.diff.zip groups)
      ⟨0, 0, 0⟩).flatMap Prod.snd = (groups.take before.length).flatten := by
    have hzip : cm.diff.zip groups = (before.map Prod.fst).zip (groups.take before.length) ++
        (after.map Prod.fst).zip (groups.drop before.length) := by
      rw [← zip_append hfirst.symm, take_append_drop, h.diff, map_append]
    rw [hzip, filterDiffs_append_of_forall, filterDiffs_of_forall_not, append_nil,
      flatMap_def, map_snd_zip hfirst.le]
    · intro file hfile
      obtain ⟨file', hfile', heq⟩ := mem_map.mp (of_mem_zip hfile).1
      rw [← heq]
      exact hdrop file' hfile'
    · intro file hfile
      obtain ⟨file', hfile', heq⟩ := mem_map.mp (of_mem_zip hfile).1
      rw [← heq]
      exact hkeep file' hfile'
  rw [hkept, if_neg hne] at hresult
  have hranges := hkeeps.ranges _ hresult
  rw [keptRanges_append (fun _ hmem => absurd hmem not_mem_nil) hkeep hdrop] at hranges
  exact ⟨hranges, hkeeps.sorted _ hresult⟩

end

section

variable {cm : DiffResult} {files : List (DiffFile × List Range)}

section AllKept

variable {includeMatchers : ℕ} (h : Shows cm files)
  (hall : ∀ sortFunc counts,
    IsSorted startsBeforeEnd cm.matchedRanges (sortFunc startsBeforeEnd cm.matchedRanges) →
    KeepsHighlights (isMatched includeMatchers counts) files
      (removeUnmatchedFileDiffs sortFunc includeMatchers counts cm))

include h hall

/-- **If all files are kept**, every sort brings the ranges into order, and no
range is doubled. -/
theorem KeepsHighlights.all_files (hfiles : files ≠ [])
    {sorted : List Range} (hsorted : IsSorted startsBeforeEnd cm.matchedRanges sorted) :
    InOrder sorted ∧ (groupRanges (files.map fun file => diffString file.1) 0
      sorted).flatten.length = sorted.length := by
  obtain ⟨counts, hcounts⟩ := exists_counts includeMatchers (fun _ => true)
    (files.map fun file => file.1.newName)
  have hkeep : ∀ file ∈ files, isMatched includeMatchers counts file.1 = true := fun file hfile =>
    hcounts file.1 (mem_map.mpr ⟨file, hfile, rfl⟩)
  have hkeeps := hall (fun _ _ => sorted) counts hsorted
  rw [← append_nil files] at h hkeeps
  obtain ⟨hperm, horder⟩ := hkeeps.first_groups h hfiles hkeep fun _ hmem => absurd hmem not_mem_nil
  rw [append_nil] at h hperm horder
  rw [take_of_length_le (by rw [length_groupRanges, length_map])] at hperm horder
  have hends : ∀ r ∈ sorted, r.start.offset ≤ 0 + textLength files := fun r hr => by
    have hbounds := h.placed.bounds (h.ranges.mem_iff.mp (hsorted.perm.mem_iff.mp hr))
    exact hbounds.2.1.trans hbounds.2.2
  obtain ⟨extra, hextra⟩ := flatten_groupRanges hfiles hends
  rw [hextra] at horder
  exact ⟨(pairwise_append.mp horder).1,
    hperm.length_eq.trans (hsorted.perm.trans h.ranges).length_eq.symm⟩

/-- **If the files before a file are kept**, none of its ranges starts with its
text. -/
theorem KeepsHighlights.insideFiles (hnames : (files.map fun file => file.1.newName).Nodup)
    {sorted : List Range} (hsorted : IsSorted startsBeforeEnd cm.matchedRanges sorted)
    (horder : InOrder sorted)
    (hlast : files.length = 1 ∨ ∃ r ∈ sorted, 0 + textLength files.dropLast < r.start.offset) :
    InsideFiles 0 files := by
  rintro before file after rfl hbefore r hr
  by_contra hborder
  have hlater : ∃ x ∈ sorted, 0 + textLength before < x.start.offset := by
    rcases hlast with hone | ⟨x, hx, hlt⟩
    · rw [length_append, length_cons] at hone
      have := length_pos_iff.mpr hbefore
      omega
    · rw [dropLast_append_of_ne_nil (cons_ne_nil _ _), textLength_append] at hlt
      have := textLength_nonneg (file :: after).dropLast
      exact ⟨x, hx, by omega⟩
  obtain ⟨counts, hcounts⟩ := exists_counts includeMatchers
    (fun name => decide (name ∈ before.map fun file => file.1.newName))
    ((before ++ file :: after).map fun file => file.1.newName)
  have hkeep : ∀ f ∈ before, isMatched includeMatchers counts f.1 = true := fun f hf => by
    rw [hcounts f.1 (mem_map.mpr ⟨f, mem_append_left _ hf, rfl⟩)]
    exact decide_eq_true (mem_map.mpr ⟨f, hf, rfl⟩)
  have hdrop : ∀ f ∈ file :: after, isMatched includeMatchers counts f.1 = false := fun f hf => by
    rw [hcounts f.1 (mem_map.mpr ⟨f, mem_append_right _ hf, rfl⟩)]
    rw [map_append] at hnames
    refine decide_eq_false fun hmem => ?_
    exact disjoint_of_nodup_append hnames hmem (mem_map.mpr ⟨f, hf, rfl⟩)
  obtain ⟨hperm, -⟩ := (hall (fun _ _ => sorted) counts hsorted).first_groups h hbefore hkeep hdrop
  rw [flatten_take_groupRanges hbefore hlater, (horder.cut _).1] at hperm
  -- the ranges that start up to the end of the first files are theirs, and one more
  have hsplit := (hperm.symm.trans ((hsorted.perm.trans h.ranges).filter _)).length_eq
  have hown : ∀ x ∈ before.flatMap Prod.snd, startsBy (0 + textLength before) x = true :=
    fun x hx => by
      have hbounds := h.placed.left.bounds hx
      exact decide_eq_true (hbounds.2.1.trans hbounds.2.2)
  rw [flatMap_append, filter_append, filter_eq_self.mpr hown, length_append]
    at hsplit
  have hmem : r ∈ ((file :: after).flatMap Prod.snd).filter (startsBy (0 + textLength before)) :=
    mem_filter.mpr ⟨mem_append_left _ hr, decide_eq_true (not_lt.mp hborder)⟩
  have := length_pos_of_mem hmem
  omega

end AllKept

/-- **Dropping files keeps the highlights of the others**, whatever files are
dropped and however the ranges are sorted, if they can be grouped; and if no two
files have the same name, only then. -/
theorem removeUnmatchedFileDiffs_iff (h : Shows cm files) (includeMatchers : ℕ) :
    (Groupable files → ∀ sortFunc counts,
      IsSorted startsBeforeEnd cm.matchedRanges (sortFunc startsBeforeEnd cm.matchedRanges) →
      KeepsHighlights (isMatched includeMatchers counts) files
        (removeUnmatchedFileDiffs sortFunc includeMatchers counts cm)) ∧
    ((files.map fun file => file.1.newName).Nodup → (∀ sortFunc counts,
      IsSorted startsBeforeEnd cm.matchedRanges (sortFunc startsBeforeEnd cm.matchedRanges) →
      KeepsHighlights (isMatched includeMatchers counts) files
        (removeUnmatchedFileDiffs sortFunc includeMatchers counts cm)) → Groupable files) := by
  refine ⟨fun hgroup sortFunc counts hsort =>
    keepsHighlights_of_groupable h hgroup hsort includeMatchers counts, fun hnames hall => ?_⟩
  have hmem : ∀ {r}, r ∈ cm.matchedRanges ↔ r ∈ files.flatMap Prod.snd := h.ranges.mem_iff
  have hvalid : ∀ r ∈ cm.matchedRanges, r.start.offset ≤ r.stop.offset := fun r hr =>
    (h.placed.bounds (hmem.mp hr)).2.1
  by_cases hnone : files.flatMap Prod.snd = []
  · refine ⟨fun a ha => ?_, ?_, .inl hnone⟩
    · rw [hnone] at ha
      exact absurd ha not_mem_nil
    · rintro before file after rfl - r hr
      have hr' : r ∈ (before ++ file :: after).flatMap Prod.snd := mem_flatMap.mpr
        ⟨file, mem_append_right _ mem_cons_self, hr⟩
      rw [hnone] at hr'
      exact absurd hr' not_mem_nil
  have hfiles : files ≠ [] := fun hnil => hnone (by rw [hnil]; rfl)
  have hsorts : ∀ {sorted}, IsSorted startsBeforeEnd cm.matchedRanges sorted →
      InOrder sorted ∧ (groupRanges (files.map fun file => diffString file.1) 0
        sorted).flatten.length = sorted.length :=
    KeepsHighlights.all_files h hall hfiles
  obtain ⟨sorted, hsorted, -⟩ := exists_isSorted hvalid
  obtain ⟨horder, hlength⟩ := hsorts hsorted
  have hperm := hsorted.perm.trans h.ranges
  have hne : sorted ≠ [] := fun hnil => hnone (by rw [hnil] at hperm; exact hperm.symm.eq_nil)
  have hlast := exists_in_last_of_length (fun r hr => by
    have hbounds := h.placed.bounds (hperm.mem_iff.mp hr)
    exact hbounds.2.1.trans hbounds.2.2) hne hlength
  refine ⟨fun a ha b hb => apart_of_inOrder hvalid (fun _ hs => (hsorts hs).1) a (hmem.mpr ha) b
    (hmem.mpr hb), KeepsHighlights.insideFiles h hall hnames hsorted horder hlast, .inr ?_⟩
  obtain ⟨init, last, rfl⟩ := (eq_nil_or_concat' files).resolve_left hfiles
  refine ⟨last, getLast?_concat, ?_⟩
  rw [flatMap_append, flatMap_singleton] at hperm hnone
  rcases hlast with hone | ⟨r, hr, hlt⟩
  · have hinit : init = [] := by
      rw [length_append, length_singleton] at hone
      exact length_eq_zero_iff.mp (Nat.succ.inj hone)
    rwa [hinit] at hnone
  · -- a range that starts after the other files is in the last one
    rw [dropLast_concat] at hlt
    have hr' := mem_append.mp (hperm.mem_iff.mp hr)
    refine ne_nil_of_mem (hr'.resolve_left fun hmem => ?_)
    have hbounds := h.placed.left.bounds hmem
    exact hlt.not_ge (hbounds.2.1.trans hbounds.2.2)

end

/-- A file without changes, whose text has four bytes. -/
def renamed (name : GoString) : DiffFile := ⟨name, name, []⟩

/-- A range of one byte, in a line. -/
def byteRange (offset line column : ℤ) : Range :=
  ⟨⟨offset, line, column⟩, ⟨offset + 1, line, column + 1⟩⟩

/-- Two files with a range each. -/
def twoFiles : List (DiffFile × List Range) :=
  [(renamed (lit "a"), [byteRange 0 0 0]), (renamed (lit "b"), [byteRange 6 1 2])]

/-- The counts after one pattern, which some files have matched. -/
def onePattern (names : List GoString) : GoMap GoString ℤ :=
  names.foldl (fun counts name => counts.insert name 1) ∅

theorem removeUnmatchedFileDiffs_second :
    KeepsHighlights (isMatched 1 (onePattern [lit "b"])) twoFiles
      (removeUnmatchedFileDiffs SliceSort.byInsertion.sort 1 (onePattern [lit "b"])
        ⟨twoFiles.map Prod.fst, formatDiffFiles (twoFiles.map Prod.fst),
          twoFiles.flatMap Prod.snd⟩) := by
  refine (removeUnmatchedFileDiffs_iff ⟨rfl, rfl, .refl _, ?_⟩ 1).1 ⟨by decide +kernel, ?_, ?_⟩ _ _
    ⟨SliceSort.byInsertion.sort_perm _ _, by decide +kernel⟩
  · simp only [twoFiles, Placed]
    decide +kernel
  · intro before file after heq hbefore r hr
    cases before with
    | nil => exact absurd rfl hbefore
    | cons first before =>
      obtain ⟨hfirst, hrest⟩ := cons.inj heq
      cases before with
      | nil =>
        obtain ⟨rfl, -⟩ := cons.inj hrest
        obtain rfl := mem_singleton.mp hr
        rw [← hfirst]
        decide +kernel
      | cons second before => exact absurd (congrArg length hrest) (by simp)
  · exact .inr ⟨_, rfl, cons_ne_nil _ _⟩

/-- **A range is doubled**: the last file has none, and gets the range of the
file before it. -/
theorem removeUnmatchedFileDiffs_doubled :
    Shows ⟨[renamed (lit "a"), renamed (lit "b")],
        formatDiffFiles [renamed (lit "a"), renamed (lit "b")], [byteRange 0 0 0]⟩
        [(renamed (lit "a"), [byteRange 0 0 0]), (renamed (lit "b"), [])] ∧
      removeUnmatchedFileDiffs SliceSort.byInsertion.sort 1 (onePattern [lit "a", lit "b"])
          ⟨[renamed (lit "a"), renamed (lit "b")],
            formatDiffFiles [renamed (lit "a"), renamed (lit "b")], [byteRange 0 0 0]⟩ =
        some ⟨[renamed (lit "a"), renamed (lit "b")],
          formatDiffFiles [renamed (lit "a"), renamed (lit "b")],
          [byteRange 0 0 0, byteRange 0 0 0]⟩ := by
  refine ⟨⟨rfl, rfl, .refl _, ?_⟩, by decide +kernel⟩
  simp only [Placed]
  decide +kernel

end Jobutil
