import CodeScout.Util.GoMap
import CodeScout.Util.GoSort
import CodeScout.Util.GoString
import Mathlib

/-!
# Ranges of a document

Code navigation looks up the ranges of a document that contain a position, or
that meet a window of lines. A range is the positions from its start up to its
end, in the order of lines and then of characters.

`FindRanges` sorts the ranges it finds, innermost first. It compares by whether
one range contains the start of the other. For nested ranges that is to compare
the starts (`comesBefore_iff`), so that two ranges with the same start are not
told apart, and the outer one may come first (`findRanges_innermost_iff`).

`FindRangesInWindow` takes the ranges that start or end in the window. A range
that starts before the window and ends after it is missed
(`findRangesInWindow_exact_iff`).
-/

namespace Precise

open List

/-! ## Ranges -/

abbrev ID := GoString

/-- A range of a document with its results. -/
structure RangeData where
  startLine : ℤ
  startCharacter : ℤ
  endLine : ℤ
  endCharacter : ℤ
  definitionResultID : ID
  referenceResultID : ID
  implementationResultID : ID
  hoverResultID : ID
  monikerIDs : List ID
  deriving DecidableEq

/-- A line and a character, in reading order. -/
abbrev Position := ℤ ×ₗ ℤ

namespace RangeData

def start (r : RangeData) : Position := toLex (r.startLine, r.startCharacter)

def stop (r : RangeData) : Position := toLex (r.endLine, r.endCharacter)

/-- The range contains a position. The end is exclusive. -/
def Contains (r : RangeData) (p : Position) : Prop := r.start ≤ p ∧ p < r.stop

/-- The range lies within another one. -/
def Within (r r' : RangeData) : Prop := r'.start ≤ r.start ∧ r.stop ≤ r'.stop

instance (r : RangeData) (p : Position) : Decidable (r.Contains p) :=
  inferInstanceAs (Decidable (_ ∧ _))

instance (r r' : RangeData) : Decidable (r.Within r') :=
  inferInstanceAs (Decidable (_ ∧ _))

end RangeData

open RangeData

/-! ## Lookups -/

/-- Zero for a position inside; the end is outside. -/
def comparePosition (r : RangeData) (line character : ℤ) : ℤ :=
  if line < r.startLine then 1
  else if line > r.endLine then -1
  else if line = r.startLine ∧ character < r.startCharacter then 1
  else if line = r.endLine ∧ character ≥ r.endCharacter then -1
  else 0

/-- The comparison of `FindRanges`. -/
def comesBefore (r r' : RangeData) : Bool :=
  comparePosition r r'.startLine r'.startCharacter != 0

section

variable (sorter : SliceSort) (order : RangeOrder) (ranges : GoMap ID RangeData)

/-- The ranges around a position, sorted by `comesBefore`. -/
def findRanges (line character : ℤ) : List RangeData :=
  sorter.sortElements comesBefore <|
    (order.range [] ranges.values).filter fun r => comparePosition r line character == 0

/-- By the start, and then by the end. -/
def compareRanges (a b : RangeData) : ℤ :=
  if a.startLine < b.startLine then -1
  else if a.startLine > b.startLine then 1
  else if a.startCharacter < b.startCharacter then -1
  else if a.startCharacter > b.startCharacter then 1
  else if a.endLine < b.endLine then -1
  else if a.endLine > b.endLine then 1
  else if a.endCharacter < b.endCharacter then -1
  else if a.endCharacter > b.endCharacter then 1
  else 0

/-- The range starts or ends in one of the lines. -/
def rangeIntersectsSpan (r : RangeData) (startLine endLine : ℤ) : Bool :=
  decide (startLine ≤ r.startLine ∧ r.startLine < endLine) ||
    decide (startLine ≤ r.endLine ∧ r.endLine < endLine)

/-- The ranges that start or end in some lines. -/
def findRangesInWindow (startLine endLine : ℤ) : List RangeData :=
  sorter.sort (fun a b => decide (compareRanges a b < 0)) <|
    (order.range [] ranges.values).filter fun r => rangeIntersectsSpan r startLine endLine

end

/-! ## The order of nested ranges -/

theorem comparePosition_eq_zero {r : RangeData} {line character : ℤ} :
    comparePosition r line character = 0 ↔ r.Contains (toLex (line, character)) := by
  unfold comparePosition Contains start stop
  rw [Prod.Lex.toLex_le_toLex, Prod.Lex.toLex_lt_toLex]
  dsimp only
  split_ifs with hbefore hafter hstart hstop
  · exact iff_of_false (by decide) (by omega)
  · exact iff_of_false (by decide) (by omega)
  · exact iff_of_false (by decide) (by omega)
  · exact iff_of_false (by decide) (by omega)
  · exact iff_of_true rfl (by omega)

theorem comesBefore_eq_false {r r' : RangeData} :
    comesBefore r r' = false ↔ r.Contains r'.start := by
  rw [comesBefore, bne_eq_false_iff_eq, comparePosition_eq_zero]
  rfl

/-- **Ranges that share a position are compared by their starts.** -/
theorem comesBefore_iff {r r' : RangeData} {p : Position} (hr : r.Contains p)
    (hr' : r'.Contains p) : comesBefore r r' = true ↔ r'.start < r.start := by
  rw [← Bool.not_eq_false, comesBefore_eq_false, Contains, not_and_or, not_le, not_lt]
  exact or_iff_left_of_imp fun hstop => absurd (hr'.1.trans_lt hr.2) hstop.not_gt

/-- **A range comes before those it lies within.** -/
def InnermostFirst (found : List RangeData) : Prop :=
  found.Pairwise fun r r' => ¬r'.Within r

/-- The ranges that contain a position. -/
def containing (ranges : GoMap ID RangeData) (p : Position) : List RangeData :=
  ranges.values.filter fun r => decide (r.Contains p)

section

variable {sorter : SliceSort} {order : RangeOrder} {ranges : GoMap ID RangeData}
  {line character : ℤ}

theorem filter_range_perm (order : RangeOrder) (ranges : GoMap ID RangeData) (line character : ℤ) :
    ((order.range [] ranges.values).filter fun r => comparePosition r line character == 0).Perm
      (containing ranges (toLex (line, character))) := by
  have hfilter : (fun r => comparePosition r line character == 0) =
      fun r : RangeData => decide (r.Contains (toLex (line, character))) := by
    funext r
    rw [Bool.eq_iff_iff, beq_iff_eq, comparePosition_eq_zero, decide_eq_true_iff]
  rw [hfilter]
  exact (order.range_perm [] ranges.values).filter _

theorem findRanges_perm (sorter : SliceSort) (order : RangeOrder) (ranges : GoMap ID RangeData)
    (line character : ℤ) : (findRanges sorter order ranges line character).Perm
      (containing ranges (toLex (line, character))) :=
  (sorter.sortElements_perm comesBefore _).trans (filter_range_perm order ranges line character)

theorem pairwise_start_findRanges :
    (findRanges sorter order ranges line character).Pairwise fun r r' => r'.start ≤ r.start := by
  have hmem : ∀ r ∈ (order.range [] ranges.values).filter
      (fun r => comparePosition r line character == 0), r.Contains (toLex (line, character)) := by
    intro r hr
    exact comparePosition_eq_zero.mp (beq_iff_eq.mp (mem_filter.mp hr).2)
  have hfalse : ∀ {r r' : RangeData}, r.Contains (toLex (line, character)) →
      r'.Contains (toLex (line, character)) → (comesBefore r r' = false ↔ r.start ≤ r'.start) := by
    intro r r' hr hr'
    rw [← Bool.not_eq_true, comesBefore_iff hr hr', not_lt]
  have hsorted : (findRanges sorter order ranges line character).Pairwise
      fun r r' => comesBefore r' r = false := by
    refine sorter.pairwise_sortElements ?_ ?_
    · intro a ha b hb hab
      rw [comesBefore_iff (hmem a ha) (hmem b hb)] at hab
      exact (hfalse (hmem b hb) (hmem a ha)).mpr hab.le
    · intro a ha b hb c hc hab hbc
      rw [hfalse (hmem a ha) (hmem b hb)] at hab
      rw [hfalse (hmem b hb) (hmem c hc)] at hbc
      exact (hfalse (hmem a ha) (hmem c hc)).mpr (hab.trans hbc)
  refine hsorted.imp_of_mem fun {r r'} hr hr' h => ?_
  have hfound := sorter.sortElements_perm comesBefore ((order.range [] ranges.values).filter
    fun r => comparePosition r line character == 0)
  exact (hfalse (hmem r' (hfound.mem_iff.mp hr')) (hmem r (hfound.mem_iff.mp hr))).mp h

/-- The entries of a map from the last to the first. -/
def fromLast : RangeOrder where
  range _ l := l.reverse
  range_perm _ l := l.reverse_perm

theorem pair_sublist_or_reverse {α : Type} {l : List α} {a b : α} (ha : a ∈ l) (hb : b ∈ l)
    (hab : a ≠ b) : [a, b].Sublist l ∨ [a, b].Sublist l.reverse := by
  obtain ⟨l₁, l₂, rfl⟩ := append_of_mem ha
  rw [mem_append, mem_cons, or_iff_right (Ne.symm hab)] at hb
  rcases hb with hb | hb
  · right
    rw [reverse_append, reverse_cons]
    exact (singleton_sublist.mpr (by simp)).append (singleton_sublist.mpr (mem_reverse.mpr hb))
  · left
    exact (cons_sublist_cons.mpr (singleton_sublist.mpr hb)).trans (sublist_append_right _ _)

/-- **Two ranges with the same start may be found in the wrong order.** -/
theorem exists_findRanges_sublist {outer inner : RangeData} (hne : outer ≠ inner)
    (houter : outer ∈ containing ranges (toLex (line, character)))
    (hinner : inner ∈ containing ranges (toLex (line, character)))
    (hstart : outer.start = inner.start) :
    ∃ order, [outer, inner].Sublist (findRanges .byInsertion order ranges line character) := by
  have hcontains : ∀ {r}, r ∈ containing ranges (toLex (line, character)) →
      r ∈ ranges.values ∧ comparePosition r line character = 0 := by
    intro r hr
    rw [containing, mem_filter, decide_eq_true_iff, ← comparePosition_eq_zero] at hr
    exact hr
  have hfilter : ∀ l : List RangeData, [outer, inner].Sublist l →
      [outer, inner].Sublist (l.filter fun r => comparePosition r line character == 0) := by
    intro l hl
    have hkept := hl.filter fun r => comparePosition r line character == 0
    rwa [filter_eq_self.mpr] at hkept
    intro r hr
    rcases mem_pair.mp hr with rfl | rfl
    · exact beq_iff_eq.mpr (hcontains houter).2
    · exact beq_iff_eq.mpr (hcontains hinner).2
  have htied : comesBefore inner outer = false := by
    rw [comesBefore_eq_false, hstart]
    have hinner := comparePosition_eq_zero.mp (hcontains hinner).2
    exact ⟨le_rfl, hinner.1.trans_lt hinner.2⟩
  rcases pair_sublist_or_reverse (hcontains houter).1 (hcontains hinner).1 hne with h | h
  · exact ⟨.byEntries, SliceSort.sublist_sortElements_byInsertion htied (hfilter _ h)⟩
  · exact ⟨fromLast, SliceSort.sublist_sortElements_byInsertion htied (hfilter _ h)⟩

/-- **The ranges at a position come innermost first**, however the map is
ranged over and ties are sorted, exactly if no two of them share their
start. The ranges need not be nested or disjoint for that. -/
theorem findRanges_innermost_iff
    (hdistinct : (ranges.values.map fun r => (r.start, r.stop)).Nodup) (line character : ℤ) :
    (∀ sorter order,
      (findRanges sorter order ranges line character).Perm
        (containing ranges (toLex (line, character))) ∧
      InnermostFirst (findRanges sorter order ranges line character)) ↔
    ∀ r ∈ containing ranges (toLex (line, character)),
      ∀ r' ∈ containing ranges (toLex (line, character)), r.start = r'.start → r = r' := by
  constructor
  · intro h
    -- of two ranges with the same start the one that ends later is the outer one
    suffices hwlog : ∀ r ∈ containing ranges (toLex (line, character)),
        ∀ r' ∈ containing ranges (toLex (line, character)), r.start = r'.start →
          r'.stop ≤ r.stop → r = r' by
      intro r hr r' hr' hstart
      rcases le_total r'.stop r.stop with hle | hle
      · exact hwlog r hr r' hr' hstart hle
      · exact (hwlog r' hr' r hr hstart.symm hle).symm
    intro outer houter inner hinner hstart hstop
    by_contra hne
    obtain ⟨order, hsublist⟩ := exists_findRanges_sublist hne houter hinner hstart
    have hinnermost := (h .byInsertion order).2.sublist hsublist
    exact pairwise_pair.mp hinnermost ⟨hstart.le, hstop⟩
  · intro hstarts sorter order
    have hperm := findRanges_perm sorter order ranges line character
    refine ⟨hperm, ?_⟩
    have hnodup : (findRanges sorter order ranges line character).Nodup :=
      hperm.nodup_iff.mpr ((List.Nodup.of_map _ hdistinct).filter _)
    refine (pairwise_start_findRanges.and hnodup).imp_of_mem fun {r r'} hr hr' h hwithin => ?_
    exact h.2 (hstarts r (hperm.mem_iff.mp hr) r' (hperm.mem_iff.mp hr')
      (le_antisymm hwithin.1 h.1))

end

/-- A range without results. -/
def plainRange (startLine startCharacter endLine endCharacter : ℤ) : RangeData :=
  ⟨startLine, startCharacter, endLine, endCharacter, [], [], [], [], []⟩

/-- Three nested ranges and two after them. -/
def nestedRanges : GoMap ID RangeData :=
  ⟨[⟨lit "0", plainRange 0 3 4 5⟩, ⟨lit "1", plainRange 1 3 3 5⟩, ⟨lit "2", plainRange 2 3 2 5⟩,
    ⟨lit "3", plainRange 5 3 5 5⟩, ⟨lit "4", plainRange 6 3 6 5⟩],
    show [lit "0", lit "1", lit "2", lit "3", lit "4"].Nodup by decide⟩

theorem findRanges_nestedRanges :
    (findRanges .byInsertion .byEntries nestedRanges 2 4).Perm
        (containing nestedRanges (toLex (2, 4))) ∧
      InnermostFirst (findRanges .byInsertion .byEntries nestedRanges 2 4) :=
  (findRanges_innermost_iff (by decide) 2 4).mpr (by decide) _ _

/-- Two ranges with the same start. -/
def sharedStart : GoMap ID RangeData :=
  ⟨[⟨lit "0", plainRange 0 0 0 10⟩, ⟨lit "1", plainRange 0 0 0 5⟩],
    show [lit "0", lit "1"].Nodup by decide⟩

/-- **The outer range may come first.** -/
theorem findRanges_sharedStart :
    findRanges .byInsertion .byEntries sharedStart 0 2 =
      [plainRange 0 0 0 10, plainRange 0 0 0 5] ∧
    (plainRange 0 0 0 5).Within (plainRange 0 0 0 10) ∧
    (sharedStart.values.map fun r => (r.start, r.stop)).Nodup := by
  refine ⟨rfl, by decide, by decide⟩

/-! ## Windows of lines -/

/-- The range shares a line with the window. -/
def SharesLine (r : RangeData) (startLine endLine : ℤ) : Prop :=
  ∃ line, (r.startLine ≤ line ∧ line ≤ r.endLine) ∧ startLine ≤ line ∧ line < endLine

instance (r : RangeData) (startLine endLine : ℤ) : Decidable (SharesLine r startLine endLine) :=
  decidable_of_iff (max r.startLine startLine ≤ r.endLine ∧ max r.startLine startLine < endLine)
    ⟨fun h => ⟨max r.startLine startLine, ⟨le_max_left _ _, h.1⟩, le_max_right _ _, h.2⟩,
      fun ⟨_, hr, hwindow⟩ => ⟨(max_le hr.1 hwindow.1).trans hr.2,
        (max_le hr.1 hwindow.1).trans_lt hwindow.2⟩⟩

/-- **The range starts before the window and ends after it.** -/
def Covers (r : RangeData) (startLine endLine : ℤ) : Prop :=
  r.startLine < startLine ∧ endLine ≤ r.endLine

instance (r : RangeData) (startLine endLine : ℤ) : Decidable (Covers r startLine endLine) :=
  inferInstanceAs (Decidable (_ ∧ _))

theorem sharesLine_iff {r : RangeData} {startLine endLine : ℤ} (hr : r.startLine ≤ r.endLine)
    (hwindow : startLine < endLine) :
    SharesLine r startLine endLine ↔
      rangeIntersectsSpan r startLine endLine = true ∨ Covers r startLine endLine := by
  unfold SharesLine rangeIntersectsSpan Covers
  rw [Bool.or_eq_true, decide_eq_true_eq, decide_eq_true_eq]
  constructor
  · rintro ⟨line, hline⟩
    omega
  · intro h
    refine ⟨max r.startLine startLine, ?_⟩
    omega

theorem not_covers_of_intersects {r : RangeData} {startLine endLine : ℤ}
    (h : rangeIntersectsSpan r startLine endLine = true) : ¬Covers r startLine endLine := by
  unfold rangeIntersectsSpan at h
  rw [Bool.or_eq_true, decide_eq_true_eq, decide_eq_true_eq] at h
  unfold Covers
  omega

/-- Reading order: by the start, then by the end. -/
def readingKey (r : RangeData) : Position ×ₗ Position := toLex (r.start, r.stop)

theorem compareRanges_neg {a b : RangeData} :
    compareRanges a b < 0 ↔ readingKey a < readingKey b := by
  unfold compareRanges readingKey start stop
  rw [Prod.Lex.toLex_lt_toLex, Prod.Lex.toLex_lt_toLex, Prod.Lex.toLex_lt_toLex]
  simp only [EmbeddingLike.apply_eq_iff_eq, Prod.mk.injEq]
  split_ifs <;> simp <;> omega

/-- **A window has all ranges that share a line with it, in reading order**,
exactly if no range covers the window. -/
theorem findRangesInWindow_exact_iff {ranges : GoMap ID RangeData}
    (hwf : ∀ r ∈ ranges.values, r.start ≤ r.stop) {startLine endLine : ℤ}
    (hwindow : startLine < endLine) :
    (∀ sorter order,
      (findRangesInWindow sorter order ranges startLine endLine).Perm
        (ranges.values.filter fun r => decide (SharesLine r startLine endLine)) ∧
      (findRangesInWindow sorter order ranges startLine endLine).Pairwise
        fun r r' => readingKey r ≤ readingKey r') ↔
    ∀ r ∈ ranges.values, ¬Covers r startLine endLine := by
  have hlines : ∀ r ∈ ranges.values, r.startLine ≤ r.endLine := fun r hr =>
    (Prod.Lex.toLex_le_toLex.mp (hwf r hr)).elim (fun h => h.le) fun h => h.1.le
  have hperm : ∀ sorter order, (findRangesInWindow sorter order ranges startLine endLine).Perm
      (ranges.values.filter fun r => rangeIntersectsSpan r startLine endLine) := fun sorter order =>
    (sorter.sort_perm _ _).trans ((order.range_perm [] ranges.values).filter _)
  constructor
  · intro h r hr hcovers
    have hshares := (sharesLine_iff (hlines r hr) hwindow).mpr (.inr hcovers)
    have hfound := ((hperm .byInsertion .byEntries).symm.trans
      (h .byInsertion .byEntries).1).mem_iff.mpr (mem_filter.mpr ⟨hr, decide_eq_true hshares⟩)
    exact not_covers_of_intersects (mem_filter.mp hfound).2 hcovers
  · intro hcovers sorter order
    refine ⟨?_, sorter.pairwise_of_key readingKey (fun a b => ?_) _⟩
    · refine (hperm sorter order).trans (List.Perm.of_eq (filter_congr fun r hr => ?_))
      rw [Bool.eq_iff_iff, decide_eq_true_iff, sharesLine_iff (hlines r hr) hwindow,
        or_iff_left (hcovers r hr)]
    · rw [decide_eq_true_iff, compareRanges_neg]

theorem findRangesInWindow_nestedRanges :
    (findRangesInWindow .byInsertion .byEntries nestedRanges 3 6).Perm
        (nestedRanges.values.filter fun r => decide (SharesLine r 3 6)) ∧
      (findRangesInWindow .byInsertion .byEntries nestedRanges 3 6).Pairwise
        fun r r' => readingKey r ≤ readingKey r' :=
  (findRangesInWindow_exact_iff (by decide) (by decide)).mpr (by decide) _ _

/-- **A range that is missed.** The range on the lines from 0 to 4 shares all
lines of the window from 1 up to 3. -/
theorem findRangesInWindow_misses :
    plainRange 0 3 4 5 ∈ nestedRanges.values ∧ SharesLine (plainRange 0 3 4 5) 1 3 ∧
      ∀ sorter order, plainRange 0 3 4 5 ∉ findRangesInWindow sorter order nestedRanges 1 3 := by
  refine ⟨by decide, by decide, fun sorter order hfound => ?_⟩
  have hmem := (sorter.sort_perm _ _).mem_iff.mp hfound
  exact absurd (mem_filter.mp hmem).2 (by decide)

end Precise
