import CodeScout.LineTranslation
import CodeScout.Util.GoSort
import CodeScout.Util.SwapSort
import Mathlib

/-!
# The ranges of a stencil

The ranges of a stencil are sorted, and of equal ones that are next to each
other one is kept. The comparison is to put ranges in the order of their starts
and, where these are equal, smaller ranges first. For equal starts and ends on the
same line it compares the end of the second range with its own start, and not
with the end of the first one. Of two such ranges that are not empty each is less
than the other one, and the comparison is an order on the ranges of a list only
if it has no such two (`sortRanges_iff`).
-/

namespace Codenav

open List

/-! ## Sorting and removing repetitions -/

/-- The comparison of `sortRanges`. -/
def rangeLess (a b : Range) : Bool :=
  if a.start.line < b.start.line then true
  else if a.start.line > b.start.line then false
  else if a.start.character < b.start.character then true
  else if a.start.character > b.start.character then false
  else if b.stop.line < a.stop.line then false
  else if b.start.line < b.stop.line then true
  else decide (b.start.character < b.stop.character)

/-- The ranges are sorted in place: no position is compared with itself. -/
def sortRanges (sorter : SliceSort) (ranges : List Range) : List Range :=
  sorter.sortPositions rangeLess ranges

/-- An iteration of the loop of `dedupeRanges`. The first range is always added. -/
def addUnlessLast (dedup : List Range) (s : Range) : List Range :=
  if dedup.getLast? = some s then dedup else dedup ++ [s]

/-- Of equal ranges that are next to each other, one is kept. -/
def dedupeRanges (ranges : List Range) : List Range := ranges.foldl addUnlessLast []

/-! ## The order -/

/-- By line, then by character. -/
def Position.key (p : Position) : ℤ ×ₗ ℤ := toLex (p.line, p.character)

theorem Position.key_injective : Function.Injective Position.key := by
  rintro ⟨l, c⟩ ⟨l', c'⟩ h
  cases h
  rfl

/-- Ranges in the order of their starts, and smaller ranges first. -/
def Range.key (r : Range) : (ℤ ×ₗ ℤ) ×ₗ (ℤ ×ₗ ℤ) := toLex (r.start.key, r.stop.key)

theorem Range.key_injective : Function.Injective Range.key := by
  intro a b h
  have hpair := toLex_inj.mp h
  obtain ⟨start, stop⟩ := a
  obtain rfl : start = b.start := Position.key_injective (Prod.ext_iff.mp hpair).1
  obtain rfl : stop = b.stop := Position.key_injective (Prod.ext_iff.mp hpair).2
  rfl

theorem Range.key_lt_iff (a b : Range) : a.key < b.key ↔
    a.start.key < b.start.key ∨ a.start = b.start ∧ a.stop.key < b.stop.key := by
  rw [Range.key, Range.key, Prod.Lex.toLex_lt_toLex, Position.key_injective.eq_iff]

/-- Two ranges do not start at the same place and end on the same line, or one of
them is empty. -/
def Apart (a b : Range) : Prop :=
  a.start = b.start → a.stop.line = b.stop.line → a.start = a.stop ∨ b.start = b.stop

instance : DecidableRel Apart := fun _ _ => inferInstanceAs (Decidable (_ → _ → _))

/-- **The comparison is the order** on two ranges that are apart. -/
theorem rangeLess_iff_of_apart {a b : Range} (ha : a.start.key ≤ a.stop.key)
    (hb : b.start.key ≤ b.stop.key) (h : Apart a b) : rangeLess a b = true ↔ a.key < b.key := by
  obtain ⟨⟨al, ac⟩, ⟨al', ac'⟩⟩ := a
  obtain ⟨⟨bl, bc⟩, ⟨bl', bc'⟩⟩ := b
  simp only [Apart, Position.mk.injEq] at h
  simp only [Position.key, Prod.Lex.toLex_le_toLex] at ha hb
  simp only [Range.key_lt_iff, Position.key, Prod.Lex.toLex_lt_toLex, Position.mk.injEq,
    rangeLess]
  grind

/-- Of two ranges that are not apart, each is less than the other one. -/
theorem rangeLess_of_not_apart {a b : Range} (hb : b.start.key ≤ b.stop.key)
    (h : ¬Apart a b) : rangeLess a b = true := by
  obtain ⟨⟨al, ac⟩, ⟨al', ac'⟩⟩ := a
  obtain ⟨⟨bl, bc⟩, ⟨bl', bc'⟩⟩ := b
  simp only [Apart, Position.mk.injEq] at h
  simp only [Position.key, Prod.Lex.toLex_le_toLex] at hb
  unfold rangeLess
  grind

/-! ## Ranges in order and without repetitions -/

theorem addUnlessLast_spec {dedup : List Range} {s : Range}
    (hsorted : dedup.Pairwise (·.key < ·.key)) (hle : ∀ r ∈ dedup, r.key ≤ s.key) :
    (addUnlessLast dedup s).Pairwise (·.key < ·.key) ∧
      ∀ r, r ∈ addUnlessLast dedup s ↔ r ∈ dedup ∨ r = s := by
  unfold addUnlessLast
  split_ifs with hs
  · refine ⟨hsorted, fun r => (or_iff_left_of_imp ?_).symm⟩
    rintro rfl
    exact mem_of_getLast? hs
  · refine ⟨pairwise_append.mpr ⟨hsorted, pairwise_singleton _ _, ?_⟩, fun r => ?_⟩
    · intro a ha b hb
      rw [mem_singleton.mp hb]
      refine lt_of_le_of_ne (hle a ha) fun heq => ?_
      -- it would be before the last one, which is before the new one
      obtain rfl := Range.key_injective heq
      obtain ⟨l, last, rfl⟩ := (eq_nil_or_concat' dedup).resolve_left (ne_nil_of_mem ha)
      have hlast : last ∈ l ++ [last] := mem_append_right l (mem_singleton_self last)
      have hne : a ≠ last := by
        rintro rfl
        exact hs getLast?_concat
      have hmem : a ∈ l := (mem_append.mp ha).resolve_right (hne ∘ mem_singleton.mp)
      have hlt := (pairwise_append.mp hsorted).2.2 a hmem last (mem_singleton_self last)
      exact absurd hlt (not_lt.mpr (hle last hlast))
    · rw [mem_append, mem_singleton]

/-- **Of ranges that are sorted each one is kept once.** -/
theorem dedupeRanges_spec {ranges : List Range} (h : ranges.Pairwise (·.key ≤ ·.key)) :
    (dedupeRanges ranges).Pairwise (·.key < ·.key) ∧
      ∀ r, r ∈ dedupeRanges ranges ↔ r ∈ ranges := by
  induction ranges using reverseRecOn with
  | nil => exact ⟨.nil, fun _ => Iff.rfl⟩
  | append_singleton ranges s ih =>
    rw [pairwise_append] at h
    obtain ⟨hsorted, hmem⟩ := ih h.1
    have hstep : dedupeRanges (ranges ++ [s]) = addUnlessLast (dedupeRanges ranges) s :=
      foldl_concat _ _ _ _
    obtain ⟨hsorted', hmem'⟩ := addUnlessLast_spec hsorted fun r hr =>
      h.2.2 r ((hmem r).mp hr) s (mem_singleton_self s)
    rw [hstep]
    refine ⟨hsorted', fun r => ?_⟩
    rw [hmem', hmem, mem_append, mem_singleton]

/-- **The ranges come out sorted and unique**: the comparison is an order on their
positions, the one that is wanted, and whatever the sorting algorithm is, each
range is there once and they are in that order. -/
structure SortedUnique (ranges : List Range) : Prop where
  strictWeak : SwapSort.StrictWeak (SliceSort.lessAt rangeLess ranges)
  order : ∀ a ∈ ranges, ∀ b ∈ ranges, a.key < b.key → rangeLess a b = true
  sorted : ∀ sorter, (dedupeRanges (sortRanges sorter ranges)).Pairwise (·.key < ·.key)
  mem_iff : ∀ sorter r, r ∈ dedupeRanges (sortRanges sorter ranges) ↔ r ∈ ranges

theorem apart_symm {a b : Range} (h : Apart a b) : Apart b a :=
  fun hstart hline => (h hstart.symm hline.symm).symm

/-- **The ranges come out sorted and unique exactly if any two are apart**: no two
of them start at the same place, end on the same line, and are not empty. -/
theorem sortRanges_iff {ranges : List Range}
    (hends : ∀ r ∈ ranges, r.start.key ≤ r.stop.key) :
    SortedUnique ranges ↔ ranges.Pairwise Apart := by
  constructor
  · intro h
    refine pairwise_iff_get.mpr fun i j hij => of_not_not fun hnot => ?_
    -- each of the two is less than the other one
    have hlt : SliceSort.lessAt rangeLess ranges i j = true :=
      Bool.and_eq_true_iff.mpr ⟨decide_eq_true hij.ne,
        rangeLess_of_not_apart (hends _ (get_mem ranges j)) hnot⟩
    have hgt : SliceSort.lessAt rangeLess ranges j i = true :=
      Bool.and_eq_true_iff.mpr ⟨decide_eq_true hij.ne',
        rangeLess_of_not_apart (hends _ (get_mem ranges i)) (hnot ∘ apart_symm)⟩
    exact Bool.false_ne_true ((h.strictWeak.asymm i j hlt).symm.trans hgt)
  · intro hapart
    have hpair : ∀ i j : Fin ranges.length, i ≠ j → Apart (ranges.get i) (ranges.get j) :=
      fun i j hij => hij.lt_or_gt.elim (pairwise_iff_get.mp hapart i j)
        fun hji => apart_symm (pairwise_iff_get.mp hapart j i hji)
    have hiff : ∀ i j, SliceSort.lessAt rangeLess ranges i j = true ↔
        (ranges.get i).key < (ranges.get j).key := by
      intro i j
      rw [SliceSort.lessAt, Bool.and_eq_true, decide_eq_true_iff]
      by_cases hij : i = j
      · subst hij
        exact iff_of_false (fun h => h.1 rfl) (lt_irrefl _)
      · rw [and_iff_right hij]
        exact rangeLess_iff_of_apart (hends _ (get_mem ranges i)) (hends _ (get_mem ranges j))
          (hpair i j hij)
    have hsorted : ∀ sorter : SliceSort,
        (sortRanges sorter ranges).Pairwise (·.key ≤ ·.key) := fun sorter =>
      sorter.pairwise_sortPositions_of_key Range.key hiff
    refine ⟨.of_key (fun i => (ranges.get i).key) hiff, fun a ha b hb hlt => ?_, ?_, ?_⟩
    · obtain ⟨i, rfl⟩ := get_of_mem ha
      obtain ⟨j, rfl⟩ := get_of_mem hb
      exact (Bool.and_eq_true_iff.mp ((hiff i j).mpr hlt)).2
    · exact fun sorter => (dedupeRanges_spec (hsorted sorter)).1
    · intro sorter r
      rw [(dedupeRanges_spec (hsorted sorter)).2]
      exact (sorter.sortPositions_perm rangeLess ranges).mem_iff

/-- A range from the start of a file. -/
def firstCharacters (n : ℤ) : Range := ⟨⟨0, 0⟩, ⟨0, n⟩⟩

/-- An empty range twice, and ranges from its place on to different lines. -/
theorem sortRanges_nested :
    SortedUnique [⟨⟨0, 0⟩, ⟨2, 1⟩⟩, firstCharacters 0, firstCharacters 3, firstCharacters 0] :=
  (sortRanges_iff (by decide)).mpr (by decide)

/-- **One range comes out twice.** -/
theorem sortRanges_twice :
    let ranges := [firstCharacters 1, firstCharacters 2, firstCharacters 1]
    (∀ r ∈ ranges, r.start.key ≤ r.stop.key) ∧
      dedupeRanges (sortRanges .byInsertion ranges) = ranges ∧ ¬ SortedUnique ranges := by
  refine ⟨by decide, by decide, fun h => ?_⟩
  have hsorted := h.sorted .byInsertion
  exact absurd hsorted (by decide)

end Codenav
