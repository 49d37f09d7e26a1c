import Mathlib
import CodeScout.Util.EditScript
import CodeScout.Util.GoStrconv

/-!
# Translating lines between commits

Code intelligence that was computed for one commit is shown for another one.
The lines of its positions are moved along the hunks of the diff of the two
commits: `translateLineNumbers` finds the last hunk that starts before the
line, walks through its body when the line is in it, and otherwise shifts
the line by how far the ends of the hunk are apart.

A diff is data here: the edit script between the two files, cut into the
hunks and the kept lines between them. The translation follows the script
but in one place. A hunk that has no line of the target starts, by the
convention of its header, at the line *before* it, and not at the line after
it as all others do; the lines that follow such a hunk are moved one line too
far up, so that the translation is right exactly when there are none
(`translateLineNumbers_follows`).
-/

namespace Codenav

open Edit List

/-! ## The translation -/

/-- A hunk of a diff. -/
structure Hunk where
  origStartLine : Int32
  origLines : Int32
  newStartLine : Int32
  newLines : Int32
  body : GoString
deriving DecidableEq

/-- **`findHunk`**: the last hunk that does not begin after the line. The
loop stops at the first one that does. -/
def findHunk (hunks : List Hunk) (line : ℤ) : Option Hunk :=
  let i := (hunks.takeWhile fun hunk => hunk.origStartLine.toInt ≤ line).length
  if i = 0 then none else hunks[i - 1]?

/-- The loop of `translateLineNumbers` over the body of a hunk. It panics at
the end of the body. -/
def walkBody (line : ℤ) : ℤ → ℤ → List GoString → Option (ℤ × Bool)
  | _, _, [] => none
  | sourceOffset, targetOffset, deltaLine :: lines =>
    let isAdded := (lit "+").isPrefixOf deltaLine
    let isRemoved := (lit "-").isPrefixOf deltaLine
    let sourceOffset := if !isAdded then sourceOffset + 1 else sourceOffset
    if sourceOffset - 1 = line then
      if isAdded || isRemoved then some (0, false) else some (targetOffset - 1, true)
    else
      walkBody line sourceOffset (if !isRemoved then targetOffset + 1 else targetOffset) lines

/-- What `translateLineNumbers` does once it has found the hunk. -/
def translateAt (hunk : Hunk) (line : ℤ) : Option (ℤ × Bool) :=
  if line ≥ (hunk.origStartLine + hunk.origLines).toInt then
    let endOfSourceHunk := (hunk.origStartLine + hunk.origLines).toInt
    let endOfTargetHunk := (hunk.newStartLine + hunk.newLines).toInt
    let targetCommitLineNumber := line + (endOfTargetHunk - endOfSourceHunk)
    some (targetCommitLineNumber - 1, true)
  else
    walkBody line hunk.origStartLine.toInt hunk.newStartLine.toInt (hunk.body.splitOn 10)

/-- **`translateLineNumbers`**: the line and whether it was translated, or a
panic. -/
def translateLineNumbers (hunks : List Hunk) (line : ℤ) : Option (ℤ × Bool) :=
  let line := line + 1
  match findHunk hunks line with
  | none => some (line - 1, true)
  | some hunk => translateAt hunk line

/-- A position in a file. -/
structure Position where
  line : ℤ := 0
  character : ℤ := 0
deriving DecidableEq

/-- A range of a file. -/
structure Range where
  start : Position := {}
  stop : Position := {}
deriving DecidableEq

/-! ## Diffs -/

/-- The kept lines before a hunk, and what the hunk does. -/
structure Segment where
  gap : List GoString
  edits : List (Edit GoString)

/-- **A diff**: its hunks with the kept lines before each, and the kept lines
after the last. -/
structure Diff where
  segments : List Segment
  rest : List GoString

/-- The edit script of segments. -/
def scriptFrom (rest : List GoString) : List Segment → List (Edit GoString)
  | [] => rest.map kept
  | s :: segments => s.gap.map kept ++ (s.edits ++ scriptFrom rest segments)

/-- The edit script of a diff. -/
def Diff.script (d : Diff) : List (Edit GoString) := scriptFrom d.rest d.segments

/-- A line of the body of a hunk. -/
def deltaLine : Edit GoString → GoString
  | kept text => lit " " ++ text
  | removed text => lit "-" ++ text
  | added text => lit "+" ++ text

/-- **A hunk that is well formed**: it comes after `a` lines of the source and
`b` lines of the target, and has a line of the source. Where it has no line
of the target, its header names the line before. The body may end with a
newline. -/
structure IsHunk (a b : ℕ) (edits : List (Edit GoString)) (hunk : Hunk) : Prop where
  nonempty : sources edits ≠ []
  origStartLine : hunk.origStartLine.toInt = a + 1
  origLines : hunk.origLines.toInt = (sources edits).length
  newStartLine : hunk.newStartLine.toInt = if targets edits = [] then (b : ℤ) else b + 1
  newLines : hunk.newLines.toInt = (targets edits).length
  body : ∃ ending, (ending = [] ∨ ending = [[]])
    ∧ hunk.body.splitOn 10 = edits.map deltaLine ++ ending

/-- The hunks of segments that come after `a` lines of the source and `b`
lines of the target. -/
inductive Headed : ℕ → ℕ → List Segment → List Hunk → Prop
  | nil (a b : ℕ) : Headed a b [] []
  | cons {a b : ℕ} {s : Segment} {segments : List Segment} {hunk : Hunk} {hunks : List Hunk}
      (head : IsHunk (a + s.gap.length) (b + s.gap.length) s.edits hunk)
      (tail : Headed (a + s.gap.length + (sources s.edits).length)
        (b + s.gap.length + (targets s.edits).length) segments hunks) :
      Headed a b (s :: segments) (hunk :: hunks)

/-- **The hunks of a diff** from one file to another. -/
structure Diff.Describes (d : Diff) (A B : List GoString) (hunks : List Hunk) : Prop where
  source : sources d.script = A
  target : targets d.script = B
  headed : Headed 0 0 d.segments hunks

/-- The kept lines that come first. -/
def firstGap (rest : List GoString) : List Segment → List GoString
  | [] => rest
  | s :: _ => s.gap

/-- No kept line comes right after a hunk without lines of the target. -/
def anchoredFrom (rest : List GoString) : List Segment → Prop
  | [] => True
  | s :: segments =>
    (targets s.edits = [] → firstGap rest segments = []) ∧ anchoredFrom rest segments

/-- **No kept line comes right after a hunk without lines of the target.** -/
def Diff.Anchored (d : Diff) : Prop := anchoredFrom d.rest d.segments

/-- The ends of the hunk are numbers of lines. -/
def Hunk.Fits (hunk : Hunk) : Prop :=
  hunk.origStartLine.toInt + hunk.origLines.toInt < 2 ^ 31
    ∧ hunk.newStartLine.toInt + hunk.newLines.toInt < 2 ^ 31

/-- **The answer follows the script** for a line of its source: the line it is
paired with, where the target starts at line `b`, or a failure if there is
none. -/
def Follows (es : List (Edit GoString)) (b : ℤ) (i : ℕ) (answer : Option (ℤ × Bool)) : Prop :=
  (∃ j, Pairs es i j ∧ answer = some (b + j, true))
    ∨ (∀ j, ¬Pairs es i j) ∧ answer = some (0, false)

/-! ## Following a script -/

variable {answer : Option (ℤ × Bool)} {es es' : List (Edit GoString)} {i : ℕ}

theorem follows_append_left {b : ℤ} (hi : i < (sources es).length) :
    Follows (es ++ es') b i answer ↔ Follows es b i answer := by
  have hpairs : ∀ j, Pairs (es ++ es') i j ↔ Pairs es i j := by
    intro j
    rw [pairs_append]
    refine or_iff_left ?_
    rintro ⟨i', -, rfl, -⟩
    exact Nat.not_lt.mpr (Nat.le_add_right _ i') hi
  unfold Follows
  simp only [hpairs]

theorem follows_append_right {b : ℤ} :
    Follows (es ++ es') b ((sources es).length + i) answer
      ↔ Follows es' (b + (targets es).length) i answer := by
  have hpairs : ∀ j, Pairs (es ++ es') ((sources es).length + i) j
      ↔ ∃ j', j = (targets es).length + j' ∧ Pairs es' i j' := by
    intro j
    rw [pairs_append]
    constructor
    · rintro (h | ⟨i', j', hi, rfl, h⟩)
      · exact absurd h.lt.1 (Nat.not_lt.mpr (Nat.le_add_right _ i))
      · obtain rfl := Nat.add_left_cancel hi
        exact ⟨j', rfl, h⟩
    · rintro ⟨j', rfl, h⟩
      exact .inr ⟨i, j', rfl, rfl, h⟩
  unfold Follows
  simp only [hpairs]
  refine or_congr ⟨?_, ?_⟩ (and_congr_left' ⟨?_, ?_⟩)
  · rintro ⟨-, ⟨j, rfl, h⟩, rfl⟩
    refine ⟨j, h, ?_⟩
    rw [Nat.cast_add, add_assoc]
  · rintro ⟨j, h, rfl⟩
    refine ⟨_, ⟨j, rfl, h⟩, ?_⟩
    rw [Nat.cast_add, add_assoc]
  · exact fun h j hj => h _ ⟨j, rfl, hj⟩
  · rintro h - ⟨j, -, hj⟩
    exact h j hj

theorem follows_kept {as : List GoString} {b : ℤ} (hi : i < as.length) :
    Follows (as.map kept) b i answer ↔ answer = some (b + i, true) := by
  unfold Follows
  simp only [pairs_kept]
  constructor
  · rintro (⟨j, ⟨rfl, -⟩, h⟩ | ⟨h, -⟩)
    · exact h
    · exact absurd ⟨rfl, hi⟩ (h i)
  · exact fun h => .inl ⟨i, ⟨rfl, hi⟩, h⟩

/-- The lines of a script are those of its first part and those of its
second part. -/
theorem forall_follows_append {b : ℤ} {answer : ℕ → Option (ℤ × Bool)} :
    (∀ i < (sources (es ++ es')).length, Follows (es ++ es') b i (answer i))
      ↔ (∀ i < (sources es).length, Follows es b i (answer i))
        ∧ ∀ i < (sources es').length,
          Follows es' (b + (targets es).length) i (answer ((sources es).length + i)) := by
  rw [sources_append, length_append]
  constructor
  · intro h
    refine ⟨fun i hi => ?_, fun i hi => ?_⟩
    · exact (follows_append_left hi).mp (h i (Nat.lt_add_right _ hi))
    · exact follows_append_right.mp (h _ (Nat.add_lt_add_left hi _))
  · rintro ⟨hleft, hright⟩ i hi
    rcases Nat.lt_or_ge i (sources es).length with hlt | hge
    · exact (follows_append_left hlt).mpr (hleft i hlt)
    · obtain ⟨k, rfl⟩ := Nat.exists_eq_add_of_le hge
      exact follows_append_right.mpr (hright k (Nat.lt_of_add_lt_add_left hi))

/-! ## Inside a hunk -/

theorem isPrefixOf_plus (e : Edit GoString) :
    (lit "+").isPrefixOf (deltaLine e) = e.source.isNone := by
  have hplus : lit "+" = [43] := by decide
  have hminus : lit "-" = [45] := by decide
  have hblank : lit " " = [32] := by decide
  cases e <;> simp [deltaLine, hplus, hminus, hblank, source, isPrefixOf]

theorem isPrefixOf_minus (e : Edit GoString) :
    (lit "-").isPrefixOf (deltaLine e) = e.target.isNone := by
  have hplus : lit "+" = [43] := by decide
  have hminus : lit "-" = [45] := by decide
  have hblank : lit " " = [32] := by decide
  cases e <;> simp [deltaLine, hplus, hminus, hblank, target, isPrefixOf]

theorem walkBody_deltaLine (e : Edit GoString) (lines : List GoString) (line s t : ℤ) :
    walkBody line s t (deltaLine e :: lines)
      = if s + (sources [e]).length - 1 = line then
          if e.source.isNone || e.target.isNone then some (0, false) else some (t - 1, true)
        else walkBody line (s + (sources [e]).length) (t + (targets [e]).length) lines := by
  rw [walkBody, isPrefixOf_plus, isPrefixOf_minus]
  cases e with
  | kept text => rfl
  | removed text =>
    rw [show (targets [removed text]).length = 0 from rfl, Nat.cast_zero, add_zero]
    rfl
  | added text =>
    rw [show (sources [added text]).length = 0 from rfl, Nat.cast_zero, add_zero]
    rfl

/-- **The walk follows the edits of the hunk.** The induction is on the
edits; the counters are one more than the lines that were passed. -/
theorem follows_walkBody (ending : List GoString) : ∀ {es : List (Edit GoString)} {s t : ℤ} {i : ℕ},
    i < (sources es).length →
    Follows es (t - 1) i (walkBody (s + i) s t (es.map deltaLine ++ ending)) := by
  intro es
  induction es with
  | nil => exact fun h => absurd h (Nat.not_lt_zero _)
  | cons e es ih =>
    intro s t i hi
    rw [map_cons, cons_append, walkBody_deltaLine]
    rw [← singleton_append, sources_append, length_append] at hi
    rw [← singleton_append]
    rcases Nat.lt_or_ge i (sources [e]).length with hlt | hge
    · -- the line is the one of this edit
      have hone : (sources [e]).length ≤ 1 := length_filterMap_le _ _
      obtain rfl : i = 0 := by omega
      have hlen : (sources [e]).length = 1 := by omega
      rw [follows_append_left hlt, if_pos (by rw [hlen]; ring)]
      cases e with
      | kept text => 
        refine .inl ⟨0, pairs_singleton.mpr ⟨⟨text, rfl⟩, rfl, rfl⟩, ?_⟩
        rw [Nat.cast_zero, add_zero]
        rfl
      | removed text =>
        refine .inr ⟨fun j hpair => ?_, rfl⟩
        obtain ⟨⟨_, h⟩, -⟩ := pairs_singleton.mp hpair
        exact nomatch h
      | added text => exact absurd hlen Nat.zero_ne_one
    · obtain ⟨k, rfl⟩ := Nat.exists_eq_add_of_le hge
      rw [follows_append_right, if_neg (by push_cast; omega)]
      have hk := ih (Nat.lt_of_add_lt_add_left hi) (s := s + (sources [e]).length)
        (t := t + (targets [e]).length)
      rw [show t + ((targets [e]).length : ℤ) - 1 = t - 1 + (targets [e]).length by ring] at hk
      rw [show s + ((sources [e]).length : ℤ) + k = s + ((sources [e]).length + k : ℕ) by
        push_cast; ring] at hk
      exact hk

theorem Hunk.Fits.toInt_end {x y : Int32} (hx : 0 ≤ x.toInt) (hy : 0 ≤ y.toInt)
    (h : x.toInt + y.toInt < 2 ^ 31) : (x + y).toInt = x.toInt + y.toInt := by
  rw [Int32.toInt_add]
  exact Int.bmod_eq_of_le (by omega) (by omega)

/-- How far a hunk moves the lines after it. -/
def Hunk.shift (hunk : Hunk) : ℤ :=
  (hunk.newStartLine + hunk.newLines).toInt - (hunk.origStartLine + hunk.origLines).toInt

section hunk

variable {a b : ℕ} {edits : List (Edit GoString)} {hunk : Hunk}

theorem IsHunk.origEnd (h : IsHunk a b edits hunk) (hfits : hunk.Fits) :
    (hunk.origStartLine + hunk.origLines).toInt = a + 1 + (sources edits).length := by
  have hx := h.origStartLine
  have hy := h.origLines
  rw [Hunk.Fits.toInt_end (by omega) (by omega) hfits.1, hx, hy]

theorem IsHunk.newStartLine_nonneg (h : IsHunk a b edits hunk) : 0 ≤ hunk.newStartLine.toInt := by
  rw [h.newStartLine]
  split <;> omega

theorem IsHunk.newEnd (h : IsHunk a b edits hunk) (hfits : hunk.Fits) :
    (hunk.newStartLine + hunk.newLines).toInt
      = (if targets edits = [] then (b : ℤ) else b + 1) + (targets edits).length := by
  have hy := h.newLines
  rw [Hunk.Fits.toInt_end h.newStartLine_nonneg (by omega) hfits.2, h.newStartLine, hy]

/-- **The shift is right unless the hunk has no line of the target.** -/
theorem IsHunk.shift_eq_iff (h : IsHunk a b edits hunk) (hfits : hunk.Fits) :
    hunk.shift = (b + (targets edits).length : ℕ) - (a + (sources edits).length : ℕ)
      ↔ targets edits ≠ [] := by
  unfold Hunk.shift
  rw [h.newEnd hfits, h.origEnd hfits]
  by_cases hempty : targets edits = []
  · rw [if_pos hempty]
    refine iff_of_false ?_ (not_not_intro hempty)
    push_cast
    omega
  · rw [if_neg hempty]
    refine iff_of_true ?_ hempty
    push_cast
    ring

/-- Inside the hunk the answers follow its edits. -/
theorem IsHunk.follows_translateAt (h : IsHunk a b edits hunk) (hfits : hunk.Fits)
    (hi : i < (sources edits).length) :
    Follows edits b i (translateAt hunk (a + i + 1)) := by
  obtain ⟨ending, -, hbody⟩ := h.body
  unfold translateAt
  rw [h.origEnd hfits, if_neg (by omega), hbody, h.origStartLine]
  have hwalk := follows_walkBody ending hi (s := a + 1) (t := hunk.newStartLine.toInt)
  rw [show (a : ℤ) + 1 + i = a + i + 1 by ring] at hwalk
  by_cases hempty : targets edits = []
  · -- nothing is kept, so where the target starts does not matter
    rcases hwalk with ⟨j, hpair, -⟩ | hnone
    · exact absurd hpair.lt.2 (by rw [hempty]; exact Nat.not_lt_zero _)
    · exact .inr hnone
  · rw [h.newStartLine, if_neg hempty, add_sub_cancel_right] at hwalk
    rw [h.newStartLine, if_neg hempty]
    exact hwalk

theorem IsHunk.translateAt_after (h : IsHunk a b edits hunk) (hfits : hunk.Fits) {i : ℤ}
    (hi : a + (sources edits).length ≤ i) :
    translateAt hunk (i + 1) = some (i + hunk.shift, true) := by
  unfold translateAt
  rw [if_pos (by rw [h.origEnd hfits]; omega)]
  show some (i + 1 + hunk.shift - 1, true) = _
  rw [show i + 1 + hunk.shift - 1 = i + hunk.shift by ring]

end hunk

/-! ## All hunks -/

theorem findHunk_cons (hunk : Hunk) (hunks : List Hunk) (line : ℤ) :
    findHunk (hunk :: hunks) line
      = if hunk.origStartLine.toInt ≤ line then some ((findHunk hunks line).getD hunk)
        else none := by
  unfold findHunk
  rw [takeWhile_cons]
  by_cases hle : hunk.origStartLine.toInt ≤ line
  · simp only [hle, decide_true, if_true, length_cons, Nat.add_one_ne_zero, if_false,
      Nat.add_sub_cancel]
    by_cases hzero : (hunks.takeWhile fun hunk => hunk.origStartLine.toInt ≤ line).length = 0
    · rw [if_pos hzero, hzero]
      rfl
    · rw [if_neg hzero]
      obtain ⟨n, hn⟩ := Nat.exists_eq_succ_of_ne_zero hzero
      have hlt : n < hunks.length := by
        have := (List.takeWhile_prefix (l := hunks) fun hunk =>
          hunk.origStartLine.toInt ≤ line).length_le
        omega
      rw [hn, getElem?_cons_succ, Nat.succ_sub_one, getElem?_eq_getElem hlt]
      rfl
  · simp [hle]

/-- What `translateLineNumbers` does when the lines before the first hunk are
moved by `base`. -/
def translateFrom (base : ℤ) (hunks : List Hunk) (i : ℤ) : Option (ℤ × Bool) :=
  ((findHunk hunks (i + 1)).map fun hunk => translateAt hunk (i + 1)).getD (some (i + base, true))

theorem translateLineNumbers_eq (hunks : List Hunk) (i : ℤ) :
    translateLineNumbers hunks i = translateFrom 0 hunks i := by
  unfold translateLineNumbers translateFrom
  dsimp only
  cases findHunk hunks (i + 1) with
  | none =>
    show some (i + 1 - 1, true) = some (i + 0, true)
    rw [add_sub_cancel_right, add_zero]
  | some hunk => rfl

variable {hunks : List Hunk}

theorem Headed.findHunk_eq_none {a b : ℕ} {segments : List Segment}
    (h : Headed a b segments hunks) (hi : i < a) : findHunk hunks (i + 1) = none := by
  cases h with
  | nil => rfl
  | cons head tail =>
    rw [findHunk_cons, if_neg]
    rw [head.origStartLine]
    push_cast
    omega

/-- A hunk that the line comes after only moves what the next hunks do not. -/
theorem translateFrom_cons_after {a b : ℕ} {edits : List (Edit GoString)} {hunk : Hunk}
    (h : IsHunk a b edits hunk) (hfits : hunk.Fits) (base : ℤ) (hunks : List Hunk) {i : ℤ}
    (hi : a + (sources edits).length ≤ i) :
    translateFrom base (hunk :: hunks) i = translateFrom hunk.shift hunks i := by
  unfold translateFrom
  rw [findHunk_cons, if_pos (by rw [h.origStartLine]; omega)]
  cases findHunk hunks (i + 1) with
  | none => exact h.translateAt_after hfits hi
  | some hunk' => rfl

/-- Kept lines are moved as the hunk before says. -/
theorem forall_follows_gap {gap : List GoString} {a b : ℕ} {base : ℤ}
    (hnone : ∀ i < gap.length, findHunk hunks ((a + i : ℕ) + 1) = none) :
    (∀ i < gap.length, Follows (gap.map kept) b i (translateFrom base hunks (a + i : ℕ)))
      ↔ base = b - a ∨ gap = [] := by
  have heq : ∀ i < gap.length, Follows (gap.map kept) b i (translateFrom base hunks (a + i : ℕ))
      ↔ base = b - a := by
    intro i hi
    rw [follows_kept hi, translateFrom, hnone i hi]
    show some (((a + i : ℕ) : ℤ) + base, true) = _ ↔ _
    rw [Option.some.injEq, Prod.mk.injEq, and_iff_left rfl]
    push_cast
    constructor <;> intro h <;> omega
  cases gap with
  | nil => exact iff_of_true (fun i hi => absurd hi (Nat.not_lt_zero i)) (.inr rfl)
  | cons line gap =>
    constructor
    · exact fun h => .inl ((heq 0 (Nat.succ_pos _)).mp (h 0 (Nat.succ_pos _)))
    · rintro (h | h)
      · exact fun i hi => (heq i hi).mpr h
      · exact absurd h (cons_ne_nil _ _)

/-- **The answers follow the script exactly when every stretch of kept lines
is moved by the right distance.** The induction is on the hunks; `base` is
how far the hunk before them moves the lines after it. -/
theorem forall_follows_iff {rest : List GoString} {a b : ℕ} {segments : List Segment}
    (h : Headed a b segments hunks) (hfits : ∀ hunk ∈ hunks, hunk.Fits)
    (base : ℤ) :
    (∀ i < (sources (scriptFrom rest segments)).length,
        Follows (scriptFrom rest segments) b i (translateFrom base hunks (a + i : ℕ)))
      ↔ (base = b - a ∨ firstGap rest segments = []) ∧ anchoredFrom rest segments := by
  induction h generalizing base with
  | nil a b =>
    rw [scriptFrom, sources_kept, anchoredFrom, and_true]
    exact forall_follows_gap fun i _ => rfl
  | @cons a b s segments hunk hunks head tail ih =>
    have hhunk := hfits hunk mem_cons_self
    rw [scriptFrom, forall_follows_append, forall_follows_append, sources_kept, targets_kept]
    have hnone : ∀ i < s.gap.length, findHunk (hunk :: hunks) ((a + i : ℕ) + 1) = none := by
      intro i hi
      rw [findHunk_cons, if_neg]
      rw [head.origStartLine]
      push_cast
      omega
    have hedits : ∀ i < (sources s.edits).length, Follows s.edits (b + s.gap.length) i
        (translateFrom base (hunk :: hunks) (a + (s.gap.length + i) : ℕ)) := by
      intro i hi
      have hnone := tail.findHunk_eq_none (i := a + (s.gap.length + i)) (by omega)
      unfold translateFrom
      rw [findHunk_cons, if_pos (by rw [head.origStartLine]; push_cast; omega), hnone]
      have hfollows := head.follows_translateAt hhunk hi
      rw [show ((a + s.gap.length : ℕ) : ℤ) + i + 1 = (a + (s.gap.length + i) : ℕ) + 1 by
        push_cast; ring, Nat.cast_add] at hfollows
      exact hfollows
    have hrest := ih (fun hunk h => hfits hunk (mem_cons_of_mem _ h)) hunk.shift
    rw [head.shift_eq_iff hhunk] at hrest
    rw [forall_follows_gap hnone, and_iff_right hedits, anchoredFrom, imp_iff_not_or, ← hrest]
    refine and_congr_right' (forall₂_congr fun i _ => ?_)
    rw [show a + (s.gap.length + ((sources s.edits).length + i))
      = a + s.gap.length + (sources s.edits).length + i by omega]
    rw [translateFrom_cons_after head hhunk base hunks (by push_cast; omega)]
    push_cast
    exact Iff.rfl

/-! ## The main result -/

/-- Another diff keeps the same lines in the other direction. -/
def Diff.Reverses (d' d : Diff) : Prop := ∀ i j, Pairs d.script i j → Pairs d'.script j i

theorem Follows.eq_of_pairs {i j : ℕ}
    (h : Follows es 0 i answer) (hpair : Pairs es i j) : answer = some ((j : ℤ), true) := by
  rcases h with ⟨j', hpair', rfl⟩ | ⟨hnone, -⟩
  · rw [zero_add, hpair.unique hpair']
  · exact absurd hpair (hnone j)

theorem Follows.pairs_of_eq {line : ℤ}
    (h : Follows es 0 i answer) (heq : answer = some (line, true)) :
    ∃ j : ℕ, line = j ∧ Pairs es i j := by
  subst heq
  rcases h with ⟨j, hpair, h⟩ | ⟨-, h⟩
  · rw [zero_add] at h
    exact ⟨j, (Prod.mk.inj (Option.some.inj h)).1, hpair⟩
  · exact absurd (Prod.mk.inj (Option.some.inj h)).2 Bool.noConfusion

theorem Diff.Describes.follows_iff {d : Diff} {A B : List GoString}
    (h : d.Describes A B hunks) (hfits : ∀ hunk ∈ hunks, hunk.Fits) :
    (∀ i < A.length, Follows d.script 0 i (translateLineNumbers hunks i)) ↔ d.Anchored := by
  have hiff : _ ↔ (_ ∨ firstGap d.rest d.segments = []) ∧ d.Anchored :=
    forall_follows_iff h.headed hfits 0
  rw [and_iff_right (.inl (by rfl))] at hiff
  rw [← h.source]
  refine Iff.trans (forall₂_congr fun i _ => ?_) hiff
  rw [translateLineNumbers_eq, Nat.zero_add]
  exact Iff.rfl

/-- **Line translation.** Let the hunks describe a diff of two files, with
numbers of lines that do not overflow. Then every line of the first file is
translated as the diff pairs it, and the others fail, exactly when no kept
line comes right after a hunk without lines of the second file; and then the
translation is strictly increasing where it succeeds, and the hunks of a diff
in the other direction translate every result back. -/
theorem translateLineNumbers_follows {d : Diff} {A B : List GoString} {hunks : List Hunk}
    (h : d.Describes A B hunks) (hfits : ∀ hunk ∈ hunks, hunk.Fits) :
    ((∀ i < A.length, Follows d.script 0 i (translateLineNumbers hunks i)) ↔ d.Anchored)
      ∧ (d.Anchored →
        (∀ i i' : ℕ, ∀ line line' : ℤ, i < A.length → i' < A.length → i < i' →
          translateLineNumbers hunks i = some (line, true) →
          translateLineNumbers hunks i' = some (line', true) → line < line')
        ∧ ∀ (d' : Diff) (hunks' : List Hunk), d'.Describes B A hunks' →
          (∀ hunk ∈ hunks', hunk.Fits) → d'.Anchored → d'.Reverses d →
          ∀ i < A.length, ∀ line, translateLineNumbers hunks i = some (line, true) →
            translateLineNumbers hunks' line = some ((i : ℤ), true)) := by
  refine ⟨h.follows_iff hfits, fun hanchored => ?_⟩
  have hfollows := (h.follows_iff hfits).mpr hanchored
  refine ⟨fun i i' line line' hi hi' hlt heq heq' => ?_,
    fun d' hunks' h' hfits' hanchored' hreverses i hi line heq => ?_⟩
  · obtain ⟨j, rfl, hpair⟩ := (hfollows i hi).pairs_of_eq heq
    obtain ⟨j', rfl, hpair'⟩ := (hfollows i' hi').pairs_of_eq heq'
    exact Nat.cast_lt.mpr ((hpair.lt_iff hpair').mp hlt)
  · obtain ⟨j, rfl, hpair⟩ := (hfollows i hi).pairs_of_eq heq
    have hj : j < B.length := h.target ▸ hpair.lt.2
    exact ((h'.follows_iff hfits').mpr hanchored' j hj).eq_of_pairs (hreverses i j hpair)

/-- The other direction of a diff. -/
def Diff.swap (d : Diff) : Diff where
  segments := d.segments.map fun s => { s with edits := s.edits.map Edit.swap }
  rest := d.rest

theorem Diff.script_swap (d : Diff) : d.swap.script = d.script.map Edit.swap := by
  have hkept : ∀ lines : List GoString, (lines.map kept).map Edit.swap = lines.map kept := by
    intro lines
    rw [map_map]
    rfl
  unfold Diff.script Diff.swap
  dsimp only
  induction d.segments with
  | nil => exact (hkept d.rest).symm
  | cons s segments ih =>
    rw [map_cons, scriptFrom, scriptFrom, map_append, map_append, hkept, ih]

theorem Diff.reverses_swap (d : Diff) : d.swap.Reverses d := by
  intro i j hpair
  rw [Diff.script_swap]
  exact hpair.swap

/-- A file of three lines of which the second is changed. -/
def changedLine : Diff where
  segments := [⟨[lit "a"], [removed (lit "b"), added (lit "d")]⟩]
  rest := [lit "c"]

theorem changedLine_describes :
    changedLine.Describes [lit "a", lit "b", lit "c"] [lit "a", lit "d", lit "c"]
      [⟨2, 1, 2, 1, lit "-b\n+d\n"⟩] where
  source := by decide
  target := by decide
  headed := .cons
    ⟨by decide, by decide, by decide, by decide, by decide, [[]], .inr rfl, by decide⟩ (.nil _ _)

theorem changedLine_swap_describes :
    changedLine.swap.Describes [lit "a", lit "d", lit "c"] [lit "a", lit "b", lit "c"]
      [⟨2, 1, 2, 1, lit "+b\n-d\n"⟩] where
  source := by decide
  target := by decide
  headed := .cons
    ⟨by decide, by decide, by decide, by decide, by decide, [[]], .inr rfl, by decide⟩ (.nil _ _)

/-- Every line of the file is translated, and the last one is translated
back. -/
theorem translateLineNumbers_changedLine :
    changedLine.Anchored
      ∧ (∀ i < 3, Follows changedLine.script 0 i
          (translateLineNumbers [⟨2, 1, 2, 1, lit "-b\n+d\n"⟩] (i : ℕ)))
      ∧ translateLineNumbers [⟨2, 1, 2, 1, lit "+b\n-d\n"⟩] 2 = some (2, true) := by
  have hanchored : changedLine.Anchored := ⟨by decide, trivial⟩
  have hsum : (2 : Int32).toInt + (1 : Int32).toInt < 2 ^ 31 := by decide
  have hfits : ∀ body, Hunk.Fits ⟨2, 1, 2, 1, body⟩ := fun _ => ⟨hsum, hsum⟩
  obtain ⟨hfollows, hrest⟩ := translateLineNumbers_follows changedLine_describes
    (forall_mem_singleton.mpr (hfits _))
  refine ⟨hanchored, hfollows.mpr hanchored, ?_⟩
  exact (hrest hanchored).2 changedLine.swap _ changedLine_swap_describes
    (forall_mem_singleton.mpr (hfits _)) ⟨by decide, trivial⟩ changedLine.reverses_swap
    2 (by decide) 2 (by decide)

/-- A file of three lines of which the second is removed, without lines of
context. -/
def removedLine : Diff where
  segments := [⟨[lit "a"], [removed (lit "b")]⟩]
  rest := [lit "c"]

/-- **The line after a hunk without lines of the target is moved too far.**
The third line becomes the second one, and is translated to the first. -/
theorem translateLineNumbers_removedLine :
    removedLine.Describes [lit "a", lit "b", lit "c"] [lit "a", lit "c"]
        [⟨2, 1, 1, 0, lit "-b\n"⟩]
      ∧ Pairs removedLine.script 2 1
      ∧ translateLineNumbers [⟨2, 1, 1, 0, lit "-b\n"⟩] 2 = some (0, true) := by
  refine ⟨⟨by decide, by decide, .cons ?_ (.nil _ _)⟩, ?_, by decide⟩
  · exact ⟨by decide, by decide, by decide, by decide, by decide, [[]], .inr rfl, by decide⟩
  · exact ⟨[kept (lit "a"), removed (lit "b")], lit "c", [], rfl, rfl, rfl⟩

end Codenav
