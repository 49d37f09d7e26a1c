import CodeScout.RepoRevs
import CodeScout.Util.GoMap
import CodeScout.Util.GoSort
import CodeScout.Util.SwapSort
import CodeScout.ZoektIndexed
import Mathlib

/-!
# The revisions to search in a repository

Where several filters match a repository, the revisions that all of them name
are searched. They are found by counting how often a revision is named: one that
is named as often as there are filters is taken to be named by all of them. This
is so if no filter names a revision twice, and in some more cases
(`getRevsForMatchedRepo_iff`).

A repository whose filters have no revision in common is reported as missing.
To separate these repositories from the others, all are sorted by whether they
are missing. The comparison looks this up by position, in a list that is not
sorted along, so that what it says about a repository changes when the
repository is moved (`associateReposWithRevs_iff`).
-/

namespace SearchRepos

open List

open Query (RevisionSpecifier)
open SwapSort (SortProgram IsStable)
open Zoekt (MinimalRepo RepoID)

/-! ## Common revisions -/

/-- The revisions of a filter. `includePattern` is the function `MatchString` of
the expression. -/
structure PatternRevspec where
  includePattern : GoString → Bool
  revs : List RevisionSpecifier

/-- The value `revCounts[rev]`. -/
def revCount (revCounts : GoMap RevisionSpecifier ℕ) (rev : RevisionSpecifier) : ℕ :=
  (revCounts.lookup rev).getD 0

/-- One iteration over the revisions of a list. -/
def countRev (i : ℕ) (counts : ℕ × GoMap RevisionSpecifier ℕ) (rev : RevisionSpecifier) :
    ℕ × GoMap RevisionSpecifier ℕ :=
  (if revCount counts.2 rev = i then counts.1 + 1 else counts.1,
    counts.2.insert rev (revCount counts.2 rev + 1))

/-- The nested loops: `aliveCount` and `revCounts` at their end. -/
def countRevs (revLists : List (List RevisionSpecifier)) : ℕ × GoMap RevisionSpecifier ℕ :=
  revLists.zipIdx.foldl (fun counts entry => entry.1.foldl (countRev entry.2) (0, counts.2)) (0, ∅)

/-- The revisions that several lists have in common, or all that clash. -/
def commonRevs (order : RangeOrder) (sorter : SliceSort)
    (revLists : List (List RevisionSpecifier)) : List RevisionSpecifier × List RevisionSpecifier :=
  let counts := countRevs revLists
  if 0 < counts.1 then
    let alive := (order.range [0] counts.2.toPairs).filter fun entry => entry.2 = revLists.length
    (sorter.sort RevisionSpecifier.less (alive.map Prod.fst), [])
  else
    let all := order.range [1] counts.2.toPairs
    ([], sorter.sort RevisionSpecifier.less (all.map Prod.fst))

/-- The lists of the filters that match a repository. -/
def matchingRevLists (repo : GoString) (pats : List PatternRevspec) :
    List (List RevisionSpecifier) :=
  (pats.filter fun rev => rev.includePattern repo).map PatternRevspec.revs

/-- The revisions `matched` and `clashing`. -/
def getRevsForMatchedRepo (order : RangeOrder) (sorter : SliceSort) (repo : GoString)
    (pats : List PatternRevspec) : List RevisionSpecifier × List RevisionSpecifier :=
  match matchingRevLists repo pats with
  | [revs] => (revs, [])
  | [] => ([{}], [])
  | revLists => commonRevs order sorter revLists

/-! ## What is counted -/

/-- A map holds how often each revision occurs in a list. -/
def Counts (revCounts : GoMap RevisionSpecifier ℕ) (seen : List RevisionSpecifier) : Prop :=
  ∀ rev, revCounts.lookup rev = if seen.count rev = 0 then none else some (seen.count rev)

variable {revCounts : GoMap RevisionSpecifier ℕ} {seen : List RevisionSpecifier}

theorem Counts.revCount_eq (h : Counts revCounts seen) (rev : RevisionSpecifier) :
    revCount revCounts rev = seen.count rev := by
  rw [revCount, h rev]
  split_ifs with hzero
  · exact hzero.symm
  · rfl

theorem count_concat (seen : List RevisionSpecifier) (rev rev' : RevisionSpecifier) :
    (seen ++ [rev]).count rev' = seen.count rev' + if rev = rev' then 1 else 0 := by
  rw [count_append, count_singleton]
  simp only [beq_iff_eq]

theorem Counts.insert (h : Counts revCounts seen) (rev : RevisionSpecifier) :
    Counts (revCounts.insert rev (revCount revCounts rev + 1)) (seen ++ [rev]) := by
  intro rev'
  rw [count_concat, h.revCount_eq]
  by_cases heq : rev = rev'
  · subst heq
    rw [AList.lookup_insert, if_pos rfl, if_neg (Nat.succ_ne_zero _)]
  · rw [AList.lookup_insert_ne (Ne.symm heq), if_neg heq, Nat.add_zero, h rev']

/-- **The loop over one list**: a revision is alive if its count passes the
number of the list. -/
theorem foldl_countRev (i : ℕ) (h : Counts revCounts seen) (revs : List RevisionSpecifier) :
    Counts (revs.foldl (countRev i) (0, revCounts)).2 (seen ++ revs) ∧
      (0 < (revs.foldl (countRev i) (0, revCounts)).1 ↔
        ∃ rev, seen.count rev ≤ i ∧ i < (seen ++ revs).count rev) := by
  induction revs using reverseRecOn with
  | nil =>
    rw [append_nil]
    refine ⟨h, iff_of_false (lt_irrefl 0) ?_⟩
    rintro ⟨rev, hle, hlt⟩
    exact (hle.trans_lt hlt).false
  | append_singleton revs rev ih =>
    obtain ⟨hcounts, halive⟩ := ih
    rw [foldl_concat, ← append_assoc]
    refine ⟨hcounts.insert rev, ?_⟩
    have hpos : 0 < (countRev i (revs.foldl (countRev i) (0, revCounts)) rev).1 ↔
        (∃ rev, seen.count rev ≤ i ∧ i < (seen ++ revs).count rev) ∨
          (seen ++ revs).count rev = i := by
      rw [← halive, countRev, hcounts.revCount_eq]
      dsimp only
      split_ifs with heq
      · exact iff_of_true (Nat.succ_pos _) (.inr heq)
      · rw [or_iff_left heq]
    rw [hpos]
    constructor
    · rintro (⟨rev', hle, hlt⟩ | heq)
      · exact ⟨rev', hle, hlt.trans_le (by rw [count_concat]; exact Nat.le_add_right _ _)⟩
      · refine ⟨rev, ?_, ?_⟩
        · rw [← heq, count_append]
          exact Nat.le_add_right _ _
        · rw [count_concat, if_pos rfl, heq]
          exact Nat.lt_succ_self i
    · rintro ⟨rev', hle, hlt⟩
      rw [count_concat] at hlt
      by_cases heq : rev = rev'
      · subst heq
        rw [if_pos rfl] at hlt
        exact (Nat.lt_succ_iff_lt_or_eq.mp hlt).elim (fun hlt => .inl ⟨rev, hle, hlt⟩)
          fun heq => .inr heq.symm
      · rw [if_neg heq] at hlt
        exact .inl ⟨rev', hle, hlt⟩

theorem countRevs_concat (init : List (List RevisionSpecifier)) (last : List RevisionSpecifier) :
    countRevs (init ++ [last]) = last.foldl (countRev init.length) (0, (countRevs init).2) := by
  rw [countRevs, zipIdx_append, foldl_append, Nat.zero_add]
  rfl

theorem counts_countRevs (revLists : List (List RevisionSpecifier)) :
    Counts (countRevs revLists).2 revLists.flatten := by
  induction revLists using reverseRecOn with
  | nil => exact fun rev => rfl
  | append_singleton revLists revs ih =>
    rw [countRevs_concat, flatten_append, flatten_singleton]
    exact (foldl_countRev revLists.length ih revs).1

/-- **What is alive after the loops**: a count reaches the number of lists in
the last of them. -/
theorem aliveCount_pos_iff {revLists : List (List RevisionSpecifier)} (h : revLists ≠ []) :
    0 < (countRevs revLists).1 ↔ ∃ rev, revLists.dropLast.flatten.count rev < revLists.length ∧
      revLists.length ≤ revLists.flatten.count rev := by
  obtain ⟨init, last, rfl⟩ := (eq_nil_or_concat' revLists).resolve_left h
  rw [countRevs_concat, (foldl_countRev init.length (counts_countRevs init) last).2,
    dropLast_concat, length_append, length_singleton, flatten_append,
    flatten_singleton]
  simp only [Nat.lt_succ_iff, Nat.succ_le_iff]

theorem mem_countRevs {revLists : List (List RevisionSpecifier)} {rev : RevisionSpecifier}
    {n : ℕ} : (rev, n) ∈ (countRevs revLists).2.toPairs ↔
      n ≠ 0 ∧ revLists.flatten.count rev = n := by
  rw [GoMap.mem_toPairs, counts_countRevs revLists rev]
  split_ifs with hzero
  · rw [hzero]
    exact iff_of_false nofun fun h => h.1 h.2.symm
  · rw [Option.some_inj]
    exact ⟨fun h => ⟨h ▸ hzero, h⟩, And.right⟩

/-! ## Revisions in order -/

/-- The bytes of a string as numbers, which are ordered linearly. -/
def byteNumbers (s : GoString) : List ℕ := s.map UInt8.toNat

theorem byteNumbers_lt_iff (s t : GoString) : byteNumbers s < byteNumbers t ↔ s < t := by
  induction s generalizing t with
  | nil =>
    cases t with
    | nil => exact iff_of_false (List.lt_irrefl _) (List.lt_irrefl _)
    | cons c t => exact iff_of_true (nil_lt_cons _ _) (nil_lt_cons _ _)
  | cons b s ih =>
    cases t with
    | nil => exact iff_of_false (not_lt_nil _) (not_lt_nil _)
    | cons c t =>
      show b.toNat :: byteNumbers s < c.toNat :: byteNumbers t ↔ _
      rw [cons_lt_cons_iff, cons_lt_cons_iff, ih, UInt8.toNat_inj, UInt8.lt_iff_toNat_lt]

theorem byteNumbers_injective : Function.Injective byteNumbers :=
  map_injective_iff.mpr fun _ _ => UInt8.toNat_inj.mp

/-- By revision, then by globs. -/
def key (rev : RevisionSpecifier) : List ℕ ×ₗ List ℕ ×ₗ List ℕ :=
  toLex (byteNumbers rev.revSpec,
    toLex (byteNumbers rev.refGlob, byteNumbers rev.excludeRefGlob))

theorem key_injective : Function.Injective key := by
  rintro ⟨revSpec, refGlob, excludeRefGlob⟩ ⟨revSpec', refGlob', excludeRefGlob'⟩ h
  obtain ⟨hrev, hglobs⟩ := Prod.mk.inj (toLex_inj.mp h)
  obtain ⟨hglob, hexclude⟩ := Prod.mk.inj (toLex_inj.mp hglobs)
  exact RevisionSpecifier.mk.injEq _ _ _ _ _ _ ▸
    ⟨byteNumbers_injective hrev, byteNumbers_injective hglob, byteNumbers_injective hexclude⟩

theorem less_iff (rev rev' : RevisionSpecifier) : rev.less rev' = true ↔ key rev < key rev' := by
  unfold RevisionSpecifier.less key
  rw [Prod.Lex.toLex_lt_toLex, Prod.Lex.toLex_lt_toLex]
  simp only [byteNumbers_lt_iff, byteNumbers_injective.eq_iff]
  split_ifs with hrev hglob
  · rw [decide_eq_true_iff]
    exact (or_iff_left fun heq => hrev heq.1).symm
  · rw [decide_eq_true_iff, not_not.mp hrev]
    simp [hglob, List.lt_irrefl]
  · rw [decide_eq_true_iff, not_not.mp hrev, not_not.mp hglob]
    simp [List.lt_irrefl]

/-- Keys of a map that are sorted are in order and differ. -/
theorem pairwise_sort_keys (sorter : SliceSort) (order : RangeOrder) (loop : List ℕ)
    (revCounts : GoMap RevisionSpecifier ℕ) (keep : RevisionSpecifier × ℕ → Bool) :
    (sorter.sort RevisionSpecifier.less (((order.range loop revCounts.toPairs).filter keep).map
      Prod.fst)).Pairwise fun rev rev' => rev.less rev' = true := by
  have hnodup : ((order.range loop revCounts.toPairs).map Prod.fst).Nodup :=
    ((order.range_perm loop revCounts.toPairs).map Prod.fst).nodup_iff.mpr revCounts.nodup_toPairs
  have hkept := hnodup.sublist ((filter_sublist (p := keep)).map Prod.fst)
  refine (sorter.pairwise_lt_of_key key less_iff (hkept.map key_injective)).imp fun hlt => ?_
  exact (less_iff _ _).mpr hlt

/-! ## What is selected -/

/-- A revision that is in all lists. -/
def IsCommon (revLists : List (List RevisionSpecifier)) (rev : RevisionSpecifier) : Prop :=
  ∀ revs ∈ revLists, rev ∈ revs

/-- **The common revisions are selected**: in order and each once, or if there
are none, all revisions clash. -/
structure Selects (revLists : List (List RevisionSpecifier))
    (result : List RevisionSpecifier × List RevisionSpecifier) : Prop where
  common : (∃ rev, IsCommon revLists rev) →
    (result.1.Pairwise fun rev rev' => rev.less rev' = true) ∧
      ∀ rev, rev ∈ result.1 ↔ IsCommon revLists rev
  clash : (¬∃ rev, IsCommon revLists rev) →
    result.1 = [] ∧ ∀ rev, rev ∈ result.2 ↔ ∃ revs ∈ revLists, rev ∈ revs

section

variable {order : RangeOrder} {sorter : SliceSort} {revLists : List (List RevisionSpecifier)}

theorem mem_commonRevs_of_alive (h : 0 < (countRevs revLists).1) (hne : revLists ≠ [])
    (rev : RevisionSpecifier) : rev ∈ (commonRevs order sorter revLists).1 ↔
      revLists.flatten.count rev = revLists.length := by
  rw [commonRevs, if_pos h, SliceSort.mem_sort, mem_map]
  simp only [mem_filter, RangeOrder.mem_range, decide_eq_true_iff, Prod.exists,
    exists_and_right, exists_eq_right, mem_countRevs]
  exact and_iff_right fun hzero => hne (length_eq_zero_iff.mp hzero)

theorem mem_commonRevs_of_clash (h : ¬0 < (countRevs revLists).1) (rev : RevisionSpecifier) :
    rev ∈ (commonRevs order sorter revLists).2 ↔ ∃ revs ∈ revLists, rev ∈ revs := by
  rw [commonRevs, if_neg h, SliceSort.mem_sort, mem_map, ← mem_flatten, ← count_pos_iff]
  simp only [RangeOrder.mem_range, Prod.exists, exists_and_right, exists_eq_right, mem_countRevs]
  exact ⟨fun ⟨n, hne, hcount⟩ => hcount ▸ Nat.pos_of_ne_zero hne, fun hpos => ⟨_, hpos.ne', rfl⟩⟩

theorem getRevsForMatchedRepo_eq {repo : GoString} {pats : List PatternRevspec}
    (h : matchingRevLists repo pats = revLists) (htwo : 2 ≤ revLists.length) :
    getRevsForMatchedRepo order sorter repo pats = commonRevs order sorter revLists := by
  rw [getRevsForMatchedRepo, h]
  match revLists, htwo with
  | _ :: _ :: _, _ => rfl

/-- How many of the lists do not name a revision. -/
def absences (revLists : List (List RevisionSpecifier)) (rev : RevisionSpecifier) : ℕ :=
  revLists.countP fun revs => rev ∉ revs

/-- How often lists name a revision again that they have named before. -/
def repetitions (revLists : List (List RevisionSpecifier)) (rev : RevisionSpecifier) : ℕ :=
  (revLists.map fun revs => revs.count rev - 1).sum

theorem absences_eq_zero_iff {rev : RevisionSpecifier} :
    absences revLists rev = 0 ↔ IsCommon revLists rev := by
  simp [absences, IsCommon]

/-- **What is counted**: a revision once for each list, less the lists that do not
name it, and once more for each repetition. -/
theorem count_flatten_add_absences (revLists : List (List RevisionSpecifier))
    (rev : RevisionSpecifier) : revLists.flatten.count rev + absences revLists rev =
      revLists.length + repetitions revLists rev := by
  induction revLists with
  | nil => rfl
  | cons revs revLists ih =>
    rw [absences] at ih
    rw [flatten_cons, count_append, absences, countP_cons, length_cons, repetitions, map_cons,
      sum_cons, ← repetitions]
    by_cases hmem : rev ∈ revs
    · have hpos := count_pos_iff.mpr hmem
      simp only [hmem, not_true_eq_false, decide_false, Bool.false_eq_true, if_false]
      omega
    · simp only [hmem, not_false_eq_true, decide_true, if_true, count_eq_zero.mpr hmem]
      omega

theorem repetitions_of_nodup (h : ∀ revs ∈ revLists, revs.Nodup) (rev : RevisionSpecifier) :
    repetitions revLists rev = 0 := by
  rw [repetitions, sum_eq_zero_iff, forall_mem_map]
  exact fun revs hrevs => Nat.sub_eq_zero_of_le (nodup_iff_count_le_one.mp (h revs hrevs) rev)

/-- **The common revisions of several filters** are selected if and only if
repetitions do not spoil the count. Where there are common revisions, none of them
is repeated, and no other revision is repeated exactly as often as filters do not
name it. Where there are none, a revision that is repeated at least as often as
filters do not name it is repeated more often than that before the last filter. -/
theorem getRevsForMatchedRepo_iff {repo : GoString} {pats : List PatternRevspec}
    (h : matchingRevLists repo pats = revLists) (htwo : 2 ≤ revLists.length) :
    Selects revLists (getRevsForMatchedRepo order sorter repo pats) ↔
      ((∃ rev, IsCommon revLists rev) → ∀ rev,
        (IsCommon revLists rev → repetitions revLists rev = 0) ∧
          (¬IsCommon revLists rev → repetitions revLists rev ≠ absences revLists rev)) ∧
      ((¬∃ rev, IsCommon revLists rev) → ∀ rev,
        absences revLists rev ≤ repetitions revLists rev →
          absences revLists.dropLast rev < repetitions revLists.dropLast rev) := by
  have hne : revLists ≠ [] := length_pos_iff.mp (Nat.zero_lt_of_lt htwo)
  have hcounts := count_flatten_add_absences revLists
  have hbefore := count_flatten_add_absences revLists.dropLast
  have hlength := @length_dropLast _ revLists
  rw [getRevsForMatchedRepo_eq h htwo]
  constructor
  · intro h
    refine ⟨fun hcommon rev => ?_, fun hnone rev hrepeated => ?_⟩
    · -- there is a common revision, which is found only if one is alive
      obtain ⟨-, hmatched⟩ := h.common hcommon
      have halive : 0 < (countRevs revLists).1 := by
        by_contra hdead
        obtain ⟨rev, hrev⟩ := hcommon
        have hmem := (hmatched rev).mpr hrev
        rw [commonRevs, if_neg hdead] at hmem
        exact not_mem_nil hmem
      have hcount := (mem_commonRevs_of_alive halive hne rev).symm.trans (hmatched rev)
      have hrev := hcounts rev
      rw [← absences_eq_zero_iff] at hcount ⊢
      omega
    · obtain ⟨-, hclashing⟩ := h.clash hnone
      have hcount : revLists.length ≤ revLists.flatten.count rev := by
        have hrev := hcounts rev
        omega
      by_contra hlast
      have hrev := hbefore rev
      have halive := (aliveCount_pos_iff hne).mpr ⟨rev, by omega, hcount⟩
      have hmem : rev ∈ revLists.flatten :=
        count_pos_iff.mp ((length_pos_iff.mpr hne).trans_le hcount)
      have hclash := (hclashing rev).mpr (mem_flatten.mp hmem)
      rw [commonRevs, if_pos halive] at hclash
      exact not_mem_nil hclash
  · rintro ⟨hcommon, hclash⟩
    refine ⟨fun hexists => ?_, fun hnone => ?_⟩
    · have hcount : ∀ rev,
          revLists.flatten.count rev = revLists.length ↔ IsCommon revLists rev := by
        intro rev
        have hrev := hcounts rev
        obtain ⟨honce, hother⟩ := hcommon hexists rev
        rw [← absences_eq_zero_iff] at honce hother ⊢
        omega
      obtain ⟨rev, hrev⟩ := hexists
      have halive : 0 < (countRevs revLists).1 := by
        refine (aliveCount_pos_iff hne).mpr ⟨rev, ?_, ((hcount rev).mpr hrev).ge⟩
        -- the last list has the revision, too
        have hsplit := congrArg (fun l => l.flatten.count rev) (dropLast_append_getLast hne)
        have hlast := count_pos_iff.mpr (hrev _ (getLast_mem hne))
        simp only [flatten_append, flatten_singleton, count_append] at hsplit
        rw [(hcount rev).mpr hrev] at hsplit
        omega
      refine ⟨?_, fun rev => (mem_commonRevs_of_alive halive hne rev).trans (hcount rev)⟩
      rw [commonRevs, if_pos halive]
      exact pairwise_sort_keys sorter order [0] _ _
    · have hdead : ¬0 < (countRevs revLists).1 := by
        rw [aliveCount_pos_iff hne]
        rintro ⟨rev, hlast, hcount⟩
        have hall := hcounts rev
        have hinit := hbefore rev
        have hmore := hclash hnone rev (by omega)
        omega
      exact ⟨by rw [commonRevs, if_neg hdead], mem_commonRevs_of_clash hdead⟩

end

/-- The filters `^foo@a:b` and `^fo@b:c`. -/
theorem getRevsForMatchedRepo_overlap :
    Selects [[⟨lit "a", [], []⟩, ⟨lit "b", [], []⟩], [⟨lit "b", [], []⟩, ⟨lit "c", [], []⟩]]
      (getRevsForMatchedRepo .byEntries .byInsertion (lit "foo")
        [⟨(lit "foo").isPrefixOf, [⟨lit "a", [], []⟩, ⟨lit "b", [], []⟩]⟩,
          ⟨(lit "fo").isPrefixOf, [⟨lit "b", [], []⟩, ⟨lit "c", [], []⟩]⟩]) := by
  refine (getRevsForMatchedRepo_iff (by decide +kernel) le_rfl).mpr
    ⟨fun _ rev => ⟨fun _ => repetitions_of_nodup (by decide +kernel) rev, fun hother heq => ?_⟩,
      fun hnone rev hle => ?_⟩
  · rw [repetitions_of_nodup (by decide +kernel)] at heq
    exact hother (absences_eq_zero_iff.mp heq.symm)
  · rw [repetitions_of_nodup (by decide +kernel)] at hle
    exact absurd ⟨rev, absences_eq_zero_iff.mp (Nat.le_zero.mp hle)⟩ hnone

/-- **A revision that a filter names twice** is not found in both filters
`^foo@a:a` and `^fo@a`, but clashes. -/
theorem getRevsForMatchedRepo_repeated :
    getRevsForMatchedRepo .byEntries .byInsertion (lit "foo")
        [⟨(lit "foo").isPrefixOf, [⟨lit "a", [], []⟩, ⟨lit "a", [], []⟩]⟩,
          ⟨(lit "fo").isPrefixOf, [⟨lit "a", [], []⟩]⟩] = ([], [⟨lit "a", [], []⟩]) ∧
      IsCommon [[⟨lit "a", [], []⟩, ⟨lit "a", [], []⟩], [⟨lit "a", [], []⟩]] ⟨lit "a", [], []⟩ := by
  refine ⟨by decide +kernel, ?_⟩
  unfold IsCommon
  decide +kernel

/-! ## Repositories with clashing revisions -/

/-- The comparison of two positions. Others are not asked about. -/
def missingLast (revsAreMissing : List Bool) (i j : ℕ) : Bool :=
  ((revsAreMissing[i]?).bind fun a => (revsAreMissing[j]?).map fun b => !a && b).getD false

/-- Sorting what is missing to the end, and cutting it off. -/
def splitMissing {α : Type} (algorithm : ℕ → SortProgram) (revsAreMissing : List Bool)
    (associatedRevs : List α) : List α × List α :=
  let sorted := (algorithm associatedRevs.length).run (fun _ => missingLast revsAreMissing)
    associatedRevs
  let notMissingCount := revsAreMissing.count false
  (sorted.take notMissingCount, sorted.drop notMissingCount)

structure RepoRevSpecs where
  repo : MinimalRepo
  revs : List RevisionSpecifier
deriving DecidableEq

section

variable (order : RangeOrder) (sorter : SliceSort)
  (searchContextRepoRevs : GoMap RepoID RepoRevSpecs) (includePatternRevs : List PatternRevspec)

/-- What a goroutine finds: the revisions of a repository, and whether they are
missing. -/
def revsOf (repo : MinimalRepo) : List RevisionSpecifier × Bool :=
  let revs :=
    if 0 < searchContextRepoRevs.entries.length then
      ((searchContextRepoRevs.lookup repo.id).map RepoRevSpecs.revs).getD []
    else []
  if revs.length = 0 then
    let found := getRevsForMatchedRepo order sorter repo.name includePatternRevs
    if found.1.length = 0 ∧ found.2.length ≠ 0 then (found.2, true) else (found.1, false)
  else (revs, false)

/-- A repository with its revisions. -/
def associate (repo : MinimalRepo) : RepoRevSpecs :=
  ⟨repo, (revsOf order sorter searchContextRepoRevs includePatternRevs repo).1⟩

/-- The revisions of a repository clash. -/
def isMissing (repo : MinimalRepo) : Bool :=
  (revsOf order sorter searchContextRepoRevs includePatternRevs repo).2

/-- The repositories that are associated with revisions, and those whose
revisions are missing. Each goroutine writes to a position of its own. -/
def associateReposWithRevs (algorithm : ℕ → SortProgram) (repos : List MinimalRepo) :
    List RepoRevSpecs × List RepoRevSpecs :=
  splitMissing algorithm
    (repos.map (isMissing order sorter searchContextRepoRevs includePatternRevs))
    (repos.map (associate order sorter searchContextRepoRevs includePatternRevs))

end

theorem missingLast_of_getElem? {revsAreMissing : List Bool} {i j : ℕ} {a b : Bool}
    (hi : revsAreMissing[i]? = some a) (hj : revsAreMissing[j]? = some b) :
    missingLast revsAreMissing i j = (!a && b) := by
  rw [missingLast, hi, hj]
  rfl

theorem missingLast_of_forall_eq {revsAreMissing : List Bool} {b : Bool}
    (h : ∀ a ∈ revsAreMissing, a = b) : missingLast revsAreMissing = fun _ _ => false := by
  funext i j
  cases hi : revsAreMissing[i]? with
  | none => rw [missingLast, hi]; rfl
  | some a =>
    cases hj : revsAreMissing[j]? with
    | none => rw [missingLast, hi, hj]; rfl
    | some a' =>
      rw [missingLast_of_getElem? hi hj, h a (mem_of_getElem? hi), h a' (mem_of_getElem? hj)]
      exact Bool.not_and_self b

section

variable {α β : Type} {missing : β → Bool} {f : β → α} {l : List β}

theorem splitMissing_of_forall_eq {b : Bool} (h : ∀ x ∈ l, missing x = b)
    {algorithm : ℕ → SortProgram} (hstable : IsStable algorithm) :
    splitMissing algorithm (l.map missing) (l.map f) =
      ((l.filter fun x => !missing x).map f, (l.filter missing).map f) := by
  have hflags : ∀ a ∈ l.map missing, a = b := fun a ha => by
    obtain ⟨x, hx, rfl⟩ := mem_map.mp ha
    exact h x hx
  rw [splitMissing, missingLast_of_forall_eq hflags, SwapSort.run_eq_of_never hstable]
  cases b with
  | true =>
    have hcount : (l.map missing).count false = 0 :=
      count_eq_zero.mpr fun hmem => Bool.false_ne_true (hflags false hmem)
    rw [hcount, filter_eq_nil_iff.mpr fun x hx => by rw [h x hx]; decide, filter_eq_self.mpr h]
    rfl
  | false =>
    have hcount : (l.map missing).count false = (l.map f).length := by
      rw [count_eq_length.mpr fun a ha => (hflags a ha).symm, length_map, length_map]
    rw [hcount, take_length, drop_length, filter_eq_self.mpr fun x hx => by rw [h x hx]; rfl,
      filter_eq_nil_iff.mpr fun x hx => by rw [h x hx]; decide]
    rfl

/-- **What is missing is cut off by every stable algorithm** if and only if all
is missing, or nothing is. Otherwise an algorithm that tries the comparison at
the same elements in two places finds a contradiction, and may do anything. -/
theorem splitMissing_iff (hf : Function.Injective f) :
    (∀ algorithm, IsStable algorithm → splitMissing algorithm (l.map missing) (l.map f) =
        ((l.filter fun x => !missing x).map f, (l.filter missing).map f)) ↔
      (∀ x ∈ l, missing x = true) ∨ ∀ x ∈ l, missing x = false := by
  constructor
  · intro h
    by_contra hmixed
    obtain ⟨hsome, hall⟩ := not_or.mp hmixed
    push Not at hsome hall
    obtain ⟨x, hx, hfound⟩ := hsome
    obtain ⟨y, hy, hlost⟩ := hall
    obtain ⟨i, hi, hix⟩ := mem_iff_getElem.mp hx
    obtain ⟨j, hj, hjy⟩ := mem_iff_getElem.mp hy
    have hgetx : l[i]? = some x := hix ▸ getElem?_eq_getElem hi
    have hgety : l[j]? = some y := hjy ▸ getElem?_eq_getElem hj
    have hflag : ∀ {k z}, l[k]? = some z → (l.map missing)[k]? = some (missing z) := fun hz => by
      rw [getElem?_map, hz]
      rfl
    have hanswer : missingLast (l.map missing) i j ≠ missingLast (l.map missing) j i := by
      rw [missingLast_of_getElem? (hflag hgetx) (hflag hgety),
        missingLast_of_getElem? (hflag hgety) (hflag hgetx), Bool.eq_false_iff.mpr hfound,
        Bool.eq_true_of_not_eq_false hlost]
      decide
    -- an algorithm that does nothing, and one that exchanges the two elements
    have hlength : (l.map f).length = l.length := length_map f
    obtain ⟨stay, hstay, hrunStay⟩ := SwapSort.exists_isStable hi hj hanswer .done
    obtain ⟨move, hmove, hrunMove⟩ := SwapSort.exists_isStable hi hj hanswer (.swap i j .done)
    have hsame := (h stay hstay).trans (h move hmove).symm
    rw [splitMissing, splitMissing, hlength, hrunStay _ hlength, hrunMove _ hlength] at hsame
    obtain ⟨htake, hdrop⟩ := Prod.mk.inj hsame
    have hlist : l.map f = Heap.swapAt (l.map f) i j :=
      calc l.map f = _ := (take_append_drop ((l.map missing).count false) (l.map f)).symm
        _ = _ := congrArg₂ (· ++ ·) htake hdrop
        _ = Heap.swapAt (l.map f) i j := take_append_drop _ _
    have hget : (l.map f)[i]? = (Heap.swapAt (l.map f) i j)[i]? := congrArg (·[i]?) hlist
    rw [Heap.getElem?_swapAt (hlength ▸ hi) (hlength ▸ hj) (hlength ▸ hi), Equiv.swap_apply_left,
      getElem?_map, getElem?_map, hgetx, hgety] at hget
    rw [hf (Option.some.inj hget)] at hfound
    exact hlost (Bool.eq_false_iff.mpr hfound)
  · rintro (h | h) algorithm hstable
    · exact splitMissing_of_forall_eq h hstable
    · exact splitMissing_of_forall_eq h hstable

end

section

variable {order : RangeOrder} {sorter : SliceSort}
  {searchContextRepoRevs : GoMap RepoID RepoRevSpecs} {includePatternRevs : List PatternRevspec}

/-- **Repositories with clashing revisions are separated from the others**,
whatever stable algorithm is used, if and only if all of them are of one
kind. -/
theorem associateReposWithRevs_iff (repos : List MinimalRepo) :
    (∀ algorithm, IsStable algorithm →
      associateReposWithRevs order sorter searchContextRepoRevs includePatternRevs algorithm repos =
        ((repos.filter fun repo =>
            !isMissing order sorter searchContextRepoRevs includePatternRevs repo).map
              (associate order sorter searchContextRepoRevs includePatternRevs),
          (repos.filter (isMissing order sorter searchContextRepoRevs includePatternRevs)).map
            (associate order sorter searchContextRepoRevs includePatternRevs))) ↔
      (∀ repo ∈ repos,
        isMissing order sorter searchContextRepoRevs includePatternRevs repo = true) ∨
        ∀ repo ∈ repos, isMissing order sorter searchContextRepoRevs includePatternRevs repo =
          false :=
  splitMissing_iff fun _ _ h => congrArg RepoRevSpecs.repo h

end

/-- The filters `^foo@a` and `^fo@b`. -/
def clashingPatterns : List PatternRevspec :=
  [⟨(lit "foo").isPrefixOf, [⟨lit "a", [], []⟩]⟩, ⟨(lit "fo").isPrefixOf, [⟨lit "b", [], []⟩]⟩]

/-- **Insertion stops early**: the third repository is moved before the second
one, and there the flag of the second one is read for it. -/
theorem associateReposWithRevs_insertionSort :
    IsStable SwapSort.insertionSort ∧
      isMissing .byEntries .byInsertion ∅ clashingPatterns ⟨3, lit "bar"⟩ = false ∧
      associateReposWithRevs .byEntries .byInsertion ∅ clashingPatterns SwapSort.insertionSort
          [⟨1, lit "foo/1"⟩, ⟨2, lit "foo/2"⟩, ⟨3, lit "bar"⟩] =
        ([⟨⟨1, lit "foo/1"⟩, [⟨lit "a", [], []⟩, ⟨lit "b", [], []⟩]⟩],
          [⟨⟨3, lit "bar"⟩, [{}]⟩,
            ⟨⟨2, lit "foo/2"⟩, [⟨lit "a", [], []⟩, ⟨lit "b", [], []⟩]⟩]) :=
  ⟨SwapSort.isStable_insertionSort, by decide +kernel, by decide +kernel⟩

end SearchRepos
