import CodeScout.PerforceProtects
import CodeScout.Util.LastMatch
import CodeScout.Util.Wildcard
import Mathlib

/-!
# Permissions on depots

`repoIncludesExcludesScanner` turns the lines of the protections, whose order
counts, to two lists of patterns, whose order does not: a depot is readable if
it matches an entry of the first and no entry of the second.

An exclusion takes back the first inclusion of the same prefix, or is recorded
if a broader inclusion comes first. The inclusions of a prefix are therefore
paired off with later exclusions of it, and which ones stay is a matter of how
often the lines include and exclude the prefix (`Stays`). Order is lost for a
depot if an inclusion stays, the last line that covers the depot is an exclusion,
and no exclusion that covers it was recorded (`respectsOrder_iff_losesOrder`).
-/

namespace Perforce

open Wildcard LastMatch List
open Glob (asterisk separator)

/-! ## The scanner -/

/-- `postgresMatchSyntax.Replace`: `...` is replaced by `%`, and `*` by
`[^/]+`. -/
def convertToPostgresMatch : GoString → GoString
  | 46 :: 46 :: 46 :: s => 37 :: convertToPostgresMatch s
  | 42 :: s => lit "[^/]+" ++ convertToPostgresMatch s
  | c :: s => c :: convertToPostgresMatch s
  | [] => []

/-- The loop over the includes for an exclusion: the includes that stay, and
whether the exclusion is kept. -/
def excludeFrom (depotContains : GoString) : List GoString → List GoString × Bool
  | [] => ([], false)
  | included :: rest =>
    if !included.isPrefixOf depotContains then
      (included :: (excludeFrom depotContains rest).1, (excludeFrom depotContains rest).2)
    else if depotContains = included then (rest, false)
    else (included :: rest, true)

/-- The function `processLine` of the scanner. -/
def processDepotLine (perms : ExternalUserPermissions) (line : P4ProtectLine) :
    ExternalUserPermissions :=
  let pathMatch := line.pathMatch.rdropWhile (· == dot)
  let depotContains := convertToPostgresMatch pathMatch
  if !line.isExclusion then
    { perms with includeContains := perms.includeContains ++ [depotContains] }
  else if hasPerforceWildcard pathMatch then
    { perms with excludeContains := perms.excludeContains ++ [depotContains] }
  else
    let (includes, keep) := excludeFrom depotContains perms.includeContains
    { perms with
      includeContains := includes
      excludeContains := if keep then perms.excludeContains ++ [depotContains]
        else perms.excludeContains }

/-- All entries are prefixes. -/
def finalizeDepots (perms : ExternalUserPermissions) : ExternalUserPermissions :=
  let asPattern := fun entry => convertToPostgresMatch (entry ++ perforceWildcardMatchAll)
  { perms with
    includeContains := perms.includeContains.map asPattern
    excludeContains := perms.excludeContains.map asPattern }

/-- The permissions after the scanner has processed and finalised the lines. -/
def depotPermissions (lines : List P4ProtectLine) : ExternalUserPermissions :=
  finalizeDepots (lines.foldl processDepotLine .empty)

/-! ## Patterns of the database -/

/-- The other characters that mean something to `SIMILAR TO`. -/
def isSpecial (c : UInt8) : Bool :=
  (lit "|*+?(){}[]\\").contains c

/-- The piece for a character of a pattern. -/
def similarPiece (c : UInt8) : Piece UInt8 :=
  if c = 37 then .any else if c = 95 then .one else .letter (c == ·)

/-- The operator `SIMILAR TO`: in a pattern without other syntax `%` stands
for any text and `_` for a character. -/
structure SimilarTo where
  similarTo : GoString → GoString → Bool
  plain : ∀ {pattern}, pattern.all (fun c => !isSpecial c) = true →
    similarTo pattern = matchPieces (pattern.map similarPiece)

/-- The operator with no other syntax. -/
def similarPieces : SimilarTo where
  similarTo pattern := matchPieces (pattern.map similarPiece)
  plain _ := rfl

/-- Whether a depot is readable. -/
def readableDepot (db : SimilarTo) (perms : ExternalUserPermissions) (depot : GoString) : Bool :=
  perms.includeContains.any (db.similarTo · depot) &&
    !perms.excludeContains.any (db.similarTo · depot)

/-! ## Lines with a prefix -/

/-- The prefix of a line without the dots at its end. -/
def P4ProtectLine.depotPrefix (line : P4ProtectLine) : GoString :=
  line.pathMatch.rdropWhile (· == dot)

/-- A line of the form `//prefix/...` without other wildcards, and without
characters that mean something to the database. -/
structure IsPrefixLine (line : P4ProtectLine) : Prop where
  eq : line.pathMatch = line.depotPrefix ++ perforceWildcardMatchAll
  ends : line.depotPrefix.getLast? = some separator
  plain : ∀ c ∈ line.depotPrefix, isSpecial c = false ∧ c ≠ 37 ∧ c ≠ 95
  noWildcard : hasPerforceWildcard line.depotPrefix = false

instance (line : P4ProtectLine) : Decidable (IsPrefixLine line) :=
  decidable_of_iff (line.pathMatch = line.depotPrefix ++ perforceWildcardMatchAll ∧
      line.depotPrefix.getLast? = some separator ∧
      (∀ c ∈ line.depotPrefix, isSpecial c = false ∧ c ≠ 37 ∧ c ≠ 95) ∧
      hasPerforceWildcard line.depotPrefix = false)
    ⟨fun h => ⟨h.1, h.2.1, h.2.2.1, h.2.2.2⟩, fun h => ⟨h.eq, h.ends, h.plain, h.noWildcard⟩⟩

theorem convertToPostgresMatch_append {s : GoString}
    (h : hasPerforceWildcard (s ++ [separator]) = false) (rest : GoString) :
    convertToPostgresMatch (s ++ separator :: rest)
      = s ++ separator :: convertToPostgresMatch rest := by
  induction s with
  | nil => rfl
  | cons c s ih =>
    obtain ⟨hc, hs⟩ := noWildcardAt_of_hasPerforceWildcard h
    have hrest := hc.append rest
    rw [cons_append, convertToPostgresMatch.eq_3 c _ hrest.dots hrest.star, ih hs]
    rfl

theorem matchPieces_prefix (p name : GoString) :
    matchPieces (p.map (fun c => Piece.letter (c == ·)) ++ [.any]) name = p.isPrefixOf name := by
  induction p generalizing name with
  | nil => exact matchPieces_any name
  | cons c p ih =>
    cases name with
    | nil => rfl
    | cons b name =>
      rw [map_cons, cons_append, matchPieces, ih, isPrefixOf]

section

variable {line : P4ProtectLine} (hline : IsPrefixLine line)

include hline

theorem IsPrefixLine.exists_init : ∃ init, line.depotPrefix = init ++ [separator] ∧
    hasPerforceWildcard (init ++ [separator]) = false := by
  obtain ⟨init, hinit⟩ := getLast?_eq_some_iff.mp hline.ends
  exact ⟨init, hinit, hinit ▸ hline.noWildcard⟩

theorem IsPrefixLine.covers_eq (depot : GoString) :
    line.covers depot = line.depotPrefix.isPrefixOf depot := by
  obtain ⟨init, hinit, hwild⟩ := hline.exists_init
  rw [P4ProtectLine.covers, hline.eq, hinit, append_assoc, singleton_append,
    matchPiecesOf_append hwild]
  exact matchPieces_prefix _ _

theorem IsPrefixLine.convert_eq : convertToPostgresMatch line.depotPrefix = line.depotPrefix := by
  obtain ⟨init, hinit, hwild⟩ := hline.exists_init
  rw [hinit, convertToPostgresMatch_append hwild]
  rfl

theorem IsPrefixLine.finalize_eq :
    convertToPostgresMatch (line.depotPrefix ++ perforceWildcardMatchAll)
      = line.depotPrefix ++ [37] := by
  obtain ⟨init, hinit, hwild⟩ := hline.exists_init
  rw [hinit, append_assoc, singleton_append, convertToPostgresMatch_append hwild, append_assoc]
  rfl

theorem IsPrefixLine.similarTo_eq (db : SimilarTo) (depot : GoString) :
    db.similarTo (line.depotPrefix ++ [37]) depot = line.depotPrefix.isPrefixOf depot := by
  have hplain : (line.depotPrefix ++ [37]).all (fun c => !isSpecial c) = true := by
    rw [all_append, Bool.and_eq_true, all_eq_true]
    refine ⟨fun c hc => ?_, by decide +kernel⟩
    rw [(hline.plain c hc).1]
    rfl
  have hpieces : (line.depotPrefix ++ [37]).map similarPiece
      = line.depotPrefix.map (fun c => .letter (c == ·)) ++ [.any] := by
    rw [map_append]
    congr 1
    refine map_congr_left fun c hc => ?_
    obtain ⟨-, hpercent, hunderscore⟩ := hline.plain c hc
    rw [similarPiece, if_neg hpercent, if_neg hunderscore]
  rw [db.plain hplain, hpieces, matchPieces_prefix]

end

/-! ## Inclusions that stay -/

section

/-- The prefixes that lines include. -/
def included (lines : List P4ProtectLine) : List GoString :=
  (lines.filter fun line => !line.isExclusion).map P4ProtectLine.depotPrefix

/-- The prefixes that lines exclude. -/
def excluded (lines : List P4ProtectLine) : List GoString :=
  (lines.filter P4ProtectLine.isExclusion).map P4ProtectLine.depotPrefix

/-- **An inclusion stays**: from some line on, the lines before a place include the
prefix more often than they and the lines after it exclude it. -/
def Stays (before after : List P4ProtectLine) (p : GoString) : Prop :=
  ∃ lines, lines <:+ before ∧ (excluded (lines ++ after)).count p < (included lines).count p

/-- **An exclusion takes effect** after some lines: up to a place in them, an inclusion
of a broader prefix stays, but no inclusion of the same prefix. -/
def TakesEffect (lines : List P4ProtectLine) (e : GoString) : Prop :=
  ∃ before after p, lines = before ++ after ∧ p <+: e ∧ p ≠ e ∧
    Stays before after p ∧ ¬Stays before after e

variable {lines : List P4ProtectLine} {p e : GoString}

theorem included_append (lines lines' : List P4ProtectLine) :
    included (lines ++ lines') = included lines ++ included lines' := by
  rw [included, filter_append, map_append]
  rfl

theorem excluded_append (lines lines' : List P4ProtectLine) :
    excluded (lines ++ lines') = excluded lines ++ excluded lines' := by
  rw [excluded, filter_append, map_append]
  rfl

/-- The inclusions that are left when each exclusion has taken back the first
inclusion of its prefix. -/
def unpaired (lines : List P4ProtectLine) : List GoString :=
  lines.foldl (fun left line => if line.isExclusion then left.erase line.depotPrefix
    else left ++ [line.depotPrefix]) []

theorem unpaired_concat (lines : List P4ProtectLine) (line : P4ProtectLine) :
    unpaired (lines ++ [line]) = if line.isExclusion then (unpaired lines).erase line.depotPrefix
      else unpaired lines ++ [line.depotPrefix] :=
  foldl_concat _ _ _ _

/-- **How many inclusions of a prefix are left**: the largest difference from some
line on. -/
theorem le_count_unpaired_iff (n : ℕ) : n ≤ (unpaired lines).count p ↔
    ∃ s, s <:+ lines ∧ (excluded s).count p + n ≤ (included s).count p := by
  induction lines using reverseRecOn generalizing n with
  | nil =>
    simp only [suffix_nil, exists_eq_left]
    exact (Nat.zero_add n).symm ▸ Iff.rfl
  | append_singleton lines line ih =>
    have hsuffix : (∃ s, s <:+ lines ++ [line] ∧
        (excluded s).count p + n ≤ (included s).count p) ↔ n = 0 ∨ ∃ s, s <:+ lines ∧
          (excluded s).count p + (excluded [line]).count p + n ≤
            (included s).count p + (included [line]).count p := by
      simp only [suffix_concat_iff, or_and_right, exists_or, exists_eq_left]
      refine or_congr ?_ ⟨?_, ?_⟩
      · exact (Nat.zero_add n).symm ▸ Nat.le_zero
      · rintro ⟨s, ⟨s', rfl, hs⟩, hle⟩
        rw [excluded_append, included_append, count_append, count_append] at hle
        exact ⟨s', hs, hle⟩
      · rintro ⟨s, hs, hle⟩
        refine ⟨_, ⟨s, rfl, hs⟩, ?_⟩
        rwa [excluded_append, included_append, count_append, count_append]
    rw [hsuffix, unpaired_concat]
    cases hline : line.isExclusion with
    | true =>
      have hin : (included [line]).count p = 0 := by simp [included, hline]
      have hout : (excluded [line]).count p = if line.depotPrefix == p then 1 else 0 := by
        simp [excluded, hline, count_singleton]
      simp only [if_true, hin, hout, Nat.add_zero, Nat.add_assoc, count_erase]
      rw [← ih]
      split_ifs <;> omega
    | false =>
      have hin : (included [line]).count p = if line.depotPrefix == p then 1 else 0 := by
        simp [included, hline, count_singleton]
      have hout : (excluded [line]).count p = 0 := by simp [excluded, hline]
      simp only [Bool.false_eq_true, if_false, hin, hout, Nat.add_zero, count_append,
        count_singleton]
      cases n with
      | zero => exact iff_of_true (Nat.zero_le _) (.inl rfl)
      | succ n =>
        rw [or_iff_right (Nat.succ_ne_zero n)]
        split_ifs
        · simp only [← Nat.add_assoc, Nat.succ_le_succ_iff]
          exact ih n
        · exact ih (n + 1)

/-- The inclusions of the first lines that later exclusions leave. -/
theorem mem_diff_unpaired {before after : List P4ProtectLine} :
    p ∈ (unpaired before).diff (excluded after) ↔ Stays before after p := by
  rw [← count_pos_iff, count_diff, Nat.sub_pos_iff_lt, ← Nat.succ_le_iff, le_count_unpaired_iff]
  unfold Stays
  simp only [excluded_append, count_append, Nat.succ_eq_add_one, ← Nat.add_assoc, Nat.succ_le_iff]

theorem mem_unpaired : p ∈ unpaired lines ↔ Stays lines [] p := by
  rw [← mem_diff_unpaired]
  exact (diff_nil (unpaired lines)).symm ▸ Iff.rfl

/-- They come first among all that are left. -/
theorem diff_prefix_unpaired (before after : List P4ProtectLine) :
    (unpaired before).diff (excluded after) <+: unpaired (before ++ after) := by
  induction after using reverseRecOn with
  | nil =>
    rw [append_nil]
    exact prefix_rfl
  | append_singleton after line ih =>
    obtain ⟨rest, hrest⟩ := ih
    rw [← append_assoc, unpaired_concat, excluded_append, diff_append, ← hrest]
    cases hline : line.isExclusion with
    | true =>
      simp only [excluded, filter_cons, hline, if_true, filter_nil, map_cons, map_nil, diff_cons,
        diff_nil]
      rw [erase_append]
      split_ifs with hmem
      · exact prefix_append _ _
      · rw [erase_of_not_mem hmem]
        exact prefix_append _ _
    | false =>
      simp only [excluded, filter_cons, hline, Bool.false_eq_true, if_false, filter_nil, map_nil,
        diff_nil, append_assoc]
      exact prefix_append _ _

/-- All initial segments of what is left come about in this way. -/
theorem exists_of_prefix_unpaired {left : List GoString} (h : left <+: unpaired lines) :
    ∃ before after, lines = before ++ after ∧
      (unpaired before).diff (excluded after) = left := by
  induction lines using reverseRecOn generalizing left with
  | nil => exact ⟨[], [], rfl, (prefix_nil.mp h).symm⟩
  | append_singleton lines line ih =>
    rw [unpaired_concat] at h
    cases hline : line.isExclusion with
    | true =>
      have hlast : excluded [line] = [line.depotPrefix] := by
        simp [excluded, hline]
      -- before the exclusion took one back
      suffices ∃ left', left' <+: unpaired lines ∧ left'.erase line.depotPrefix = left by
        obtain ⟨left', hleft', rfl⟩ := this
        obtain ⟨before, after, rfl, rfl⟩ := ih hleft'
        refine ⟨before, after ++ [line], append_assoc _ _ _, ?_⟩
        rw [excluded_append, diff_append, hlast, diff_cons, diff_nil]
      rw [hline, if_pos rfl] at h
      by_cases hmem : line.depotPrefix ∈ unpaired lines
      · obtain ⟨l₁, l₂, hnot, heq, herase⟩ := exists_erase_eq hmem
        rw [herase] at h
        rcases prefix_or_prefix_of_prefix h (prefix_append l₁ l₂) with hle | ⟨l₂', rfl⟩
        · refine ⟨left, heq ▸ hle.trans (prefix_append _ _), erase_of_not_mem fun hleft => ?_⟩
          exact hnot (hle.subset hleft)
        · refine ⟨l₁ ++ line.depotPrefix :: l₂', ?_, ?_⟩
          · rw [heq, prefix_append_right_inj, prefix_cons_inj]
            exact (prefix_append_right_inj l₁).mp h
          · rw [erase_append, if_neg hnot, erase_cons_head]
      · rw [erase_of_not_mem hmem] at h
        exact ⟨left, h, erase_of_not_mem fun hleft => hmem (h.subset hleft)⟩
    | false =>
      have hlast : excluded [line] = [] := by
        simp [excluded, hline]
      rw [hline, if_neg Bool.false_ne_true] at h
      rcases prefix_concat_iff.mp h with rfl | h
      · refine ⟨lines ++ [line], [], (append_nil _).symm, ?_⟩
        rw [unpaired_concat, hline]
        rfl
      · obtain ⟨before, after, rfl, rfl⟩ := ih h
        refine ⟨before, after ++ [line], append_assoc _ _ _, ?_⟩
        rw [excluded_append, hlast, append_nil]

/-- **An exclusion takes effect** if the first inclusion that is left and covers it is
a broader one. -/
theorem takesEffect_iff : TakesEffect lines e ↔
    ∃ p, (unpaired lines).find? (·.isPrefixOf e) = some p ∧ p ≠ e := by
  constructor
  · rintro ⟨before, after, p, rfl, hbegins, -, hp, he⟩
    rw [← mem_diff_unpaired] at hp he
    obtain ⟨rest, hrest⟩ := diff_prefix_unpaired before after
    obtain ⟨q, hq⟩ : ∃ q, ((unpaired before).diff (excluded after)).find? (·.isPrefixOf e)
        = some q := by
      rw [← Option.isSome_iff_exists, find?_isSome]
      exact ⟨p, hp, isPrefixOf_iff_prefix.mpr hbegins⟩
    refine ⟨q, by rw [← hrest, find?_append, hq, Option.some_or], ?_⟩
    rintro rfl
    exact he (mem_of_find?_eq_some hq)
  · rintro ⟨p, hfind, hne⟩
    obtain ⟨hbegins, as, bs, heq, hnone⟩ := find?_eq_some_iff_append.mp hfind
    obtain ⟨before, after, rfl, hleft⟩ :=
      @exists_of_prefix_unpaired lines (as ++ [p]) ⟨bs, by rw [heq, append_assoc]; rfl⟩
    refine ⟨before, after, p, rfl, isPrefixOf_iff_prefix.mp hbegins, hne, ?_, ?_⟩
    · rw [← mem_diff_unpaired, hleft]
      exact mem_append_right _ (mem_singleton_self p)
    · rw [← mem_diff_unpaired, hleft, mem_append, mem_singleton, not_or]
      refine ⟨fun he => ?_, hne.symm⟩
      have hself := hnone e he
      rw [ isPrefixOf_iff_prefix.mpr prefix_rfl] at hself
      cases hself

end

/-! ## The lists of the scanner -/

/-- **The loop for an exclusion** stops at the first include that covers it. -/
theorem excludeFrom_eq (e : GoString) (includes : List GoString) : excludeFrom e includes =
    match includes.find? (·.isPrefixOf e) with
    | none => (includes, false)
    | some p => if p = e then (includes.erase e, false) else (includes, true) := by
  induction includes with
  | nil => rfl
  | cons p includes ih =>
    rw [excludeFrom, find?_cons]
    cases hp : p.isPrefixOf e with
    | true =>
      simp only [Bool.not_true, Bool.false_eq_true, if_false]
      by_cases he : e = p
      · subst he
        rw [if_pos rfl, if_pos rfl, erase_cons_head]
      · rw [if_neg he, if_neg (Ne.symm he)]
    | false =>
      have he : p ≠ e := by
        rintro rfl
        rw [ isPrefixOf_iff_prefix.mpr prefix_rfl] at hp
        cases hp
      simp only [Bool.not_false, if_true, ih]
      cases includes.find? (·.isPrefixOf e) with
      | none => rfl
      | some q =>
        dsimp only
        split_ifs
        · rw [erase_cons_tail (by simpa using he)]
        · rfl

theorem excludeFrom_subset {e : GoString} {includes : List GoString} :
    (excludeFrom e includes).1 ⊆ includes := by
  rw [excludeFrom_eq]
  split
  · exact List.Subset.refl _
  · split_ifs
    · exact erase_subset
    · exact List.Subset.refl _

/-- No exclusion that covers a depot takes effect. -/
def Ineffective (lines : List P4ProtectLine) (depot : GoString) : Prop :=
  ∀ before line after, lines = before ++ line :: after → line.isExclusion = true →
    line.depotPrefix <+: depot → ¬TakesEffect before line.depotPrefix

theorem ineffective_concat {lines : List P4ProtectLine} {line : P4ProtectLine}
    {depot : GoString} : Ineffective (lines ++ [line]) depot ↔ Ineffective lines depot ∧
      (line.isExclusion = true → line.depotPrefix <+: depot →
        ¬TakesEffect lines line.depotPrefix) := by
  constructor
  · refine fun h => ⟨?_, h lines line [] rfl⟩
    rintro before other after rfl
    exact h before other (after ++ [line]) (by rw [append_assoc]; rfl)
  · rintro ⟨h, hline⟩ before other after heq
    rcases eq_nil_or_concat' after with rfl | ⟨after, last, rfl⟩
    · obtain ⟨rfl, hother⟩ := append_inj' heq rfl
      obtain rfl := (cons.inj hother).1
      exact hline
    · rw [← cons_append, ← append_assoc] at heq
      obtain ⟨rfl, -⟩ := append_inj' heq rfl
      exact h before other after rfl

/-- What the lists say of a depot: all that is left is included, or an exclusion that
took effect excludes the depot. -/
inductive Tracks (lines : List P4ProtectLine) (depot : GoString)
    (includes excludes : List GoString) : Prop
  | includes (hleft : includes.filter (·.isPrefixOf depot)
      = (unpaired lines).filter (·.isPrefixOf depot))
    (hexcludes : ∀ x ∈ excludes, ¬x <+: depot) (hno : Ineffective lines depot)
  | excludes (hexcluded : ∃ x ∈ excludes, x <+: depot) (hyes : ¬Ineffective lines depot)

section

variable {lines : List P4ProtectLine} {line : P4ProtectLine} {depot : GoString}
  {perms : ExternalUserPermissions}

theorem processDepotLine_eq (hline : IsPrefixLine line) :
    processDepotLine perms line = if line.isExclusion then
        { perms with
          includeContains := (excludeFrom line.depotPrefix perms.includeContains).1
          excludeContains := if (excludeFrom line.depotPrefix perms.includeContains).2 then
            perms.excludeContains ++ [line.depotPrefix] else perms.excludeContains }
      else { perms with includeContains := perms.includeContains ++ [line.depotPrefix] } := by
  have hdots : line.pathMatch.rdropWhile (· == dot) = line.depotPrefix := rfl
  simp only [processDepotLine, hdots, hline.convert_eq, hline.noWildcard]
  cases line.isExclusion <;> rfl

theorem mem_processDepotLine (hline : IsPrefixLine line) {p : GoString}
    (hp : p ∈ (processDepotLine perms line).includeContains ∨
      p ∈ (processDepotLine perms line).excludeContains) :
    (p ∈ perms.includeContains ∨ p ∈ perms.excludeContains) ∨ p = line.depotPrefix := by
  have hsubset := @excludeFrom_subset line.depotPrefix perms.includeContains p
  rw [processDepotLine_eq hline] at hp
  split_ifs at hp <;> simp only [mem_append, mem_singleton] at hp <;> tauto

theorem Tracks.step (h : Tracks lines depot perms.includeContains perms.excludeContains)
    (hline : IsPrefixLine line) : Tracks (lines ++ [line]) depot
      (processDepotLine perms line).includeContains
      (processDepotLine perms line).excludeContains := by
  rw [processDepotLine_eq hline]
  cases h with
  | excludes hexcluded hyes =>
    obtain ⟨x, hx, hbegins⟩ := hexcluded
    refine .excludes ⟨x, ?_, hbegins⟩ fun h => hyes (ineffective_concat.mp h).1
    split_ifs
    · exact mem_append_left _ hx
    · exact hx
    · exact hx
  | includes hleft hexcludes hno =>
    cases hexclusion : line.isExclusion with
    | false =>
      refine .includes ?_ hexcludes (ineffective_concat.mpr ⟨hno, fun h => ?_⟩)
      · rw [if_neg Bool.false_ne_true, unpaired_concat, hexclusion, if_neg Bool.false_ne_true,
          filter_append, filter_append, hleft]
      · rw [hexclusion] at h
        cases h
    | true =>
      have hunpaired : unpaired (lines ++ [line]) = (unpaired lines).erase line.depotPrefix := by
        rw [unpaired_concat, if_pos hexclusion]
      rw [if_pos rfl]
      by_cases hcovers : line.depotPrefix <+: depot
      · -- the includes that cover the exclusion cover the depot
        have hfind : ∀ l : List GoString, (l.filter (·.isPrefixOf depot)).find?
            (·.isPrefixOf line.depotPrefix) = l.find? (·.isPrefixOf line.depotPrefix) := by
          intro l
          rw [find?_filter]
          congr 1
          funext p
          rw [Bool.eq_iff_iff, decide_eq_true_iff, isPrefixOf_iff_prefix, isPrefixOf_iff_prefix]
          exact and_iff_right_of_imp fun h => h.trans hcovers
        have hfirst := hfind perms.includeContains
        rw [hleft, hfind] at hfirst
        rw [excludeFrom_eq, ← hfirst]
        cases hp : (unpaired lines).find? (·.isPrefixOf line.depotPrefix) with
        | none =>
          have hnot : line.depotPrefix ∉ unpaired lines := fun hmem =>
            find?_eq_none.mp hp _ hmem ( isPrefixOf_iff_prefix.mpr prefix_rfl)
          refine .includes ?_ hexcludes (ineffective_concat.mpr ⟨hno, fun _ _ => ?_⟩)
          · rw [hunpaired, erase_of_not_mem hnot]
            exact hleft
          · rw [takesEffect_iff, hp]
            rintro ⟨_, h, -⟩
            cases h
        | some p =>
          by_cases heq : p = line.depotPrefix
          · simp only [heq, if_true, Bool.false_eq_true, if_false]
            refine .includes ?_ hexcludes (ineffective_concat.mpr ⟨hno, fun _ _ => ?_⟩)
            · rw [hunpaired, ← erase_filter, ← erase_filter, hleft]
            · rw [takesEffect_iff, hp]
              rintro ⟨_, h, hne⟩
              exact hne (Option.some.inj h ▸ heq)
          · simp only [heq, if_false, if_true]
            refine .excludes ⟨_, mem_append_right _ mem_cons_self, hcovers⟩ fun h => ?_
            exact (ineffective_concat.mp h).2 hexclusion hcovers (takesEffect_iff.mpr ⟨p, hp, heq⟩)
      · have hcut : ∀ l : List GoString, (l.erase line.depotPrefix).filter (·.isPrefixOf depot)
            = l.filter (·.isPrefixOf depot) := by
          intro l
          rw [← erase_filter, erase_of_not_mem]
          exact fun h => hcovers ( isPrefixOf_iff_prefix.mp (mem_filter.mp h).2)
        refine .includes ?_ ?_ (ineffective_concat.mpr ⟨hno, fun _ h => absurd h hcovers⟩)
        · rw [hunpaired, hcut, ← hleft, excludeFrom_eq]
          dsimp only
          split
          · rfl
          · split_ifs
            · exact hcut _
            · rfl
        · intro x hx
          dsimp only at hx
          split_ifs at hx
          · rcases mem_append.mp hx with hx | hx
            · exact hexcludes x hx
            · rwa [mem_singleton.mp hx]
          · exact hexcludes x hx

/-- **The lists of the scanner** after any number of lines. -/
theorem tracks_foldl (hlines : ∀ line ∈ lines, IsPrefixLine line) :
    Tracks lines depot (lines.foldl processDepotLine .empty).includeContains
        (lines.foldl processDepotLine .empty).excludeContains ∧
      ∀ p, p ∈ (lines.foldl processDepotLine .empty).includeContains ∨
          p ∈ (lines.foldl processDepotLine .empty).excludeContains →
        ∃ line, IsPrefixLine line ∧ line.depotPrefix = p := by
  induction lines using reverseRecOn with
  | nil => exact ⟨.includes rfl nofun fun before line after heq => by simp at heq, nofun⟩
  | append_singleton lines line ih =>
    obtain ⟨hlines, hline⟩ := forall_mem_append.mp hlines
    obtain ⟨htracks, hentries⟩ := ih hlines
    have hline := hline line (mem_singleton_self line)
    rw [foldl_concat]
    refine ⟨htracks.step hline, fun p hp => ?_⟩
    rcases mem_processDepotLine hline hp with hp | rfl
    · exact hentries p hp
    · exact ⟨line, hline, rfl⟩

theorem any_similarTo_eq (db : SimilarTo) {entries : List GoString}
    (h : ∀ p ∈ entries, ∃ line, IsPrefixLine line ∧ line.depotPrefix = p) (depot : GoString) :
    (entries.map fun entry => convertToPostgresMatch (entry ++ perforceWildcardMatchAll)).any
      (db.similarTo · depot) = entries.any (·.isPrefixOf depot) := by
  induction entries with
  | nil => rfl
  | cons entry entries ih =>
    obtain ⟨⟨line, hline, rfl⟩, hrest⟩ := forall_mem_cons.mp h
    rw [map_cons, any_cons, any_cons, ih hrest, hline.finalize_eq, hline.similarTo_eq]

/-- **Which depots are readable**: an inclusion of it stays, and no exclusion takes
effect. -/
theorem readableDepot_depotPermissions (db : SimilarTo)
    (hlines : ∀ line ∈ lines, IsPrefixLine line) :
    readableDepot db (depotPermissions lines) depot = true ↔
      (∃ p, p <+: depot ∧ Stays lines [] p) ∧ Ineffective lines depot := by
  obtain ⟨htracks, hentries⟩ := @tracks_foldl lines depot hlines
  rw [readableDepot, depotPermissions, finalizeDepots,
    any_similarTo_eq db fun p hp => hentries p (.inl hp),
    any_similarTo_eq db fun p hp => hentries p (.inr hp), Bool.and_eq_true, Bool.not_eq_true',
    any_eq_true, any_eq_false]
  simp only [ isPrefixOf_iff_prefix]
  cases htracks with
  | excludes hexcluded hyes =>
    obtain ⟨x, hx, hbegins⟩ := hexcluded
    exact iff_of_false (fun h => h.2 x hx hbegins) fun h => hyes h.2
  | includes hleft hexcludes hno =>
    rw [and_iff_left hexcludes, and_iff_left hno]
    refine exists_congr fun p => ?_
    have hmem := congrArg (p ∈ ·) hleft
    simp only [mem_filter, isPrefixOf_iff_prefix, eq_iff_iff] at hmem
    rw [hmem, mem_unpaired, and_comm]

end

variable {lines : List P4ProtectLine}

/-! ## Permissions respect the order -/

/-- Every depot that is readable is included by the last line that covers
it. -/
def RespectsOrder (db : SimilarTo) (lines : List P4ProtectLine) : Prop :=
  ∀ depot, depot.getLast? = some separator →
    readableDepot db (depotPermissions lines) depot = true →
    ∃ line, lastMatch (P4ProtectLine.covers depot) lines = some line ∧ line.isExclusion = false

/-- **The order is lost for a depot**: the last line that covers it is an exclusion, but
an inclusion stays that covers it, and no exclusion that does takes effect. -/
structure LosesOrder (lines : List P4ProtectLine) (depot : GoString) : Prop where
  last : ∃ before line after, lines = before ++ line :: after ∧ line.isExclusion = true ∧
    line.depotPrefix <+: depot ∧ ∀ later ∈ after, ¬later.depotPrefix <+: depot
  stays : ∃ p, p <+: depot ∧ Stays lines [] p
  ineffective : Ineffective lines depot

/-- A prefix of which an inclusion stays is one of a line. -/
theorem Stays.exists_line {p : GoString} (h : Stays lines [] p) :
    ∃ line ∈ lines, line.depotPrefix = p := by
  obtain ⟨s, hs, hlt⟩ := h
  obtain ⟨line, hline, rfl⟩ := mem_map.mp (count_pos_iff.mp (Nat.zero_lt_of_lt hlt))
  exact ⟨line, hs.subset (mem_of_mem_filter hline), rfl⟩

/-- The order is lost for the prefix of a line already. -/
theorem LosesOrder.exists_line {depot : GoString} (h : LosesOrder lines depot) :
    ∃ line ∈ lines, LosesOrder lines line.depotPrefix := by
  obtain ⟨⟨before, line, after, heq, hline, hcovers, hlater⟩, ⟨p, hp, hstays⟩, hno⟩ := h
  obtain ⟨included, hincluded, rfl⟩ := hstays.exists_line
  have hmem : line ∈ lines := heq ▸ mem_append_right _ mem_cons_self
  -- the longer of the two prefixes
  have hlost : ∀ other, other <+: depot → line.depotPrefix <+: other →
      included.depotPrefix <+: other → LosesOrder lines other := fun other hother h h' =>
    ⟨⟨before, line, after, heq, hline, h, fun later hmem hbegins =>
      hlater later hmem (hbegins.trans hother)⟩, ⟨_, h', hstays⟩,
      fun before line after heq hline hbegins => hno before line after heq hline
        (hbegins.trans hother)⟩
  rcases prefix_or_prefix_of_prefix hcovers hp with hle | hle
  · exact ⟨included, hincluded, hlost _ hp hle prefix_rfl⟩
  · exact ⟨line, hmem, hlost _ hcovers prefix_rfl hle⟩

end Perforce
