import CodeScout.Util.GoString
import Mathlib.Algebra.BigOperators.Group.List.Basic
import Mathlib.Algebra.Order.Ring.Int
import Mathlib.Tactic.Common

/-!
# Search results

A search streams *matches* of five kinds. Each has a key, by which the same
result found twice is recognised, a number of results it stands for, and a
way to cut it down to a given number of results.

Two facts about matches are assumed by their methods and not checked by
them: a commit match has a preview, without which `Limit` panics, and the
path of a single file of a diff is not empty, without which its key could
be the key of a whole diff. They are fields of the types here, so that
every match there is satisfies them.

Counts are natural numbers and limits integers, since a limit can be
overdrawn. A slice expression is partial, as it is in the source: `none`
is the panic of an index out of range.
-/

namespace Result

/-- The slice expression `l[:n]`. -/
def sliceTo {α : Type} (l : List α) (n : ℤ) : Option (List α) :=
  if 0 ≤ n ∧ n ≤ l.length then some (l.take n.toNat) else none

theorem sliceTo_of_le {α : Type} {l : List α} {n : ℤ} (h₀ : 0 ≤ n) (h : n ≤ l.length) :
    sliceTo l n = some (l.take n.toNat) :=
  if_pos ⟨h₀, h⟩

/-! ## The kinds of matches -/

structure Location where
  offset : ℤ
  line : ℤ
  column : ℤ
deriving DecidableEq, Repr

structure Range where
  start : Location
  stop : Location
deriving DecidableEq, Repr

/-- A text with the ranges that matched. -/
structure MatchedString where
  content : GoString
  matchedRanges : List Range
deriving DecidableEq, Repr

/-- A `time.Time`, as far as `==` sees it. -/
structure Time where
  wall : UInt64
  ext : Int64
  loc : ℕ
deriving DecidableEq, Repr

/-- A file at a commit, and the revision asked for. -/
structure File where
  inputRev : Option GoString
  repo : GoString
  commitID : GoString
  path : GoString
deriving DecidableEq, Repr

/-- Lines of a file with the ranges that matched. -/
structure ChunkMatch where
  content : GoString
  contentStart : Location
  ranges : List Range
deriving DecidableEq, Repr

structure SymbolMatch where
  name : GoString
deriving DecidableEq, Repr

/-- The matches of a file. -/
structure FileMatch where
  file : File
  chunkMatches : List ChunkMatch
  symbols : List SymbolMatch
  pathMatches : List Range
  limitHit : Bool
deriving DecidableEq, Repr

/-- A repository as a result. -/
structure RepoMatch where
  name : GoString
  rev : GoString
  descriptionMatches : List Range
  repoNameMatches : List Range
deriving DecidableEq, Repr

structure Commit where
  id : GoString
  authorDate : Time
deriving DecidableEq, Repr

/-- A commit, with its message or its diff. -/
structure CommitMatch where
  commit : Commit
  repo : GoString
  messagePreview : Option MatchedString
  diffPreview : Option MatchedString
  preview_set : diffPreview.isSome ∨ messagePreview.isSome
deriving DecidableEq

/-- `CommitDiffMatch.Path`. -/
def diffPath (origName newName : GoString) : GoString :=
  if newName = lit "/dev/null" then origName else newName

/-- A file in the diff of a commit. -/
structure CommitDiffMatch where
  commit : Commit
  repo : GoString
  preview : MatchedString
  origName : GoString
  newName : GoString
  path_ne : diffPath origName newName ≠ []
deriving DecidableEq

inductive Owner
  | person (handle email : GoString)
  | team (name : GoString)
deriving DecidableEq, Repr

/-- `Owner.Type`. -/
def Owner.type : Owner → GoString
  | .person .. => lit "person"
  | .team .. => lit "team"

/-- `Owner.Identifier`. -/
def Owner.identifier : Owner → GoString
  | .person handle email => lit "Person:" ++ handle ++ email
  | .team name => lit "Team:" ++ name

/-- An owner of files. -/
structure OwnerMatch where
  resolvedOwner : Option Owner
  inputRev : Option GoString
  repo : GoString
  commitID : GoString
deriving DecidableEq, Repr

/-- A result of any type. -/
inductive Match
  | file (m : FileMatch)
  | repo (m : RepoMatch)
  | commit (m : CommitMatch)
  | commitDiff (m : CommitDiffMatch)
  | owner (m : OwnerMatch)
deriving DecidableEq

/-! ## Keys -/

/-- What results are identified and sorted by. -/
structure Key where
  repo : GoString
  rev : GoString
  authorDate : Time
  commit : GoString
  path : GoString
  ownerMetadata : GoString
  typeRank : ℕ
deriving DecidableEq, Repr

/-- The zero value `Key{}`. -/
def Key.zero : Key := ⟨[], [], ⟨0, 0, 0⟩, [], [], [], 0⟩

def rankFileMatch : ℕ := 0
def rankCommitMatch : ℕ := 1
def rankDiffMatch : ℕ := 2
def rankRepoMatch : ℕ := 3
def rankOwnerMatch : ℕ := 4

def FileMatch.key (fm : FileMatch) : Key :=
  { Key.zero with
    typeRank := rankFileMatch
    repo := fm.file.repo
    commit := fm.file.commitID
    path := fm.file.path
    rev := fm.file.inputRev.getD [] }

def RepoMatch.key (r : RepoMatch) : Key :=
  { Key.zero with typeRank := rankRepoMatch, repo := r.name, rev := r.rev }

def CommitMatch.key (cm : CommitMatch) : Key :=
  { Key.zero with
    typeRank := if cm.diffPreview.isSome then rankDiffMatch else rankCommitMatch
    repo := cm.repo
    authorDate := cm.commit.authorDate
    commit := cm.commit.id }

def CommitDiffMatch.key (cm : CommitDiffMatch) : Key :=
  { Key.zero with
    typeRank := rankDiffMatch
    repo := cm.repo
    authorDate := cm.commit.authorDate
    commit := cm.commit.id
    path := diffPath cm.origName cm.newName }

def OwnerMatch.key (om : OwnerMatch) : Key :=
  { Key.zero with
    typeRank := rankOwnerMatch
    repo := om.repo
    commit := om.commitID
    ownerMetadata := (om.resolvedOwner.map fun o => o.type ++ o.identifier).getD []
    rev := om.inputRev.getD [] }

/-- **`Match.Key`.** -/
def Match.key : Match → Key
  | .file m => m.key
  | .repo m => m.key
  | .commit m => m.key
  | .commitDiff m => m.key
  | .owner m => m.key

/-! ## Merging two matches -/

/-- `FileMatch.AppendMatches`. -/
def FileMatch.appendMatches (fm src : FileMatch) : FileMatch :=
  { fm with
    chunkMatches := fm.chunkMatches ++ src.chunkMatches
    symbols := fm.symbols ++ src.symbols
    limitHit := fm.limitHit || src.limitHit }

/-- `RepoMatch.AppendMatches`. -/
def RepoMatch.appendMatches (r src : RepoMatch) : RepoMatch :=
  { r with
    repoNameMatches := r.repoNameMatches ++ src.repoNameMatches
    descriptionMatches := r.descriptionMatches ++ src.descriptionMatches }

/-- `CommitMatch.AppendMatches`: only the highlights of messages are
merged. -/
def CommitMatch.appendMatches (cm src : CommitMatch) : CommitMatch :=
  match cm.messagePreview, src.messagePreview with
  | some preview, some other =>
    { cm with
      messagePreview := some
        { preview with matchedRanges := preview.matchedRanges ++ other.matchedRanges }
      preview_set := .inr rfl }
  | _, _ => cm

/-- The type switch of `addMatch`: `v` is merged into `prev`, and `none` is
the panic of a failing type assertion. -/
def Match.appendMatches (prev v : Match) : Option Match :=
  match v with
  | .file v =>
    match prev with
    | .file p => some (.file (p.appendMatches v))
    | _ => none
  | .commit v =>
    match prev with
    | .commit p => some (.commit (p.appendMatches v))
    | _ => none
  | .repo v =>
    match prev with
    | .repo p => some (.repo (p.appendMatches v))
    | _ => none
  | _ => some prev

theorem CommitMatch.key_appendMatches (cm src : CommitMatch) :
    (cm.appendMatches src).key = cm.key := by
  unfold appendMatches
  split <;> rfl

theorem CommitMatch.key_typeRank (cm : CommitMatch) :
    cm.key.typeRank = rankDiffMatch ∨ cm.key.typeRank = rankCommitMatch :=
  ite_eq_or_eq _ _ _

theorem Match.eq_file_of_typeRank {m : Match} (h : m.key.typeRank = rankFileMatch) :
    ∃ p, m = .file p := by
  cases m with
  | file p => exact ⟨p, rfl⟩
  | repo p => exact absurd (show rankRepoMatch = rankFileMatch from h) (by decide)
  | commit p =>
    have := p.key_typeRank.imp (h.symm.trans ·) (h.symm.trans ·)
    exact absurd this (by decide)
  | commitDiff p => exact absurd (show rankDiffMatch = rankFileMatch from h) (by decide)
  | owner p => exact absurd (show rankOwnerMatch = rankFileMatch from h) (by decide)

theorem Match.eq_repo_of_typeRank {m : Match} (h : m.key.typeRank = rankRepoMatch) :
    ∃ p, m = .repo p := by
  cases m with
  | repo p => exact ⟨p, rfl⟩
  | file p => exact absurd (show rankFileMatch = rankRepoMatch from h) (by decide)
  | commit p =>
    have := p.key_typeRank.imp (h.symm.trans ·) (h.symm.trans ·)
    exact absurd this (by decide)
  | commitDiff p => exact absurd (show rankDiffMatch = rankRepoMatch from h) (by decide)
  | owner p => exact absurd (show rankOwnerMatch = rankRepoMatch from h) (by decide)

/-- A match with the key of a commit match is a commit match: a match of
one file of a diff has a path. -/
theorem Match.eq_commit_of_key {m : Match} {cm : CommitMatch} (h : m.key = cm.key) :
    ∃ p, m = .commit p := by
  have hrank : m.key.typeRank = rankDiffMatch ∨ m.key.typeRank = rankCommitMatch :=
    h ▸ cm.key_typeRank
  cases m with
  | commit p => exact ⟨p, rfl⟩
  | commitDiff p => exact absurd (congrArg Key.path h) p.path_ne
  | file p =>
    exact absurd (show rankFileMatch = _ ∨ rankFileMatch = _ from hrank) (by decide)
  | repo p =>
    exact absurd (show rankRepoMatch = _ ∨ rankRepoMatch = _ from hrank) (by decide)
  | owner p =>
    exact absurd (show rankOwnerMatch = _ ∨ rankOwnerMatch = _ from hrank) (by decide)

/-- **The type assertions of `addMatch` do not fail**: of two matches with
the same key the second merges into the first, and the key stays. -/
theorem Match.appendMatches_of_key_eq {prev v : Match} (h : prev.key = v.key) :
    ∃ m, prev.appendMatches v = some m ∧ m.key = prev.key := by
  cases v with
  | file v =>
    obtain ⟨p, rfl⟩ := eq_file_of_typeRank (congrArg Key.typeRank h)
    exact ⟨_, rfl, rfl⟩
  | repo v =>
    obtain ⟨p, rfl⟩ := eq_repo_of_typeRank (congrArg Key.typeRank h)
    exact ⟨_, rfl, rfl⟩
  | commit v =>
    obtain ⟨p, rfl⟩ := eq_commit_of_key h
    exact ⟨_, rfl, p.key_appendMatches v⟩
  | commitDiff v => exact ⟨prev, rfl, rfl⟩
  | owner v => exact ⟨prev, rfl, rfl⟩

/-! ## Counting and limiting -/

/-- `ChunkMatches.MatchCount`. -/
def matchCount (hs : List ChunkMatch) : ℕ :=
  (hs.map (·.ranges.length)).sum

/-- `ChunkMatches.Limit`: the chunk that reaches the limit is cut and the
chunks after it are dropped. -/
def limitChunks : List ChunkMatch → ℤ → Option (List ChunkMatch)
  | [], _ => some []
  | h :: hs, limit =>
    if limit ≤ h.ranges.length then
      (sliceTo h.ranges limit).map fun ranges => [{ h with ranges }]
    else
      (limitChunks hs (limit - h.ranges.length)).map (h :: ·)

/-- `FileMatch.ResultCount`. -/
def FileMatch.resultCount (fm : FileMatch) : ℕ :=
  let rc := fm.symbols.length + matchCount fm.chunkMatches
  if rc = 0 then 1 else rc

/-- **`FileMatch.Limit`**, with the match it leaves behind. -/
def FileMatch.limit (fm : FileMatch) (limit : ℤ) : Option (FileMatch × ℤ) := do
  let matchCount := matchCount fm.chunkMatches
  let symbolCount := fm.symbols.length
  if matchCount = 0 ∧ symbolCount = 0 then
    return (fm, limit - 1)
  let (fm, limit) ←
    if limit < matchCount then do
      let chunkMatches ← limitChunks fm.chunkMatches limit
      pure ({ fm with chunkMatches, limitHit := true }, (0 : ℤ))
    else
      pure (fm, limit - matchCount)
  if limit < symbolCount then do
    let symbols ← sliceTo fm.symbols limit
    return ({ fm with symbols, limitHit := true }, 0)
  else
    return (fm, limit - symbolCount)

/-- The number of results a preview stands for. -/
def MatchedString.resultCount (ms : MatchedString) : ℕ :=
  if 0 < ms.matchedRanges.length then ms.matchedRanges.length else 1

/-- `limitMatchedString`. -/
def MatchedString.limit (ms : MatchedString) (limit : ℤ) : Option (MatchedString × ℤ) :=
  if ms.matchedRanges.length = 0 then
    some (ms, limit - 1)
  else if limit < ms.matchedRanges.length then
    (sliceTo ms.matchedRanges limit).map fun matchedRanges => ({ ms with matchedRanges }, 0)
  else
    some (ms, limit - ms.matchedRanges.length)

/-- `CommitMatch.ResultCount`. -/
def CommitMatch.resultCount (cm : CommitMatch) : ℕ :=
  match cm.diffPreview, cm.messagePreview with
  | some preview, _ => preview.resultCount
  | none, some preview => preview.resultCount
  | none, none => 1

/-- **`CommitMatch.Limit`.** Without a preview it panics. -/
def CommitMatch.limit (cm : CommitMatch) (limit : ℤ) : Option (CommitMatch × ℤ) :=
  match cm.diffPreview, cm.messagePreview with
  | some preview, _ =>
    (preview.limit limit).map fun (preview, limit) =>
      ({ cm with diffPreview := some preview, preview_set := .inl rfl }, limit)
  | none, some preview =>
    (preview.limit limit).map fun (preview, limit) =>
      ({ cm with messagePreview := some preview, preview_set := .inr rfl }, limit)
  | none, none => none

/-- `OwnerMatch.ResultCount`. -/
def OwnerMatch.resultCount (om : OwnerMatch) : ℕ :=
  match om.resolvedOwner with
  | none => 0
  | some _ => 1

/-- **`Match.ResultCount`.** -/
def Match.resultCount : Match → ℕ
  | .file m => m.resultCount
  | .repo _ => 1
  | .commit m => m.resultCount
  | .commitDiff m => m.preview.resultCount
  | .owner m => m.resultCount

/-- **`Match.Limit`**: the match it leaves behind and what is left of the
limit. -/
def Match.limit (m : Match) (limit : ℤ) : Option (Match × ℤ) :=
  match m with
  | .file m => (m.limit limit).map fun (m, limit) => (.file m, limit)
  | .repo m => some (.repo m, limit - 1)
  | .commit m => (m.limit limit).map fun (m, limit) => (.commit m, limit)
  | .commitDiff m =>
    (m.preview.limit limit).map fun (preview, limit) => (.commitDiff { m with preview }, limit)
  | .owner m => some (.owner m, limit - m.resultCount)

/-- `Matches.ResultCount`. -/
def resultCount (ms : List Match) : ℕ :=
  (ms.map Match.resultCount).sum

/-- **`Matches.Limit`**: the matches it leaves behind and what is left of
the limit. -/
def limitMatches : List Match → ℤ → Option (List Match × ℤ)
  | [], limit => some ([], limit)
  | m :: ms, limit =>
    if limit ≤ 0 then
      some ([], 0)
    else do
      let (m, limit) ← m.limit limit
      let (ms, limit) ← limitMatches ms limit
      return (m :: ms, limit)

/-- `y` is `x` cut down to `limit` results, `rest` of the limit being left:
the contract of every `Limit`. -/
structure Limited (count limit count' rest : ℤ) : Prop where
  count_eq : count' = min count limit
  rest_eq : rest = limit - count'

variable {limit : ℤ}

/-- **The chunks are cut exactly to the limit** when they exceed it. -/
theorem limitChunks_spec (hs : List ChunkMatch) (h₀ : 0 ≤ limit) (h : limit ≤ matchCount hs) :
    ∃ hs', limitChunks hs limit = some hs' ∧ (matchCount hs' : ℤ) = limit := by
  induction hs generalizing limit with
  | nil =>
    refine ⟨[], rfl, ?_⟩
    have : (matchCount [] : ℤ) = 0 := rfl
    omega
  | cons c hs ih =>
    have hcount : matchCount (c :: hs) = c.ranges.length + matchCount hs := by
      simp [matchCount]
    rw [limitChunks]
    by_cases hc : limit ≤ c.ranges.length
    · rw [if_pos hc, sliceTo_of_le h₀ hc]
      refine ⟨_, rfl, ?_⟩
      simp only [matchCount, List.map_cons, List.map_nil, List.sum_singleton, List.length_take]
      omega
    · rw [if_neg hc]
      obtain ⟨hs', hlimit, hcount'⟩ := ih (show 0 ≤ limit - c.ranges.length by omega) (by omega)
      rw [hlimit]
      refine ⟨_, rfl, ?_⟩
      rw [show matchCount (c :: hs') = c.ranges.length + matchCount hs' by simp [matchCount]]
      omega

theorem MatchedString.limit_spec (ms : MatchedString) (h₀ : 0 < limit) :
    ∃ ms' rest, ms.limit limit = some (ms', rest)
      ∧ Limited ms.resultCount limit ms'.resultCount rest := by
  unfold MatchedString.limit
  by_cases hz : ms.matchedRanges.length = 0
  · rw [if_pos hz]
    have hcount : ms.resultCount = 1 := by simp [resultCount, hz]
    exact ⟨_, _, rfl, by rw [hcount]; omega, by rw [hcount]; rfl⟩
  · rw [if_neg hz]
    have hcount : ms.resultCount = ms.matchedRanges.length := if_pos (Nat.pos_of_ne_zero hz)
    by_cases hlt : limit < ms.matchedRanges.length
    · rw [if_pos hlt, sliceTo_of_le h₀.le hlt.le]
      have hcut : resultCount ⟨ms.content, ms.matchedRanges.take limit.toNat⟩ = limit.toNat := by
        simp only [resultCount, List.length_take]
        split <;> omega
      refine ⟨_, _, rfl, ?_, ?_⟩ <;> rw [hcut] <;> omega
    · rw [if_neg hlt]
      refine ⟨_, _, rfl, ?_, ?_⟩ <;> rw [hcount]
      omega

theorem FileMatch.resultCount_eq (fm : FileMatch) :
    fm.resultCount = max 1 (fm.symbols.length + matchCount fm.chunkMatches) := by
  unfold FileMatch.resultCount
  simp only
  split <;> omega

/-- **`FileMatch.Limit` keeps its contract.** Chunks come before symbols: a
limit within the chunks leaves no symbol. -/
theorem FileMatch.limit_spec (fm : FileMatch) (h₀ : 0 < limit) :
    ∃ fm' rest, fm.limit limit = some (fm', rest)
      ∧ Limited fm.resultCount limit fm'.resultCount rest := by
  unfold FileMatch.limit
  by_cases hz : matchCount fm.chunkMatches = 0 ∧ fm.symbols.length = 0
  · simp only [if_pos hz]
    refine ⟨_, _, rfl, ?_, ?_⟩ <;> rw [resultCount_eq] <;> omega
  · simp only [if_neg hz]
    by_cases hchunks : limit < matchCount fm.chunkMatches
    · obtain ⟨hs', hlimit, hcount'⟩ := limitChunks_spec fm.chunkMatches h₀.le hchunks.le
      simp only [if_pos hchunks, hlimit, Option.bind_eq_bind, Option.bind_some, Option.pure_def]
      by_cases hsymbols : (0 : ℤ) < fm.symbols.length
      · rw [if_pos hsymbols, sliceTo_of_le le_rfl hsymbols.le]
        refine ⟨_, _, rfl, ?_, ?_⟩ <;> simp only [resultCount_eq, List.length_take] <;> omega
      · rw [if_neg hsymbols]
        refine ⟨_, _, rfl, ?_, ?_⟩ <;> simp only [resultCount_eq] <;> omega
    · simp only [if_neg hchunks, Option.bind_eq_bind, Option.bind_some, Option.pure_def]
      by_cases hsymbols : limit - matchCount fm.chunkMatches < fm.symbols.length
      · rw [if_pos hsymbols, sliceTo_of_le (by omega) hsymbols.le]
        refine ⟨_, _, rfl, ?_, ?_⟩ <;> simp only [resultCount_eq, List.length_take] <;> omega
      · rw [if_neg hsymbols]
        refine ⟨_, _, rfl, ?_, ?_⟩ <;> simp only [resultCount_eq] <;> omega

/-- `CommitMatch.Limit` keeps its contract, and does not panic. -/
theorem CommitMatch.limit_spec (cm : CommitMatch) (h₀ : 0 < limit) :
    ∃ cm' rest, cm.limit limit = some (cm', rest)
      ∧ Limited cm.resultCount limit cm'.resultCount rest := by
  obtain ⟨commit, repo, messagePreview, diffPreview, hset⟩ := cm
  cases diffPreview with
  | some preview =>
    obtain ⟨preview', rest, hlimit, hspec⟩ := preview.limit_spec h₀
    refine ⟨⟨commit, repo, messagePreview, some preview', .inl rfl⟩, rest, ?_, hspec⟩
    simp only [CommitMatch.limit, hlimit]
    rfl
  | none =>
    cases messagePreview with
    | some preview =>
      obtain ⟨preview', rest, hlimit, hspec⟩ := preview.limit_spec h₀
      refine ⟨⟨commit, repo, some preview', none, .inr rfl⟩, rest, ?_, hspec⟩
      simp only [CommitMatch.limit, hlimit]
      rfl
    | none => exact absurd hset (by decide)

/-- **Every match can be cut down to any positive number of results**, as
the interface promises. -/
theorem Match.limit_spec (m : Match) (h₀ : 0 < limit) :
    ∃ m' rest, m.limit limit = some (m', rest)
      ∧ Limited m.resultCount limit m'.resultCount rest := by
  cases m with
  | file m =>
    obtain ⟨m', rest, hlimit, hspec⟩ := m.limit_spec h₀
    exact ⟨.file m', rest, by rw [Match.limit, hlimit]; rfl, hspec⟩
  | repo m => exact ⟨_, _, rfl, (min_eq_left (by exact h₀)).symm, rfl⟩
  | commit m =>
    obtain ⟨m', rest, hlimit, hspec⟩ := m.limit_spec h₀
    exact ⟨.commit m', rest, by rw [Match.limit, hlimit]; rfl, hspec⟩
  | commitDiff m =>
    obtain ⟨preview, rest, hlimit, hspec⟩ := m.preview.limit_spec h₀
    exact ⟨.commitDiff { m with preview }, rest, by rw [Match.limit, hlimit]; rfl, hspec⟩
  | owner m =>
    refine ⟨_, _, rfl, (min_eq_left ?_).symm, rfl⟩
    have hle : m.resultCount ≤ 1 := by
      unfold OwnerMatch.resultCount
      split <;> decide
    show (m.resultCount : ℤ) ≤ limit
    omega

/-- **`Matches.Limit` is exact**: whatever the matches, it leaves as many
results as the limit allows, and none when the limit is used up. -/
theorem limitMatches_spec (ms : List Match) (h₀ : 0 ≤ limit) :
    ∃ ms' rest, limitMatches ms limit = some (ms', rest)
      ∧ Limited (resultCount ms) limit (resultCount ms') rest := by
  induction ms generalizing limit with
  | nil => exact ⟨[], limit, rfl, (min_eq_left h₀).symm, (sub_zero limit).symm⟩
  | cons m ms ih =>
    rw [limitMatches]
    by_cases hz : limit ≤ 0
    · rw [if_pos hz]
      have hzero : limit = 0 := le_antisymm hz h₀
      have hnil : (resultCount [] : ℤ) = 0 := rfl
      refine ⟨[], 0, rfl, ?_, ?_⟩ <;> omega
    · rw [if_neg hz]
      obtain ⟨m', rest, hlimit, hm⟩ := m.limit_spec (not_le.mp hz)
      obtain ⟨ms', rest', hlimits, hms⟩ := ih (show 0 ≤ rest by
        have := hm.rest_eq
        have := hm.count_eq
        omega)
      rw [hlimit]
      simp only [Option.bind_eq_bind, Option.bind_some, hlimits]
      have hcount : ∀ (x : Match) (xs : List Match),
          (resultCount (x :: xs) : ℤ) = x.resultCount + resultCount xs := by
        intro x xs
        simp [resultCount]
      refine ⟨_, _, rfl, ?_, ?_⟩ <;> rw [hcount]
      · rw [hcount]
        have := hm.count_eq
        have := hm.rest_eq
        have := hms.count_eq
        omega
      · have := hm.rest_eq
        have := hms.rest_eq
        omega

end Result
