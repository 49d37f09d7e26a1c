import CodeScout.Util.GoMap
import CodeScout.Util.GoString
import Mathlib

/-!
# Indexed and unindexed revisions

A search is given repositories with the revisions to search. The index has some
branches of some repositories, each at a version, and `zoektIndexedRepos`
splits the revisions into those that the index can search and the rest. A
revision is indexed if it is the name of an indexed branch or abbreviates
the version of one (`resolveRev`); the index is then asked for that branch.

A file match of the index has the branches that the file is on, and the version
of the first of them. `getRepoInputRev` finds the revisions that a file was
found for. It looks for revisions that name a branch of the file or abbreviate
its version. That is the inverse of the first step as long as a revision that
abbreviates a version was resolved to the first branch of the file, and no
revision is a name on one side and a version on the other (`Misattributed`).
-/

namespace Zoekt

open List

/-! ## Repositories and the index -/

abbrev RepoID := Int32

structure MinimalRepo where
  id : RepoID
  name : GoString
  deriving DecidableEq

/-- A repository with the revisions asked for. -/
structure RepositoryRevisions where
  repo : MinimalRepo
  revs : List GoString
  deriving DecidableEq

/-- A branch in the index, and its commit. -/
structure RepositoryBranch where
  name : GoString
  version : GoString
  deriving DecidableEq

/-- `MinimalRepoListEntry` -/
structure RepoListEntry where
  hasSymbols : Bool
  branches : List RepositoryBranch

/-- The revisions to search in the index, by repository, and the branches that
the index is asked for, each with the repositories. -/
structure IndexedRepoRevs where
  repoRevs : GoMap RepoID RepositoryRevisions
  branchRepos : GoMap GoString (Finset UInt32)

/-- The revision with the name that the index has for the default branch. -/
def revName (rev : GoString) : GoString := if rev = [] then lit "HEAD" else rev

/-- The revision is an abbreviation of the version. -/
def abbreviates (rev version : GoString) : Bool := rev.length ≥ 4 && rev.isPrefixOf version

/-- The revision is the name of a branch or abbreviates its version. -/
def standsFor (inputRev : GoString) (branch : RepositoryBranch) : Bool :=
  branch.name == revName inputRev || abbreviates (revName inputRev) branch.version

/-- The first branch that a revision stands for. -/
def resolveRev (repo : RepoListEntry) (inputRev : GoString) : Option RepositoryBranch :=
  repo.branches.find? (standsFor inputRev)

/-- The variables of the loop in `add`. -/
structure AddLoop where
  branches : List GoString
  indexed : List GoString
  unindexed : List GoString

/-- A revision is looked for in the index. -/
def addRev (repo : RepoListEntry) (loop : AddLoop) (inputRev : GoString) : AddLoop :=
  match resolveRev repo inputRev with
  | some branch =>
    { loop with branches := loop.branches ++ [branch.name], indexed := loop.indexed ++ [inputRev] }
  | none => { loop with unindexed := loop.unindexed ++ [inputRev] }

/-- A repository is added to those that a branch is searched in. -/
def addBranch (id : UInt32) (branchRepos : GoMap GoString (Finset UInt32)) (branch : GoString) :
    GoMap GoString (Finset UInt32) :=
  branchRepos.insert branch (insert id ((branchRepos.lookup branch).getD ∅))

/-- The revisions that cannot be added are returned. -/
def IndexedRepoRevs.add (rb : IndexedRepoRevs) (reporev : RepositoryRevisions)
    (repo : RepoListEntry) : IndexedRepoRevs × List GoString :=
  if (rb.repoRevs.lookup reporev.repo.id).isSome then (rb, reporev.revs)
  else
    let loop := reporev.revs.foldl (addRev repo) ⟨[], [], []⟩
    (if loop.indexed.length > 0 then
      { repoRevs := rb.repoRevs.insert reporev.repo.id { reporev with revs := loop.indexed }
        branchRepos := loop.branches.foldl (addBranch reporev.repo.id.toUInt32) rb.branchRepos }
    else rb, loop.unindexed)

/-- The entry of a repository, if the filter lets it through. -/
def indexEntry (indexedSet : GoMap UInt32 RepoListEntry) (filter : Option (RepoListEntry → Bool))
    (id : RepoID) : Option RepoListEntry :=
  (indexedSet.lookup id.toUInt32).filter fun repo => filter.elim true (· repo)

/-- One iteration of `zoektIndexedRepos`. -/
def splitRepo (indexedSet : GoMap UInt32 RepoListEntry) (filter : Option (RepoListEntry → Bool))
    (parts : IndexedRepoRevs × List RepositoryRevisions) (reporev : RepositoryRevisions) :
    IndexedRepoRevs × List RepositoryRevisions :=
  match indexEntry indexedSet filter reporev.repo.id with
  | none => (parts.1, parts.2 ++ [reporev])
  | some repo =>
    let added := parts.1.add reporev repo
    (added.1, if added.2.length > 0 then parts.2 ++ [{ reporev with revs := added.2 }]
      else parts.2)

/-- Repositories are split into indexed and unindexed revisions. -/
def zoektIndexedRepos (indexedSet : GoMap UInt32 RepoListEntry) (revs : List RepositoryRevisions)
    (filter : Option (RepoListEntry → Bool)) : IndexedRepoRevs × List RepositoryRevisions :=
  revs.foldl (splitRepo indexedSet filter) (⟨∅, ∅⟩, [])

/-- A file that the index has found. -/
structure FileMatch where
  repositoryID : UInt32
  repository : GoString
  branches : List GoString
  version : GoString

/-- A revision is taken for one of the file. -/
def fileHasRev (file : FileMatch) (rev : GoString) : Bool :=
  file.branches.contains (revName rev) || abbreviates rev file.version

/-- The revisions that a file was asked for by. -/
def IndexedRepoRevs.getRepoInputRev (rb : IndexedRepoRevs) (file : FileMatch) :
    MinimalRepo × List GoString :=
  match rb.repoRevs.lookup file.repositoryID.toInt32 with
  | none => (⟨file.repositoryID.toInt32, file.repository⟩, [file.version])
  | some repoRev =>
    let inputRevs := repoRev.revs.filter (fileHasRev file)
    (repoRev.repo, if inputRevs.length = 0 then [file.version] else inputRevs)

/-! ## Adding a repository -/

theorem foldl_addRev (repo : RepoListEntry) (revs : List GoString) (loop : AddLoop) :
    revs.foldl (addRev repo) loop =
      ⟨loop.branches ++ (revs.filterMap (resolveRev repo)).map RepositoryBranch.name,
        loop.indexed ++ revs.filter fun rev => (resolveRev repo rev).isSome,
        loop.unindexed ++ revs.filter fun rev => !(resolveRev repo rev).isSome⟩ := by
  induction revs generalizing loop with
  | nil => simp
  | cons rev revs ih =>
    rw [foldl_cons, ih, addRev]
    cases hrev : resolveRev repo rev with
    | none => simp [hrev]
    | some branch => simp [hrev]

theorem mem_foldl_addBranch {id id' : UInt32} {branch : GoString} (branches : List GoString)
    (m : GoMap GoString (Finset UInt32)) :
    id' ∈ ((branches.foldl (addBranch id) m).lookup branch).getD ∅ ↔
      id' ∈ (m.lookup branch).getD ∅ ∨ id' = id ∧ branch ∈ branches := by
  induction branches generalizing m with
  | nil => simp
  | cons next branches ih =>
    rw [foldl_cons, ih, addBranch]
    by_cases h : branch = next
    · subst h
      simp [AList.lookup_insert]
      tauto
    · rw [AList.lookup_insert_ne h]
      simp [h]

/-- The branch is asked for in a repository. -/
def IndexedRepoRevs.Queried (rb : IndexedRepoRevs) (id : RepoID) (branch : GoString) : Prop :=
  id.toUInt32 ∈ (rb.branchRepos.lookup branch).getD ∅

section

variable {rb : IndexedRepoRevs} {reporev : RepositoryRevisions}
  (h : rb.repoRevs.lookup reporev.repo.id = none) (repo : RepoListEntry)

include h

theorem add_snd : (rb.add reporev repo).2 =
    reporev.revs.filter fun rev => !(resolveRev repo rev).isSome := by
  rw [IndexedRepoRevs.add, h, if_neg (by simp), foldl_addRev]
  rfl

theorem lookup_add (id : RepoID) : (rb.add reporev repo).1.repoRevs.lookup id =
    if id = reporev.repo.id ∧ (reporev.revs.filter fun rev => (resolveRev repo rev).isSome) ≠ []
    then some { reporev with revs := reporev.revs.filter fun rev => (resolveRev repo rev).isSome }
    else rb.repoRevs.lookup id := by
  rw [IndexedRepoRevs.add, h, if_neg (by simp), foldl_addRev]
  simp only [nil_append, length_pos_iff]
  split_ifs with hne hboth hboth
  · rw [hboth.1, AList.lookup_insert]
  · exact AList.lookup_insert_ne fun hid => hboth ⟨hid, hne⟩
  · exact absurd hboth.2 hne
  · rfl

theorem queried_add (id : RepoID) (branch : GoString) :
    (rb.add reporev repo).1.Queried id branch ↔ rb.Queried id branch ∨
      id = reporev.repo.id ∧ ∃ rev ∈ reporev.revs, ∃ b ∈ resolveRev repo rev, b.name = branch := by
  have hid : id.toUInt32 = reporev.repo.id.toUInt32 ↔ id = reporev.repo.id :=
    ⟨congrArg Int32.ofUInt32, congrArg Int32.toUInt32⟩
  rw [IndexedRepoRevs.add, h, if_neg (by simp), foldl_addRev]
  simp only [nil_append, length_pos_iff, IndexedRepoRevs.Queried]
  split_ifs with hne
  · rw [mem_foldl_addBranch, hid]
    simp [mem_filterMap]
    tauto
  · rw [or_iff_left]
    rintro ⟨-, rev, hrev, b, hb, -⟩
    refine hne (ne_nil_of_mem (mem_filter.mpr ⟨hrev, ?_⟩))
    rw [Option.mem_def.mp hb]
    rfl

end

/-! ## The two parts -/

/-- The repositories with their revisions, one by one. -/
def pairs (revs : List RepositoryRevisions) : List (MinimalRepo × GoString) :=
  revs.flatMap fun reporev => reporev.revs.map (reporev.repo, ·)

section

variable (indexedSet : GoMap UInt32 RepoListEntry) (filter : Option (RepoListEntry → Bool))

/-- **The index can search a revision.** -/
def isIndexed (id : RepoID) (rev : GoString) : Bool :=
  (indexEntry indexedSet filter id).any fun repo => (resolveRev repo rev).isSome

/-- The parts of a list of repositories. -/
structure Split (revs : List RepositoryRevisions)
    (parts : IndexedRepoRevs × List RepositoryRevisions) : Prop where
  lookup : ∀ id rr, parts.1.repoRevs.lookup id = some rr ↔ ∃ reporev ∈ revs,
    reporev.repo.id = id ∧ rr.repo = reporev.repo ∧
      rr.revs = reporev.revs.filter (isIndexed indexedSet filter id) ∧ rr.revs ≠ []
  unindexed : pairs parts.2 =
    (pairs revs).filter fun pair => !isIndexed indexedSet filter pair.1.id pair.2
  queried : ∀ id branch, parts.1.Queried id branch ↔ ∃ reporev ∈ revs, reporev.repo.id = id ∧
    ∃ repo ∈ indexEntry indexedSet filter id, ∃ rev ∈ reporev.revs,
      ∃ b ∈ resolveRev repo rev, b.name = branch

variable {indexedSet filter} {revs : List RepositoryRevisions}
  {parts : IndexedRepoRevs × List RepositoryRevisions} {reporev : RepositoryRevisions}

theorem pairs_append (revs revs' : List RepositoryRevisions) :
    pairs (revs ++ revs') = pairs revs ++ pairs revs' :=
  flatMap_append

theorem pairs_singleton (reporev : RepositoryRevisions) :
    pairs [reporev] = reporev.revs.map (reporev.repo, ·) :=
  append_nil _

/-- One more repository, with an id that did not occur. -/
theorem Split.step (hsplit : Split indexedSet filter revs parts)
    (hnew : ∀ other ∈ revs, other.repo.id ≠ reporev.repo.id) :
    Split indexedSet filter (revs ++ [reporev]) (splitRepo indexedSet filter parts reporev) := by
  have hlookup : parts.1.repoRevs.lookup reporev.repo.id = none := by
    by_contra hsome
    obtain ⟨rr, hrr⟩ := Option.ne_none_iff_exists'.mp hsome
    obtain ⟨other, hother, hid, -⟩ := (hsplit.lookup _ rr).mp hrr
    exact hnew other hother hid
  rw [splitRepo]
  cases hentry : indexEntry indexedSet filter reporev.repo.id with
  | none =>
    have hindexed (rev) : isIndexed indexedSet filter reporev.repo.id rev = false := by
      rw [isIndexed, hentry]
      rfl
    refine ⟨fun id rr => ?_, ?_, fun id branch => ?_⟩
    · rw [hsplit.lookup]
      simp only [mem_append, mem_singleton, or_and_right, exists_or, exists_eq_left]
      rw [or_iff_left]
      rintro ⟨rfl, -, hrevs, hne⟩
      simp [hrevs, hindexed] at hne
    · rw [pairs_append, pairs_append, filter_append, hsplit.unindexed, pairs_singleton]
      congr 1
      rw [filter_eq_self.mpr]
      simp [hindexed]
    · rw [hsplit.queried]
      simp only [mem_append, mem_singleton, or_and_right, exists_or, exists_eq_left]
      rw [or_iff_left]
      rintro ⟨rfl, repo, hrepo, -⟩
      rw [hentry] at hrepo
      cases hrepo
  | some repo =>
    have hindexed : isIndexed indexedSet filter reporev.repo.id =
        fun rev => (resolveRev repo rev).isSome := by
      funext rev
      rw [isIndexed, hentry]
      rfl
    refine ⟨fun id rr => ?_, ?_, fun id branch => ?_⟩
    · dsimp only
      rw [lookup_add hlookup]
      simp only [mem_append, mem_singleton, or_and_right, exists_or, exists_eq_left,
        ← hsplit.lookup]
      split_ifs with hadd
      · obtain ⟨rfl, hne⟩ := hadd
        rw [hlookup, hindexed]
        simp only [Option.some.injEq, reduceCtorEq, false_or, true_and]
        constructor
        · rintro rfl
          exact ⟨rfl, rfl, hne⟩
        · rintro ⟨hrepo, hrevs, -⟩
          rw [← hrevs, ← hrepo]
      · rw [or_iff_left]
        rintro ⟨rfl, -, hrevs, hne⟩
        rw [hrevs, hindexed] at hne
        exact hadd ⟨rfl, hne⟩
    · have hpairs : pairs [{ reporev with revs := (parts.1.add reporev repo).2 }] =
          (pairs [reporev]).filter fun pair => !isIndexed indexedSet filter pair.1.id pair.2 := by
        rw [pairs_singleton, pairs_singleton, add_snd hlookup, filter_map]
        simp only [Function.comp_def, hindexed]
      rw [pairs_append, filter_append, ← hsplit.unindexed, ← hpairs]
      dsimp only
      split_ifs with hlength
      · exact pairs_append _ _
      · have hnil : (parts.1.add reporev repo).2 = [] := by simpa using hlength
        rw [hnil]
        exact (append_nil _).symm
    · dsimp only
      rw [queried_add hlookup, hsplit.queried]
      simp only [mem_append, mem_singleton, or_and_right, exists_or, exists_eq_left]
      refine or_congr_right ⟨?_, ?_⟩
      · rintro ⟨rfl, hrev⟩
        exact ⟨rfl, repo, hentry, hrev⟩
      · rintro ⟨rfl, repo', hrepo', hrev⟩
        rw [hentry, Option.mem_some_iff] at hrepo'
        exact ⟨rfl, hrepo' ▸ hrev⟩

/-- **Every list with distinct ids is split.** -/
theorem split_zoektIndexedRepos (hnodup : (revs.map (·.repo.id)).Nodup) :
    Split indexedSet filter revs (zoektIndexedRepos indexedSet revs filter) := by
  unfold zoektIndexedRepos
  induction revs using reverseRecOn with
  | nil => refine ⟨by simp, rfl, by simp [IndexedRepoRevs.Queried]⟩
  | append_singleton revs reporev ih =>
    rw [map_append, nodup_append] at hnodup
    rw [foldl_append, foldl_cons, foldl_nil]
    refine (ih hnodup.1).step fun other hother => ?_
    exact hnodup.2.2 _ (mem_map_of_mem hother) _ (mem_singleton_self _)

end

/-! ## The revisions of a file -/

/-- A file match: it has the queried branches that the file is on, in the order
of the index, and the version of the first of them, which is a hash and not
empty. -/
structure MatchOf (rb : IndexedRepoRevs) (id : RepoID) (repo : RepoListEntry)
    (fileBranches : List RepositoryBranch) (file : FileMatch) : Prop where
  sublist : fileBranches.Sublist repo.branches
  queried : ∀ b ∈ fileBranches, rb.Queried id b.name
  repositoryID : file.repositoryID = id.toUInt32
  branches : file.branches = fileBranches.map RepositoryBranch.name
  version : fileBranches.head?.map RepositoryBranch.version = some file.version
  version_ne_nil : file.version ≠ []

/-- **A revision is misattributed.** Let `b` be the first branch of the index that it
stands for. -/
inductive Misattributed (repo : RepoListEntry) (fileBranches : List RepositoryBranch)
    (file : FileMatch) (rev : GoString) : Prop
  /-- It abbreviates the version of a branch of the file, but not that of its first
  one, and no branch of the file has its name: it is lost. -/
  | lost {before after : List RepositoryBranch} {b : RepositoryBranch}
    (hindex : repo.branches = before ++ b :: after) (hfirst : ∀ c ∈ before, standsFor rev c = false)
    (hfile : b.name ∈ file.branches) (hhash : abbreviates (revName rev) b.version = true)
    (hname : revName rev ∉ file.branches) (hversion : abbreviates rev file.version = false)
  /-- It abbreviates the version of a branch that is not of the file, but a later
  branch of the file has its name. -/
  | named {before after : List RepositoryBranch} {b c : RepositoryBranch}
    (hindex : repo.branches = before ++ b :: after) (hfirst : ∀ c ∈ before, standsFor rev c = false)
    (hfile : b.name ∉ file.branches) (hhash : abbreviates (revName rev) b.version = true)
    (hafter : c ∈ after) (hmem : c ∈ fileBranches) (hname : c.name = revName rev)
  /-- It stands for a branch that is not of the file, but abbreviates the version of
  the first branch of the file, which comes later. -/
  | versioned {before after : List RepositoryBranch} {b c : RepositoryBranch}
    (hindex : repo.branches = before ++ b :: after) (hfirst : ∀ c ∈ before, standsFor rev c = false)
    (hfile : b.name ∉ file.branches) (hstands : standsFor rev b = true)
    (hafter : c ∈ after) (hhead : fileBranches.head? = some c)
    (hversion : abbreviates rev c.version = true)

/-- The revision stands for a branch of the file. -/
def resolvesTo (repo : RepoListEntry) (file : FileMatch) (rev : GoString) : Bool :=
  (resolveRev repo rev).any fun b => file.branches.contains b.name

variable {file : FileMatch} {rev : GoString}

theorem fileHasRev_eq_true :
    fileHasRev file rev = true ↔
      revName rev ∈ file.branches ∨ abbreviates rev file.version = true := by
  rw [fileHasRev, Bool.or_eq_true, contains_iff_mem]

theorem standsFor_eq_true {b : RepositoryBranch} : standsFor rev b = true ↔
    b.name = revName rev ∨ abbreviates (revName rev) b.version = true := by
  rw [standsFor, Bool.or_eq_true, beq_iff_eq]

theorem revName_of_abbreviates {rev version : GoString} (h : abbreviates rev version = true) :
    revName rev = rev := by
  refine if_neg ?_
  rintro rfl
  cases h

theorem resolveRev_eq_some {repo : RepoListEntry} {b : RepositoryBranch} :
    resolveRev repo rev = some b ↔ standsFor rev b = true ∧ ∃ before after,
      repo.branches = before ++ b :: after ∧ ∀ c ∈ before, standsFor rev c = false := by
  simp only [resolveRev, find?_eq_some_iff_append, Bool.not_eq_true']

/-- **Which revisions are not attributed** to the branches that they were resolved
to. -/
theorem misattributed_iff {rb : IndexedRepoRevs} {id : RepoID} {repo : RepoListEntry}
    {fileBranches : List RepositoryBranch} (h : MatchOf rb id repo fileBranches file)
    (rev : GoString) :
    Misattributed repo fileBranches file rev ↔
      (resolveRev repo rev).isSome ∧ fileHasRev file rev ≠ resolvesTo repo file rev := by
  have hrev {b : RepositoryBranch} (hb : resolveRev repo rev = some b) :
      fileHasRev file rev ≠ resolvesTo repo file rev ↔ (b.name ∉ file.branches ↔
        revName rev ∈ file.branches ∨ abbreviates rev file.version = true) := by
    rw [Ne, Bool.eq_iff_iff, fileHasRev_eq_true, resolvesTo, hb, Option.any_some,
      contains_iff_mem]
    tauto
  have hresolve {before after : List RepositoryBranch} {b : RepositoryBranch}
      (hindex : repo.branches = before ++ b :: after)
      (hfirst : ∀ c ∈ before, standsFor rev c = false) (hstands : standsFor rev b = true) :
      resolveRev repo rev = some b :=
    resolveRev_eq_some.mpr ⟨hstands, before, after, hindex, hfirst⟩
  constructor
  · rintro (⟨hindex, hfirst, hfile, hhash, hname, hversion⟩ |
      ⟨hindex, hfirst, hfile, hhash, hafter, hmem, hname⟩ |
      ⟨hindex, hfirst, hfile, hstands, hafter, hhead, hversion⟩)
    · have hb := hresolve hindex hfirst (standsFor_eq_true.mpr (.inr hhash))
      refine ⟨Option.isSome_of_mem hb, (hrev hb).mpr (iff_of_false (not_not.mpr hfile) ?_)⟩
      exact not_or.mpr ⟨hname, Bool.not_eq_true _ ▸ hversion⟩
    · have hb := hresolve hindex hfirst (standsFor_eq_true.mpr (.inr hhash))
      refine ⟨Option.isSome_of_mem hb, (hrev hb).mpr (iff_of_true hfile (.inl ?_))⟩
      rw [h.branches, ← hname]
      exact mem_map_of_mem hmem
    · have hb := hresolve hindex hfirst hstands
      refine ⟨Option.isSome_of_mem hb, (hrev hb).mpr (iff_of_true hfile (.inr ?_))⟩
      have hfileVersion := h.version
      rw [hhead] at hfileVersion
      exact Option.some.inj hfileVersion ▸ hversion
  · rintro ⟨hsome, hne⟩
    obtain ⟨b, hb⟩ := Option.isSome_iff_exists.mp hsome
    have hiff := (hrev hb).mp hne
    obtain ⟨hstands, before, after, hindex, hfirst⟩ := resolveRev_eq_some.mp hb
    -- a branch of the file that the revision stands for comes after the first one
    have hafter {c : RepositoryBranch} (hc : c ∈ fileBranches) (hcs : standsFor rev c = true)
        (hfile : b.name ∉ file.branches) : c ∈ after := by
      have hmem := h.sublist.subset hc
      rw [hindex, mem_append, mem_cons] at hmem
      obtain hbefore | rfl | hafter := hmem
      · exact absurd hcs (Bool.not_eq_true _ ▸ hfirst c hbefore)
      · exact absurd (h.branches ▸ mem_map_of_mem hc) hfile
      · exact hafter
    by_cases hfile : b.name ∈ file.branches
    · obtain ⟨hname, hversion⟩ := not_or.mp (mt hiff.mpr (not_not.mpr hfile))
      refine .lost hindex hfirst hfile ?_ hname (Bool.not_eq_true _ ▸ hversion)
      exact (standsFor_eq_true.mp hstands).resolve_left fun heq => hname (heq ▸ hfile)
    · rcases hiff.mp hfile with hname | hversion
      · have hhash := (standsFor_eq_true.mp hstands).resolve_left fun heq => hfile (heq ▸ hname)
        rw [h.branches] at hname
        obtain ⟨c, hc, hcname⟩ := mem_map.mp hname
        exact .named hindex hfirst hfile hhash
          (hafter hc (standsFor_eq_true.mpr (.inl hcname)) hfile) hc hcname
      · obtain ⟨c, hhead, hcversion⟩ := Option.map_eq_some_iff.mp h.version
        rw [← hcversion] at hversion
        have hcs : standsFor rev c = true :=
          standsFor_eq_true.mpr (.inr ((revName_of_abbreviates hversion).symm ▸ hversion))
        exact .versioned hindex hfirst hfile hstands (hafter (mem_of_mem_head? hhead) hcs hfile)
          hhead hversion

section

variable {indexedSet : GoMap UInt32 RepoListEntry} {filter : Option (RepoListEntry → Bool)}
  {revs : List RepositoryRevisions}

/-- If the version that the result falls back to stands for a branch of the file,
it is found. -/
theorem fileHasRev_version {repo : RepoListEntry} (hne : file.version ≠ [])
    (h : resolvesTo repo file file.version = true) : fileHasRev file file.version = true := by
  rw [fileHasRev_eq_true]
  rw [resolvesTo, Option.any_eq_true] at h
  obtain ⟨b, hb, hbranch⟩ := h
  rcases standsFor_eq_true.mp (find?_some (Option.mem_def.mp hb)) with hname | hversion
  · rw [contains_iff_mem, hname] at hbranch
    exact .inl hbranch
  · rw [revName, if_neg hne, abbreviates, Bool.and_eq_true] at hversion
    rw [abbreviates, Bool.and_eq_true]
    exact .inr ⟨hversion.1, isPrefixOf_iff_prefix.mpr (prefix_refl _)⟩

/-- **The revisions of a file match**, for the parts of a list. -/
theorem getRepoInputRev_iff {parts : IndexedRepoRevs × List RepositoryRevisions}
    (hsplit : Split indexedSet filter revs parts) (hnodup : (revs.map (·.repo.id)).Nodup)
    {reporev : RepositoryRevisions} (hreporev : reporev ∈ revs) {repo : RepoListEntry}
    (hrepo : repo ∈ indexEntry indexedSet filter reporev.repo.id)
    {fileBranches : List RepositoryBranch}
    (hfile : MatchOf parts.1 reporev.repo.id repo fileBranches file) :
    parts.1.getRepoInputRev file = (reporev.repo, reporev.revs.filter (resolvesTo repo file)) ↔
      ∀ rev ∈ reporev.revs, ¬Misattributed repo fileBranches file rev := by
  have hindexed : isIndexed indexedSet filter reporev.repo.id =
      fun rev => (resolveRev repo rev).isSome := by
    funext rev
    rw [isIndexed, Option.mem_def.mp hrepo]
    rfl
  have hsome {rev : GoString} (h : resolvesTo repo file rev = true) :
      (resolveRev repo rev).isSome = true := by
    rw [resolvesTo, Option.any_eq_true] at h
    obtain ⟨b, hb, -⟩ := h
    exact Option.isSome_of_mem hb
  -- the first branch of the file was queried for some revision
  obtain ⟨rev, hrev, hresolves⟩ : ∃ rev ∈ reporev.revs, resolvesTo repo file rev = true := by
    obtain ⟨first, hfirst, -⟩ := Option.map_eq_some_iff.mp hfile.version
    have hmem := mem_of_mem_head? hfirst
    obtain ⟨other, hother, hid, repo', hrepo', rev, hrev, b, hb, hname⟩ :=
      (hsplit.queried _ _).mp (hfile.queried first hmem)
    cases inj_on_of_nodup_map hnodup hother hreporev hid
    cases Option.mem_unique hrepo hrepo'
    refine ⟨rev, hrev, ?_⟩
    rw [resolvesTo, Option.mem_def.mp hb, Option.any_some, contains_iff_mem, hname, hfile.branches]
    exact mem_map_of_mem hmem
  have hlookup : parts.1.repoRevs.lookup file.repositoryID.toInt32 =
      some ⟨reporev.repo, reporev.revs.filter fun rev => (resolveRev repo rev).isSome⟩ := by
    rw [hfile.repositoryID]
    refine (hsplit.lookup _ _).mpr ⟨reporev, hreporev, rfl, rfl, ?_, ?_⟩
    · rw [← hindexed]
      rfl
    · exact ne_nil_of_mem (mem_filter.mpr ⟨hrev, hsome hresolves⟩)
  have hexpected : reporev.revs.filter (resolvesTo repo file) =
      (reporev.revs.filter fun rev => (resolveRev repo rev).isSome).filter
        (resolvesTo repo file) := by
    rw [filter_filter]
    refine filter_congr fun rev _ => ?_
    rw [Bool.eq_iff_iff, Bool.and_eq_true]
    exact (and_iff_left_of_imp hsome).symm
  simp only [misattributed_iff hfile, not_and, not_not]
  rw [IndexedRepoRevs.getRepoInputRev, hlookup]
  dsimp only
  rw [Prod.mk.injEq, and_iff_right rfl]
  constructor
  · intro hresult
    split at hresult
    next hnone =>
      -- the version cannot be the only revision that is looked for
      exfalso
      have hversion : file.version ∈ reporev.revs.filter (resolvesTo repo file) := by
        rw [← hresult]
        exact mem_singleton_self _
      rw [mem_filter] at hversion
      have hmem : file.version ∈ (reporev.revs.filter fun rev =>
          (resolveRev repo rev).isSome).filter (fileHasRev file) :=
        mem_filter.mpr ⟨mem_filter.mpr ⟨hversion.1, hsome hversion.2⟩,
          fileHasRev_version hfile.version_ne_nil hversion.2⟩
      rw [length_eq_zero_iff.mp hnone] at hmem
      cases hmem
    next hfound =>
      intro rev hrev hindexed
      rw [hexpected] at hresult
      have hboth := congrArg (rev ∈ ·) hresult
      simp only [mem_filter, hrev, hindexed, true_and, eq_iff_iff] at hboth
      exact Bool.eq_iff_iff.mpr hboth
  · intro h
    have heq : (reporev.revs.filter fun rev => (resolveRev repo rev).isSome).filter
        (fileHasRev file) = reporev.revs.filter (resolvesTo repo file) := by
      rw [hexpected]
      refine filter_congr fun rev hmem => ?_
      rw [mem_filter] at hmem
      exact h rev hmem.1 hmem.2
    rw [heq, if_neg]
    rw [length_eq_zero_iff]
    exact ne_nil_of_mem (mem_filter.mpr ⟨hrev, hresolves⟩)

/-- **Index partitioning and its inverse.** The revisions are split into two
parts, and the revisions of a file match are those that were resolved to its
branches if and only if none is misattributed. -/
theorem zoektIndexedRepos_getRepoInputRev_iff (hnodup : (revs.map (·.repo.id)).Nodup) :
    Split indexedSet filter revs (zoektIndexedRepos indexedSet revs filter) ∧
      ∀ reporev ∈ revs, ∀ repo ∈ indexEntry indexedSet filter reporev.repo.id,
        ∀ fileBranches file,
          MatchOf (zoektIndexedRepos indexedSet revs filter).1 reporev.repo.id repo fileBranches
            file →
          ((zoektIndexedRepos indexedSet revs filter).1.getRepoInputRev file =
              (reporev.repo, reporev.revs.filter (resolvesTo repo file)) ↔
            ∀ rev ∈ reporev.revs, ¬Misattributed repo fileBranches file rev) := by
  have hsplit := @split_zoektIndexedRepos indexedSet filter revs hnodup
  exact ⟨hsplit, fun reporev hreporev repo hrepo fileBranches file hfile =>
    getRepoInputRev_iff hsplit hnodup hreporev hrepo hfile⟩

end

/-- An index of one repository with two branches. -/
def twoBranches : RepoListEntry :=
  ⟨false, [⟨lit "HEAD", lit "aaaa1111"⟩, ⟨lit "dev", lit "bbbb2222"⟩]⟩

/-- The default branch, and the version of the other one. -/
def headAndHash : RepositoryRevisions := ⟨⟨1, lit "repo"⟩, [lit "", lit "bbbb"]⟩

/-- A file on the given branches. -/
def fileOn (branches : List RepositoryBranch) : FileMatch :=
  ⟨1, lit "repo", branches.map RepositoryBranch.name, (branches.head?.map (·.version)).getD []⟩

theorem matchOf_fileOn {branches : List RepositoryBranch}
    (hsub : branches.Sublist twoBranches.branches) (hne : branches ≠ []) :
    MatchOf (zoektIndexedRepos ((∅ : GoMap _ _).insert 1 twoBranches) [headAndHash] none).1 1
      twoBranches branches (fileOn branches) := by
  have hmem (b) (hb : b ∈ branches) : b ∈ twoBranches.branches := hsub.subset hb
  cases branches with
  | nil => exact absurd rfl hne
  | cons first rest =>
    refine ⟨hsub, fun b hb => ?_, rfl, rfl, rfl, ?_⟩
    · have h := hmem b hb
      simp only [twoBranches, mem_cons, not_mem_nil, or_false] at h
      rcases h with rfl | rfl
      · show (1 : UInt32) ∈ _
        decide +kernel
      · show (1 : UInt32) ∈ _
        decide +kernel
    · have h := hmem first mem_cons_self
      simp only [twoBranches, mem_cons, not_mem_nil, or_false] at h
      rcases h with rfl | rfl
      · exact cons_ne_nil _ _
      · exact cons_ne_nil _ _

theorem getRepoInputRev_default_branch :
    (zoektIndexedRepos ((∅ : GoMap _ _).insert 1 twoBranches) [headAndHash] none).1.getRepoInputRev
        (fileOn [⟨lit "HEAD", lit "aaaa1111"⟩]) =
      (headAndHash.repo, headAndHash.revs.filter
        (resolvesTo twoBranches (fileOn [⟨lit "HEAD", lit "aaaa1111"⟩]))) := by
  have hiff := (@zoektIndexedRepos_getRepoInputRev_iff ((∅ : GoMap _ _).insert 1 twoBranches) none
    [headAndHash] (by decide)).2 headAndHash (by simp) twoBranches rfl _ _
    (@matchOf_fileOn [⟨lit "HEAD", lit "aaaa1111"⟩] (by decide) (by decide))
  refine hiff.mpr fun rev hrev hwrong => ?_
  have hne := (misattributed_iff (matchOf_fileOn (by decide) (by decide)) rev).mp hwrong
  clear hwrong
  revert rev
  decide +kernel

/-- **A revision is lost.** The file is on both branches, and both were asked for
it, one by a version. The match has the version of the other branch. -/
theorem getRepoInputRev_loses_hash :
    ([headAndHash].map (·.repo.id)).Nodup ∧
      MatchOf (zoektIndexedRepos ((∅ : GoMap _ _).insert 1 twoBranches) [headAndHash] none).1 1
        twoBranches twoBranches.branches (fileOn twoBranches.branches) ∧
      headAndHash.revs.filter (resolvesTo twoBranches (fileOn twoBranches.branches)) =
        [lit "", lit "bbbb"] ∧
      ((zoektIndexedRepos ((∅ : GoMap _ _).insert 1 twoBranches)
        [headAndHash] none).1.getRepoInputRev (fileOn twoBranches.branches)).2 = [lit ""] := by
  refine ⟨by decide, matchOf_fileOn (List.Sublist.refl _) (by decide), ?_, ?_⟩
  · decide +kernel
  · decide +kernel

end Zoekt
