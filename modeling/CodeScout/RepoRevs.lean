import CodeScout.Util.GoStrconv
import CodeScout.Util.Outcome
import Mathlib

/-!
# Repository filters with revisions

A filter `repo@rev:rev` names repositories by an expression and the revisions
to search in them: revisions, and globs of references after `*` or `*!`. An
empty revision between two colons is skipped. The globs `*` and `*!` are not
empty but become a specifier without any field, which is how the default branch
is represented. It is printed as the empty text, and so is skipped when a
printed filter is parsed again (`string_faithful_iff`).
-/

namespace Query

open List

/-! ## Parsing and printing -/

/-- A revision or a glob of references. At most one field is set, and the
default branch has none. -/
structure RevisionSpecifier where
  revSpec : GoString := []
  refGlob : GoString := []
  excludeRefGlob : GoString := []
deriving DecidableEq

/-- The text of a revision. -/
def RevisionSpecifier.string (r : RevisionSpecifier) : GoString :=
  if r.excludeRefGlob ≠ [] then lit "*!" ++ r.excludeRefGlob
  else if r.refGlob ≠ [] then lit "*" ++ r.refGlob
  else r.revSpec

def RevisionSpecifier.less (r₁ r₂ : RevisionSpecifier) : Bool :=
  if r₁.revSpec ≠ r₂.revSpec then r₁.revSpec < r₂.revSpec
  else if r₁.refGlob ≠ r₂.refGlob then r₁.refGlob < r₂.refGlob
  else r₁.excludeRefGlob < r₂.excludeRefGlob

/-- A filter, with its compiled expression. -/
structure ParsedRepoFilter (Regexp : Type) where
  repo : GoString
  repoRegex : Regexp
  revs : List RevisionSpecifier
deriving DecidableEq

section

variable {Regexp : Type}

/-- The expression, and the revisions after an `@`. -/
def ParsedRepoFilter.string (p : ParsedRepoFilter Regexp) : GoString :=
  if p.revs.length = 0 then p.repo
  else p.repo ++ lit "@" ++ (lit ":").intercalate (p.revs.map RevisionSpecifier.string)

/-- A glob starts with an asterisk. -/
def parseRev (spec : GoString) : RevisionSpecifier :=
  if (lit "*!").isPrefixOf spec then { excludeRefGlob := spec.drop 2 }
  else if (lit "*").isPrefixOf spec then { refGlob := spec.drop 1 }
  else { revSpec := spec }

/-- What stands between the colons, without what is empty. -/
def revParts (revs : GoString) : List GoString := (revs.splitOn 58).filter (· ≠ [])

/-- The revisions after an `@`. -/
def parseRevs (revs : GoString) : List RevisionSpecifier :=
  let revs := (revParts revs).map parseRev
  if revs.length = 0 then [{}] else revs

/-- The revisions of a filter, from its first `@` on. -/
def optionalRevs : GoString → List RevisionSpecifier
  | [] => []
  | _ :: revs => parseRevs revs

/-- `compile` is `regexp.Compile`. -/
def parseRepositoryRevisions (compile : GoString → Except GoString Regexp)
    (repoAndOptionalRev : GoString) : Except GoString (ParsedRepoFilter Regexp) :=
  let repo := repoAndOptionalRev.takeWhile (· ≠ 64)
  let revs := optionalRevs (repoAndOptionalRev.dropWhile (· ≠ 64))
  (compile (lit "(?i)" ++ repo)).map fun repoRegex => ⟨repo, repoRegex, revs⟩

/-! ## What is printed is parsed -/

/-- A glob of references without a glob. -/
def isEmptyGlob (part : GoString) : Bool := part = lit "*" ∨ part = lit "*!"

theorem parseRev_of_isEmptyGlob {part : GoString} (h : isEmptyGlob part = true) :
    parseRev part = {} := by
  rcases of_decide_eq_true h with rfl | rfl <;> rfl

theorem string_parseRev {part : GoString} (h : isEmptyGlob part = false) :
    (parseRev part).string = part := by
  obtain ⟨hstar, hbang⟩ := not_or.mp (of_decide_eq_false h)
  unfold parseRev
  split_ifs with hexclude hglob
  · obtain ⟨glob, rfl⟩ := isPrefixOf_iff_prefix.mp hexclude
    have hne : glob ≠ [] := fun hnil => hbang (by rw [hnil, append_nil])
    exact if_pos hne
  · obtain ⟨glob, rfl⟩ := isPrefixOf_iff_prefix.mp hglob
    have hne : glob ≠ [] := fun hnil => hstar (by rw [hnil, append_nil])
    rw [RevisionSpecifier.string, if_neg (not_not_intro rfl)]
    exact if_pos hne
  · rfl

/-- **The parts of printed revisions**: globs without a glob are gone. -/
theorem revParts_string {parts : List GoString} (hne : ∀ part ∈ parts, part ≠ [])
    (hcolon : ∀ part ∈ parts, 58 ∉ part) (hparts : parts ≠ []) :
    revParts ((lit ":").intercalate ((parts.map parseRev).map RevisionSpecifier.string)) =
      parts.filter fun part => !isEmptyGlob part := by
  have hstring : ∀ part, (parseRev part).string = if isEmptyGlob part then [] else part := by
    intro part
    cases hempty : isEmptyGlob part with
    | true => rw [parseRev_of_isEmptyGlob hempty]; rfl
    | false => exact string_parseRev hempty
  have hmap : (parts.map parseRev).map RevisionSpecifier.string =
      parts.map fun part => if isEmptyGlob part then [] else part := by
    rw [map_map]
    exact map_congr_left fun part _ => hstring part
  have hfree : ∀ text ∈ parts.map fun part => if isEmptyGlob part then [] else part, 58 ∉ text := by
    intro text htext
    obtain ⟨part, hpart, rfl⟩ := mem_map.mp htext
    split_ifs
    · exact not_mem_nil
    · exact hcolon part hpart
  rw [hmap, revParts, show lit ":" = [58] from rfl,
    splitOn_intercalate 58 hfree (fun hnil => hparts (map_eq_nil_iff.mp hnil)),
    filter_map]
  -- a part is printed as the empty text if and only if it is a glob without a glob
  have hfilter : ∀ part ∈ parts, ((fun text : GoString => decide (text ≠ [])) ∘ fun part =>
      if isEmptyGlob part then [] else part) part = !isEmptyGlob part := by
    intro part hpart
    rw [Function.comp_apply]
    cases isEmptyGlob part with
    | true => rfl
    | false => exact decide_eq_true (hne part hpart)
  rw [filter_congr hfilter]
  conv_rhs => rw [← map_id (parts.filter fun part => !isEmptyGlob part)]
  refine map_congr_left fun part hpart => ?_
  have hnot : isEmptyGlob part = false := by simpa using (mem_filter.mp hpart).2
  rw [hnot]
  rfl

/-- **Revisions that are printed and parsed again.** -/
theorem parseRevs_string_iff (rest : GoString) :
    parseRevs ((lit ":").intercalate ((parseRevs rest).map RevisionSpecifier.string)) =
        parseRevs rest ↔
      (∀ part ∈ revParts rest, isEmptyGlob part = false) ∨ (revParts rest).length = 1 := by
  by_cases hparts : revParts rest = []
  · have hrevs : parseRevs rest = [{}] := by rw [parseRevs, hparts]; rfl
    rw [hrevs, hparts]
    exact iff_of_true rfl (.inl fun _ hmem => absurd hmem not_mem_nil)
  have hlength : ((revParts rest).map parseRev).length ≠ 0 := by
    rw [length_map]
    exact fun hzero => hparts (length_eq_zero_iff.mp hzero)
  have hrevs : parseRevs rest = (revParts rest).map parseRev := if_neg hlength
  have hagain := @revParts_string (revParts rest)
    (fun part hpart => of_decide_eq_true (mem_filter.mp hpart).2)
    (fun part hpart => not_mem_of_mem_splitOn (mem_filter.mp hpart).1) hparts
  rw [hrevs, parseRevs, hagain]
  generalize revParts rest = parts at hparts ⊢
  by_cases hall : ∀ part ∈ parts, isEmptyGlob part = false
  · have hkept : (parts.filter fun part => !isEmptyGlob part) = parts :=
      filter_eq_self.mpr fun part hpart => by rw [hall part hpart]; rfl
    rw [hkept]
    refine iff_of_true (if_neg fun hzero => hparts ?_) (.inl hall)
    exact map_eq_nil_iff.mp (length_eq_zero_iff.mp hzero)
  rw [or_iff_right hall]
  have hshorter : (parts.filter fun part => !isEmptyGlob part).length < parts.length := by
    refine length_filter_lt_length_iff_exists.mpr ?_
    simpa using hall
  by_cases hnil : (parts.filter fun part => !isEmptyGlob part) = []
  · -- every part is a glob without a glob
    have hempty : ∀ part ∈ parts, parseRev part = {} := fun part hpart =>
      parseRev_of_isEmptyGlob (by simpa using filter_eq_nil_iff.mp hnil part hpart)
    rw [hnil]
    constructor
    · intro heq
      have hone : (parts.map parseRev).length = 1 := (congrArg length heq).symm
      rwa [length_map] at hone
    · intro hone
      obtain ⟨part, rfl⟩ := length_eq_one_iff.mp hone
      rw [map_singleton, hempty part (mem_singleton_self part)]
      rfl
  · have hne : ((parts.filter fun part => !isEmptyGlob part).map parseRev).length ≠ 0 := by
      rw [length_map]
      exact fun hzero => hnil (length_eq_zero_iff.mp hzero)
    rw [if_neg hne]
    refine iff_of_false (fun heq => ?_) fun hone => ?_
    · have hsame := congrArg length heq
      rw [length_map, length_map] at hsame
      exact hshorter.ne hsame
    · rw [hone] at hshorter
      exact hnil (length_eq_zero_iff.mp (Nat.lt_one_iff.mp hshorter))

section

variable {compile : GoString → Except GoString Regexp}

theorem parseRepositoryRevisions_eq_ok_iff {s : GoString} {p : ParsedRepoFilter Regexp} :
    parseRepositoryRevisions compile s = .ok p ↔
      compile (lit "(?i)" ++ p.repo) = .ok p.repoRegex ∧ p.repo = s.takeWhile (· ≠ 64) ∧
        p.revs = optionalRevs (s.dropWhile (· ≠ 64)) := by
  unfold parseRepositoryRevisions
  dsimp only
  constructor
  · intro h
    obtain ⟨repoRegex, hcompile, rfl⟩ := Except.exists_of_map h
    exact ⟨hcompile, rfl, rfl⟩
  · rintro ⟨hcompile, hrepo, hrevs⟩
    rw [← hrepo, ← hrevs, hcompile]
    rfl

theorem takeWhile_append_at {repo : GoString} (hrepo : 64 ∉ repo) (revs : GoString) :
    (repo ++ 64 :: revs).takeWhile (· ≠ 64) = repo ∧
      (repo ++ 64 :: revs).dropWhile (· ≠ 64) = 64 :: revs := by
  have hall : ∀ b ∈ repo, decide (b ≠ 64) = true := fun b hb =>
    decide_eq_true (ne_of_mem_of_not_mem hb hrepo)
  rw [takeWhile_append_of_pos hall, dropWhile_append_of_pos hall]
  exact ⟨append_nil repo, rfl⟩

theorem parseRevs_ne_nil (revs : GoString) : (parseRevs revs).length ≠ 0 := by
  show (if ((revParts revs).map parseRev).length = 0 then _ else _ : List _).length ≠ 0
  split_ifs with hzero
  · exact Nat.one_ne_zero
  · exact hzero

theorem string_of_revs {p : ParsedRepoFilter Regexp} (h : p.revs.length ≠ 0) :
    p.string = p.repo ++ 64 :: (lit ":").intercalate (p.revs.map RevisionSpecifier.string) := by
  rw [ParsedRepoFilter.string, if_neg h, append_assoc]
  rfl

/-- **A printed filter is parsed as itself** if and only if no glob is missing
in its list of revisions, or the list has this one entry. -/
theorem string_faithful_iff {s : GoString} {p : ParsedRepoFilter Regexp}
    (h : parseRepositoryRevisions compile s = .ok p) :
    (∃ p', parseRepositoryRevisions compile p.string = .ok p' ∧ p'.repo = p.repo ∧
      p'.revs = p.revs) ↔
    (∀ part ∈ revParts (s.dropWhile (· ≠ 64)).tail, isEmptyGlob part = false) ∨
      (revParts (s.dropWhile (· ≠ 64)).tail).length = 1 := by
  obtain ⟨hcompile, hrepo, hrevs⟩ := parseRepositoryRevisions_eq_ok_iff.mp h
  have hsplit : s.takeWhile (· ≠ 64) ++ s.dropWhile (· ≠ 64) = s := takeWhile_append_dropWhile
  cases hrest : s.dropWhile (· ≠ 64) with
  | nil =>
    -- without an `@` the filter is printed as it was
    rw [hrest, append_nil, ← hrepo] at hsplit
    rw [hrest] at hrevs
    have hstring : p.string = s := by rw [ParsedRepoFilter.string, hrevs, ← hsplit]; rfl
    refine iff_of_true ⟨p, ?_, rfl, rfl⟩ (.inl fun part hpart => absurd hpart not_mem_nil)
    rw [hstring, h]
  | cons sep rest =>
    have hrevs' : p.revs = parseRevs rest := by rw [hrevs, hrest]; rfl
    have hne : p.revs.length ≠ 0 := by rw [hrevs']; exact parseRevs_ne_nil rest
    have hfree : 64 ∉ p.repo := by
      rw [hrepo]
      intro hmem
      have hsep := all_eq_true.mp (all_takeWhile (p := (· ≠ 64)) (l := s)) 64 hmem
      exact absurd rfl (of_decide_eq_true hsep)
    obtain ⟨htake, hdrop⟩ := takeWhile_append_at hfree
      ((lit ":").intercalate (p.revs.map RevisionSpecifier.string))
    rw [tail_cons, ← parseRevs_string_iff, string_of_revs hne, ← hrevs']
    constructor
    · rintro ⟨p', hp', -, hsame⟩
      have hagain := (parseRepositoryRevisions_eq_ok_iff.mp hp').2.2
      rw [hsame, hdrop] at hagain
      exact hagain.symm
    · intro hsame
      refine ⟨p, parseRepositoryRevisions_eq_ok_iff.mpr ⟨hcompile, htake.symm, ?_⟩, rfl, rfl⟩
      rw [hdrop]
      exact hsame.symm

end

end

/-- A compiler that accepts everything. -/
def compileAny (expr : GoString) : Except GoString GoString := .ok expr

theorem string_faithful_globs :
    ∃ p, parseRepositoryRevisions compileAny (lit "repo@rev:*glob:*!refs") = .ok p ∧
      ∃ p', parseRepositoryRevisions compileAny p.string = .ok p' ∧ p'.repo = p.repo ∧
        p'.revs = p.revs := by
  have hparse : parseRepositoryRevisions compileAny (lit "repo@rev:*glob:*!refs") =
      .ok ⟨lit "repo", lit "(?i)repo", [⟨lit "rev", [], []⟩, ⟨[], lit "glob", []⟩,
        ⟨[], [], lit "refs"⟩]⟩ := by
    decide +kernel
  exact ⟨_, hparse, (string_faithful_iff hparse).mpr (.inl (by decide +kernel))⟩

/-- **The glob `*` is lost**: besides a revision it stands for the default
branch, which the printed filter does not name. -/
theorem string_star :
    ∃ p p', parseRepositoryRevisions compileAny (lit "repo@rev:*") = .ok p ∧
      p.revs = [⟨lit "rev", [], []⟩, {}] ∧ p.string = lit "repo@rev:" ∧
      parseRepositoryRevisions compileAny p.string = .ok p' ∧ p'.revs = [⟨lit "rev", [], []⟩] :=
  ⟨⟨lit "repo", lit "(?i)repo", [⟨lit "rev", [], []⟩, {}]⟩,
    ⟨lit "repo", lit "(?i)repo", [⟨lit "rev", [], []⟩]⟩, by decide +kernel⟩

end Query
