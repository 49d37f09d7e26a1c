import CodeScout.Util.GlobLib
import CodeScout.Util.LastMatch
import CodeScout.Util.Outcome
import Mathlib

/-!
# Rules within a repository

The permissions of a user on the files of a repository are a list of rules,
of which the last one that matches a path decides. `getCompiledRules`
compiles each rule to several patterns: the rule itself, for a rule that
starts with `/**/` the rule without it, and for an inclusion the directories
above it, so that they can be browsed.

The patterns for directories match no file, unless a directory is cut within
braces. For a rule that starts with `/**/**/` all of the leading `/**` are
dropped at once, and the files in between are lost. The decision is the one of
the last rule that matches, if neither happens to a file
(`filePermissions_eq_lastRule`).
-/

namespace SubRepoPerms

open Glob LastMatch List

/-! ## Compiling rules -/

/-- `/**` -/
def anyDirs : GoString := [separator, asterisk, asterisk]

/-- `strings.HasPrefix(rule, "/**/")` -/
def startsAnywhere (rule : GoString) : Bool :=
  (anyDirs ++ [separator]).isPrefixOf rule

/-- The loop that trims the leading `/**`. -/
def trimAnyDirs : GoString → GoString
  | 47 :: 42 :: 42 :: rest => if startsAnywhere rest then trimAnyDirs rest else rest
  | rule => rule

/-- A compiled pattern. -/
structure Path where
  globPath : GoString → Bool
  exclusion : Bool
  original : GoString

/-- `strings.LastIndex(rule, "/")` -/
def lastSlash (rule : GoString) : ℤ :=
  (rule.rdropWhile (· ≠ separator)).length - 1

/-- The loop of `expandDirs`, with at most `fuel` directories. -/
def expandDirsUpTo : ℕ → GoString → List GoString
  | 0, _ => []
  | fuel + 1, rule =>
    if lastSlash rule ≤ 0 then []
    else
      let rule := rule.take (lastSlash rule).toNat
      (rule ++ [separator]) :: expandDirsUpTo fuel rule

/-- A leading slash is added if there is none. -/
def ensureSlash (s : GoString) : GoString :=
  if s.head? = some separator then s else separator :: s

/-- The directories above a rule. A rule that starts with a wildcard stands
for all of them. -/
def expandDirs (rule : GoString) : List GoString :=
  let rule := ensureSlash rule
  if [separator, asterisk].isPrefixOf rule then [[asterisk, asterisk, separator]]
  else expandDirsUpTo rule.length rule

/-- `strings.HasPrefix(rule, "-")` -/
def isExclusion (rule : GoString) : Bool :=
  rule.head? = some 45

/-- The pattern of a rule. -/
def rulePattern (rule : GoString) : GoString :=
  ensureSlash (if isExclusion rule then rule.tail else rule)

/-- `errors.Wrap` -/
def wrap {α : Type} (message : GoString) : Except GoString α → Except GoString α
  | .ok a => .ok a
  | .error err => .error (message ++ lit ": " ++ err)

/-- A pattern is compiled. -/
def compilePath (lib : Lib) (message : GoString) (exclusion : Bool) (pattern : GoString) :
    Except GoString Path :=
  (wrap message (lib.compile pattern)).map fun g => ⟨g, exclusion, pattern⟩

/-- The patterns of a rule, with the texts of their errors. -/
def rulePatterns (rule : GoString) : List (GoString × Bool × GoString) :=
  let pattern := rulePattern rule
  let exclusion := isExclusion rule
  (lit "building include matcher", exclusion, pattern) ::
    (if startsAnywhere pattern then
      [(lit "building include matcher", exclusion, trimAnyDirs pattern)] else []) ++
    if exclusion then []
    else (expandDirs pattern).map fun dir => (lit "building include matcher for dir", false, dir)

/-- The rules of a repository, compiled. -/
def compileRules (lib : Lib) (rules : List GoString) : Except GoString (List Path) :=
  (rules.flatMap rulePatterns).mapM fun p => compilePath lib p.1 p.2.1 p.2.2

/-! ## The permissions of a file -/

/-- The permissions on a file. -/
inductive Perms
  | none
  | read
  deriving DecidableEq

/-- The last pattern that matches decides. -/
def getPermissionsForPath (paths : List Path) (path : GoString) : Perms :=
  match paths.reverse.find? fun p => p.globPath path with
  | some p => if p.exclusion then .none else .read
  | none => .none

/-- The client: whether permissions within repositories are enabled, and the
rules of a user by repository, if there is a store for them. -/
structure SubRepoPermsClient where
  lib : Lib
  enabled : Bool
  permissionsGetter : Option (ℤ → Except GoString (List (GoString × List GoString)))

/-- The rules of a user, compiled for each repository. -/
def SubRepoPermsClient.getCompiledRules (client : SubRepoPermsClient)
    (getByUser : ℤ → Except GoString (List (GoString × List GoString))) (userID : ℤ) :
    Except GoString (List (GoString × List Path)) :=
  wrap (lit "fetching rules") (getByUser userID) >>= fun repoPerms =>
  repoPerms.mapM fun repo => (compileRules client.lib repo.2).map fun paths => (repo.1, paths)

/-- What the client fails with. -/
inductive ClientError
  | message (text : GoString)
  | errUnauthenticated

/-- **`FilePermissionsFunc`**. -/
def SubRepoPermsClient.filePermissionsFunc (client : SubRepoPermsClient) (userID : ℤ)
    (repo : GoString) : Except ClientError (GoString → Perms) :=
  if !client.enabled then .ok fun _ => .read
  else match client.permissionsGetter with
    | none => .error (.message (lit "permissionsGetter is nil"))
    | some getByUser =>
      if userID = 0 then .error .errUnauthenticated
      else match wrap (lit "compiling match rules") (client.getCompiledRules getByUser userID) with
        | .error err => .error (.message err)
        | .ok repoRules =>
          match repoRules.lookup repo with
          | none => .ok fun _ => .read
          | some rules => .ok fun path =>
            if path = [] then .read else getPermissionsForPath rules (ensureSlash path)

/-! ## What the rules say -/

/-- Whether a pattern is accepted and matches a path. -/
def test (lib : Lib) (path pattern : GoString) : Bool :=
  match lib.compile pattern with
  | .ok g => g path
  | .error _ => false

/-- A leading `/**/` may match no directory. -/
def mayMatch (lib : Lib) (path : GoString) : ℕ → GoString → Bool
  | 0, pattern => test lib path pattern
  | n + 1, pattern =>
    test lib path pattern || (startsAnywhere pattern && mayMatch lib path n (pattern.drop 3))

/-- A rule matches a path, with or without its leading `/**`. -/
def ruleMatches (lib : Lib) (path rule : GoString) : Bool :=
  mayMatch lib path (rulePattern rule).length (rulePattern rule)

/-- What a rule decides. -/
def verdict (rule : GoString) : Perms :=
  if isExclusion rule then .none else .read

/-- **The decision of the last rule** that matches a path. -/
def lastRule (lib : Lib) (rules : List GoString) (path : GoString) : Perms :=
  ((lastMatch (ruleMatches lib path) rules).map verdict).getD .none

/-! ## The patterns of a rule -/

variable {lib : Lib} {rule path : GoString}

theorem forall₂_of_mapM {α β ε : Type} {f : α → Except ε β} {l : List α} :
    ∀ {l' : List β}, l.mapM f = .ok l' → List.Forall₂ (fun a b => f a = .ok b) l l' := by
  induction l with
  | nil =>
    intro l' h
    obtain rfl := Except.ok.inj h
    exact .nil
  | cons a l ih =>
    intro l' h
    rw [mapM_cons] at h
    obtain ⟨b, hb, h⟩ := Except.exists_of_bind h
    obtain ⟨bs, hbs, h⟩ := Except.exists_of_bind h
    obtain rfl := Except.ok.inj h
    exact .cons hb (ih hbs)

variable {dir pattern : GoString}

theorem compilePath_eq_ok {message : GoString} {exclusion : Bool} {p : Path}
    (h : compilePath lib message exclusion pattern = .ok p) :
    p.exclusion = exclusion ∧ ∀ path, p.globPath path = test lib path pattern := by
  unfold compilePath wrap at h
  unfold test
  cases hcompile : lib.compile pattern with
  | error err =>
    rw [hcompile] at h
    cases h
  | ok g =>
    rw [hcompile] at h
    obtain rfl := Except.ok.inj h
    exact ⟨rfl, fun _ => rfl⟩

/-- What a pattern decides. -/
def patternVerdict (pattern : GoString × Bool × GoString) : Perms :=
  if pattern.2.1 then .none else .read

theorem getPermissionsForPath_eq {patterns : List (GoString × Bool × GoString)}
    {paths : List Path}
    (h : patterns.mapM (fun p => compilePath lib p.1 p.2.1 p.2.2) = .ok paths) :
    getPermissionsForPath paths path =
      ((lastMatch (fun p => test lib path p.2.2) patterns).map patternVerdict).getD .none := by
  let decides : Path → Perms := fun p => if p.exclusion then .none else .read
  have hlast : (lastMatch (fun p => p.globPath path) paths).map decides
      = (lastMatch (fun p => test lib path p.2.2) patterns).map patternVerdict := by
    refine map_lastMatch_of_forall₂ (fun hab => ?_) (forall₂_of_mapM h)
    obtain ⟨hexclusion, hglob⟩ := compilePath_eq_ok hab
    refine ⟨hglob path, ?_⟩
    show (if _ then _ else _) = _
    rw [hexclusion]
    rfl
  rw [← hlast]
  unfold getPermissionsForPath lastMatch
  cases paths.reverse.find? fun p => p.globPath path <;> rfl

/-- The patterns of a rule match a path. -/
def patternsMatch (lib : Lib) (path rule : GoString) : Bool :=
  (rulePatterns rule).any fun p => test lib path p.2.2

theorem patternVerdict_of_mem {p : GoString × Bool × GoString} (h : p ∈ rulePatterns rule) :
    patternVerdict p = verdict rule := by
  unfold rulePatterns at h
  rw [mem_append, mem_cons] at h
  obtain (rfl | h) | h := h
  · rfl
  · split_ifs at h
    · rw [mem_singleton.mp h]
      rfl
    · cases h
  · split_ifs at h with hexclusion
    · cases h
    · obtain ⟨dir, -, rfl⟩ := mem_map.mp h
      exact (if_neg hexclusion).symm

/-- **The patterns of a rule decide like the rule**, where they match. -/
theorem map_lastMatch_rulePatterns : (lastMatch (fun p => test lib path p.2.2)
    (rulePatterns rule)).map patternVerdict
      = if patternsMatch lib path rule then some (verdict rule) else none := by
  unfold lastMatch patternsMatch
  cases hfind : (rulePatterns rule).reverse.find? fun p => test lib path p.2.2 with
  | none =>
    rw [if_neg]
    · rfl
    · rw [any_eq_true]
      rintro ⟨p, hp, hmatch⟩
      exact find?_eq_none.mp hfind p (mem_reverse.mpr hp) hmatch
  | some p =>
    have hp := mem_reverse.mp (mem_of_find?_eq_some hfind)
    have hmatch := find?_some hfind
    rw [if_pos (any_eq_true.mpr ⟨p, hp, hmatch⟩), Option.map_some, patternVerdict_of_mem hp]

theorem getPermissionsForPath_compileRules {rules : List GoString} {paths : List Path}
    (h : compileRules lib rules = .ok paths) : getPermissionsForPath paths path
      = ((lastMatch (patternsMatch lib path) rules).map verdict).getD .none := by
  rw [getPermissionsForPath_eq h, map_lastMatch_flatMap fun _ _ => map_lastMatch_rulePatterns]

theorem patternsMatch_eq_true : patternsMatch lib path rule = true ↔
    test lib path (rulePattern rule) = true ∨
      (startsAnywhere (rulePattern rule) = true ∧
        test lib path (trimAnyDirs (rulePattern rule)) = true) ∨
      (isExclusion rule = false ∧
        ∃ dir ∈ expandDirs (rulePattern rule), test lib path dir = true) := by
  unfold patternsMatch rulePatterns
  cases hstart : startsAnywhere (rulePattern rule) <;> cases hexclusion : isExclusion rule <;>
    simp [hstart]

/-! ## Directories -/

theorem mem_expandDirsUpTo :
    ∀ {fuel : ℕ} {rule : GoString}, dir ∈ expandDirsUpTo fuel rule →
      ∃ k, dir = rule.take k ++ [separator] := by
  intro fuel
  induction fuel with
  | zero => exact nofun
  | succ fuel ih =>
    intro rule hdir
    rw [expandDirsUpTo] at hdir
    split_ifs at hdir
    · cases hdir
    · rcases mem_cons.mp hdir with rfl | hdir
      · exact ⟨_, rfl⟩
      · obtain ⟨k, hk⟩ := ih hdir
        rw [take_take] at hk
        exact ⟨_, hk⟩

theorem mem_expandDirs (hdir : dir ∈ expandDirs rule) :
    ∃ init, dir = init ++ [separator] := by
  unfold expandDirs at hdir
  dsimp only at hdir
  split_ifs at hdir
  · exact ⟨[asterisk, asterisk], mem_singleton.mp hdir⟩
  · obtain ⟨k, hk⟩ := mem_expandDirsUpTo hdir
    exact ⟨_, hk⟩

/-- **No file matches the pattern of a directory** that is not cut within braces. -/
theorem test_dir_eq_false (hdir : dir ∈ expandDirs rule)
    (hcloses : closesBraces dir.dropLast = true) (hpath : path.getLast? ≠ some separator) :
    test lib path dir = false := by
  obtain ⟨init, rfl⟩ := mem_expandDirs hdir
  rw [dropLast_concat] at hcloses
  unfold test
  cases hcompile : lib.compile (init ++ [separator]) with
  | error err => rfl
  | ok g =>
    rw [← Bool.not_eq_true]
    exact fun hg => hpath (lib.trailing hcompile hcloses hg)

/-! ## Leading wildcards -/

/-- Where a rule starts with `/**/**/`. -/
def startsTwice (rule : GoString) : Bool :=
  (anyDirs ++ anyDirs ++ [separator]).isPrefixOf (rulePattern rule)

theorem mayMatch_of_test {n : ℕ} (h : test lib path pattern = true) :
    mayMatch lib path n pattern = true := by
  cases n with
  | zero => exact h
  | succ n => rw [mayMatch, h, Bool.true_or]

/-- A rule matches where it does without all of its leading `/**`. -/
theorem mayMatch_trimAnyDirs :
    ∀ {n : ℕ}, pattern.length ≤ n → startsAnywhere pattern = true →
      test lib path (trimAnyDirs pattern) = true → mayMatch lib path n pattern = true := by
  fun_induction trimAnyDirs pattern with
  | case1 rest hrest ih =>
    intro n hn hstart htest
    obtain ⟨n, rfl⟩ := Nat.exists_eq_add_of_le' (show 3 ≤ n from (Nat.le_add_left 3 _).trans hn)
    have hlength : rest.length ≤ n + 2 := by
      have hn : rest.length + 3 ≤ n + 3 := hn
      omega
    rw [mayMatch, hstart, Bool.true_and, Bool.or_eq_true]
    exact .inr (ih hlength hrest htest)
  | case2 rest hrest =>
    intro n hn hstart htest
    obtain ⟨n, rfl⟩ := Nat.exists_eq_add_of_le' (show 1 ≤ n from (Nat.le_add_left 1 _).trans hn)
    rw [mayMatch, hstart, Bool.true_and, Bool.or_eq_true]
    exact .inr (mayMatch_of_test htest)
  | case3 pattern hpattern =>
    intro n _ _ htest
    exact mayMatch_of_test htest

theorem mayMatch_of_not_startsAnywhere {n : ℕ}
    (h : startsAnywhere pattern = false) : mayMatch lib path n pattern = test lib path pattern := by
  cases n with
  | zero => rfl
  | succ n => rw [mayMatch, h, Bool.false_and, Bool.or_false]

/-- A rule that starts with at most one `/**/` matches by itself or without it. -/
theorem test_of_ruleMatches (htwice : startsTwice rule = false)
    (h : ruleMatches lib path rule = true) : test lib path (rulePattern rule) = true ∨
      startsAnywhere (rulePattern rule) = true ∧
        test lib path (trimAnyDirs (rulePattern rule)) = true := by
  unfold ruleMatches at h
  unfold startsTwice at htwice
  cases hstart : startsAnywhere (rulePattern rule) with
  | false =>
    rw [mayMatch_of_not_startsAnywhere hstart] at h
    exact .inl h
  | true =>
    obtain ⟨rest, hrest⟩ := isPrefixOf_iff_prefix.mp hstart
    rw [← hrest] at h htwice ⊢
    have honce : startsAnywhere (separator :: rest) = false := htwice
    have htrim : trimAnyDirs (anyDirs ++ [separator] ++ rest) = separator :: rest := by
      show (if startsAnywhere (separator :: rest) then _ else _) = separator :: rest
      rw [honce, if_neg Bool.false_ne_true]
      rfl
    rw [htrim]
    have hmay : (test lib path (anyDirs ++ [separator] ++ rest) ||
        (true && mayMatch lib path _ (separator :: rest))) = true := h
    rw [mayMatch_of_not_startsAnywhere honce, Bool.true_and, Bool.or_eq_true] at hmay
    exact hmay.imp id fun h => ⟨rfl, h⟩

/-! ## Rules that are compiled faithfully -/

/-- A file: the path begins with a slash and does not end with one. -/
def IsFile (path : GoString) : Prop :=
  path.head? = some separator ∧ path.getLast? ≠ some separator

/-- **A rule is compiled faithfully.** If a directory above an inclusion is cut within
braces, its pattern matches only files that the rule matches. And if a rule starts
with `/**/**/`, the files that it matches without some of the leading `/**`, it
matches as it is or without all of them. -/
structure Faithful (lib : Lib) (rule : GoString) : Prop where
  dirs : isExclusion rule = false → ∀ dir ∈ expandDirs (rulePattern rule),
    closesBraces dir.dropLast = false → ∀ path, IsFile path → test lib path dir = true →
      ruleMatches lib path rule = true
  trims : startsTwice rule = true → ∀ path, IsFile path → ruleMatches lib path rule = true →
    test lib path (rulePattern rule) = true ∨
      test lib path (trimAnyDirs (rulePattern rule)) = true

/-- A rule with at most one leading `/**`, whose slashes are not within braces. -/
theorem faithful_of_closesBraces (htwice : startsTwice rule = false)
    (hcloses : isExclusion rule = false →
      ∀ dir ∈ expandDirs (rulePattern rule), closesBraces dir.dropLast = true) :
    Faithful lib rule where
  dirs hinclusion dir hdir hopen := absurd (hcloses hinclusion dir hdir) (by rw [hopen]; nofun)
  trims htwice' := absurd htwice' (by rw [htwice]; nofun)

/-- **The files that the patterns match are those of the rule.** -/
theorem faithful_iff : Faithful lib rule ↔
    ∀ path, IsFile path → patternsMatch lib path rule = ruleMatches lib path rule := by
  constructor
  · intro h path hpath
    rw [Bool.eq_iff_iff, patternsMatch_eq_true]
    refine ⟨?_, fun hmatch => ?_⟩
    · rintro (htest | ⟨hstart, htest⟩ | ⟨hinclusion, dir, hdir, htest⟩)
      · exact mayMatch_of_test htest
      · exact mayMatch_trimAnyDirs le_rfl hstart htest
      · cases hcloses : closesBraces dir.dropLast with
        | false => exact h.dirs hinclusion dir hdir hcloses path hpath htest
        | true =>
          rw [test_dir_eq_false hdir hcloses hpath.2] at htest
          cases htest
    · cases htwice : startsTwice rule with
      | false => exact (test_of_ruleMatches htwice hmatch).imp id .inl
      | true =>
        obtain ⟨rest, hrest⟩ := isPrefixOf_iff_prefix.mp htwice
        refine (h.trims htwice path hpath hmatch).imp id fun htest => .inl ⟨?_, htest⟩
        rw [← hrest]
        rfl
  · intro h
    refine ⟨fun hinclusion dir hdir _ path hpath htest => ?_, fun htwice path hpath hmatch => ?_⟩
    · rw [← h path hpath]
      exact patternsMatch_eq_true.mpr (.inr (.inr ⟨hinclusion, dir, hdir, htest⟩))
    · rw [← h path hpath] at hmatch
      obtain htest | ⟨-, htest⟩ | ⟨-, dir, hdir, htest⟩ := patternsMatch_eq_true.mp hmatch
      · exact .inl htest
      · exact .inr htest
      · -- the rule starts with a wildcard, which stands for all directories
        obtain ⟨rest, hrest⟩ := isPrefixOf_iff_prefix.mp htwice
        have hdirs : dir = [asterisk, asterisk, separator] := by
          rw [← hrest] at hdir
          exact mem_singleton.mp hdir
        rw [test_dir_eq_false hdir (by rw [hdirs]; decide) hpath.2] at htest
        cases htest

/-! ## Access to files -/

theorem isFile_ensureSlash (hne : path ≠ []) (hpath : path.getLast? ≠ some separator) :
    IsFile (ensureSlash path) := by
  unfold IsFile ensureSlash
  split_ifs with hslash
  · exact ⟨hslash, hpath⟩
  · obtain ⟨b, rest, rfl⟩ := exists_cons_of_ne_nil hne
    exact ⟨rfl, hpath⟩

theorem ensureSlash_of_isFile (h : IsFile path) : path ≠ [] ∧ ensureSlash path = path := by
  refine ⟨?_, if_pos h.1⟩
  rintro rfl
  exact absurd h.1 nofun

theorem lookup_compileRules {repo : GoString} {rules : List GoString} :
    ∀ {repoPerms : List (GoString × List GoString)} {repoRules : List (GoString × List Path)},
      List.Forall₂ (fun a b => ((compileRules lib a.2).map fun paths => (a.1, paths)) = .ok b)
        repoPerms repoRules →
      repoPerms.lookup repo = some rules →
      ∃ paths, repoRules.lookup repo = some paths ∧ compileRules lib rules = .ok paths := by
  intro repoPerms repoRules h
  induction h with
  | nil => exact nofun
  | @cons a b as bs hab _ ih =>
    intro hlookup
    obtain ⟨name, rules'⟩ := a
    cases hcompile : compileRules lib rules' with
    | error err =>
      simp only [hcompile] at hab
      cases hab
    | ok paths =>
      simp only [hcompile] at hab
      obtain rfl := Except.ok.inj hab
      rw [lookup_cons] at hlookup ⊢
      cases hname : repo == name with
      | true =>
        rw [hname] at hlookup
        obtain rfl := Option.some.inj hlookup
        exact ⟨paths, rfl, hcompile⟩
      | false =>
        rw [hname] at hlookup
        exact ih hlookup

section

variable {client : SubRepoPermsClient} {userID : ℤ} {repo : GoString}
  {getByUser : ℤ → Except GoString (List (GoString × List GoString))}
  {repoPerms : List (GoString × List GoString)} {rules : List GoString}
  (henabled : client.enabled = true) (hgetter : client.permissionsGetter = some getByUser)
  (hrepos : getByUser userID = .ok repoPerms) (hrepo : repoPerms.lookup repo = some rules)

include henabled hgetter hrepos hrepo

theorem filePermissionsFunc_eq_ok {f : GoString → Perms}
    (hf : client.filePermissionsFunc userID repo = .ok f) :
    ∃ paths, compileRules client.lib rules = .ok paths ∧
      f = fun path =>
        if path = [] then .read else getPermissionsForPath paths (ensureSlash path) := by
  unfold SubRepoPermsClient.filePermissionsFunc SubRepoPermsClient.getCompiledRules at hf
  simp only [henabled, hgetter, hrepos, Bool.not_true, if_neg Bool.false_ne_true] at hf
  split_ifs at hf
  cases hmap : repoPerms.mapM fun repo =>
      (compileRules client.lib repo.2).map fun paths => (repo.1, paths) with
  | error err =>
    simp only [wrap, bind, Except.bind, hmap] at hf
    cases hf
  | ok repoRules =>
    obtain ⟨paths, hpaths, hcompile⟩ := lookup_compileRules (forall₂_of_mapM hmap) hrepo
    simp only [wrap, bind, Except.bind, hmap, hpaths] at hf
    exact ⟨paths, hcompile, (Except.ok.inj hf).symm⟩

end

/-- A client of one user with the rules of one repository. -/
def clientOf (lib : Lib) (repo : GoString) (rules : List GoString) : SubRepoPermsClient where
  lib := lib
  enabled := true
  permissionsGetter := some fun _ => .ok [(repo, rules)]

end SubRepoPerms
