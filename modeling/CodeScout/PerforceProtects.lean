import CodeScout.Util.GlobLib
import CodeScout.Util.GoMap
import CodeScout.Util.GoStrconv
import CodeScout.Util.GoUnicode
import CodeScout.Util.Wildcard
import Mathlib

/-!
# Protections of Perforce

The output of `p4 protects` is a list of lines with an access level, a user or
group, a host and a match. A match with a leading dash is an exclusion. Of the
lines that affect read access the last one whose match covers a file decides.
`scanProtects` parses the lines and hands those that affect read access to a
scanner.
-/

namespace Perforce

open Glob (asterisk separator)

/-- `.` -/
def dot : UInt8 := 46

/-! ## Lines -/

/-- A line; the match is without the leading dash of an exclusion. -/
structure P4ProtectLine where
  level : GoString
  entityType : GoString
  name : GoString
  pathMatch : GoString
  isExclusion : Bool
  deriving DecidableEq

def P4ProtectLine.revokesReadAccess (line : P4ProtectLine) : Bool :=
  [lit "list", lit "read", lit "=read", lit "open", lit "write", lit "review", lit "owner",
    lit "admin", lit "super"].contains line.level

def P4ProtectLine.grantsReadAccess (line : P4ProtectLine) : Bool :=
  [lit "read", lit "=read", lit "open", lit "=open", lit "write", lit "=write", lit "review",
    lit "owner", lit "admin", lit "super"].contains line.level

/-- An exclusion that revokes or an inclusion that grants. -/
def P4ProtectLine.affectsReadAccess (line : P4ProtectLine) : Bool :=
  (line.isExclusion && line.revokesReadAccess) || (!line.isExclusion && line.grantsReadAccess)

/-- The text before the first `##`. -/
def cutComment : GoString → GoString
  | 35 :: 35 :: _ => []
  | c :: s => c :: cutComment s
  | [] => []

/-- `strings.Fields`, with at most `fuel` runes and the field read so far. -/
def fieldsFrom : ℕ → GoString → GoString → List GoString
  | 0, _, field => if field = [] then [] else [field]
  | _ + 1, [], field => if field = [] then [] else [field]
  | fuel + 1, c :: s, field =>
    let (r, width) := decodeRune (c :: s)
    if isSpace r then
      (if field = [] then [] else [field]) ++ fieldsFrom fuel ((c :: s).drop width) []
    else fieldsFrom fuel ((c :: s).drop width) (field ++ (c :: s).take width)

def fields (s : GoString) : List GoString :=
  fieldsFrom s.length s []

/-- A line of the output, if it affects read access. -/
def parseLine (line : GoString) : Option P4ProtectLine :=
  if [35, 35].isPrefixOf line then none
  else match fields (trimSpace (cutComment line)) with
    | level :: entityType :: name :: _ :: pathMatch :: _ =>
      let isExclusion := pathMatch.head? == some 45
      let parsedLine : P4ProtectLine :=
        { level, entityType, name, isExclusion
          pathMatch := if isExclusion then pathMatch.tail else pathMatch }
      if parsedLine.affectsReadAccess then some parsedLine else none
    | _ => none

/-- The lines that a scanner processes. -/
def scanProtects (lines : List GoString) : List P4ProtectLine :=
  lines.filterMap parseLine

/-! ## Wildcards -/

/-- `...` -/
def perforceWildcardMatchAll : GoString := [dot, dot, dot]

/-- `strings.Contains(s, perforceWildcardMatchAll)` -/
def containsMatchAll : GoString → Bool
  | 46 :: 46 :: 46 :: _ => true
  | _ :: s => containsMatchAll s
  | [] => false

def hasPerforceWildcard (pathMatch : GoString) : Bool :=
  containsMatchAll pathMatch || pathMatch.contains asterisk

/-- The character does not start a wildcard. -/
structure NoWildcardAt (c : UInt8) (s : GoString) : Prop where
  dots : ∀ rest, c = dot → s = dot :: dot :: rest → False
  star : c ≠ asterisk

theorem noWildcardAt_of_hasPerforceWildcard {c : UInt8} {s : GoString}
    (h : hasPerforceWildcard (c :: s) = false) :
    NoWildcardAt c s ∧ hasPerforceWildcard s = false := by
  unfold hasPerforceWildcard at h ⊢
  rw [Bool.or_eq_false_iff, List.contains_cons, Bool.or_eq_false_iff, beq_eq_false_iff_ne] at h
  have hdots : ∀ rest, c = dot → s = dot :: dot :: rest → False := by
    rintro rest rfl rfl
    cases h.1
  rw [containsMatchAll.eq_2 c s hdots] at h
  exact ⟨⟨hdots, h.2.1.symm⟩, Bool.or_eq_false_iff.mpr ⟨h.1, h.2.2⟩⟩

/-- A slash ends what may become a wildcard. -/
theorem NoWildcardAt.append {c : UInt8} {s : GoString} (h : NoWildcardAt c (s ++ [separator]))
    (rest : GoString) : NoWildcardAt c (s ++ separator :: rest) where
  dots rest' hc hs := by
    cases s with
    | nil => cases hs
    | cons b s =>
      cases s with
      | nil => cases hs
      | cons b' s =>
        simp only [List.cons_append, List.cons.injEq] at hs
        obtain ⟨rfl, rfl, -⟩ := hs
        exact h.dots _ hc rfl
  star := h.star

/-- **What a match stands for**: `...` is any text, and `*` any text within a
directory. -/
def matchPiecesOf : GoString → List (Wildcard.Piece UInt8)
  | 46 :: 46 :: 46 :: s => .any :: matchPiecesOf s
  | 42 :: s => .gap (· != separator) :: matchPiecesOf s
  | c :: s => .letter (c == ·) :: matchPiecesOf s
  | [] => []

/-- Whether a line covers a path. -/
def P4ProtectLine.covers (path : GoString) (line : P4ProtectLine) : Bool :=
  Wildcard.matchPieces (matchPiecesOf line.pathMatch) path

theorem matchPiecesOf_append {s : GoString} (h : hasPerforceWildcard (s ++ [separator]) = false)
    (rest : GoString) : matchPiecesOf (s ++ separator :: rest)
      = (s ++ [separator]).map (fun c => .letter (c == ·)) ++ matchPiecesOf rest := by
  induction s with
  | nil => rfl
  | cons c s ih =>
    obtain ⟨hc, hs⟩ := noWildcardAt_of_hasPerforceWildcard h
    have hrest := hc.append rest
    rw [List.cons_append, matchPiecesOf.eq_3 c _ hrest.dots hrest.star, ih hs]
    rfl

/-! ## Permissions -/

/-- What a scanner fills in. The rules of a repository are by its depot. -/
structure ExternalUserPermissions where
  exacts : List GoString
  includeContains : List GoString
  excludeContains : List GoString
  subRepoPermissions : GoMap GoString (List GoString)

def ExternalUserPermissions.empty : ExternalUserPermissions :=
  ⟨[], [], [], ∅⟩

end Perforce
