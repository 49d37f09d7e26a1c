import CodeScout.SearcherGrep
import CodeScout.Util.Outcome
import CodeScout.Util.RegexpLiterals
import Mathlib

/-!
# Compiling a pattern

`compile` makes a `readerGrep` of a pattern. Unless case matters the
expression is lowercased, as the content of the files is. If the engine knows
no text that all matches begin with, the longest literal that all matches
should contain is kept, and `Find` skips the files without it.

A literal that ignores case is kept with the runes the parser has for it,
which are in upper case, so that files with a match are skipped
(`find_complete`). The parser, the printer and the engine are parameters, with
the law that an expression matches what its syntax tree does.
-/

open RegexpSyntax

namespace Searcher

open List

/-! ## The packages that `compile` uses -/

/-- `regexp.QuoteMeta`: an expression that matches the text itself. -/
def regexpQuoteMeta (s : GoString) : GoString :=
  s.flatMap fun c => if (lit "\\.+*?()|[]\x7b\x7d^$").contains c then [92, c] else [c]

/-- The packages for expressions, and the laws that are used of them. -/
structure SyntaxLib where
  /-- `unicode.SimpleFold` -/
  simpleFold : SimpleFold
  /-- `unicode.ToLower` -/
  toLower : ℕ → ℕ
  /-- `syntax.Parse` with the flags `syntax.Perl` -/
  parse : GoString → Except GoString Re
  /-- `query.OptimizeRegexp` -/
  optimizeRegexp : Re → Re
  /-- `String` of a syntax tree -/
  print : Re → GoString
  simplify : Re → Re
  /-- `regexp.Compile` -/
  compile : GoString → Except GoString Regexp
  /-- `LiteralPrefix` of a compiled expression -/
  literalPrefix : GoString → GoString
  isScalar_simpleFold : ∀ r, IsScalar r → IsScalar (simpleFold r)
  matchesIn_simplify : ∀ re text,
    MatchesIn simpleFold (simplify re) text ↔ MatchesIn simpleFold re text
  /-- A compiled expression matches what its syntax tree does. -/
  matchString_compile : ∀ {expr re ast}, compile expr = .ok re → parse expr = .ok ast →
    ∀ text, re.matchString text = true ↔ MatchesIn simpleFold ast (chars text)

/-! ## Lowercasing an expression -/

/-- A class that is assumed to be given by what it excludes: its ranges start
at 0 and end at the last rune. -/
def isExclusion (ranges : List CharRange) : Bool :=
  decide (2 ≤ ranges.length) && ranges.head?.any (·.lo == 0) &&
    ranges.getLast?.any (·.hi == 0x10FFFF)

/-- The gaps between the ranges that meet `A` to `Z`, clamped and lowercased.
The bounds are exclusive. -/
def excludedGaps : List CharRange → List (ℕ × ℕ)
  | r :: r' :: ranges =>
    let excluded := excludedGaps (r' :: ranges)
    if 90 < r.hi || r'.lo < 65 then excluded
    else ((if r.hi < 65 then 64 else r.hi) + 32, (if 90 < r'.lo then 91 else r'.lo) + 32) ::
      excluded
  | _ => []

/-- The ranges without the gaps. Of the gaps that meet a range only the first
is left out of it. -/
def excludeGaps (excluded : List (ℕ × ℕ)) : List CharRange → List CharRange
  | [] => []
  | r :: ranges =>
    let excluded := excluded.dropWhile fun gap => decide (gap.2 ≤ r.lo)
    let kept := match excluded with
      | [] => [r]
      | gap :: _ =>
        if r.hi ≤ gap.1 then [r]
        else (if h : r.lo ≤ gap.1 then [⟨r.lo, gap.1, h⟩] else []) ++
          if h : gap.2 ≤ r.hi then [⟨gap.2, r.hi, h⟩] else []
    kept ++ excludeGaps excluded ranges

/-- The part of a range that is within `A` to `Z`, in lower case. -/
def lowerRange (r : CharRange) : Option CharRange :=
  if h : 90 < r.lo ∨ r.hi < 65 then none
  else some ⟨max r.lo 65 + 32, min r.hi 90 + 32, by have := r.le; omega⟩

/-- A range within `A` to `Z` -/
def isSimple (r : CharRange) : Bool :=
  decide (65 ≤ r.lo) && decide (r.hi ≤ 90)

/-- Ranges within `A` to `Z` are replaced by their lowercase, other ranges are
kept and the lowercase of what they have of `A` to `Z` is added. -/
def lowerClass (ranges : List CharRange) : List CharRange :=
  if isExclusion ranges then excludeGaps (excludedGaps ranges) ranges
  else if ranges.any fun r => decide (r.lo ≤ 97) && decide (122 ≤ r.hi) then ranges
  else (ranges.map fun r => if isSimple r then (lowerRange r).getD r else r) ++
    (ranges.filter fun r => !isSimple r).filterMap lowerRange

mutual

/-- The literals and classes are lowercased, and nothing else. -/
def lowerRegexpASCII (toLower : ℕ → ℕ) : Re → Re
  | .literal runes foldCase => .literal (runes.map toLower) foldCase
  | .charClass ranges => .charClass (lowerClass ranges)
  | .capture sub => .capture (lowerRegexpASCII toLower sub)
  | .star sub => .star (lowerRegexpASCII toLower sub)
  | .plus sub => .plus (lowerRegexpASCII toLower sub)
  | .quest sub => .quest (lowerRegexpASCII toLower sub)
  | .repeated min max sub => .repeated min max (lowerRegexpASCII toLower sub)
  | .concat subs => .concat (lowerRegexpsASCII toLower subs)
  | .alternate subs => .alternate (lowerRegexpsASCII toLower subs)
  | re => re

/-- The loop over the parts of an expression. -/
def lowerRegexpsASCII (toLower : ℕ → ℕ) : List Re → List Re
  | [] => []
  | sub :: subs => lowerRegexpASCII toLower sub :: lowerRegexpsASCII toLower subs

end

/-! ## The longest literal -/

mutual

/-- The longest text that is taken to appear in all matches. -/
def longestLiteral : Re → GoString
  | .literal runes _ => ofRunes runes
  | .capture sub => longestLiteral sub
  | .plus sub => longestLiteral sub
  | .repeated min _ sub => if 1 ≤ min then longestLiteral sub else []
  | .concat subs => longestLiteralOf [] subs
  | _ => []

/-- The loop over the parts of a concatenation. -/
def longestLiteralOf (longest : GoString) : List Re → GoString
  | [] => longest
  | sub :: subs =>
    longestLiteralOf
      (if longest.length < (longestLiteral sub).length then longestLiteral sub else longest) subs

end

/-! ## compile -/

/-- What is searched for, and in which paths. -/
structure PatternInfo where
  pattern : GoString
  isRegExp : Bool
  isWordMatch : Bool
  isCaseSensitive : Bool
  excludePattern : GoString
  includePatterns : List GoString
  pathPatternsAreCaseSensitive : Bool

/-- The error of a call. -/
def errorOf {α : Type} : Except GoString α → Option GoString
  | .error err => some err
  | .ok _ => none

section

variable (lib : SyntaxLib)

/-- All patterns are compiled, and the last error is returned. -/
def compilePathPatterns (includePatterns : List GoString) (excludePattern : GoString)
    (caseSensitive : Bool) : Except GoString PathMatcher :=
  let compile p := lib.compile (if caseSensitive then p else lit "(?i:" ++ p ++ lit ")")
  let includes := includePatterns.map compile
  let exclude := if excludePattern = [] then none else some (compile excludePattern)
  match ((includes ++ exclude.toList).filterMap errorOf).getLast? with
  | some err => .error err
  | none => .ok ⟨includes.filterMap Except.toOption, exclude.bind Except.toOption⟩

/-- The expression of a pattern, before it is transformed. -/
def patternExpr (p : PatternInfo) : GoString :=
  let expr := if p.isRegExp then p.pattern else regexpQuoteMeta p.pattern
  let expr := if p.isWordMatch then lit "\\b" ++ expr ++ lit "\\b" else expr
  if p.isRegExp then lit "(?m:" ++ expr ++ lit ")" else expr

/-- The transforms on the parsed expression. -/
def transformedExpr (p : PatternInfo) : Except GoString GoString :=
  (lib.parse (patternExpr p)).map fun re =>
    lib.print (lib.optimizeRegexp
      (if p.isCaseSensitive then re else lowerRegexpASCII lib.toLower re))

/-- The literal for an expression that has been compiled. -/
def literalSubstring (expr : GoString) : Except GoString GoString :=
  if lib.literalPrefix expr = [] then
    (lib.parse expr).map fun ast => longestLiteral (lib.simplify ast)
  else .ok []

/-- The expression of the content, and the literal. -/
def compilePattern (p : PatternInfo) : Except GoString (Option Regexp × GoString) :=
  if p.pattern = [] then .ok (none, [])
  else
    (transformedExpr lib p).bind fun expr =>
    (lib.compile expr).bind fun re =>
    (literalSubstring lib expr).map fun literal => (some re, literal)

/-- **`compile`**. -/
def compile (p : PatternInfo) : Except GoString ReaderGrep :=
  (compilePattern lib p).bind fun found =>
  (compilePathPatterns lib p.includePatterns p.excludePattern p.pathPatternsAreCaseSensitive).map
    fun matchPath => ⟨found.1, !p.isCaseSensitive, matchPath, found.2⟩

end

/-! ## The literal of a tree -/

/-- **One of the longest texts**, or no text if there is none. -/
structure IsLongest (literals : List (List ℕ × Bool)) (text : GoString) : Prop where
  length_le : ∀ literal ∈ literals, (ofRunes literal.1).length ≤ text.length
  eq_ofRunes : text = [] ∨ ∃ literal ∈ literals, text = ofRunes literal.1

theorem IsLongest.nil : IsLongest [] [] :=
  ⟨nofun, .inl rfl⟩

theorem IsLongest.singleton (literal : List ℕ × Bool) :
    IsLongest [literal] (ofRunes literal.1) where
  length_le := by
    intro other hother
    rw [mem_singleton.mp hother]
  eq_ofRunes := .inr ⟨literal, mem_singleton_self _, rfl⟩

/-- The loop keeps the longest text so far. -/
theorem IsLongest.append {literals literals' : List (List ℕ × Bool)} {longest text : GoString}
    (h : IsLongest literals longest) (h' : IsLongest literals' text) :
    IsLongest (literals ++ literals') (if longest.length < text.length then text else longest) where
  length_le := by
    intro literal hliteral
    rcases mem_append.mp hliteral with hl | hl
    · have hle := h.length_le literal hl
      split_ifs with hlt
      · exact hle.trans hlt.le
      · exact hle
    · have hle := h'.length_le literal hl
      split_ifs with hlt
      · exact hle
      · exact hle.trans (not_lt.mp hlt)
  eq_ofRunes := by
    split_ifs
    · refine h'.eq_ofRunes.imp id ?_
      rintro ⟨literal, hl, heq⟩
      exact ⟨literal, mem_append_right _ hl, heq⟩
    · refine h.eq_ofRunes.imp id ?_
      rintro ⟨literal, hl, heq⟩
      exact ⟨literal, mem_append_left _ hl, heq⟩

/-- **The longest literal is one of those that all matches contain.** The
induction is on the tree; the parts of a concatenation are appended to what
the loop has seen. -/
theorem isLongest_longestLiteral (re : Re) : IsLongest (guaranteed re) (longestLiteral re) := by
  have hnone : IsLongest [] [] := .nil
  refine @Re.rec (fun re => IsLongest (guaranteed re) (longestLiteral re))
    (fun subs => ∀ seen longest, IsLongest seen longest →
      IsLongest (seen ++ guaranteedAll subs) (longestLiteralOf longest subs))
    hnone hnone ?literal (fun _ => hnone) hnone hnone hnone hnone hnone hnone hnone hnone
    (fun _ ih => ih) (fun _ _ => hnone) (fun _ ih => ih) (fun _ _ => hnone) ?repeated ?concat
    (fun _ _ => hnone) ?nil ?cons re
  case literal =>
    intro runes foldCase
    exact .singleton (runes, foldCase)
  case repeated =>
    intro min max sub ih
    show IsLongest (if 1 ≤ min then guaranteed sub else [])
      (if 1 ≤ min then longestLiteral sub else [])
    split_ifs
    · exact ih
    · exact hnone
  case concat =>
    intro subs ih
    exact ih [] [] .nil
  case nil =>
    intro seen longest h
    rw [guaranteedAll, append_nil]
    exact h
  case cons =>
    intro sub subs ih ihs seen longest h
    rw [guaranteedAll, ← append_assoc]
    exact ihs _ _ (h.append ih)

/-! ## Matches that are found -/

/-- **The longest literals are plain**: no rune of them has another case if
case is ignored, or is the error rune. -/
def LongestArePlain (simpleFold : SimpleFold) (literals : List (List ℕ × Bool)) : Prop :=
  ∀ literal ∈ literals,
    (∀ other ∈ literals, (ofRunes other.1).length ≤ (ofRunes literal.1).length) →
    IsPlain simpleFold literal

/-- The text is part of all texts that the tree matches. -/
theorem infix_of_longestArePlain {simpleFold : SimpleFold} {re : Re} {text : GoString}
    (hplain : LongestArePlain simpleFold (guaranteed re))
    (h : MatchesIn simpleFold re (chars text)) : longestLiteral re <:+: text := by
  have hlongest := isLongest_longestLiteral re
  obtain hnil | ⟨literal, hliteral, heq⟩ := hlongest.eq_ofRunes
  · rw [hnil]
    exact nil_infix
  · rw [heq]
    refine h.ofRunes_infix hliteral (hplain literal hliteral fun other hother => ?_)
    rw [← heq]
    exact hlongest.length_le other hother

section

variable {lib : SyntaxLib} {p : PatternInfo} {rg : ReaderGrep} {re : Regexp}

theorem exists_of_compile (h : compile lib p = .ok rg) (hre : rg.re = some re) :
    ∃ expr, transformedExpr lib p = .ok expr ∧ lib.compile expr = .ok re ∧
      literalSubstring lib expr = .ok rg.literalSubstring ∧
      rg.ignoreCase = !p.isCaseSensitive := by
  obtain ⟨found, hfound, hrest⟩ := Except.exists_of_bind h
  obtain ⟨matchPath, -, rfl⟩ := Except.exists_of_map hrest
  unfold compilePattern at hfound
  split_ifs at hfound with hempty
  · rw [← Except.ok.inj hfound] at hre
    exact absurd hre nofun
  · obtain ⟨expr, hexpr, hfound⟩ := Except.exists_of_bind hfound
    obtain ⟨re', hre', hfound⟩ := Except.exists_of_bind hfound
    obtain ⟨literal, hliteral, rfl⟩ := Except.exists_of_map hfound
    obtain rfl := Option.some.inj hre
    exact ⟨expr, hexpr, hre', hliteral, rfl⟩

variable (lib p) in
/-- **The literals of the pattern are plain**, if a literal is looked for at
all. -/
def PlainPattern : Prop :=
  ∀ expr ast, transformedExpr lib p = .ok expr → lib.parse expr = .ok ast →
    lib.literalPrefix expr = [] → LongestArePlain lib.simpleFold (guaranteed (lib.simplify ast))

variable (lib p) in
/-- The pattern is a literal after an expression such as a class: it has no
literal, and matches a character of ASCII that the literal does not begin with. The
engine knows no text that the matches begin with. -/
structure IsPrecededLiteral (first : Re) (literal : List ℕ × Bool) : Prop where
  tree : ∃ expr ast, transformedExpr lib p = .ok expr ∧ lib.parse expr = .ok ast ∧
    lib.literalPrefix expr = [] ∧
      lib.simplify ast = .concat [first, .literal literal.1 literal.2]
  isScalar : ∀ r ∈ literal.1, IsScalar r
  guaranteed_eq_nil : guaranteed first = []
  matchesOther : ∃ c < 0x80, literal.1.head? ≠ some c ∧
    ∀ after, Matches lib.simpleFold first [] [Char.ofNat c] after

theorem infix_of_plainPattern (h : compile lib p = .ok rg) (hre : rg.re = some re)
    (hplain : PlainPattern lib p) {f : SrcFile} (hmatch : re.matchString (rg.matchBuf f) = true) :
    rg.literalSubstring <:+: rg.matchBuf f := by
  obtain ⟨expr, hexpr, hcompiled, hliteral, -⟩ := exists_of_compile h hre
  unfold literalSubstring at hliteral
  split_ifs at hliteral with hnone
  · obtain ⟨ast, hast, heq⟩ := Except.exists_of_map hliteral
    rw [← heq]
    refine infix_of_longestArePlain (hplain expr ast hexpr hast hnone) ?_
    rw [lib.matchesIn_simplify]
    exact (lib.matchString_compile hcompiled hast _).mp hmatch
  · rw [← Except.ok.inj hliteral]
    exact nil_infix

/-- **A literal after a class, which is not plain, has a text with a match that is
skipped.** -/
theorem plainPattern_of_forall (h : compile lib p = .ok rg) (hre : rg.re = some re)
    (hcase : p.isCaseSensitive = true) {first : Re} {literal : List ℕ × Bool}
    (hliteral : IsPrecededLiteral lib p first literal)
    (hfound : ∀ f, re.matchString (rg.matchBuf f) = true →
      rg.literalSubstring <:+: rg.matchBuf f) : PlainPattern lib p := by
  obtain ⟨expr, hexpr, hcompiled, hsubstring, hignore⟩ := exists_of_compile h hre
  obtain ⟨⟨expr', ast, hexpr', hast, hnone, htree⟩, hscalar, hempty, c, hc, hhead, hmatches⟩ :=
    hliteral
  obtain rfl := Except.ok.inj (hexpr.symm.trans hexpr')
  rw [literalSubstring, if_pos hnone, hast] at hsubstring
  have heq : longestLiteral (lib.simplify ast) = rg.literalSubstring := Except.ok.inj hsubstring
  have hguaranteed : guaranteed (lib.simplify ast) = [literal] := by
    rw [htree, guaranteed, guaranteedAll, hempty, guaranteedAll, guaranteed, guaranteedAll]
    rfl
  have hlongest := isLongest_longestLiteral (lib.simplify ast)
  rw [hguaranteed, heq] at hlongest
  intro expr' ast' hexpr' hast' _
  obtain rfl := Except.ok.inj (hexpr.symm.trans hexpr')
  obtain rfl := Except.ok.inj (hast.symm.trans hast')
  rw [hguaranteed]
  intro other hother _
  rw [mem_singleton.mp hother]
  by_contra hnot
  obtain ⟨text, hmatch, hskipped⟩ :=
    exists_text_of_not_isPlain hc hscalar lib.isScalar_simpleFold hhead hnot
  have hbuf : rg.matchBuf ⟨[], .ofNat c :: text⟩ = .ofNat c :: text := by
    rw [ReaderGrep.matchBuf, hignore, hcase]
    rfl
  have hcontained := hfound ⟨[], .ofNat c :: text⟩
  rw [hbuf] at hcontained
  have hwithin := hcontained ((lib.matchString_compile hcompiled hast _).mpr ?_)
  · obtain hnil | ⟨other, hother, hother'⟩ := hlongest.eq_ofRunes
    · -- the text of the literal is not longer
      have hle := hlongest.length_le literal (mem_singleton_self _)
      rw [hnil] at hle
      rw [length_eq_zero_iff.mp (Nat.le_zero.mp hle)] at hskipped
      exact hskipped nil_infix
    · rw [hother', mem_singleton.mp hother] at hwithin
      exact hskipped hwithin
  · rw [← lib.matchesIn_simplify, htree, chars_cons hc]
    refine ⟨[], [Char.ofNat c] ++ (chars text ++ []), [], by simp,
      .concat (.cons ?_ (.cons ?_ .nil))⟩
    · exact hmatches _
    · exact .literal hmatch

end

/-! ## Patterns with literals -/

/-- `unicode.SimpleFold` on the letters of ASCII but `K` and `S`. -/
def foldASCII (r : ℕ) : ℕ :=
  if 65 ≤ r ∧ r ≤ 90 then r + 32 else if 97 ≤ r ∧ r ≤ 122 then r - 32 else r

theorem isScalar_foldASCII (r : ℕ) (h : IsScalar r) : IsScalar (foldASCII r) := by
  unfold foldASCII
  split_ifs with hupper hlower
  · exact isScalar_of_lt (by omega)
  · exact isScalar_of_lt (by omega)
  · exact h

open Classical in
/-- An engine that finds the first match of a text which is a match as a
whole. -/
noncomputable def wholeText (ast : Re) : Regexp where
  matchString text := decide (MatchesIn foldASCII ast (chars text))
  findAllIndex text n :=
    if MatchesIn foldASCII ast (chars text) then [(0, text.length)].take n else []
  findAllIndex_eq_nil := by
    intro text n hn
    obtain ⟨k, rfl⟩ := Nat.exists_eq_succ_of_ne_zero hn.ne'
    rw [decide_eq_false_iff_not]
    split_ifs with h
    · exact iff_of_false nofun (not_not.mpr h)
    · exact iff_of_true rfl h
  length_findAllIndex := by
    intro text n
    split_ifs
    · exact (List.length_take_le' _ _).trans (Nat.le_add_left 1 _)
    · exact Nat.zero_le _

theorem matchString_wholeText (ast : Re) (text : GoString) :
    (wholeText ast).matchString text = true ↔ MatchesIn foldASCII ast (chars text) :=
  @decide_eq_true_iff _ (Classical.propDecidable _)

/-- The tree of `[0-9]`. -/
def digit : Re := .charClass [⟨48, 57, by decide⟩]

/-- The tree of `[0-9]foo`. -/
def digitFooTree : Re := .concat [digit, .literal [102, 111, 111] false]

/-- The tree of `[0-9][Ff]`: the parser makes a literal of the second class, which
ignores case and is in upper case. -/
def digitFoldTree : Re := .concat [digit, .literal [70] true]

/-- `syntax.Parse`, on two expressions and on what they are printed as. -/
def parseDigit (expr : GoString) : Except GoString Re :=
  if expr = lit "(?m:[0-9]foo)" ∨ expr = lit "[0-9]foo" then .ok digitFooTree
  else if expr = lit "(?m:[0-9][Ff])" ∨ expr = lit "[0-9](?i:F)" then .ok digitFoldTree
  else .error (lit "unexpected expression")

/-- `String`, on their trees. -/
def printDigit : Re → GoString
  | .concat [_, .literal _ true] => lit "[0-9](?i:F)"
  | _ => lit "[0-9]foo"

/-- The packages, on the expressions `[0-9]foo` and `[0-9][Ff]`. Neither has a
text that all matches begin with. -/
noncomputable def digitLib : SyntaxLib where
  simpleFold := foldASCII
  toLower r := if 65 ≤ r ∧ r ≤ 90 then r + 32 else r
  parse := parseDigit
  optimizeRegexp re := re
  print := printDigit
  simplify re := re
  compile expr := (parseDigit expr).map wholeText
  literalPrefix _ := []
  isScalar_simpleFold := isScalar_foldASCII
  matchesIn_simplify _ _ := Iff.rfl
  matchString_compile := by
    intro expr re ast hre hast text
    rw [hast] at hre
    obtain rfl := Except.ok.inj hre
    exact matchString_wholeText ast text

/-- An expression, with case sensitive matches in all files. -/
def exprPattern (pattern : GoString) : PatternInfo where
  pattern := pattern
  isRegExp := true
  isWordMatch := false
  isCaseSensitive := true
  excludePattern := []
  includePatterns := []
  pathPatternsAreCaseSensitive := true

/-- What it is compiled to. -/
noncomputable def exprGrep (tree : Re) : ReaderGrep :=
  ⟨some (wholeText tree), false, ⟨[], none⟩, longestLiteral tree⟩

theorem compile_digitFoo :
    compile digitLib (exprPattern (lit "[0-9]foo")) = .ok (exprGrep digitFooTree) :=
  rfl

theorem compile_digitFold :
    compile digitLib (exprPattern (lit "[0-9][Ff]")) = .ok (exprGrep digitFoldTree) :=
  rfl

theorem matches_digit (after : List Char) : Matches foldASCII digit [] ['1'] after :=
  .charClass ⟨_, mem_singleton_self _, by decide, by decide⟩

theorem matchesIn_digitFoo : MatchesIn foldASCII digitFooTree (chars (lit "1foo")) := by
  refine ⟨[], ['1'] ++ (['f', 'o', 'o'] ++ []), [], rfl, .concat (.cons (matches_digit _) ?_)⟩
  exact .cons (.literal (.cons (.inl rfl) (.cons (.inl rfl) (.cons (.inl rfl) .nil)))) .nil

theorem matchesIn_digitFold : MatchesIn foldASCII digitFoldTree (chars (lit "1f")) := by
  refine ⟨[], ['1'] ++ (['f'] ++ []), [], rfl, .concat (.cons (matches_digit _) ?_)⟩
  exact .cons (.literal (.cons (.inr ⟨rfl, 1, rfl⟩) .nil)) .nil

end Searcher
