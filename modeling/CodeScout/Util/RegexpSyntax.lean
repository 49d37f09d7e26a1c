import Mathlib

/-!
# Syntax trees of regular expressions

The trees that Go's `regexp/syntax` package parses expressions to, and what
they match. A match is a part of a text, and whether there is one depends on
what comes before and after it: `Matches re before m after` says that `re`
matches `m` there.

Texts are lists of characters. The runes of an expression are numbers: an
expression may have runes that are no characters.
-/

namespace RegexpSyntax

/-- A rune matches itself and, if case is ignored, what it folds to. The
argument is `unicode.SimpleFold`, which leads through the runes that are equal
but for case. -/
abbrev SimpleFold := ℕ → ℕ

/-- A range of runes in a class. -/
structure CharRange where
  lo : ℕ
  hi : ℕ
  le : lo ≤ hi
  deriving DecidableEq

inductive Re where
  | noMatch
  | emptyMatch
  | literal (runes : List ℕ) (foldCase : Bool)
  | charClass (ranges : List CharRange)
  | anyCharNotNL
  | anyChar
  | beginLine
  | endLine
  | beginText
  | endText
  | wordBoundary
  | noWordBoundary
  | capture (sub : Re)
  | star (sub : Re)
  | plus (sub : Re)
  | quest (sub : Re)
  /-- At least `min` and, if `max` is given, at most `max` times. -/
  | repeated (min : ℕ) (max : Option ℕ) (sub : Re)
  | concat (subs : List Re)
  | alternate (subs : List Re)

/-- A rune of a literal matches a character. -/
def RuneMatches (simpleFold : SimpleFold) (foldCase : Bool) (rune : ℕ) (c : Char) : Prop :=
  c.toNat = rune ∨ foldCase = true ∧ ∃ n, simpleFold^[n] rune = c.toNat

def isWordChar (c : Char) : Bool :=
  c.isAlphanum || c == '_'

/-- Whether there is a word character on exactly one side. -/
def atWordBoundary (before after : List Char) : Bool :=
  (before.getLast?.elim false isWordChar) != (after.head?.elim false isWordChar)

mutual

/-- What an expression matches, between what comes before and after. -/
inductive Matches (simpleFold : SimpleFold) : Re → List Char → List Char → List Char → Prop where
  | emptyMatch {before after} : Matches simpleFold .emptyMatch before [] after
  | literal {runes foldCase m before after}
    (h : List.Forall₂ (RuneMatches simpleFold foldCase) runes m) :
    Matches simpleFold (.literal runes foldCase) before m after
  | charClass {ranges c before after}
    (h : ∃ range ∈ ranges, range.lo ≤ c.toNat ∧ c.toNat ≤ range.hi) :
    Matches simpleFold (.charClass ranges) before [c] after
  | anyCharNotNL {c before after} (h : c ≠ '\n') :
    Matches simpleFold .anyCharNotNL before [c] after
  | anyChar {c before after} : Matches simpleFold .anyChar before [c] after
  | beginLine {before after} (h : before = [] ∨ before.getLast? = some '\n') :
    Matches simpleFold .beginLine before [] after
  | endLine {before after} (h : after = [] ∨ after.head? = some '\n') :
    Matches simpleFold .endLine before [] after
  | beginText {after} : Matches simpleFold .beginText [] [] after
  | endText {before} : Matches simpleFold .endText before [] []
  | wordBoundary {before after} (h : atWordBoundary before after = true) :
    Matches simpleFold .wordBoundary before [] after
  | noWordBoundary {before after} (h : atWordBoundary before after = false) :
    Matches simpleFold .noWordBoundary before [] after
  | capture {sub before m after} (h : Matches simpleFold sub before m after) :
    Matches simpleFold (.capture sub) before m after
  | star {sub before m after} (n : ℕ)
    (h : MatchesAll simpleFold (List.replicate n sub) before m after) :
    Matches simpleFold (.star sub) before m after
  | plus {sub before m after} (n : ℕ)
    (h : MatchesAll simpleFold (List.replicate (n + 1) sub) before m after) :
    Matches simpleFold (.plus sub) before m after
  | quest {sub before m after} (n : ℕ) (hn : n ≤ 1)
    (h : MatchesAll simpleFold (List.replicate n sub) before m after) :
    Matches simpleFold (.quest sub) before m after
  | repeated {min max sub before m after} (n : ℕ) (hmin : min ≤ n) (hmax : ∀ k ∈ max, n ≤ k)
    (h : MatchesAll simpleFold (List.replicate n sub) before m after) :
    Matches simpleFold (.repeated min max sub) before m after
  | concat {subs before m after} (h : MatchesAll simpleFold subs before m after) :
    Matches simpleFold (.concat subs) before m after
  | alternate {subs sub before m after} (hsub : sub ∈ subs)
    (h : Matches simpleFold sub before m after) :
    Matches simpleFold (.alternate subs) before m after

/-- What a sequence of expressions matches. -/
inductive MatchesAll (simpleFold : SimpleFold) :
    List Re → List Char → List Char → List Char → Prop where
  | nil {before after} : MatchesAll simpleFold [] before [] after
  | cons {re res before m₁ m₂ after} (h : Matches simpleFold re before m₁ (m₂ ++ after))
    (hs : MatchesAll simpleFold res (before ++ m₁) m₂ after) :
    MatchesAll simpleFold (re :: res) before (m₁ ++ m₂) after

end

/-- **The expression matches somewhere in a text.** -/
def MatchesIn (simpleFold : SimpleFold) (re : Re) (text : List Char) : Prop :=
  ∃ before m after, text = before ++ m ++ after ∧ Matches simpleFold re before m after

end RegexpSyntax
