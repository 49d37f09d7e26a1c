import CodeScout.Util.GoStrconv
import CodeScout.Util.Wildcard
import Mathlib

/-!
# Glob patterns

A library for glob patterns over names with `/` as separator, of which one
thing is known: a pattern that ends with the separator, outside of braces, stands
only for names that do. In the library `stars`, for examples, `**` stands for any
text, `*` for any text within a directory and everything else for itself.
-/

open Wildcard

namespace Glob

/-- `/` -/
def separator : UInt8 := 47

/-- `*` -/
def asterisk : UInt8 := 42

/-- The opening brace. -/
def openBrace : UInt8 := 123

/-- The other characters that mean something to the library. -/
def isSpecial (c : UInt8) : Bool :=
  c == 63 || c == 91 || c == 93 || c == 123 || c == 125 || c == 92

/-- The pieces of a pattern. -/
def pieces : GoString → List (Piece UInt8)
  | [] => []
  | 42 :: 42 :: pattern => .any :: pieces pattern
  | 42 :: pattern => .gap (· != separator) :: pieces pattern
  | c :: pattern => .letter (c == ·) :: pieces pattern

/-- A pattern without other syntax than asterisks. -/
def isPlain (pattern : GoString) : Bool :=
  pattern.all fun c => !isSpecial c

/-- How many braces are open at the end of a pattern. A closing brace that closes
none is a character like others. -/
def braceLevel (pattern : GoString) : ℕ :=
  pattern.foldl (fun level c =>
    if c = openBrace then level + 1 else if c = 125 then level - 1 else level) 0

/-- What follows the pattern is not within braces: there are none, or all are closed
and none is escaped or in brackets. -/
def closesBraces (pattern : GoString) : Bool :=
  !pattern.contains openBrace ||
    !pattern.contains 91 && !pattern.contains 92 && braceLevel pattern == 0

/-- The library. -/
structure Lib where
  compile : GoString → Except GoString (GoString → Bool)
  trailing : ∀ {pattern glob name}, compile (pattern ++ [separator]) = .ok glob →
    closesBraces pattern = true → glob name = true → name.getLast? = some separator

theorem pieces_asterisk {pattern : GoString} (h : pattern.head? ≠ some asterisk) :
    pieces (asterisk :: pattern) = .gap (· != separator) :: pieces pattern :=
  pieces.eq_3 pattern fun _ hpattern => h (hpattern ▸ rfl)

theorem pieces_of_ne {c : UInt8} (h : c ≠ asterisk) (pattern : GoString) :
    pieces (c :: pattern) = .letter (c == ·) :: pieces pattern :=
  pieces.eq_4 c pattern (fun _ hc => absurd hc h) h

theorem pieces_append {c : UInt8} (hc : c ≠ asterisk) (pattern rest : GoString) :
    pieces (pattern ++ c :: rest) = pieces pattern ++ pieces (c :: rest) := by
  fun_induction pieces pattern with
  | case1 => rfl
  | case2 pattern ih => exact congrArg _ ih
  | case3 pattern hne ih =>
    have hhead : (pattern ++ c :: rest).head? ≠ some asterisk := by
      cases pattern with
      | nil => exact fun h => hc (Option.some.inj h)
      | cons b pattern => exact fun h => hne pattern (congrArg (· :: pattern) (Option.some.inj h))
    exact (pieces_asterisk hhead).trans (congrArg _ ih)
  | case4 b pattern hne hb ih => exact (pieces_of_ne hb _).trans (congrArg _ ih)

/-- The library with no other syntax. -/
def stars : Lib where
  compile pattern :=
    if isPlain pattern then .ok (matchPieces (pieces pattern))
    else .error (lit "not a plain pattern")
  trailing := by
    intro pattern glob name hcompile _ hname
    split_ifs at hcompile
    obtain rfl := Except.ok.inj hcompile
    rw [pieces_append (by decide), matchPieces_append] at hname
    obtain ⟨u, v, rfl, -, hv⟩ := hname
    obtain ⟨c, rfl, hc⟩ := matchPieces_letter.mp hv
    rw [List.getLast?_concat, ← beq_iff_eq.mp hc]

end Glob
