import CodeScout.Util.GoUnicode

/-!
# Quoted strings

`strconv.Quote` writes a string as a Go literal: between double quotes, with
quotes, backslashes and what is not printable escaped. Which runes outside
of ASCII are printable is up to the tables of `strconv`, and a parameter
here.
-/

/-- A hexadecimal digit. -/
def hexDigit (d : ℕ) : UInt8 :=
  .ofNat (if d < 10 then 48 + d else 87 + d)

/-- The last `width` hexadecimal digits of a number. -/
def formatHex : ℕ → ℕ → GoString
  | 0, _ => []
  | width + 1, n => formatHex width (n / 16) ++ [hexDigit (n % 16)]

/-- An ASCII rune that is printable. -/
def isPrintAscii (r : ℕ) : Bool :=
  32 ≤ r && r < 127

/-- The escape sequences of one letter, by the rune they stand for. -/
def letterEscape (r : ℕ) : Option GoString :=
  [(7, lit "\\a"), (8, lit "\\b"), (12, lit "\\f"), (10, lit "\\n"), (13, lit "\\r"),
    (9, lit "\\t"), (11, lit "\\v")].lookup r

/-- `appendEscapedRune` for a rune between double quotes. -/
def escapeRune (isPrint : ℕ → Bool) (r : ℕ) : GoString :=
  if r = 34 ∨ r = 92 then 92 :: encodeRune r
  else if isPrintAscii r || (decide (0x80 ≤ r) && isPrint r) then encodeRune r
  else match letterEscape r with
    | some text => text
    | none =>
      if r < 32 ∨ r = 127 then lit "\\x" ++ formatHex 2 r
      else if 0x10FFFF < r ∨ (0xD800 ≤ r ∧ r ≤ 0xDFFF) then lit "\\u" ++ formatHex 4 runeError
      else if r < 0x10000 then lit "\\u" ++ formatHex 4 r
      else lit "\\U" ++ formatHex 8 r

/-- The text between the quotes, for at most `fuel` runes. A byte that is
not part of an encoding is written as such. -/
def escapeUpTo (isPrint : ℕ → Bool) : ℕ → GoString → GoString
  | 0, _ => []
  | _ + 1, [] => []
  | fuel + 1, b :: s =>
    let (r, width) := decodeRune (b :: s)
    (if width = 1 ∧ r = runeError then lit "\\x" ++ formatHex 2 b.toNat else escapeRune isPrint r)
      ++ escapeUpTo isPrint fuel ((b :: s).drop width)

/-- **`strconv.Quote`.** -/
def quote (isPrint : ℕ → Bool) (s : GoString) : GoString :=
  34 :: (escapeUpTo isPrint s.length s ++ [34])

example : quote (fun _ => false) (lit "a\"b\nx") = lit "\"a\\\"b\\nx\"" := by
  decide +kernel
