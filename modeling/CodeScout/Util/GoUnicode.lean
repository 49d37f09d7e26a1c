import CodeScout.Util.GoString
import Mathlib.Data.Nat.Notation

/-!
# Runes of Go strings

A program that reads a string rune by rune decodes it as UTF-8. A byte that
starts no valid encoding is decoded as the error rune and has width one, so
that decoding always makes progress.
-/

/-- `utf8.RuneError`. -/
def runeError : ℕ := 0xFFFD

/-- A byte that continues an encoding. -/
def isContinuation (b : UInt8) : Bool :=
  0x80 ≤ b && b ≤ 0xBF

/-- A byte that may come second in an encoding; overlong encodings and
surrogates are excluded. -/
def isSecond (b₀ b₁ : UInt8) : Bool :=
  (if b₀ = 0xE0 then 0xA0 else if b₀ = 0xF0 then 0x90 else 0x80) ≤ b₁
    && b₁ ≤ (if b₀ = 0xED then 0x9F else if b₀ = 0xF4 then 0x8F else 0xBF)

/-- The rune with the given leading part, followed by a continuation. -/
def continueRune (r : ℕ) (b : UInt8) : ℕ :=
  r * 64 + b.toNat % 64

/-- `utf8.DecodeRune`: the first rune of a string and its width. -/
def decodeRune : GoString → ℕ × ℕ
  | [] => (runeError, 0)
  | b₀ :: rest =>
    if b₀ < 0x80 then (b₀.toNat, 1)
    else if b₀ < 0xC2 then (runeError, 1)
    else match rest with
      | [] => (runeError, 1)
      | b₁ :: rest =>
        if !isSecond b₀ b₁ then (runeError, 1)
        else if b₀ < 0xE0 then (continueRune (b₀.toNat % 32) b₁, 2)
        else match rest with
          | [] => (runeError, 1)
          | b₂ :: rest =>
            if !isContinuation b₂ then (runeError, 1)
            else if b₀ < 0xF0 then (continueRune (continueRune (b₀.toNat % 16) b₁) b₂, 3)
            else match rest with
              | [] => (runeError, 1)
              | b₃ :: _ =>
                if 0xF4 < b₀ || !isContinuation b₃ then (runeError, 1)
                else
                  (continueRune (continueRune (continueRune (b₀.toNat % 8) b₁) b₂) b₃, 4)

/-- **Decoding makes progress** and stays within the string. -/
theorem decodeRune_width {s : GoString} (h : s ≠ []) :
    1 ≤ (decodeRune s).2 ∧ (decodeRune s).2 ≤ s.length := by
  unfold decodeRune
  repeat' split
  all_goals
    first
    | exact absurd rfl h
    | exact ⟨by dsimp only; omega, by simp only [List.length_cons]; omega⟩

/-- A decoded rune: its code point and the number of bytes it was read
from. -/
structure Rune where
  value : ℕ
  width : ℕ
deriving DecidableEq, Repr

/-- The runes of a string, at most `fuel` of them. -/
def runesUpTo : ℕ → GoString → List Rune
  | 0, _ => []
  | _ + 1, [] => []
  | fuel + 1, b :: s =>
    let (value, width) := decodeRune (b :: s)
    ⟨value, width⟩ :: runesUpTo fuel ((b :: s).drop width)

/-- **The runes of a string**, as they are read from its start one by one. -/
def runes (s : GoString) : List Rune :=
  runesUpTo s.length s

theorem runesUpTo_congr (fuel : ℕ) : ∀ {fuel' : ℕ} {s : GoString}, s.length ≤ fuel →
    s.length ≤ fuel' → runesUpTo fuel s = runesUpTo fuel' s := by
  induction fuel with
  | zero =>
    intro fuel' s hs _
    rw [List.length_eq_zero_iff.mp (Nat.le_zero.mp hs)]
    cases fuel' <;> rfl
  | succ fuel ih =>
    intro fuel' s hs hs'
    match fuel', s with
    | 0, s =>
      rw [List.length_eq_zero_iff.mp (Nat.le_zero.mp hs')]
      rfl
    | _ + 1, [] => rfl
    | fuel' + 1, b :: s =>
      have hwidth := decodeRune_width (List.cons_ne_nil b s)
      have hrest : ((b :: s).drop (decodeRune (b :: s)).2).length ≤ s.length := by
        rw [List.length_drop, List.length_cons]
        omega
      exact congrArg _ (ih (Nat.le_trans hrest (Nat.le_of_succ_le_succ hs))
        (Nat.le_trans hrest (Nat.le_of_succ_le_succ hs')))

theorem runes_of_ne_nil {s : GoString} (h : s ≠ []) :
    runes s = ⟨(decodeRune s).1, (decodeRune s).2⟩ :: runes (s.drop (decodeRune s).2) := by
  match s with
  | [] => exact absurd rfl h
  | b :: s =>
    have hwidth := decodeRune_width h
    have hrest : ((b :: s).drop (decodeRune (b :: s)).2).length ≤ s.length := by
      rw [List.length_drop, List.length_cons]
      omega
    exact congrArg _ (runesUpTo_congr _ hrest (Nat.le_refl _))

/-- The UTF-8 encoding of a rune; what is not a rune is encoded as the error
rune. -/
def encodeRune (r : ℕ) : GoString :=
  if r < 0x80 then [.ofNat r]
  else if r < 0x800 then [.ofNat (0xC0 + r / 64), .ofNat (0x80 + r % 64)]
  else if 0x10FFFF < r || (0xD800 ≤ r && r ≤ 0xDFFF) then [0xEF, 0xBF, 0xBD]
  else if r < 0x10000 then
    [.ofNat (0xE0 + r / 4096), .ofNat (0x80 + r / 64 % 64), .ofNat (0x80 + r % 64)]
  else
    [.ofNat (0xF0 + r / 262144), .ofNat (0x80 + r / 4096 % 64), .ofNat (0x80 + r / 64 % 64),
      .ofNat (0x80 + r % 64)]

/-- The conversion of runes to a string. -/
def ofRunes (rs : List ℕ) : GoString :=
  rs.flatMap encodeRune

/-- `unicode.IsSpace`. -/
def isSpace (r : ℕ) : Bool :=
  [0x09, 0x0A, 0x0B, 0x0C, 0x0D, 0x20, 0x85, 0xA0, 0x1680, 0x2028, 0x2029, 0x202F, 0x205F,
    0x3000].contains r || decide (0x2000 ≤ r ∧ r ≤ 0x200A)

/-- `strings.TrimLeftFunc` of spaces, with the length of the string as a
bound on the number of steps. -/
def trimLeftSpace : ℕ → GoString → GoString
  | 0, s => s
  | fuel + 1, s =>
    let (r, width) := decodeRune s
    if width ≠ 0 ∧ isSpace r then trimLeftSpace fuel (s.drop width) else s

/-- The width of the space that ends a string, if it ends with one. The
encodings of spaces have at most three bytes. -/
def spaceSuffix (s : GoString) : Option ℕ :=
  [1, 2, 3].find? fun width => decide (width ≤ s.length)
    && (let (r, width') := decodeRune (s.drop (s.length - width)); width' == width && isSpace r)

/-- `strings.TrimRightFunc` of spaces. -/
def trimRightSpace : ℕ → GoString → GoString
  | 0, s => s
  | fuel + 1, s =>
    match spaceSuffix s with
    | none => s
    | some width => trimRightSpace fuel (s.take (s.length - width))

/-- `strings.TrimSpace`. -/
def trimSpace (s : GoString) : GoString :=
  trimRightSpace s.length (trimLeftSpace s.length s)

example : trimSpace (lit "\t a b  　") = lit "a b" := by decide +kernel
