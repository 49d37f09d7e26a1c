import CodeScout.Util.GoString
import Mathlib

/-!
# Varints

The variable-length encoding of integers of `encoding/binary`: seven bits in
each byte, the low ones first, and the high bit set in every byte but the
last. A signed number is encoded as an unsigned one that has the sign in its
lowest bit. A `uint64` is a natural number below `2 ^ 64` here, and an
`int64` an integer from `-2 ^ 63` on and below `2 ^ 63`.

Reading what was written returns the number and leaves the bytes after it
(`readVarint_appendVarint`).
-/

/-! ## Writing -/

/-- The loop of `binary.AppendUvarint`, with a bound on the number of bytes
that follow. -/
def appendUvarintUpTo : ℕ → ℕ → GoString
  | 0, x => [.ofNat x]
  | bound + 1, x =>
    if x < 0x80 then [.ofNat x]
    else (.ofNat x ||| 0x80) :: appendUvarintUpTo bound (x >>> 7)

/-- **`binary.AppendUvarint`**: what is appended. Ten bytes are enough for 64
bits. -/
def appendUvarint (x : ℕ) : GoString :=
  appendUvarintUpTo 9 x

/-- The unsigned number that stands for a signed one. -/
def zigzag (x : ℤ) : ℕ :=
  let ux := (x % 2 ^ 64).toNat <<< 1 % 2 ^ 64
  if x < 0 then 2 ^ 64 - 1 - ux else ux

/-- **`binary.AppendVarint`**: what is appended. -/
def appendVarint (x : ℤ) : GoString :=
  appendUvarint (zigzag x)

/-! ## Reading -/

/-- The errors of `binary.ReadUvarint`. -/
inductive ReadError
  | eof
  | unexpectedEOF
  | overflow
deriving DecidableEq, Repr

/-- The text of an error. -/
def ReadError.message : ReadError → GoString
  | eof => lit "EOF"
  | unexpectedEOF => lit "unexpected EOF"
  | overflow => lit "binary: varint overflows a 64-bit integer"

/-- The loop of `binary.ReadUvarint`, with its variables `i`, `x` and `s`. -/
def readUvarintFrom (i x s : ℕ) : GoString → Except ReadError (ℕ × GoString)
  | [] =>
    if 10 ≤ i then .error .overflow
    else if 0 < i then .error .unexpectedEOF
    else .error .eof
  | b :: r =>
    if 10 ≤ i then .error .overflow
    else if b < 0x80 then
      if i = 9 ∧ 1 < b then .error .overflow
      else .ok (x ||| b.toNat <<< s % 2 ^ 64, r)
    else readUvarintFrom (i + 1) (x ||| (b.toNat &&& 0x7F) <<< s % 2 ^ 64) (s + 7) r

/-- **`binary.ReadUvarint`**: the number, and the bytes that are left. -/
def readUvarint (r : GoString) : Except ReadError (ℕ × GoString) :=
  readUvarintFrom 0 0 0 r

/-- The signed number that an unsigned one stands for. -/
def unzigzag (ux : ℕ) : ℤ :=
  let x : ℤ := ux >>> 1
  if ux &&& 1 ≠ 0 then -x - 1 else x

/-- **`binary.ReadVarint`.** -/
def readVarint (r : GoString) : Except ReadError (ℤ × GoString) :=
  match readUvarint r with
  | .ok (ux, r) => .ok (unzigzag ux, r)
  | .error e => .error e

/-! ## Round trips -/

theorem unzigzag_zigzag {x : ℤ} (hle : -2 ^ 63 ≤ x) (hlt : x < 2 ^ 63) :
    unzigzag (zigzag x) = x := by
  rw [unzigzag, zigzag]
  simp only [Nat.shiftRight_eq_div_pow, Nat.shiftLeft_eq, Nat.and_one_is_mod]
  split_ifs <;> omega

theorem zigzag_lt (x : ℤ) : zigzag x < 2 ^ 64 := by
  rw [zigzag]
  simp only [Nat.shiftLeft_eq]
  split_ifs <;> omega

theorem or_shiftLeft {x y s : ℕ} (hx : x < 2 ^ s) (hy : y * 2 ^ s < 2 ^ 64) :
    x ||| y <<< s % 2 ^ 64 = x + y * 2 ^ s := by
  rw [Nat.shiftLeft_eq, Nat.mod_eq_of_lt hy, Nat.or_comm, Nat.mul_comm y,
    ← Nat.two_pow_add_eq_or_of_lt hx y, Nat.add_comm]

theorem continued_byte (x : ℕ) :
    ¬(UInt8.ofNat x ||| 0x80) < 0x80 ∧ (UInt8.ofNat x ||| 0x80).toNat &&& 0x7F = x % 128 := by
  have hbytes : ∀ b : Fin 256, ¬(UInt8.ofNat b ||| 0x80) < 0x80
      ∧ (UInt8.ofNat b ||| 0x80).toNat &&& 0x7F = b.val % 128 := by
    decide +kernel
  have hx : UInt8.ofNat x = UInt8.ofNat (x % 256) := by
    rw [← UInt8.toNat_inj, UInt8.toNat_ofNat', UInt8.toNat_ofNat', Nat.mod_mod]
  have h := hbytes ⟨x % 256, Nat.mod_lt x (by decide)⟩
  rw [hx]
  refine ⟨h.1, h.2.trans ?_⟩
  show x % 256 % 128 = x % 128
  omega

/-- **Reading an unsigned number**: after `i` bytes, `acc` holds the bits
below position `7 * i`, and the bytes of the others are still to come. -/
theorem readUvarintFrom_appendUvarintUpTo (bound : ℕ) : ∀ {i acc x : ℕ}, i + bound = 9 →
    acc < 2 ^ (7 * i) → x * 2 ^ (7 * i) < 2 ^ 64 → ∀ r,
    readUvarintFrom i acc (7 * i) (appendUvarintUpTo bound x ++ r)
      = .ok (acc + x * 2 ^ (7 * i), r) := by
  have hlast : ∀ {i acc x : ℕ}, i < 10 → (i = 9 → x ≤ 1) → x < 0x80 → acc < 2 ^ (7 * i) →
      x * 2 ^ (7 * i) < 2 ^ 64 → ∀ r,
      readUvarintFrom i acc (7 * i) ([UInt8.ofNat x] ++ r) = .ok (acc + x * 2 ^ (7 * i), r) := by
    intro i acc x hi hnine hx hacc hbits r
    have htoNat : (UInt8.ofNat x).toNat = x := by
      rw [UInt8.toNat_ofNat']
      omega
    have hsmall : UInt8.ofNat x < 0x80 := by
      rw [UInt8.lt_iff_toNat_lt, htoNat]
      exact hx
    have hfits : ¬(i = 9 ∧ 1 < UInt8.ofNat x) := by
      rintro ⟨h, hone⟩
      rw [UInt8.lt_iff_toNat_lt, htoNat] at hone
      exact absurd (hnine h) (Nat.not_le.mpr hone)
    rw [List.singleton_append, readUvarintFrom, if_neg (Nat.not_le.mpr hi), if_pos hsmall,
      if_neg hfits, htoNat, or_shiftLeft hacc hbits]
  induction bound with
  | zero =>
    intro i acc x hi hacc hbits r
    obtain rfl : i = 9 := hi
    have hx : x ≤ 1 := by omega
    exact hlast (by decide) (fun _ => hx) (by omega) hacc hbits r
  | succ bound ih =>
    intro i acc x hi hacc hbits r
    rw [appendUvarintUpTo]
    split
    · next hx => exact hlast (by omega) (by omega) hx hacc hbits r
    · next hx =>
      obtain ⟨hbyte, hlow⟩ := continued_byte x
      have hpow : 2 ^ (7 * (i + 1)) = 2 ^ (7 * i) * 128 := by
        rw [Nat.mul_add, Nat.pow_add]
      have hsplit : x % 128 * 2 ^ (7 * i) + x / 128 * 2 ^ (7 * (i + 1)) = x * 2 ^ (7 * i) := by
        rw [hpow, Nat.mul_comm (2 ^ (7 * i)) 128, ← Nat.mul_assoc, ← Nat.add_mul,
          Nat.mul_comm (x / 128), Nat.mod_add_div]
      have hlt : x % 128 * 2 ^ (7 * i) < 2 ^ 64 :=
        Nat.lt_of_le_of_lt (Nat.le_add_right _ _) (hsplit ▸ hbits)
      have hrest : x / 128 * 2 ^ (7 * (i + 1)) < 2 ^ 64 :=
        Nat.lt_of_le_of_lt (Nat.le_add_left _ _) (hsplit ▸ hbits)
      have hacc' : acc + x % 128 * 2 ^ (7 * i) < 2 ^ (7 * (i + 1)) := by
        have hmod : x % 128 + 1 ≤ 128 := Nat.mod_lt x (by decide)
        calc acc + x % 128 * 2 ^ (7 * i)
            < 2 ^ (7 * i) + x % 128 * 2 ^ (7 * i) := Nat.add_lt_add_right hacc _
          _ = (x % 128 + 1) * 2 ^ (7 * i) := by rw [Nat.add_mul, Nat.one_mul, Nat.add_comm]
          _ ≤ 128 * 2 ^ (7 * i) := Nat.mul_le_mul_right _ hmod
          _ = 2 ^ (7 * (i + 1)) := by rw [hpow, Nat.mul_comm]
      rw [List.cons_append, readUvarintFrom, if_neg (by omega), if_neg hbyte, hlow,
        or_shiftLeft hacc hlt, Nat.shiftRight_eq_div_pow]
      rw [show 7 * i + 7 = 7 * (i + 1) from rfl, ih (by omega) hacc' hrest, Nat.add_assoc, hsplit]

/-- **Reading what was written** returns it, and leaves the bytes after
it. -/
theorem readVarint_appendVarint {x : ℤ} (hle : -2 ^ 63 ≤ x) (hlt : x < 2 ^ 63) (r : GoString) :
    readVarint (appendVarint x ++ r) = .ok (x, r) := by
  have hread : readUvarint (appendVarint x ++ r) = .ok (zigzag x, r) := by
    have hbits : zigzag x * 2 ^ (7 * 0) < 2 ^ 64 := by
      rw [Nat.mul_zero, pow_zero, Nat.mul_one]
      exact zigzag_lt x
    have h := readUvarintFrom_appendUvarintUpTo 9 rfl (Nat.zero_lt_one : 0 < 2 ^ (7 * 0)) hbits r
    rw [Nat.zero_add, Nat.mul_zero, pow_zero, Nat.mul_one] at h
    exact h
  rw [readVarint, hread]
  dsimp only
  rw [unzigzag_zigzag hle hlt]

theorem length_of_readUvarintFrom {r r' : GoString} :
    ∀ {i x s ux : ℕ}, readUvarintFrom i x s r = .ok (ux, r') → r'.length < r.length := by
  induction r with
  | nil =>
    intro i x s ux h
    rw [readUvarintFrom] at h
    split_ifs at h
  | cons b r ih =>
    intro i x s ux h
    rw [readUvarintFrom] at h
    split_ifs at h
    · cases h
      exact Nat.lt_succ_self _
    · exact Nat.lt_trans (ih h) (Nat.lt_succ_self _)

theorem length_of_readVarint {r r' : GoString} {x : ℤ} (h : readVarint r = .ok (x, r')) :
    r'.length < r.length := by
  rw [readVarint] at h
  split at h
  · next hread =>
    cases h
    exact length_of_readUvarintFrom hread
  · cases h
