import Mathlib
import CodeScout.Util.GoUnicode

/-!
# Chunks of result data

`HashKey` decides in which chunk the data of a result are stored. It hashes an
identifier as Java's `String.hashCode` does, in 32 bits, makes the hash positive and
takes its remainder. The hash is the sum of the characters weighted by powers of 31,
modulo `2 ^ 32` (`hash_eq`).

The smallest 32-bit number is its own negative. An identifier with that hash has a
negative index, unless the number of chunks is a power of two.
-/

namespace Precise

/-- An iteration of the loop of `HashKey`. -/
def hashRune (hash : BitVec 32) (c : ℕ) : BitVec 32 :=
  (hash <<< 5) - hash + BitVec.ofNat 32 c

/-- The variable `hash` after the loop. -/
def hash (id : GoString) : BitVec 32 :=
  ((runes id).map Rune.value).foldl hashRune 0

/-- **`HashKey`.** -/
def hashKey (id : GoString) (maxIndex : ℤ) : ℤ :=
  let positive := if (hash id).slt 0 then -hash id else hash id
  (positive.srem (BitVec.ofInt 32 maxIndex)).toInt

/-- The characters of a string, weighted by powers of 31. -/
def weight : List ℕ → ℕ
  | [] => 0
  | c :: cs => c * 31 ^ cs.length + weight cs

theorem foldl_hashRune (cs : List ℕ) :
    ∀ h : BitVec 32, cs.foldl hashRune h = h * 31 ^ cs.length + (weight cs : BitVec 32) := by
  induction cs with
  | nil =>
    intro h
    simp [weight]
  | cons c cs ih =>
    intro h
    have hstep : hashRune h c = h * 31 + (c : BitVec 32) := by
      rw [hashRune, BitVec.shiftLeft_eq_mul_twoPow]
      have htwo : BitVec.twoPow 32 5 = 32 := rfl
      rw [htwo, BitVec.natCast_eq_ofNat]
      ring
    rw [List.foldl_cons, ih, hstep, weight, List.length_cons]
    push_cast
    ring

/-- The hash is the weighted sum, in 32 bits. -/
theorem hash_eq (id : GoString) :
    (hash id).toNat = weight ((runes id).map Rune.value) % 2 ^ 32 := by
  rw [hash, foldl_hashRune, zero_mul, zero_add, BitVec.natCast_eq_ofNat, BitVec.toNat_ofNat]

theorem toInt_ofInt {maxIndex : ℤ} (hpos : 0 < maxIndex) (hlt : maxIndex < 2 ^ 31) :
    (BitVec.ofInt 32 maxIndex).toInt = maxIndex := by
  rw [BitVec.toInt_ofInt]
  exact Int.bmod_eq_of_le (by omega) (by omega)

theorem hashKey_of_ne {id : GoString} {maxIndex : ℤ} (hpos : 0 < maxIndex)
    (hlt : maxIndex < 2 ^ 31) (hne : hash id ≠ BitVec.intMin 32) :
    0 ≤ hashKey id maxIndex ∧ hashKey id maxIndex < maxIndex := by
  have hkey : hashKey id maxIndex = |(hash id).toInt|.tmod maxIndex := by
    rw [hashKey, BitVec.toInt_srem, toInt_ofInt hpos hlt]
    congr 1
    by_cases hneg : (hash id).toInt < 0
    · rw [if_pos (by rw [BitVec.slt_iff_toInt_lt]; exact hneg),
        BitVec.toInt_neg_of_ne_intMin hne, abs_of_neg hneg]
    · rw [if_neg (by rw [BitVec.slt_iff_toInt_lt]; exact hneg), abs_of_nonneg (not_lt.mp hneg)]
  rw [hkey, Int.tmod_eq_emod_of_nonneg (abs_nonneg _)]
  exact ⟨Int.emod_nonneg _ hpos.ne', Int.emod_lt_of_pos _ hpos⟩

theorem hashKey_of_eq {id : GoString} {maxIndex : ℤ} (hpos : 0 < maxIndex)
    (hlt : maxIndex < 2 ^ 31) (heq : hash id = BitVec.intMin 32) :
    hashKey id maxIndex = -(2 ^ 31 % maxIndex) := by
  rw [hashKey, heq, BitVec.toInt_srem, toInt_ofInt hpos hlt]
  have hmin : (if (BitVec.intMin 32).slt 0 then -BitVec.intMin 32 else BitVec.intMin 32).toInt
      = -2 ^ 31 := by
    decide
  rw [hmin, Int.neg_tmod, Int.tmod_eq_emod_of_nonneg (by norm_num)]

/-- **The index is in range** if and only if the weighted sum is not the smallest 32-bit
number, or the number of chunks divides it. -/
theorem hashKey_mem_range_iff (id : GoString) (maxIndex : ℤ) (hpos : 0 < maxIndex)
    (hlt : maxIndex < 2 ^ 31) :
    (0 ≤ hashKey id maxIndex ∧ hashKey id maxIndex < maxIndex)
      ↔ (weight ((runes id).map Rune.value) % 2 ^ 32 = 2 ^ 31 → maxIndex ∣ 2 ^ 31) := by
  have hmin : weight ((runes id).map Rune.value) % 2 ^ 32 = 2 ^ 31
      ↔ hash id = BitVec.intMin 32 := by
    rw [← hash_eq, ← BitVec.toNat_inj]
    rfl
  rw [hmin]
  by_cases heq : hash id = BitVec.intMin 32
  · have hnonneg := Int.emod_nonneg (2 ^ 31) hpos.ne'
    rw [hashKey_of_eq hpos hlt heq, Int.dvd_iff_emod_eq_zero]
    constructor
    · intro hrange _
      linarith [hrange.1]
    · intro hdvd
      rw [hdvd heq, neg_zero]
      exact ⟨le_rfl, hpos⟩
  · exact iff_of_true (hashKey_of_ne hpos hlt heq) fun h => absurd h heq

theorem hashKey_range_one : 0 ≤ hashKey (lit "1") 4 ∧ hashKey (lit "1") 4 < 4 :=
  (hashKey_mem_range_iff (lit "1") 4 (by decide) (by decide)).mpr (by decide +kernel)

/-- An identifier with a negative index. -/
theorem hashKey_negative :
    hashKey (lit "539019926") 3 = -2
      ∧ ¬ ∀ (id : GoString) (maxIndex : ℤ), 0 < maxIndex → maxIndex < 2 ^ 31 →
        0 ≤ hashKey id maxIndex ∧ hashKey id maxIndex < maxIndex := by
  have hkey : hashKey (lit "539019926") 3 = -2 := by
    decide +kernel
  refine ⟨hkey, fun hall => ?_⟩
  have hrange := (hall (lit "539019926") 3 (by decide) (by decide)).1
  rw [hkey] at hrange
  exact absurd hrange (by decide)

end Precise
