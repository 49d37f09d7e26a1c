import CodeScout.Util.GoString
import Mathlib.Data.Int.Log
import Mathlib.Data.Rat.Floor
import Mathlib.Tactic

/-!
# Floating-point numbers

A `float64` is the rational number it stands for. Every operation computes
the exact result and rounds it to 53 significant bits, to the nearest such
number and to the one with an even last bit if there are two. Infinities,
subnormal numbers and the sign of zero are not modelled by the operations: the
numbers must stay within the range of the normal ones. `Value` is for numbers that
are only compared.
-/

namespace GoFloat

/-- A floating-point number that may be infinite, or no number. -/
inductive Value where
  | finite (x : ℚ)
  | inf (negative : Bool)
  | nan
deriving DecidableEq

/-- The comparison `x < y`. -/
def Value.lt : Value → Value → Bool
  | .finite x, .finite y => decide (x < y)
  | .finite _, .inf negative => !negative
  | .inf negative, .finite _ => negative
  | .inf negative, .inf negative' => negative && !negative'
  | _, _ => false

/-- The nearest integer, the even one of two. -/
def roundHalfEven (x : ℚ) : ℤ :=
  if x - ⌊x⌋ < 1 / 2 ∨ (x - ⌊x⌋ = 1 / 2 ∧ ⌊x⌋ % 2 = 0) then ⌊x⌋ else ⌊x⌋ + 1

/-- The `float64` next to a rational number. -/
def float64 (x : ℚ) : ℚ :=
  if x = 0 then 0
  else
    let ulp := (2 : ℚ) ^ (Int.log 2 |x| - 52)
    roundHalfEven (x / ulp) * ulp

def sub (x y : ℚ) : ℚ := float64 (x - y)

def mul (x y : ℚ) : ℚ := float64 (x * y)

def div (x y : ℚ) : ℚ := float64 (x / y)

/-- A number without its fraction. -/
def truncate (x : ℚ) : ℤ := if x < 0 then ⌈x⌉ else ⌊x⌋

/-- The conversion `int64(x)`: the fraction is discarded. What does not fit is
left open by the language, and the smallest integer on the usual machines. -/
def toInt64 (x : ℚ) : Int64 :=
  let i := truncate x
  if -2 ^ 63 ≤ i ∧ i < 2 ^ 63 then Int64.ofInt i else Int64.minValue

theorem roundHalfEven_intCast (i : ℤ) : roundHalfEven i = i := by
  rw [roundHalfEven, Int.floor_intCast, sub_self, if_pos (.inl (by norm_num))]

theorem sub_half_le_roundHalfEven (x : ℚ) : x - 1 / 2 ≤ roundHalfEven x := by
  unfold roundHalfEven
  split
  case isTrue h =>
    have hfloor : x - ⌊x⌋ ≤ 1 / 2 := h.elim le_of_lt fun h => h.1.le
    linarith
  case isFalse h =>
    have hfloor := Int.lt_floor_add_one x
    push_cast
    linarith

theorem float64_natCast {n : ℕ} (hn : n < 2 ^ 53) : float64 n = n := by
  rcases Nat.eq_zero_or_pos n with rfl | hpos
  · exact if_pos Nat.cast_zero
  · have hne : (n : ℚ) ≠ 0 := Nat.cast_ne_zero.mpr hpos.ne'
    obtain ⟨k, hk⟩ : ∃ k, Nat.log 2 n + k = 52 :=
      Nat.exists_eq_add_of_le' (Nat.le_of_lt_succ (Nat.log_lt_of_lt_pow hpos.ne' hn)) |>.imp
        fun k hk => by omega
    have hulp : (2 : ℚ) ^ (Int.log 2 |(n : ℚ)| - 52) = (2 ^ k)⁻¹ := by
      rw [Nat.abs_cast, Int.log_natCast, ← zpow_natCast, ← zpow_neg]
      congr 1
      omega
    rw [float64, if_neg hne]
    simp only [hulp]
    have hint : (n : ℚ) / (2 ^ k)⁻¹ = ((n * 2 ^ k : ℤ) : ℚ) := by
      rw [div_inv_eq_mul]
      push_cast
      rfl
    rw [hint, roundHalfEven_intCast]
    push_cast
    exact mul_inv_cancel_right₀ (by positivity) _

/-- The relative error of a number that is rounded down. -/
theorem sub_div_le_float64 {x : ℚ} (hx : 0 < x) : x - x / 2 ^ 53 ≤ float64 x := by
  have hlog : (2 : ℚ) ^ Int.log 2 x ≤ x := Int.zpow_log_le_self (by norm_num) hx
  have hulp : (2 : ℚ) ^ (Int.log 2 |x| - 52) / 2 = 2 ^ Int.log 2 x / 2 ^ 53 := by
    rw [abs_of_pos hx, zpow_sub₀ (by norm_num), div_div]
    norm_num
  have hpos : (0 : ℚ) < 2 ^ (Int.log 2 |x| - 52) := by positivity
  rw [float64, if_neg hx.ne']
  calc x - x / 2 ^ 53
      ≤ x - 2 ^ (Int.log 2 |x| - 52) / 2 := by
        rw [hulp]
        gcongr
    _ = (x / 2 ^ (Int.log 2 |x| - 52) - 1 / 2) * 2 ^ (Int.log 2 |x| - 52) := by
        rw [sub_mul, div_mul_cancel₀ _ hpos.ne', one_div_mul_eq_div]
    _ ≤ roundHalfEven (x / 2 ^ (Int.log 2 |x| - 52)) * 2 ^ (Int.log 2 |x| - 52) := by
        gcongr
        exact sub_half_le_roundHalfEven _

@[simp] theorem float64_zero : float64 0 = 0 := if_pos rfl

@[simp] theorem mul_of_zero (x : ℚ) : mul 0 x = 0 := by
  rw [mul, zero_mul, float64_zero]

@[simp] theorem div_of_zero (x : ℚ) : div 0 x = 0 := by
  rw [div, zero_div, float64_zero]

@[simp] theorem mul_zero_right (x : ℚ) : mul x 0 = 0 := by
  rw [mul, mul_zero, float64_zero]

theorem float64_nonneg {x : ℚ} (hx : 0 ≤ x) : 0 ≤ float64 x := by
  unfold float64
  split_ifs
  · exact le_rfl
  · have hfloor : 0 ≤ ⌊x / 2 ^ (Int.log 2 |x| - 52)⌋ := Int.floor_nonneg.mpr (by positivity)
    refine mul_nonneg (Int.cast_nonneg ?_) (by positivity)
    unfold roundHalfEven
    split_ifs <;> omega

theorem float64_nonpos {x : ℚ} (hx : x ≤ 0) : float64 x ≤ 0 := by
  unfold float64
  split_ifs with hzero
  · exact le_rfl
  · have hneg : x / 2 ^ (Int.log 2 |x| - 52) < 0 :=
      div_neg_of_neg_of_pos (lt_of_le_of_ne hx hzero) (by positivity)
    have hfloor := Int.floor_lt.mpr (hneg.trans_eq Int.cast_zero.symm)
    refine mul_nonpos_of_nonpos_of_nonneg (Int.cast_nonpos.mpr ?_) (by positivity)
    unfold roundHalfEven
    split_ifs <;> omega

theorem truncate_nonneg {x : ℚ} (hx : 0 ≤ x) : 0 ≤ truncate x := by
  rw [truncate, if_neg (not_lt.mpr hx)]
  exact Int.floor_nonneg.mpr hx

theorem truncate_nonpos {x : ℚ} (hx : x ≤ 0) : truncate x ≤ 0 := by
  unfold truncate
  split_ifs with hneg
  · exact Int.ceil_nonpos.mpr hx
  · rw [le_antisymm hx (not_lt.mp hneg), Int.floor_zero]

theorem toInt_toInt64 (x : ℚ) : (toInt64 x).toInt
    = if -2 ^ 63 ≤ truncate x ∧ truncate x < 2 ^ 63 then truncate x else -2 ^ 63 := by
  unfold toInt64
  dsimp only
  split_ifs with h
  · exact Int64.toInt_ofInt_of_le h.1 h.2
  · exact Int64.toInt_minValue

end GoFloat
