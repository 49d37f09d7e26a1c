import Mathlib.Data.Nat.Notation
import Mathlib.Tactic.Common

/-!
# Sets of bits of a fixed length

What a program may rely on when it keeps a set of small numbers in a bit
set of a given length: the operations, and how they act on single bits.
-/

/-- A bit set library: `new n` is the empty set of length `n`, `set` adds a
bit, `all` asks whether every bit below the length is set and `count` how
many are. -/
structure BitSetLib where
  BitSet : Type
  new : ℕ → BitSet
  set : BitSet → ℕ → BitSet
  all : BitSet → Bool
  count : BitSet → ℕ
  len : BitSet → ℕ
  test : BitSet → ℕ → Bool
  len_new : ∀ n, len (new n) = n
  test_new : ∀ n i, test (new n) i = false
  len_set : ∀ b i, i < len b → len (set b i) = len b
  test_set : ∀ b i j, i < len b → (test (set b i) j = true ↔ j = i ∨ test b j = true)
  all_iff : ∀ b, all b = true ↔ ∀ i < len b, test b i = true

namespace BitSetLib

/-- A bit set as the list of its bits. -/
def listOfBits : BitSetLib where
  BitSet := List Bool
  new n := List.replicate n false
  set b i := b.set i true
  all b := b.all id
  count b := b.count true
  len b := b.length
  test b i := b.getD i false
  len_new n := List.length_replicate
  test_new n i := by
    rw [List.getD_eq_getElem?_getD, List.getElem?_replicate]
    split <;> rfl
  len_set b i _ := List.length_set
  test_set b i j h := by
    rw [List.getD_eq_getElem?_getD, List.getD_eq_getElem?_getD, List.getElem?_set]
    by_cases hij : i = j
    · simp [hij, hij ▸ h]
    · simp [hij, Ne.symm hij]
  all_iff b := by
    rw [List.all_eq_true]
    constructor
    · intro h i hi
      rw [List.getD_eq_getElem?_getD, List.getElem?_eq_getElem hi]
      exact h _ (List.getElem_mem hi)
    · intro h x hx
      obtain ⟨i, hi, rfl⟩ := List.mem_iff_getElem.mp hx
      have := h i hi
      rwa [List.getD_eq_getElem?_getD, List.getElem?_eq_getElem hi] at this

end BitSetLib
