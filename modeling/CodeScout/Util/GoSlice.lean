import CodeScout.Util.Outcome
import Mathlib.Data.List.Basic

/-!
# Go slices

A slice is a list. Reading and writing it at an index panics if the index is
out of range.
-/

namespace GoSlice

open List

variable {ε α : Type}

/-- The expression `l[i]`. -/
def index (l : List α) (i : ℕ) : Outcome ε α :=
  .ofOption l[i]?

/-- The assignment `l[i] = a`. -/
def store (l : List α) (i : ℕ) (a : α) : Outcome ε (List α) :=
  if i < l.length then .ok (l.set i a) else .panic

theorem index_of_some {l : List α} {i : ℕ} {a : α} (h : l[i]? = some a) :
    (index l i : Outcome ε α) = .ok a := by
  rw [index, h]
  rfl

theorem store_of_lt {l : List α} {i : ℕ} (h : i < l.length) (a : α) :
    (store l i a : Outcome ε (List α)) = .ok (l.set i a) :=
  if_pos h

/-! ## Reversing a part -/

/-- The assignment `l[i], l[j] = l[j], l[i]`. -/
def swap (l : List α) (i j : ℕ) : Outcome ε (List α) := do
  let a ← index l i
  let b ← index l j
  store (← store l i b) j a

/-- The loop `for ; i < j; i, j = i+1, j-1` that swaps the two ends. -/
def swapEnds : ℕ → ℕ → ℕ → List α → Outcome ε (List α)
  | 0, _, _, _ => .outOfFuel
  | fuel + 1, i, j, l =>
    if i < j then do
      let l ← swap l i j
      swapEnds fuel (i + 1) (j - 1) l
    else .ok l

theorem swap_ends (front middle back : List α) (a b : α) :
    (swap (front ++ a :: (middle ++ b :: back)) front.length (front.length + middle.length + 1)
        : Outcome ε (List α))
      = .ok (front ++ b :: (middle ++ a :: back)) := by
  have ha : (front ++ a :: (middle ++ b :: back))[front.length]? = some a := by
    rw [getElem?_append_right (Nat.le_refl _), Nat.sub_self]
    rfl
  have hj : front.length + middle.length + 1 - front.length = middle.length + 1 := by omega
  have hb : (front ++ a :: (middle ++ b :: back))[front.length + middle.length + 1]? = some b := by
    rw [getElem?_append_right (by omega), hj, getElem?_cons_succ,
      getElem?_append_right (Nat.le_refl _), Nat.sub_self]
    rfl
  have hset : (front ++ a :: (middle ++ b :: back)).set front.length b
      = front ++ b :: (middle ++ b :: back) := by
    rw [set_append_right _ _ (Nat.le_refl _), Nat.sub_self]
    rfl
  have hset' : (front ++ b :: (middle ++ b :: back)).set (front.length + middle.length + 1) a
      = front ++ b :: (middle ++ a :: back) := by
    rw [set_append_right _ _ (by omega), hj, set_cons_succ,
      set_append_right _ _ (Nat.le_refl _), Nat.sub_self]
    rfl
  rw [swap, index_of_some ha, Outcome.ok_bind, index_of_some hb, Outcome.ok_bind,
    store_of_lt (by simp), Outcome.ok_bind, hset, store_of_lt (by simp; omega), hset']

/-- **Swapping the ends reverses what is between them.** -/
theorem swapEnds_eq (fuel : ℕ) : ∀ (front middle back : List α), middle.length < fuel →
    (swapEnds fuel front.length (front.length + middle.length - 1) (front ++ middle ++ back)
        : Outcome ε (List α))
      = .ok (front ++ middle.reverse ++ back) := by
  induction fuel with
  | zero => exact fun _ _ _ h => absurd h (Nat.not_lt_zero _)
  | succ fuel ih =>
    intro front middle back hfuel
    rw [swapEnds]
    -- the two ends of the middle part
    match middle with
    | [] => rw [if_neg (by simp), reverse_nil]
    | [a] => rw [if_neg (by simp), reverse_singleton]
    | a :: a' :: rest =>
      obtain ⟨inner, b, hinner⟩ : ∃ inner b, a' :: rest = inner ++ [b] :=
        ⟨_, _, (dropLast_append_getLast (cons_ne_nil a' rest)).symm⟩
      rw [hinner] at hfuel ⊢
      simp only [length_cons, length_append, length_nil] at hfuel
      have hj : front.length + (a :: (inner ++ [b])).length - 1
          = front.length + inner.length + 1 := by
        simp only [length_cons, length_append, length_nil]
        omega
      have hlist : front ++ a :: (inner ++ [b]) ++ back = front ++ a :: (inner ++ b :: back) := by
        simp only [append_assoc, cons_append, nil_append]
      have hnext := ih (front ++ [b]) inner (a :: back) (by omega)
      have hi : (front ++ [b]).length = front.length + 1 := by
        rw [length_append, length_singleton]
      rw [hi, show front.length + 1 + inner.length - 1 = front.length + inner.length + 1 - 1 by
        omega] at hnext
      rw [hj, if_pos (by omega), hlist, swap_ends, Outcome.ok_bind]
      simp only [append_assoc, cons_append, nil_append, reverse_cons,
        reverse_append, reverse_nil] at hnext ⊢
      exact hnext

end GoSlice
