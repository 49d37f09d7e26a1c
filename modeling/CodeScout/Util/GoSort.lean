import Mathlib.Data.List.Sort
import Mathlib.Order.Lattice
import Mathlib.Tactic

/-!
# Sorting slices

`sort.Slice` sorts by a given order and leaves open how elements that the
order does not tell apart are arranged. `SliceSort` is any choice of such a
function. What it promises is that no element comes before one that is less.
-/

/-- A way in which `sort.Slice` may sort. The order must be asymmetric, and
not to be less must be transitive. -/
structure SliceSort where
  sort : ∀ {α : Type}, (α → α → Bool) → List α → List α
  sort_perm : ∀ {α : Type} (less : α → α → Bool) (l : List α), (sort less l).Perm l
  sort_pairwise : ∀ {α : Type} (less : α → α → Bool) (l : List α),
    (∀ a b, less a b = true → less b a = false) →
    (∀ a b c, less a b = false → less b c = false → less a c = false) →
    (sort less l).Pairwise fun a b => less b a = false

namespace SliceSort

open List

/-- Sorting by insertion, which is stable. -/
def byInsertion : SliceSort where
  sort less l := l.insertionSort fun a b => less b a = false
  sort_perm less l := List.perm_insertionSort _ l
  sort_pairwise less l hasymm htrans := by
    have : Std.Total fun a b => less b a = false := ⟨fun a b => by
      cases h : less a b with
      | true => exact .inl (hasymm a b h)
      | false => exact .inr rfl⟩
    have : IsTrans _ fun a b => less b a = false := ⟨fun a b c hab hbc => htrans c b a hbc hab⟩
    exact List.pairwise_insertionSort _ l

variable {α K : Type} [LinearOrder K] {less : α → α → Bool}

theorem mem_sort {sorter : SliceSort} {l : List α} {a : α} : a ∈ sorter.sort less l ↔ a ∈ l :=
  (sorter.sort_perm less l).mem_iff

theorem order_of_key (key : α → K) (h : ∀ a b, less a b = true ↔ key a < key b) :
    (∀ a b, less a b = true → less b a = false) ∧
      ∀ a b c, less a b = false → less b c = false → less a c = false := by
  have hfalse : ∀ a b, less a b = false ↔ key b ≤ key a := fun a b => by
    rw [← Bool.not_eq_true, h, not_lt]
  refine ⟨fun a b hab => ?_, fun a b c hab hbc => ?_⟩
  · rw [hfalse]
    exact ((h a b).mp hab).le
  · rw [hfalse] at hab hbc ⊢
    exact hbc.trans hab

theorem pairwise_of_key (sorter : SliceSort) (key : α → K)
    (h : ∀ a b, less a b = true ↔ key a < key b) (l : List α) :
    (sorter.sort less l).Pairwise fun a b => key a ≤ key b := by
  obtain ⟨hasymm, htrans⟩ := order_of_key key h
  refine (sorter.sort_pairwise less l hasymm htrans).imp fun {a b} hab => ?_
  rwa [← not_lt, ← h, Bool.not_eq_true]

theorem pairwise_lt_of_key (sorter : SliceSort) (key : α → K)
    (h : ∀ a b, less a b = true ↔ key a < key b) {l : List α} (hl : (l.map key).Nodup) :
    (sorter.sort less l).Pairwise fun a b => key a < key b := by
  have hne : (sorter.sort less l).Pairwise fun a b => key a ≠ key b := by
    rw [← pairwise_map (R := (· ≠ ·))]
    exact ((sorter.sort_perm less l).map key).nodup_iff.mpr hl
  exact ((sorter.pairwise_of_key key h l).and hne).imp fun hab => lt_of_le_of_ne hab.1 hab.2

/-! ## Orders on the elements of a slice -/

/-- Sorting by what need only be an order on the elements of the slice. -/
def sortElements (sorter : SliceSort) (less : α → α → Bool) (l : List α) : List α :=
  (sorter.sort (fun a b : {a // a ∈ l} => less a.1 b.1) l.attach).map Subtype.val

theorem sortElements_perm (sorter : SliceSort) (less : α → α → Bool) (l : List α) :
    (sorter.sortElements less l).Perm l := by
  have h := (sorter.sort_perm (fun a b : {a // a ∈ l} => less a.1 b.1) l.attach).map Subtype.val
  rwa [attach_map_subtype_val] at h

theorem pairwise_sortElements (sorter : SliceSort) {l : List α}
    (hasymm : ∀ a ∈ l, ∀ b ∈ l, less a b = true → less b a = false)
    (htrans : ∀ a ∈ l, ∀ b ∈ l, ∀ c ∈ l, less a b = false → less b c = false → less a c = false) :
    (sorter.sortElements less l).Pairwise fun a b => less b a = false := by
  rw [sortElements, pairwise_map]
  exact sorter.sort_pairwise _ _ (fun a b => hasymm a.1 a.2 b.1 b.2)
    fun a b c => htrans a.1 a.2 b.1 b.2 c.1 c.2

/-- Sorting by insertion keeps the order of elements that need no exchange. -/
theorem sublist_sortElements_byInsertion {l : List α} {a b : α} (hab : less b a = false)
    (h : [a, b].Sublist l) : [a, b].Sublist (byInsertion.sortElements less l) := by
  have ha : a ∈ l := h.subset mem_cons_self
  have hb : b ∈ l := h.subset (mem_cons_of_mem _ mem_cons_self)
  have hattach : [(⟨a, ha⟩ : {a // a ∈ l}), ⟨b, hb⟩].Sublist l.attach := by
    rw [← attach_map_subtype_val l] at h
    obtain ⟨l', hl', heq⟩ := sublist_map_iff.mp h
    obtain rfl : l' = [⟨a, ha⟩, ⟨b, hb⟩] :=
      map_injective_iff.mpr Subtype.val_injective (heq.symm.trans rfl)
    exact hl'
  have hpair : [(⟨a, ha⟩ : {a // a ∈ l}), ⟨b, hb⟩].Pairwise fun a b => less b.1 a.1 = false :=
    pairwise_pair.mpr hab
  exact (sublist_insertionSort hpair hattach).map Subtype.val

/-! ## Orders on the positions of a slice -/

/-- The comparison of two positions, of which an algorithm does not compare one
with itself. -/
def lessAt (less : α → α → Bool) (l : List α) (i j : Fin l.length) : Bool :=
  i ≠ j && less (l.get i) (l.get j)

/-- Sorting by what is asked about different positions only. -/
def sortPositions (sorter : SliceSort) (less : α → α → Bool) (l : List α) : List α :=
  (sorter.sort (lessAt less l) (finRange l.length)).map l.get

theorem sortPositions_perm (sorter : SliceSort) (less : α → α → Bool) (l : List α) :
    (sorter.sortPositions less l).Perm l := by
  have h := (sorter.sort_perm (lessAt less l) (finRange l.length)).map l.get
  rwa [map_get_finRange] at h

theorem pairwise_sortPositions_of_key (sorter : SliceSort) (key : α → K) {l : List α}
    (h : ∀ i j, lessAt less l i j = true ↔ key (l.get i) < key (l.get j)) :
    (sorter.sortPositions less l).Pairwise fun a b => key a ≤ key b :=
  pairwise_map.mpr <| sorter.pairwise_of_key (fun i => key (l.get i)) h (finRange l.length)

end SliceSort
