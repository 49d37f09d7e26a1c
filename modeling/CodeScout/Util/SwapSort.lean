import CodeScout.Util.GoHeap
import CodeScout.Util.GoSort
import Mathlib

/-!
# Sorting in place

A sorting algorithm that works in place asks a comparison about two positions
of a slice, and exchanges the elements at two positions. It is a decision tree
(`SortProgram`), and what it does to a slice is determined by the answers. Where
the answers are about the elements that are at the two positions now, a correct
algorithm brings them into order. Sorting by insertion is one.

Elements are named by the positions they are at in the beginning, so that an
algorithm is stable if elements that are equivalent end in the order of their
names.
-/

namespace SwapSort

open Heap (swapAt)
open List hiding swapAt

/-- A sorting algorithm, for one length. -/
inductive SortProgram where
  | done
  | less (i j : ℕ) (next : Bool → SortProgram)
  | swap (i j : ℕ) (next : SortProgram)

/-- What an algorithm does to a slice, if comparisons of positions are answered
in a given way. -/
def SortProgram.run {α : Type} (answer : List α → ℕ → ℕ → Bool) : SortProgram → List α → List α
  | .done, l => l
  | .less i j next, l => (next (answer l i j)).run answer l
  | .swap i j next, l => next.run answer (swapAt l i j)

theorem SortProgram.run_perm {α : Type} (answer : List α → ℕ → ℕ → Bool) (p : SortProgram)
    (l : List α) : (p.run answer l).Perm l := by
  induction p generalizing l with
  | done => exact .refl l
  | less i j next ih => exact ih (answer l i j) l
  | swap i j next ih => exact (ih (swapAt l i j)).trans (Heap.swapAt_perm l i j)

/-- A comparison of the elements at two positions. -/
def byElements {α : Type} (lt : α → α → Bool) : List α → ℕ → ℕ → Bool := (Heap.slice lt).less

/-- A strict order whose incomparable elements are equivalent. -/
structure StrictWeak {α : Type} (lt : α → α → Bool) : Prop where
  asymm : ∀ a b, lt a b = true → lt b a = false
  trans : ∀ a b c, lt a b = false → lt b c = false → lt a c = false

theorem StrictWeak.of_key {α K : Type} [LinearOrder K] {lt : α → α → Bool} (key : α → K)
    (h : ∀ a b, lt a b = true ↔ key a < key b) : StrictWeak lt :=
  ⟨(SliceSort.order_of_key key h).1, (SliceSort.order_of_key key h).2⟩

/-- An element comes before another one in a stable sort. -/
def Before (lt : ℕ → ℕ → Bool) (a b : ℕ) : Prop :=
  lt a b = true ∨ lt b a = false ∧ a < b

/-- **A stable sorting algorithm**: whatever the order is, the elements end in
order. -/
def IsStable (algorithm : ℕ → SortProgram) : Prop :=
  ∀ n lt, StrictWeak lt →
    ((algorithm n).run (byElements lt) (List.range n)).Pairwise (Before lt)

/-! ## Insertion -/

/-- The loop that moves an element to the left. -/
def insertAt (next : SortProgram) : ℕ → SortProgram
  | 0 => next
  | j + 1 => .less (j + 1) j fun smaller =>
    if smaller then .swap (j + 1) j (insertAt next j) else next

/-- The loop over some elements, from a position on. -/
def insertFrom (i : ℕ) : ℕ → SortProgram
  | 0 => .done
  | count + 1 => insertAt (insertFrom (i + 1) count) i

/-- Sorting by insertion. -/
def insertionSort (n : ℕ) : SortProgram := insertFrom 1 (n - 1)

open SortProgram

section

variable {lt : ℕ → ℕ → Bool}

theorem byElements_adjacent (sorted : List ℕ) (a x : ℕ) (rest : List ℕ) :
    byElements lt (sorted ++ a :: x :: rest) (sorted.length + 1) sorted.length = lt x a :=
  Heap.slice_less (by simp) (by simp)

theorem swapAt_adjacent (sorted : List ℕ) (a x : ℕ) (rest : List ℕ) :
    swapAt (sorted ++ a :: x :: rest) (sorted.length + 1) sorted.length =
      sorted ++ x :: a :: rest := by
  rw [Heap.swapAt_eq (by simp) (by simp)]
  simp

/-- What comes before an element that is not after a new one comes before the
new one. -/
theorem Before.trans_right (h : StrictWeak lt) {a b x : ℕ} (hab : Before lt a b)
    (hxb : lt x b = false) (hax : a < x) : Before lt a x := by
  refine .inr ⟨?_, hax⟩
  have hba : lt b a = false := hab.elim (h.asymm a b) And.left
  exact h.trans x b a hxb hba

/-- **Inserting an element** into a list that is in order. -/
theorem run_insertAt (h : StrictWeak lt) (next : SortProgram) {sorted : List ℕ} {x : ℕ}
    (hsorted : sorted.Pairwise (Before lt)) (hlt : ∀ a ∈ sorted, a < x) (rest : List ℕ) :
    ∃ sorted', sorted'.Perm (sorted ++ [x]) ∧ sorted'.Pairwise (Before lt) ∧
      (insertAt next sorted.length).run (byElements lt) (sorted ++ x :: rest) =
        next.run (byElements lt) (sorted' ++ rest) := by
  induction sorted using reverseRecOn generalizing rest with
  | nil => exact ⟨[x], .refl _, pairwise_singleton _ _, rfl⟩
  | append_singleton sorted a ih =>
    obtain ⟨hinit, -, hlast⟩ := pairwise_append.mp hsorted
    have ha : a < x := hlt a (mem_append_right _ mem_cons_self)
    have hanswer := @byElements_adjacent lt sorted a x rest
    have hlist : sorted ++ [a] ++ x :: rest = sorted ++ a :: x :: rest :=
      append_assoc sorted [a] (x :: rest)
    rw [length_append, length_singleton, hlist, insertAt, run, hanswer]
    cases hxa : lt x a with
    | true =>
      obtain ⟨sorted', hperm, hpairwise, hrun⟩ :=
        ih hinit (fun b hb => hlt b (mem_append_left _ hb)) (a :: rest)
      refine ⟨sorted' ++ [a], ?_, ?_, ?_⟩
      · have hswap : (sorted ++ [x] ++ [a]).Perm (sorted ++ [a] ++ [x]) := by
          rw [append_assoc, append_assoc]
          exact (List.Perm.swap a x []).append_left sorted
        exact (hperm.append_right [a]).trans hswap
      · refine pairwise_append.mpr ⟨hpairwise, pairwise_singleton _ _, ?_⟩
        intro b hb c hc
        rw [mem_singleton.mp hc]
        rcases mem_append.mp (hperm.mem_iff.mp hb) with hb | hb
        · exact hlast b hb a (mem_singleton_self a)
        · rw [mem_singleton.mp hb]
          exact .inl hxa
      · rw [if_pos rfl, run, swapAt_adjacent, hrun, append_assoc]
        rfl
    | false =>
      refine ⟨sorted ++ [a] ++ [x], .refl _, ?_, ?_⟩
      · refine pairwise_append.mpr ⟨hsorted, pairwise_singleton _ _, ?_⟩
        intro b hb c hc
        rw [mem_singleton.mp hc]
        rcases mem_append.mp hb with hmem | hmem
        · exact (hlast b hmem a (mem_singleton_self a)).trans_right h hxa (hlt b hb)
        · rw [mem_singleton.mp hmem]
          exact .inr ⟨hxa, ha⟩
      · rw [if_neg Bool.false_ne_true, append_assoc, singleton_append, hlist]

/-- **The loop over the elements** that are left. -/
theorem run_insertFrom (h : StrictWeak lt) {count : ℕ} {sorted : List ℕ}
    (hsorted : sorted.Pairwise (Before lt)) (hperm : sorted.Perm (range sorted.length)) :
    ((insertFrom sorted.length count).run (byElements lt)
      (sorted ++ range' sorted.length count)).Pairwise (Before lt) := by
  induction count generalizing sorted with
  | zero =>
    rw [range'_zero, append_nil]
    exact hsorted
  | succ count ih =>
    have hlt : ∀ a ∈ sorted, a < sorted.length := fun a ha =>
      mem_range.mp (hperm.mem_iff.mp ha)
    obtain ⟨sorted', hperm', hpairwise, hrun⟩ :=
      run_insertAt h (insertFrom (sorted.length + 1) count) hsorted hlt
        (range' (sorted.length + 1) count)
    have hlength : sorted'.length = sorted.length + 1 := by
      rw [hperm'.length_eq, length_append, length_singleton]
    rw [range'_succ, insertFrom, hrun, ← hlength]
    refine ih hpairwise ?_
    rw [hlength, range_succ]
    exact hperm'.trans (hperm.append_right _)

end

/-- **Sorting by insertion is stable.** -/
theorem isStable_insertionSort : IsStable insertionSort := by
  intro n lt h
  cases n with
  | zero => exact List.Pairwise.nil
  | succ n =>
    have hrun := @run_insertFrom lt h n [0] (pairwise_singleton (Before lt) 0) (.refl _)
    rw [range_eq_range', range'_succ]
    exact hrun

/-! ## Answers that do not follow the elements -/

theorem swapAt_swapAt {α : Type} {l : List α} {i j : ℕ} (hi : i < l.length) (hj : j < l.length) :
    swapAt (swapAt l i j) i j = l := by
  have hlength : (swapAt l i j).length = l.length := (Heap.swapAt_perm l i j).length_eq
  have hlength' : (swapAt (swapAt l i j) i j).length = l.length :=
    (Heap.swapAt_perm _ i j).length_eq.trans hlength
  refine ext_getElem? fun k => ?_
  by_cases hk : k < l.length
  · have hswap : Equiv.swap i j k < l.length := by
      rw [Equiv.swap_apply_def]
      split_ifs <;> assumption
    rw [Heap.getElem?_swapAt (hlength ▸ hi) (hlength ▸ hj) (hlength ▸ hk),
      Heap.getElem?_swapAt hi hj hswap, Equiv.swap_apply_self]
  · rw [getElem?_eq_none (by rw [hlength']; exact not_lt.mp hk), getElem?_eq_none (not_lt.mp hk)]

/-- An algorithm that first asks the same about two elements twice, before and
after it has exchanged them, and is stopped by a contradiction. -/
def askTwice (i j : ℕ) (onContradiction otherwise : SortProgram) : SortProgram :=
  .swap i j (.less i j fun exchanged => .swap i j (.less j i fun restored =>
    if exchanged = restored then otherwise else onContradiction))

/-- **If the answers depend on the positions alone**, and are not the same for
two positions in either order, a stable algorithm may do anything. -/
theorem exists_isStable {n i j : ℕ} (hi : i < n) (hj : j < n) {answer : ℕ → ℕ → Bool}
    (hanswer : answer i j ≠ answer j i) (anything : SortProgram) :
    ∃ algorithm, IsStable algorithm ∧ ∀ {α : Type} (l : List α), l.length = n →
      (algorithm n).run (fun _ => answer) l = anything.run (fun _ => answer) l := by
  refine ⟨fun k => if k = n then askTwice i j anything (insertionSort k) else insertionSort k,
    fun k lt h => ?_, fun l hl => ?_⟩
  · by_cases hk : k = n
    · subst hk
      have hlength : (range k).length = k := length_range
      have hswapped : ∀ m, m < k → (swapAt (range k) i j)[m]? = some (Equiv.swap i j m) := by
        intro m hm
        have hmem : Equiv.swap i j m < k := by
          rw [Equiv.swap_apply_def]
          split_ifs <;> assumption
        rw [Heap.getElem?_swapAt (hlength.symm ▸ hi) (hlength.symm ▸ hj) (hlength.symm ▸ hm),
          getElem?_range hmem]
      -- both questions are about the same two elements
      have hfirst : byElements lt (swapAt (range k) i j) i j = lt j i := by
        have hless : byElements lt (swapAt (range k) i j) i j =
            lt (Equiv.swap i j i) (Equiv.swap i j j) :=
          Heap.slice_less (hswapped i hi) (hswapped j hj)
        rwa [Equiv.swap_apply_left, Equiv.swap_apply_right] at hless
      have hsecond : byElements lt (range k) j i = lt j i :=
        Heap.slice_less (getElem?_range hj) (getElem?_range hi)
      show (run _ (if k = k then _ else _) _).Pairwise _
      rw [if_pos rfl]
      simp only [askTwice, run, hfirst, hsecond, if_true,
        swapAt_swapAt (l := range k) (hlength.symm ▸ hi) (hlength.symm ▸ hj)]
      exact isStable_insertionSort k lt h
    · show (run _ (if k = n then _ else _) _).Pairwise _
      rw [if_neg hk]
      exact isStable_insertionSort k lt h
  · show run _ (if n = n then _ else _) _ = _
    rw [if_pos rfl]
    simp only [askTwice, run, if_neg hanswer,
      swapAt_swapAt (l := l) (hl.symm ▸ hi) (hl.symm ▸ hj)]

theorem swapAt_map {α β : Type} (f : α → β) (l : List α) (i j : ℕ) :
    swapAt (l.map f) i j = (swapAt l i j).map f := by
  unfold swapAt
  rw [getElem?_map, getElem?_map]
  cases l[i]? with
  | none => rfl
  | some a =>
    cases l[j]? with
    | none => rfl
    | some b => simp [map_set]

theorem run_map {α β : Type} (f : α → β) (answer : ℕ → ℕ → Bool) (p : SortProgram) (l : List α) :
    p.run (fun _ => answer) (l.map f) = (p.run (fun _ => answer) l).map f := by
  induction p generalizing l with
  | done => rfl
  | less i j next ih => exact ih (answer i j) l
  | swap i j next ih => rw [run, run, swapAt_map, ih]

/-- **If all answers are no**, the elements stay where they are. -/
theorem run_eq_of_never {algorithm : ℕ → SortProgram} (h : IsStable algorithm) {α : Type}
    (l : List α) : (algorithm l.length).run (fun _ _ _ => false) l = l := by
  have hnever : byElements (fun _ _ : ℕ => false) = fun _ _ _ => false := by
    funext l i j
    show (l[i]?.bind fun _ => l[j]?.map fun _ => false).getD false = false
    cases l[i]? <;> cases l[j]? <;> rfl
  have hrange : (algorithm l.length).run (fun _ _ _ => false) (range l.length) =
      range l.length := by
    have hsorted := h l.length (fun _ _ => false) ⟨fun _ _ _ => rfl, fun _ _ _ _ _ => rfl⟩
    rw [hnever] at hsorted
    refine (run_perm _ _ _).eq_of_pairwise' (r := (· ≤ ·)) ?_ ?_
    · exact hsorted.imp fun hbefore => (hbefore.elim nofun And.right).le
    · exact pairwise_le_range
  have hsome : (range l.length).map (l[·]?) = l.map some := by
    refine ext_getElem (by simp) fun i h₁ h₂ => by simp
  have hrun := run_map (l[·]?) (fun _ _ => false) (algorithm l.length) (range l.length)
  rw [hrange, hsome, run_map] at hrun
  exact map_injective_iff.mpr (Option.some_injective α) hrun

end SwapSort
