import Mathlib

/-!
# Binary heaps

`container/heap` works on any collection whose elements can be compared and swapped
by their positions. Its functions are loops of such comparisons and swaps, so that
they keep whatever a swap keeps (`Interface.fix_keeps`). If the comparison is a
strict weak order then they keep the heap order as well: no element is less than its
parent, the one at position `(k - 1) / 2`, and therefore none is less than the one at
position 0.
-/

namespace Heap

open List

/-- `heap.Interface`. `pop` is `none` on an empty collection, where it panics. -/
structure Interface (S α β : Type) where
  len : S → ℕ
  less : S → ℕ → ℕ → Bool
  swap : S → ℕ → ℕ → S
  push : S → α → S
  pop : S → Option (β × S)

open Equiv

/-- The position of the parent. That of the root is its own. -/
def parent (k : ℕ) : ℕ := (k - 1) / 2

namespace Interface

variable {S α β : Type} (h : Interface S α β)

/-! ## The functions of the package -/

/-- The loop of `up`. The first argument bounds the number of iterations; the position
is enough, as it becomes smaller. -/
def up : ℕ → S → ℕ → S
  | 0, s, _ => s
  | bound + 1, s, j =>
    if parent j = j ∨ h.less s j (parent j) = false then s
    else up bound (h.swap s (parent j) j) (parent j)

/-- The child of position `i` with which `down` compares it. -/
def smallerChild (s : S) (i n : ℕ) : ℕ :=
  if 2 * i + 2 < n ∧ h.less s (2 * i + 2) (2 * i + 1) = true then 2 * i + 2 else 2 * i + 1

/-- The loop of `down`, with the position at which it ends. The first argument bounds
the number of iterations; `n` is enough, as the position becomes larger. -/
def down : ℕ → S → ℕ → ℕ → S × ℕ
  | 0, s, i, _ => (s, i)
  | bound + 1, s, i, n =>
    if n ≤ 2 * i + 1 then (s, i)
    else if h.less s (h.smallerChild s i n) i = false then (s, i)
    else down bound (h.swap s i (h.smallerChild s i n)) (h.smallerChild s i n) n

/-- `if !down(h, i, n) { up(h, i) }`. -/
def sift (s : S) (i n : ℕ) : S :=
  if i < (h.down n s i n).2 then (h.down n s i n).1 else h.up i (h.down n s i n).1 i

/-- `heap.Push` -/
def heapPush (s : S) (x : α) : S :=
  h.up (h.len (h.push s x) - 1) (h.push s x) (h.len (h.push s x) - 1)

/-- `heap.Pop` -/
def heapPop (s : S) : Option (β × S) :=
  h.pop (h.down (h.len s - 1) (h.swap s 0 (h.len s - 1)) 0 (h.len s - 1)).1

/-- `heap.Remove` -/
def remove (s : S) (i : ℕ) : Option (β × S) :=
  h.pop (if h.len s - 1 = i then s
    else h.sift (h.swap s i (h.len s - 1)) i (h.len s - 1))

/-- `heap.Fix` -/
def fix (s : S) (i : ℕ) : S :=
  h.sift s i (h.len s)

/-! ## Laws -/

/-- The collection is a sequence: a swap exchanges two positions, `push` adds an element
behind the others, and `pop` takes the last one away. -/
structure Lawful : Prop where
  len_swap : ∀ s i j, h.len (h.swap s i j) = h.len s
  less_swap : ∀ {s i j a b}, i < h.len s → j < h.len s → a < h.len s → b < h.len s →
    h.less (h.swap s i j) a b = h.less s (Equiv.swap i j a) (Equiv.swap i j b)
  len_push : ∀ s x, h.len (h.push s x) = h.len s + 1
  less_push : ∀ {s x a b}, a < h.len s → b < h.len s → h.less (h.push s x) a b = h.less s a b
  len_pop : ∀ {s s' x}, h.pop s = some (x, s') → h.len s = h.len s' + 1
  less_pop : ∀ {s s' x a b}, h.pop s = some (x, s') → a < h.len s' → b < h.len s' →
    h.less s' a b = h.less s a b

/-- The order is asymmetric, and not to be less is transitive. -/
structure Ordered : Prop extends h.Lawful where
  asymm : ∀ {s i j}, i < h.len s → j < h.len s → h.less s i j = true → h.less s j i = false
  trans : ∀ {s i j k}, i < h.len s → j < h.len s → k < h.len s → h.less s i j = false →
    h.less s j k = false → h.less s i k = false

/-- A property that swaps of the first `n` positions keep. -/
def KeepsBelow (n : ℕ) (P : S → Prop) : Prop :=
  ∀ {s i j}, n ≤ h.len s → i < n → j < n → P s → P (h.swap s i j)

/-- A property that all swaps keep. -/
def Keeps (P : S → Prop) : Prop :=
  ∀ {s i j}, i < h.len s → j < h.len s → P s → P (h.swap s i j)

/-! ## What swaps keep -/

variable {h} {s : S} {P : S → Prop} {i j k n : ℕ}

theorem parent_le (k : ℕ) : parent k ≤ k :=
  (Nat.div_le_self _ _).trans (Nat.sub_le _ _)

theorem parent_lt (hk : 0 < k) : parent k < k := by
  unfold parent
  omega

theorem parent_eq_iff (hk : 0 < k) : parent k = i ↔ k = 2 * i + 1 ∨ k = 2 * i + 2 := by
  unfold parent
  omega

theorem smallerChild_eq (s : S) (i n : ℕ) :
    h.smallerChild s i n = 2 * i + 1 ∨ h.smallerChild s i n = 2 * i + 2 := by
  unfold smallerChild
  split
  · exact .inr rfl
  · exact .inl rfl

theorem smallerChild_lt (s : S) (hi : 2 * i + 1 < n) : h.smallerChild s i n < n := by
  unfold smallerChild
  split
  case isTrue hc => exact hc.1
  case isFalse => exact hi

theorem lt_smallerChild (s : S) (i n : ℕ) : i < h.smallerChild s i n := by
  rcases h.smallerChild_eq s i n with hc | hc <;> omega

theorem Keeps.below (hP : h.Keeps P) (n : ℕ) : h.KeepsBelow n P :=
  fun hn hi hj => hP (hi.trans_le hn) (hj.trans_le hn)

theorem up_keeps (hl : h.Lawful) (hP : h.KeepsBelow n P) (bound : ℕ) :
    ∀ {s j}, n ≤ h.len s → j < n → P s →
      P (h.up bound s j) ∧ h.len (h.up bound s j) = h.len s := by
  induction bound with
  | zero => exact fun _ _ hs => ⟨hs, rfl⟩
  | succ bound ih =>
    intro s j hn hj hs
    rw [up]
    split
    · exact ⟨hs, rfl⟩
    · have hi := (parent_le j).trans_lt hj
      have hrec := ih (s := h.swap s (parent j) j) (j := parent j)
        (by rw [hl.len_swap]; exact hn) hi (hP hn hi hj hs)
      rw [hl.len_swap] at hrec
      exact hrec

theorem down_keeps (hl : h.Lawful) (hP : h.KeepsBelow n P) (bound : ℕ) :
    ∀ {s i}, n ≤ h.len s → P s →
      P (h.down bound s i n).1 ∧ h.len (h.down bound s i n).1 = h.len s := by
  induction bound with
  | zero => exact fun _ hs => ⟨hs, rfl⟩
  | succ bound ih =>
    intro s i hn hs
    rw [down]
    split
    · exact ⟨hs, rfl⟩
    · split
      · exact ⟨hs, rfl⟩
      · rename_i hi _
        have hc := h.smallerChild_lt s (not_le.mp hi)
        have hrec := ih (s := h.swap s i (h.smallerChild s i n)) (i := h.smallerChild s i n)
          (by rw [hl.len_swap]; exact hn) (hP hn ((h.lt_smallerChild s i n).trans hc) hc hs)
        rw [hl.len_swap] at hrec
        exact hrec

theorem sift_keeps (hl : h.Lawful) (hP : h.KeepsBelow n P) (hi : i < n) (hn : n ≤ h.len s)
    (hs : P s) : P (h.sift s i n) ∧ h.len (h.sift s i n) = h.len s := by
  have hdown := h.down_keeps (i := i) hl hP n hn hs
  unfold sift
  split
  · exact hdown
  · have hup := h.up_keeps hl hP i (s := (h.down n s i n).1) (j := i) (by rw [hdown.2]; exact hn)
      hi hdown.1
    rw [hdown.2] at hup
    exact hup

/-- **What every swap keeps, `fix` keeps.** -/
theorem fix_keeps (hl : h.Lawful) (hP : h.Keeps P) (hi : i < h.len s) (hs : P s) :
    P (h.fix s i) ∧ h.len (h.fix s i) = h.len s :=
  h.sift_keeps hl (hP.below _) hi le_rfl hs

theorem heapPush_keeps (hl : h.Lawful) (hP : h.Keeps P) {x : α} (hs : P (h.push s x)) :
    P (h.heapPush s x) ∧ h.len (h.heapPush s x) = h.len s + 1 := by
  have hup := h.up_keeps hl (hP.below _) (h.len (h.push s x) - 1) (s := h.push s x)
    (j := h.len (h.push s x) - 1) le_rfl (by rw [hl.len_push]; omega) hs
  rw [hl.len_push] at hup
  unfold heapPush
  rw [hl.len_push]
  exact hup

/-- `heap.Pop` is `Pop` after the swap of the root with the last position and swaps of
other positions. -/
theorem heapPop_keeps (hl : h.Lawful) (hP : h.KeepsBelow (h.len s - 1) P)
    (hs : P (h.swap s 0 (h.len s - 1))) :
    ∃ s₁, P s₁ ∧ h.len s₁ = h.len s ∧ h.heapPop s = h.pop s₁ := by
  have hdown := h.down_keeps (s := h.swap s 0 (h.len s - 1)) (i := 0) hl hP
    (h.len s - 1) (by rw [hl.len_swap]; exact Nat.sub_le _ _) hs
  exact ⟨_, hdown.1, hdown.2.trans (hl.len_swap _ _ _), rfl⟩

/-- `heap.Remove` is `Pop` after the swap of a position with the last one and swaps of
other positions. -/
theorem remove_keeps (hl : h.Lawful) (hP : h.KeepsBelow (h.len s - 1) P) (hi : i < h.len s)
    (hs : P (if h.len s - 1 = i then s else h.swap s i (h.len s - 1))) :
    ∃ s₁, P s₁ ∧ h.len s₁ = h.len s ∧ h.remove s i = h.pop s₁ := by
  unfold remove
  split at hs
  case isTrue hlast =>
    rw [if_pos hlast]
    exact ⟨s, hs, rfl, rfl⟩
  case isFalse hlast =>
    rw [if_neg hlast]
    have hsift := h.sift_keeps (s := h.swap s i (h.len s - 1)) (i := i) hl hP (by omega)
      (by rw [hl.len_swap]; exact Nat.sub_le _ _) hs
    exact ⟨_, hsift.1, hsift.2.trans (hl.len_swap _ _ _), rfl⟩

/-! ## The heap order -/

variable (h) in
/-- No element at the first `n` positions is less than its parent. -/
def IsHeap (s : S) (n : ℕ) : Prop :=
  ∀ k, 0 < k → k < n → h.less s k (parent k) = false

variable (h) in
/-- The first `n` positions are in order, except that the element at `i` may be in the
wrong place. -/
structure OrderedExcept (s : S) (n i : ℕ) : Prop where
  off : ∀ k, 0 < k → k < n → k ≠ i → parent k ≠ i → h.less s k (parent k) = false
  grand : 0 < i → ∀ k, 0 < k → k < n → parent k = i → h.less s k (parent i) = false

/-- No element is less than the root. -/
theorem IsHeap.root (ho : h.Ordered) (hs : h.IsHeap s n) (hn : n ≤ h.len s) :
    ∀ k < n, h.less s k 0 = false := by
  intro k
  induction k using Nat.strong_induction_on with
  | _ k ih =>
    intro hk
    have hpos : 0 < h.len s := (Nat.zero_le k).trans_lt (hk.trans_le hn)
    rcases Nat.eq_zero_or_pos k with rfl | h0
    · by_contra hne
      have htrue := Bool.eq_true_of_not_eq_false hne
      exact hne (ho.asymm hpos hpos htrue)
    · have hp := parent_lt h0
      exact ho.trans (hk.trans_le hn) (hp.trans (hk.trans_le hn)) hpos (hs k h0 hk)
        (ih _ hp (hp.trans hk))

theorem IsHeap.orderedExcept (hs : h.IsHeap s n) (ho : h.Ordered) (hn : n ≤ h.len s)
    (hi : i < n) : h.OrderedExcept s n i where
  off k h0 hk _ _ := hs k h0 hk
  grand h0 k hk0 hk hp := by
    have hki := hs k hk0 hk
    rw [hp] at hki
    exact ho.trans (hk.trans_le hn) (hi.trans_le hn)
      (((parent_lt h0).trans hi).trans_le hn) hki (hs i h0 hi)

/-- The element is in its place if it is not less than its parent and its children are
not less than it. -/
theorem OrderedExcept.isHeap (hs : h.OrderedExcept s n i)
    (habove : 0 < i → h.less s i (parent i) = false)
    (hbelow : ∀ k, 0 < k → k < n → parent k = i → h.less s k i = false) : h.IsHeap s n := by
  intro k h0 hk
  by_cases hki : k = i
  · rw [hki] at h0 ⊢
    exact habove h0
  · by_cases hp : parent k = i
    · rw [hp]
      exact hbelow k h0 hk hp
    · exact hs.off k h0 hk hki hp

/-- **A step of `up`.** The element takes the place of its parent, and its new children
are not less than it. -/
theorem OrderedExcept.up (ho : h.Ordered) (hn : n ≤ h.len s) (hj : j < n) (h0 : 0 < j)
    (hs : h.OrderedExcept s n j)
    (hless : h.less s j (parent j) = true) :
    h.OrderedExcept (h.swap s (parent j) j) n (parent j)
      ∧ ∀ k, 0 < k → k < n → parent k = parent j →
        h.less (h.swap s (parent j) j) k (parent j) = false := by
  have hpj : parent j < j := parent_lt h0
  have hjn := hj.trans_le hn
  have hpn := hpj.trans hjn
  -- the siblings of the element are not less than its parent, which is not less than it
  have hsibling : ∀ k, 0 < k → k < n → k ≠ j → parent k = parent j →
      h.less s k (parent j) = false := fun k hk0 hk hkj hp => by
    rw [← hp]
    exact hs.off k hk0 hk hkj (by rw [hp]; exact hpj.ne)
  have hparent : h.less s (parent j) j = false := ho.asymm hjn hpn hless
  have hswap : ∀ {a b}, a < n → b < n → h.less (h.swap s (parent j) j) a b
      = h.less s (Equiv.swap (parent j) j a) (Equiv.swap (parent j) j b) := fun ha hb =>
    ho.less_swap hpn hjn (ha.trans_le hn) (hb.trans_le hn)
  refine ⟨⟨?_, ?_⟩, ?_⟩
  · intro k hk0 hk hkp hp
    have hkj : k ≠ j := fun hkj => hp (by rw [hkj])
    rw [hswap hk ((parent_lt hk0).trans hk), swap_apply_of_ne_of_ne hkp hkj]
    by_cases hpk : parent k = j
    · rw [hpk, swap_apply_right]
      exact hs.grand h0 k hk0 hk hpk
    · rw [swap_apply_of_ne_of_ne hp hpk]
      exact hs.off k hk0 hk hkj hpk
  · intro hp0 k hk0 hk hp
    have hpp : parent (parent j) < parent j := parent_lt hp0
    have hgrand : h.less s (parent j) (parent (parent j)) = false :=
      hs.off _ hp0 (hpj.trans hj) hpj.ne (hpp.trans hpj).ne
    rw [hswap hk ((hpp.trans hpj).trans hj),
      swap_apply_of_ne_of_ne hpp.ne (hpp.trans hpj).ne]
    by_cases hkj : k = j
    · rw [hkj, swap_apply_right]
      exact hgrand
    · have hkp : k ≠ parent j := fun hkp => (parent_lt hk0).ne (hp.trans hkp.symm)
      rw [swap_apply_of_ne_of_ne hkp hkj]
      exact ho.trans (hk.trans_le hn) hpn (hpp.trans hpn) (hsibling k hk0 hk hkj hp) hgrand
  · intro k hk0 hk hp
    rw [hswap hk (hpj.trans hj), swap_apply_left]
    by_cases hkj : k = j
    · rw [hkj, swap_apply_right]
      exact hparent
    · have hkp : k ≠ parent j := fun hkp => (parent_lt hk0).ne (hp.trans hkp.symm)
      rw [swap_apply_of_ne_of_ne hkp hkj]
      exact ho.trans (hk.trans_le hn) hpn hjn (hsibling k hk0 hk hkj hp) hparent

theorem less_smallerChild (ho : h.Ordered) (hn : n ≤ h.len s) (hk0 : 0 < k) (hk : k < n)
    (hp : parent k = i) : h.less s k (h.smallerChild s i n) = false := by
  have hirrefl : ∀ {a}, a < h.len s → h.less s a a = false := fun ha => by
    by_contra hne
    exact hne (ho.asymm ha ha (Bool.eq_true_of_not_eq_false hne))
  rcases (parent_eq_iff hk0).mp hp with rfl | rfl
  · unfold smallerChild
    split
    case isTrue hc => exact ho.asymm (hc.1.trans_le hn) (hk.trans_le hn) hc.2
    case isFalse => exact hirrefl (hk.trans_le hn)
  · unfold smallerChild
    split
    case isTrue => exact hirrefl (hk.trans_le hn)
    case isFalse hc => exact Bool.eq_false_of_not_eq_true fun hless => hc ⟨hk, hless⟩

/-- **A step of `down`.** The child that takes the place of the element is in order
with its new parent and its new child. -/
theorem OrderedExcept.down (ho : h.Ordered) (hn : n ≤ h.len s) (hi : 2 * i + 1 < n)
    (hs : h.OrderedExcept s n i)
    (hless : h.less s (h.smallerChild s i n) i = true) :
    h.OrderedExcept (h.swap s i (h.smallerChild s i n)) n (h.smallerChild s i n)
      ∧ h.less (h.swap s i (h.smallerChild s i n)) (h.smallerChild s i n) i = false := by
  have hic := h.lt_smallerChild s i n
  have hcn := h.smallerChild_lt s hi
  have hpc : parent (h.smallerChild s i n) = i :=
    (parent_eq_iff ((Nat.zero_le i).trans_lt hic)).mpr (h.smallerChild_eq s i n)
  have hsmallest : ∀ k, 0 < k → k < n → parent k = i →
      h.less s k (h.smallerChild s i n) = false := fun k => h.less_smallerChild ho hn
  generalize h.smallerChild s i n = c at *
  have hin := hic.trans hcn
  have hswap : ∀ {a b}, a < n → b < n → h.less (h.swap s i c) a b
      = h.less s (Equiv.swap i c a) (Equiv.swap i c b) := fun ha hb =>
    ho.less_swap (hin.trans_le hn) (hcn.trans_le hn) (ha.trans_le hn) (hb.trans_le hn)
  refine ⟨⟨?_, ?_⟩, ?_⟩
  · intro k hk0 hk hkc hp
    rw [hswap hk ((parent_lt hk0).trans hk)]
    by_cases hki : k = i
    · subst hki
      rw [swap_apply_left,
        swap_apply_of_ne_of_ne (parent_lt hk0).ne ((parent_lt hk0).trans hic).ne]
      exact hs.grand hk0 c (hk0.trans hic) hcn hpc
    · rw [swap_apply_of_ne_of_ne hki hkc]
      by_cases hpi : parent k = i
      · rw [hpi, swap_apply_left]
        exact hsmallest k hk0 hk hpi
      · rw [swap_apply_of_ne_of_ne hpi hp]
        exact hs.off k hk0 hk hki hpi
  · intro _ k hk0 hk hp
    have hck : c < k := by
      rw [← hp]
      exact parent_lt hk0
    rw [hpc, hswap hk hin, swap_apply_left,
      swap_apply_of_ne_of_ne (hic.trans hck).ne' hck.ne', ← hp]
    exact hs.off k hk0 hk (hic.trans hck).ne' (by rw [hp]; exact hic.ne')
  · rw [hswap hcn hin, swap_apply_left, swap_apply_right]
    exact ho.asymm (hcn.trans_le hn) (hin.trans_le hn) hless

/-- `up` brings an element to its place that may be less than its parent. -/
theorem up_isHeap (ho : h.Ordered) (bound : ℕ) :
    ∀ {s j}, n ≤ h.len s → j < n → j ≤ bound → h.OrderedExcept s n j →
      (∀ k, 0 < k → k < n → parent k = j → h.less s k j = false) →
      h.IsHeap (h.up bound s j) n := by
  induction bound with
  | zero =>
    intro s j hn hj hbound hs hbelow
    exact hs.isHeap (fun h0 => absurd hbound (Nat.not_le.mpr h0)) hbelow
  | succ bound ih =>
    intro s j hn hj hbound hs hbelow
    rw [up]
    split
    case isTrue hstop =>
      exact hs.isHeap (fun h0 => hstop.resolve_left (parent_lt h0).ne) hbelow
    case isFalse hgo =>
      obtain ⟨hne, hless⟩ := not_or.mp hgo
      have h0 : 0 < j := Nat.pos_of_ne_zero fun h0 => hne (by rw [h0]; rfl)
      have hstep := hs.up ho hn hj h0 (Bool.eq_true_of_not_eq_false hless)
      exact ih (by rw [ho.len_swap]; exact hn) ((parent_lt h0).trans hj)
        (Nat.le_of_lt_succ ((parent_lt h0).trans_le hbound)) hstep.1 hstep.2

/-- `down` brings an element to its place that is not less than its parent. -/
theorem down_isHeap (ho : h.Ordered) (bound : ℕ) :
    ∀ {s i}, n ≤ h.len s → n ≤ bound + i → h.OrderedExcept s n i →
      (0 < i → h.less s i (parent i) = false) → h.IsHeap (h.down bound s i n).1 n := by
  induction bound with
  | zero =>
    intro s i hn hbound hs habove
    refine hs.isHeap habove fun k hk0 hk hp => ?_
    have hik : i < k := hp ▸ parent_lt hk0
    omega
  | succ bound ih =>
    intro s i hn hbound hs habove
    rw [Interface.down]
    split
    case isTrue hleaf =>
      refine hs.isHeap habove fun k hk0 hk hp => ?_
      rcases (parent_eq_iff hk0).mp hp with rfl | rfl <;> omega
    case isFalse hi =>
      have hic := h.lt_smallerChild s i n
      have hcn := h.smallerChild_lt s (not_le.mp hi)
      split
      case isTrue hstop =>
        refine hs.isHeap habove fun k hk0 hk hp => ?_
        exact ho.trans (hk.trans_le hn) (hcn.trans_le hn) ((hic.trans hcn).trans_le hn)
          (h.less_smallerChild ho hn hk0 hk hp) hstop
      case isFalse hless =>
        have hstep := hs.down ho hn (not_le.mp hi) (Bool.eq_true_of_not_eq_false hless)
        have hpc : parent (h.smallerChild s i n) = i :=
          (parent_eq_iff ((Nat.zero_le i).trans_lt hic)).mpr (h.smallerChild_eq s i n)
        refine ih (by rw [ho.len_swap]; exact hn) (by omega) hstep.1 fun _ => ?_
        rw [hpc]
        exact hstep.2

theorem le_down_snd (bound : ℕ) : ∀ {s i}, i ≤ (h.down bound s i n).2 := by
  induction bound with
  | zero => exact le_rfl
  | succ bound ih =>
    intro s i
    rw [down]
    split
    · exact le_rfl
    · split
      · exact le_rfl
      · exact (h.lt_smallerChild s i n).le.trans ih

/-- **`down`, and `up` if it did not move the element**, bring an element to its
place. -/
theorem sift_isHeap (ho : h.Ordered) (hn : n ≤ h.len s) (hi : i < n)
    (hs : h.OrderedExcept s n i) : h.IsHeap (h.sift s i n) n := by
  obtain ⟨bound, rfl⟩ : ∃ bound, n = bound + 1 := Nat.exists_eq_add_one.mpr
    ((Nat.zero_le i).trans_lt hi)
  have hstay : (∀ k, 0 < k → k < bound + 1 → parent k = i → h.less s k i = false) →
      h.IsHeap (h.up i s i) (bound + 1) := up_isHeap ho i hn hi le_rfl hs
  unfold sift
  rw [Interface.down]
  split
  case isTrue hleaf =>
    rw [if_neg (lt_irrefl i)]
    refine hstay fun k hk0 hk hp => ?_
    rcases (parent_eq_iff hk0).mp hp with rfl | rfl <;> omega
  case isFalse hchild =>
    have hic := h.lt_smallerChild s i (bound + 1)
    have hcn := h.smallerChild_lt s (not_le.mp hchild)
    split
    case isTrue hstop =>
      rw [if_neg (lt_irrefl i)]
      refine hstay fun k hk0 hk hp => ?_
      exact ho.trans (hk.trans_le hn) (hcn.trans_le hn) (hi.trans_le hn)
        (h.less_smallerChild ho hn hk0 hk hp) hstop
    case isFalse hless =>
      have hstep := hs.down ho hn (not_le.mp hchild) (Bool.eq_true_of_not_eq_false hless)
      have hpc : parent (h.smallerChild s i (bound + 1)) = i :=
        (parent_eq_iff ((Nat.zero_le i).trans_lt hic)).mpr (h.smallerChild_eq s i _)
      rw [if_pos (hic.trans_le (h.le_down_snd bound))]
      refine down_isHeap ho bound (by rw [ho.len_swap]; exact hn) (by omega) hstep.1 fun _ => ?_
      rw [hpc]
      exact hstep.2

/-- **`fix` restores the order** after the element at a position has changed. -/
theorem fix_isHeap (ho : h.Ordered) (hi : i < h.len s) (hs : h.OrderedExcept s (h.len s) i) :
    h.IsHeap (h.fix s i) (h.len s) :=
  sift_isHeap ho le_rfl hi hs

theorem heapPush_isHeap (ho : h.Ordered) (hs : h.IsHeap s (h.len s)) (x : α) :
    h.IsHeap (h.heapPush s x) (h.len s + 1) := by
  have hlen := ho.len_push s x
  -- the new element has no children
  have hleaf : ∀ k, k < h.len s + 1 → 0 < k → parent k ≠ h.len s := fun k hk h0 hp =>
    absurd (hp ▸ parent_lt h0) (Nat.not_lt.mpr (Nat.le_of_lt_succ hk))
  unfold heapPush
  rw [hlen, Nat.add_sub_cancel]
  refine up_isHeap ho _ hlen.ge (Nat.lt_succ_self _) le_rfl ⟨?_, ?_⟩ ?_
  · intro k h0 hk hne _
    have hk' : k < h.len s := lt_of_le_of_ne (Nat.le_of_lt_succ hk) hne
    rw [ho.less_push hk' ((parent_lt h0).trans hk')]
    exact hs k h0 hk'
  · exact fun _ k h0 hk hp => absurd hp (hleaf k hk h0)
  · exact fun k h0 hk hp => absurd hp (hleaf k hk h0)

/-- Positions other than `i` and the last one are in order after the two were
swapped. -/
theorem OrderedExcept.swap_last (ho : h.Ordered) (hs : h.IsHeap s (h.len s))
    (hi : i < h.len s - 1) : h.OrderedExcept (h.swap s i (h.len s - 1)) (h.len s - 1) i := by
  have hlast : h.len s - 1 < h.len s := by omega
  have hswap : ∀ {a b}, a < h.len s - 1 → b < h.len s - 1 → a ≠ i → b ≠ i →
      h.less (h.swap s i (h.len s - 1)) a b = h.less s a b := fun ha hb hai hbi => by
    rw [ho.less_swap (hi.trans hlast) hlast (ha.trans hlast) (hb.trans hlast),
      swap_apply_of_ne_of_ne hai ha.ne, swap_apply_of_ne_of_ne hbi hb.ne]
  have hexcept := hs.orderedExcept ho le_rfl (hi.trans hlast)
  constructor
  · intro k h0 hk hki hpi
    rw [hswap hk ((parent_lt h0).trans hk) hki hpi]
    exact hexcept.off k h0 (hk.trans hlast) hki hpi
  · intro h0 k hk0 hk hp
    have hki : k ≠ i := fun hki => (parent_lt hk0).ne (hp.trans hki.symm)
    rw [hswap hk ((parent_lt h0).trans hi) hki (parent_lt h0).ne]
    exact hexcept.grand h0 k hk0 (hk.trans hlast) hp

theorem pop_isHeap (hl : h.Lawful) {s' : S} {x : β} (hpop : h.pop s = some (x, s'))
    (hs : h.IsHeap s (h.len s - 1)) : h.IsHeap s' (h.len s') := by
  have hlen := hl.len_pop hpop
  intro k h0 hk
  rw [hl.less_pop hpop hk ((parent_lt h0).trans hk)]
  exact hs k h0 (by rw [hlen]; exact hk)

theorem remove_isHeap (ho : h.Ordered) (hs : h.IsHeap s (h.len s)) (hi : i < h.len s) {s' : S}
    {x : β} (hpop : h.remove s i = some (x, s')) : h.IsHeap s' (h.len s') := by
  unfold remove at hpop
  split at hpop
  case isTrue hlast =>
    refine pop_isHeap ho.toLawful hpop fun k h0 hk => hs k h0 (hk.trans_le (Nat.sub_le _ _))
  case isFalse hne =>
    have hi' : i < h.len s - 1 := by omega
    have hlen : h.len (h.swap s i (h.len s - 1)) = h.len s := ho.len_swap _ _ _
    have hsift := sift_isHeap ho (by rw [hlen]; exact Nat.sub_le _ _) hi'
      (OrderedExcept.swap_last ho hs hi')
    have hkept := (h.sift_keeps (P := fun _ => True) ho.toLawful (fun _ _ _ _ => trivial)
      (s := h.swap s i (h.len s - 1)) (n := h.len s - 1) hi'
      (by rw [hlen]; exact Nat.sub_le _ _) trivial).2
    refine pop_isHeap ho.toLawful hpop ?_
    rw [hkept, hlen]
    exact hsift

theorem heapPop_isHeap (ho : h.Ordered) (hs : h.IsHeap s (h.len s)) {s' : S} {x : β}
    (hpop : h.heapPop s = some (x, s')) : h.IsHeap s' (h.len s') := by
  have hlen : h.len (h.swap s 0 (h.len s - 1)) = h.len s := ho.len_swap _ _ _
  have hkept := (h.down_keeps (P := fun _ => True) ho.toLawful (fun _ _ _ _ => trivial)
    (s := h.swap s 0 (h.len s - 1)) (i := 0) (n := h.len s - 1) (h.len s - 1)
    (by rw [hlen]; exact Nat.sub_le _ _) trivial).2
  refine pop_isHeap ho.toLawful hpop ?_
  rw [hkept, hlen]
  rcases Nat.eq_zero_or_pos (h.len s - 1) with h0 | h0
  · exact fun k _ hk => absurd hk (by omega)
  · exact down_isHeap ho _ (by rw [hlen]; exact Nat.sub_le _ _) le_rfl
      (OrderedExcept.swap_last ho hs h0) fun h => absurd h (lt_irrefl 0)

end Interface

/-! ## Slices -/

section Slices

variable {α : Type} {l : List α} {i j k : ℕ}

/-- The assignment `l[i], l[j] = l[j], l[i]`. Positions outside of the slice are not
used. -/
def swapAt (l : List α) (i j : ℕ) : List α :=
  ((l[i]?.bind fun a => l[j]?.map fun b => (l.set i b).set j a)).getD l

theorem swapAt_eq (hi : i < l.length) (hj : j < l.length) :
    swapAt l i j = (l.set i l[j]).set j l[i] := by
  simp [swapAt, hi, hj]

theorem getElem?_swapAt (hi : i < l.length) (hj : j < l.length) (hk : k < l.length) :
    (swapAt l i j)[k]? = l[Equiv.swap i j k]? := by
  rw [swapAt_eq hi hj, swap_apply_def]
  grind

theorem swapAt_perm (l : List α) (i j : ℕ) : (swapAt l i j).Perm l := by
  by_cases hi : i < l.length
  · by_cases hj : j < l.length
    · rw [swapAt_eq hi hj]
      exact set_set_perm hi hj
    · simp [swapAt, getElem?_eq_none (not_lt.mp hj)]
  · simp [swapAt, getElem?_eq_none (not_lt.mp hi)]

variable (lt : α → α → Bool)

/-- A slice as a collection. -/
def slice : Interface (List α) α α where
  len := List.length
  less l i j := (l[i]?.bind fun a => l[j]?.map fun b => lt a b).getD false
  swap := swapAt
  push l x := l ++ [x]
  pop l := l.getLast?.map fun x => (x, l.dropLast)

variable {lt}

theorem slice_less {a b : α} (hi : l[i]? = some a) (hj : l[j]? = some b) :
    (slice lt).less l i j = lt a b := by
  simp [slice, hi, hj]

theorem slice_pop_eq_some {x : α} {l' : List α} :
    (slice lt).pop l = some (x, l') ↔ l = l' ++ [x] := by
  cases l using reverseRecOn with
  | nil => simp [slice]
  | append_singleton l y => simp [slice, and_comm]

theorem slice_lawful (lt : α → α → Bool) : (slice lt).Lawful where
  len_swap l i j := (swapAt_perm l i j).length_eq
  less_swap {l i j a b} hi hj ha hb := by
    show ((swapAt l i j)[a]?.bind fun x => (swapAt l i j)[b]?.map fun y => lt x y).getD false = _
    rw [getElem?_swapAt hi hj ha, getElem?_swapAt hi hj hb]
    rfl
  len_push l x := length_append
  less_push {l x a b} ha hb := by
    show ((l ++ [x])[a]?.bind fun y => (l ++ [x])[b]?.map fun z => lt y z).getD false = _
    rw [getElem?_append_left ha, getElem?_append_left hb]
    rfl
  len_pop {l l' x} hpop := by
    rw [slice_pop_eq_some.mp hpop]
    exact length_append
  less_pop {l l' x a b} hpop ha hb := by
    rw [slice_pop_eq_some.mp hpop]
    show _ = ((l' ++ [x])[a]?.bind fun y => (l' ++ [x])[b]?.map fun z => lt y z).getD false
    rw [getElem?_append_left ha, getElem?_append_left hb]
    rfl

theorem slice_ordered (hasymm : ∀ a b, lt a b = true → lt b a = false)
    (htrans : ∀ a b c, lt a b = false → lt b c = false → lt a c = false) :
    (slice lt).Ordered where
  toLawful := slice_lawful lt
  asymm hi hj := by
    rw [slice_less (getElem?_eq_getElem hi) (getElem?_eq_getElem hj),
      slice_less (getElem?_eq_getElem hj) (getElem?_eq_getElem hi)]
    exact hasymm _ _
  trans hi hj hk := by
    rw [slice_less (getElem?_eq_getElem hi) (getElem?_eq_getElem hj),
      slice_less (getElem?_eq_getElem hj) (getElem?_eq_getElem hk),
      slice_less (getElem?_eq_getElem hi) (getElem?_eq_getElem hk)]
    exact htrans _ _ _

theorem slice_keeps_perm (l₀ : List α) : (slice lt).Keeps (·.Perm l₀) :=
  fun _ _ hl => (swapAt_perm _ _ _).trans hl

theorem slice_heapPush_perm (l : List α) (x : α) :
    ((slice lt).heapPush l x).Perm (x :: l) :=
  ((slice lt).heapPush_keeps (slice_lawful lt) (slice_keeps_perm (x :: l))
    (perm_append_singleton x l)).1

/-- **`heap.Pop` takes the root away.** -/
theorem slice_heapPop_perm {x : α} (hx : l[0]? = some x) :
    ∃ l', (slice lt).heapPop l = some (x, l') ∧ l.Perm (x :: l') := by
  have hpos : 0 < l.length := (List.getElem?_eq_some_iff.mp hx).1
  -- the root is at the last position when the others are brought in order
  have hkeeps : (slice lt).KeepsBelow ((slice lt).len l - 1)
      fun l₁ => l₁.Perm l ∧ l₁[l.length - 1]? = some x := by
    intro l₁ i j hn hi hj hl₁
    have hlen : l₁.length = l.length := hl₁.1.length_eq
    have hi' : i < l.length - 1 := hi
    have hj' : j < l.length - 1 := hj
    refine ⟨(swapAt_perm _ _ _).trans hl₁.1, ?_⟩
    show (swapAt l₁ i j)[l.length - 1]? = some x
    rw [getElem?_swapAt (by omega) (by omega) (by omega),
      swap_apply_of_ne_of_ne hi'.ne' hj'.ne']
    exact hl₁.2
  obtain ⟨l₁, ⟨hperm, hlast⟩, hlen, hpop⟩ := (slice lt).heapPop_keeps (slice_lawful lt) hkeeps
    ⟨swapAt_perm _ _ _, by
      show (swapAt l 0 (l.length - 1))[l.length - 1]? = some x
      rw [getElem?_swapAt hpos (Nat.sub_lt hpos Nat.one_pos) (Nat.sub_lt hpos Nat.one_pos),
        swap_apply_right]
      exact hx⟩
  cases l₁ using reverseRecOn with
  | nil => exact absurd hperm.length_eq hpos.ne
  | append_singleton l' y =>
    have hlen' : l.length = l'.length + 1 := by
      rw [← hperm.length_eq]
      exact length_append
    have hxy : y = x := by
      simpa [hlen'] using hlast
    subst hxy
    exact ⟨l', hpop.trans (slice_pop_eq_some.mpr rfl),
      hperm.symm.trans (perm_append_singleton y l')⟩

end Slices

end Heap
