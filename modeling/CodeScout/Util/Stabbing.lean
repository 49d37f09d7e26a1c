import Mathlib.Data.Finset.Card
import Mathlib.Data.List.Chain
import Mathlib.Order.Lattice
import Mathlib.Tactic

/-!
# Serving intervals by points

A scan over a list of items chooses points. It carries the point chosen last:
an item that this point misses gets a point of its own. `misses` says when a
point does not serve an item, `cut` which point an item gets.

Every item is served by its own point or by the one of an item before it
(`exists_mem_greedy`). With intervals closed below and open above, items that
are each missed by the point of the one before are disjoint, and disjoint
intervals need one point each (`length_le_card_of_pairwise`), so that no
smaller set of points serves them all.

Where the scan chooses a point does not depend on the scan: it is where more
intervals are disjoint than before (`needsPoint_iff`).
-/

namespace Stabbing

open List

variable {ι V : Type} (misses : V → ι → Bool) (cut : ι → V)

/-- The items that get a point of their own. -/
def greedy : Option V → List ι → List ι
  | _, [] => []
  | last, i :: l =>
    if last.all fun p => misses p i then i :: greedy (some (cut i)) l
    else greedy last l

variable {misses cut}

variable {l : List ι} {last : Option V}

theorem greedy_subset : greedy misses cut last l ⊆ l := by
  induction l generalizing last with
  | nil => exact List.Subset.refl _
  | cons i l ih =>
    rw [greedy]
    split_ifs
    · exact cons_subset_cons i ih
    · exact List.Subset.trans ih (subset_cons_self i l)

/-- **Every item is served**, by the point chosen last before the list or by
the point of an item of the list, which is itself or comes before it. -/
theorem exists_mem_greedy {R : ι → ι → Prop} (hrefl : ∀ i, R i i)
    (hl : l.Pairwise R) {i : ι} (hi : i ∈ l) :
    (∃ p ∈ last, misses p i = false) ∨
      ∃ j ∈ greedy misses cut last l, R j i ∧ (j = i ∨ misses (cut j) i = false) := by
  induction l generalizing last with
  | nil => cases hi
  | cons k l ih =>
    obtain ⟨hk, hl⟩ := pairwise_cons.mp hl
    rw [greedy]
    split_ifs with hmiss
    · right
      rcases mem_cons.mp hi with rfl | hi
      · exact ⟨i, mem_cons_self, hrefl i, .inl rfl⟩
      · rcases @ih (some (cut k)) hl hi with ⟨p, hp, hserves⟩ | ⟨j, hj, hserves⟩
        · cases hp
          exact ⟨k, mem_cons_self, hk i hi, .inr hserves⟩
        · exact ⟨j, mem_cons_of_mem _ hj, hserves⟩
    · rcases mem_cons.mp hi with rfl | hi
      · left
        cases last with
        | none => exact absurd rfl hmiss
        | some p => exact ⟨p, rfl, by simpa using hmiss⟩
      · exact ih hl hi

/-- An item that gets a point is missed by the point before. -/
theorem isChain_greedy :
    (greedy misses cut last l).IsChain (fun i j => misses (cut i) j = true) ∧
      ∀ p ∈ last, ∀ i ∈ (greedy misses cut last l).head?, misses p i = true := by
  induction l generalizing last with
  | nil => exact ⟨.nil, fun _ _ _ hi => nomatch hi⟩
  | cons k l ih =>
    rw [greedy]
    split_ifs with hmiss
    · refine ⟨isChain_cons.mpr ⟨fun j hj => ih.2 _ rfl j hj, ih.1⟩, fun p hp i hi => ?_⟩
      cases hp
      cases hi
      exact hmiss
    · exact ih

variable [LinearOrder V] {lo hi : ι → V}

/-- Intervals that follow each other are disjoint, also those further apart. -/
theorem pairwise_of_isChain (hproper : ∀ i ∈ l, lo i < hi i)
    (hl : l.IsChain fun i j => hi i ≤ lo j) : l.Pairwise fun i j => hi i ≤ lo j := by
  let R : ι → ι → Prop := fun i j => hi i ≤ lo j ∧ lo j < hi j
  have : Trans R R R := ⟨fun hij hjk => ⟨hij.1.trans (hij.2.le.trans hjk.1), hjk.2⟩⟩
  have hR : l.IsChain R := hl.imp_of_mem_imp fun i j _ hj hij => ⟨hij, hproper j hj⟩
  exact hR.pairwise.imp fun hij => hij.1

/-- **Disjoint intervals need one point each.** -/
theorem length_le_card_of_pairwise {serves : ι → V → Prop}
    (hl : l.Pairwise fun i j => ∀ p q, serves i p → serves j q → p < q)
    {points : Finset V} (hpoints : ∀ i ∈ l, ∃ p ∈ points, serves i p) :
    l.length ≤ points.card := by
  by_cases hempty : l = []
  · rw [hempty]
    exact Nat.zero_le _
  obtain ⟨p, -, -⟩ := hpoints _ (head_mem hempty)
  have : Nonempty V := ⟨p⟩
  choose! point hmem hserves using hpoints
  have hlt : (l.map point).Pairwise (· < ·) := by
    rw [pairwise_map]
    exact hl.imp_of_mem fun {i j} hi hj hij => hij _ _ (hserves i hi) (hserves j hj)
  have hnodup : (l.map point).Nodup := hlt.imp fun h => h.ne
  calc l.length = (l.map point).toFinset.card := by
        rw [toFinset_card_of_nodup hnodup, length_map]
    _ ≤ points.card := by
        refine Finset.card_le_card fun p hp => ?_
        obtain ⟨i, hi', rfl⟩ := mem_map.mp (mem_toFinset.mp hp)
        exact hmem i hi'

/-! ## Where points are needed -/

/-- A family of disjoint intervals of a set, from left to right. -/
def IsDisjoint (lo hi : ι → V) (s : Set ι) (family : List ι) : Prop :=
  (∀ i ∈ family, i ∈ s) ∧ family.Pairwise fun i j => hi i ≤ lo j

/-- **A further point is needed** for the intervals that end at `e`: of those that end
there or before, more are disjoint than of those that end before. -/
def NeedsPoint (lo hi : ι → V) (s : Set ι) (e : V) : Prop :=
  ∃ family, IsDisjoint lo hi {i | i ∈ s ∧ hi i ≤ e} family ∧
    ∀ earlier, IsDisjoint lo hi {i | i ∈ s ∧ hi i < e} earlier →
      earlier.length < family.length

/-- The scan that chooses the next interval that is disjoint from the one chosen last. -/
def disjoint (lo hi : ι → V) (l : List ι) : List ι :=
  greedy (fun i j => decide (hi i ≤ lo j)) id none l

section

variable (hproper : ∀ i ∈ l, lo i < hi i)

include hproper

theorem pairwise_disjoint : (disjoint lo hi l).Pairwise fun i j => hi i ≤ lo j := by
  refine pairwise_of_isChain (fun i h => hproper i (greedy_subset h)) ?_
  have hchain := (@isChain_greedy ι ι (fun i j => decide (hi i ≤ lo j)) id l none).1
  exact hchain.imp fun i j h => of_decide_eq_true h

variable (hsorted : l.Pairwise fun i j => hi i ≤ hi j)

include hsorted

/-- Every interval has the end of one that was chosen within it. -/
theorem exists_mem_disjoint {i : ι} (h : i ∈ l) :
    ∃ j ∈ disjoint lo hi l, hi j ≤ hi i ∧ lo i < hi j := by
  rcases @exists_mem_greedy ι ι (fun i j => decide (hi i ≤ lo j)) id l none _
    (fun i => le_refl (hi i)) hsorted i h with ⟨_, hp, -⟩ | ⟨j, hj, hle, hserves⟩
  · cases hp
  · refine ⟨j, hj, hle, ?_⟩
    obtain rfl | hserves := hserves
    · exact hproper j h
    · exact not_le.mp (of_decide_eq_false hserves)

/-- No more intervals are disjoint than were chosen. -/
theorem length_le_of_isDisjoint {q : V → Bool} (hq : ∀ {v w}, v ≤ w → q w = true → q v = true)
    {family : List ι} (h : IsDisjoint lo hi {i | i ∈ l ∧ q (hi i) = true} family) :
    family.length ≤ ((disjoint lo hi l).filter fun i => q (hi i)).length := by
  refine (@length_le_card_of_pairwise ι V family _ (fun i p => lo i < p ∧ p ≤ hi i) ?_
    (((disjoint lo hi l).filter fun i => q (hi i)).map hi).toFinset ?_).trans
    ((toFinset_card_le _).trans_eq (length_map _))
  · exact h.2.imp fun hij p q hp hq => (hp.2.trans hij).trans_lt hq.1
  · intro i hi'
    obtain ⟨hmem, hqi⟩ := h.1 i hi'
    obtain ⟨j, hj, hle, hlt⟩ := exists_mem_disjoint hproper hsorted hmem
    exact ⟨hi j, mem_toFinset.mpr (mem_map_of_mem (mem_filter.mpr ⟨hj, hq hle hqi⟩)), hlt, hle⟩

/-- **Where the scan chooses a point**: where one is needed. -/
theorem needsPoint_iff {e : V} :
    NeedsPoint lo hi {i | i ∈ l} e ↔ ∃ i ∈ disjoint lo hi l, hi i = e := by
  have hchosen : ∀ p : V → Bool,
      IsDisjoint lo hi {i | i ∈ l ∧ p (hi i) = true}
        ((disjoint lo hi l).filter fun i => p (hi i)) :=
    fun p => ⟨fun i h => ⟨greedy_subset (mem_filter.mp h).1, (mem_filter.mp h).2⟩,
      (pairwise_disjoint hproper).sublist filter_sublist⟩
  have hle := @length_le_of_isDisjoint ι V l _ lo hi hproper hsorted (fun v => decide (v ≤ e))
    fun hvw h => decide_eq_true (hvw.trans (of_decide_eq_true h))
  have hlt := @length_le_of_isDisjoint ι V l _ lo hi hproper hsorted (fun v => decide (v < e))
    fun hvw h => decide_eq_true (hvw.trans_lt (of_decide_eq_true h))
  have hchosenLe := hchosen fun v => decide (v ≤ e)
  have hchosenLt := hchosen fun v => decide (v < e)
  simp only [decide_eq_true_iff] at hle hlt hchosenLe hchosenLt
  constructor
  · rintro ⟨family, hfamily, hearlier⟩
    by_contra hnone
    push Not at hnone
    have hsame : (disjoint lo hi l).filter (fun i => decide (hi i ≤ e))
        = (disjoint lo hi l).filter fun i => decide (hi i < e) :=
      filter_congr fun i h =>
        decide_eq_decide.mpr ⟨fun h' => lt_of_le_of_ne h' (hnone i h), le_of_lt⟩
    have hbound := hle hfamily
    rw [hsame] at hbound
    exact absurd (hearlier _ hchosenLt) (not_lt.mpr hbound)
  · rintro ⟨i, h, rfl⟩
    refine ⟨_, hchosenLe, fun earlier hearlier => (hlt hearlier).trans_lt ?_⟩
    have hfilter : (disjoint lo hi l).filter (fun j => decide (hi j < hi i))
        = ((disjoint lo hi l).filter fun j => decide (hi j ≤ hi i)).filter
          fun j => decide (hi j < hi i) := by
      rw [filter_filter]
      exact filter_congr fun j _ => by simpa using le_of_lt
    rw [hfilter, length_filter_lt_length_iff_exists]
    exact ⟨i, mem_filter.mpr ⟨h, decide_eq_true le_rfl⟩, by simp⟩

end

end Stabbing
