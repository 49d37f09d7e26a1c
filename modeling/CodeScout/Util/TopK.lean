import Mathlib

/-!
# The elements with the highest scores

A selection `kept` of `all` is a top selection if no element that was left out has a
higher score than one that was kept (`TopSelection`). Such a selection can be made while the
elements arrive, by replacing the lowest element, and top selections of the parts of
a list contain one of the whole (`TopSelection.flatten`). The scores of a top selection are
determined by its size (`TopSelection.map_eq_topScores`), whatever the choice among equal
scores.
-/

variable {ι K : Type} [LinearOrder K]

/-- The `k` highest elements of a list, in descending order. -/
def topScores (k : ℕ) (l : List K) : List K :=
  (l.insertionSort (· ≥ ·)).take k

/-- No element that was left out has a higher score than one that was kept. -/
def TopSelection (score : ι → K) (all kept : List ι) : Prop :=
  ∃ dropped, all.Perm (kept ++ dropped) ∧ ∀ a ∈ kept, ∀ d ∈ dropped, score d ≤ score a

namespace TopSelection

open List

variable {score : ι → K} {all kept kept' rest : List ι} {lowest x : ι} {k : ℕ}

theorem refl (score : ι → K) (all : List ι) : TopSelection score all all :=
  ⟨[], by rw [append_nil], fun _ _ _ hd => absurd hd not_mem_nil⟩

theorem perm (h : TopSelection score all kept) (hperm : kept.Perm kept') :
    TopSelection score all kept' := by
  obtain ⟨dropped, hall, hle⟩ := h
  exact ⟨dropped, hall.trans (hperm.append_right dropped), fun a ha => hle a (hperm.mem_iff.mpr ha)⟩

theorem subset (h : TopSelection score all kept) : kept ⊆ all := by
  obtain ⟨dropped, hall, -⟩ := h
  exact fun a ha => hall.mem_iff.mpr (mem_append_left _ ha)

theorem nodup (h : TopSelection score all kept) (hall : all.Nodup) : kept.Nodup := by
  obtain ⟨dropped, hperm, -⟩ := h
  exact (hperm.nodup hall).of_append_left

/-- An element that is not higher than the lowest one is left out. -/
theorem skip (h : TopSelection score all kept) (hx : ∀ a ∈ kept, score x ≤ score a) :
    TopSelection score (all ++ [x]) kept := by
  obtain ⟨dropped, hall, hle⟩ := h
  refine ⟨dropped ++ [x], ?_, ?_⟩
  · rw [← append_assoc]
    exact hall.append_right [x]
  · intro a ha d hd
    rcases mem_append.mp hd with hd | hd
    · exact hle a ha d hd
    · rw [mem_singleton.mp hd]
      exact hx a ha

/-- A higher one takes its place. -/
theorem replace (h : TopSelection score all (lowest :: rest))
    (hlowest : ∀ a ∈ rest, score lowest ≤ score a) (hx : score lowest ≤ score x) :
    TopSelection score (all ++ [x]) (x :: rest) := by
  obtain ⟨dropped, hall, hle⟩ := h
  refine ⟨lowest :: dropped, ?_, ?_⟩
  · refine (perm_append_singleton x all).trans (.cons x ?_)
    exact hall.trans perm_middle.symm
  · have hlowest' : ∀ a ∈ x :: rest, score lowest ≤ score a :=
      forall_mem_cons.mpr ⟨hx, hlowest⟩
    intro a ha d hd
    rcases mem_cons.mp hd with rfl | hd
    · exact hlowest' a ha
    · exact (hle lowest mem_cons_self d hd).trans (hlowest' a ha)

/-- The first elements of a list in descending order. -/
theorem take {sorted : List ι} (hperm : sorted.Perm all)
    (hsorted : sorted.Pairwise fun a b => score b ≤ score a) (k : ℕ) :
    TopSelection score all (sorted.take k) := by
  refine ⟨sorted.drop k, ?_, ?_⟩
  · rw [take_append_drop]
    exact hperm.symm
  · rw [← take_append_drop k sorted] at hsorted
    exact (pairwise_append.mp hsorted).2.2

section

variable {kepts parts : List (List ι)}
  (hparts : List.Forall₂ (fun all kept => TopSelection score all kept
    ∧ kept.length = min k all.length) parts kepts)

include hparts

/-- What was left out of a part is not higher than `k` elements that were kept of it. -/
theorem exists_dropped : ∃ dropped, parts.flatten.Perm (kepts.flatten ++ dropped) ∧ ∀ d ∈ dropped,
      ∃ kept ∈ kepts, k ≤ kept.length ∧ ∀ a ∈ kept, score d ≤ score a := by
  induction hparts with
  | nil => exact ⟨[], .refl _, fun _ hd => absurd hd not_mem_nil⟩
  | @cons all kept parts kepts hpart _ ih =>
    obtain ⟨⟨dropped, hall, hle⟩, hlen⟩ := hpart
    obtain ⟨dropped', hall', hle'⟩ := ih
    refine ⟨dropped ++ dropped', ?_, ?_⟩
    · rw [flatten_cons, flatten_cons]
      refine (hall.append hall').trans ?_
      rw [append_assoc, append_assoc]
      exact (perm_append_comm_assoc _ _ _).append_left kept
    · intro d hd
      rcases mem_append.mp hd with hd | hd
      · have hlt : kept.length < all.length := by
          rw [hall.length_eq, length_append]
          exact Nat.lt_add_of_pos_right (length_pos_of_mem hd)
        refine ⟨kept, mem_cons_self, ?_, fun a ha => hle a ha d hd⟩
        rcases min_choice k all.length with hmin | hmin
        · exact (hlen.trans hmin).ge
        · exact absurd (hlen.trans hmin) hlt.ne
      · obtain ⟨kept', hkept', hk⟩ := hle' d hd
        exact ⟨kept', mem_cons_of_mem _ hkept', hk⟩

/-- **Top selections of parts contain one of the whole.** Of each part `k` elements
were kept, or all of them; then the `k` highest of the elements that were kept are the
highest of all. -/
theorem flatten (hnodup : parts.flatten.Nodup) {top : List ι}
    (htop : TopSelection score kepts.flatten top) (hk : top.length ≤ k) :
    TopSelection score parts.flatten top := by
  obtain ⟨dropped, hall, hdropped⟩ := exists_dropped hparts
  obtain ⟨below, hkepts, hbelow⟩ := htop
  refine ⟨below ++ dropped, ?_, ?_⟩
  · rw [← append_assoc]
    exact hall.trans (hkepts.append_right dropped)
  · intro t ht d hd
    rcases mem_append.mp hd with hd | hd
    · exact hbelow t ht d hd
    · obtain ⟨kept, hkept, hlong, hle⟩ := hdropped d hd
      by_cases hin : ∃ a ∈ kept, a ∈ below
      · obtain ⟨a, ha, hab⟩ := hin
        exact (hle a ha).trans (hbelow t ht a hab)
      · -- the part's elements are all among the top, and there is room for no others
        have hsub : kept ⊆ top := fun a ha => by
          have ha' := hkepts.mem_iff.mp (mem_flatten.mpr ⟨kept, hkept, ha⟩)
          exact (mem_append.mp ha').resolve_right fun hab => hin ⟨a, ha, hab⟩
        have hkeptnodup : kept.Nodup :=
          (nodup_flatten.mp (hall.nodup hnodup).of_append_left).1 kept hkept
        have hperm : kept.Perm top :=
          (hkeptnodup.subperm hsub).perm_of_length_le (hk.trans hlong)
        exact hle t (hperm.mem_iff.mpr ht)

/-- Enough elements are kept of all parts together. -/
theorem min_le_length_flatten :
    min k parts.flatten.length ≤ kepts.flatten.length := by
  obtain ⟨dropped, hall, hdropped⟩ := exists_dropped hparts
  cases dropped with
  | nil =>
    rw [hall.length_eq, append_nil]
    exact min_le_right _ _
  | cons d dropped =>
    obtain ⟨kept, hkept, hlong, -⟩ := hdropped d mem_cons_self
    exact (min_le_left _ _).trans (hlong.trans (sublist_flatten_of_mem hkept).length_le)

end

/-- **The scores of a top selection** are determined by its size. -/
theorem map_eq_topScores (h : TopSelection score all kept) (hlen : kept.length = min k all.length)
    (hsorted : kept.Pairwise fun a b => score b ≤ score a) :
    kept.map score = topScores k (all.map score) := by
  obtain ⟨dropped, hall, hle⟩ := h
  have hrest := pairwise_insertionSort (· ≥ ·) (dropped.map score)
  -- the kept scores and the sorted rest are the sorted scores
  have hsort : (all.map score).insertionSort (· ≥ ·)
      = kept.map score ++ (dropped.map score).insertionSort (· ≥ ·) := by
    refine List.Perm.eq_of_pairwise' (r := (· ≥ ·)) (pairwise_insertionSort _ _)
      (pairwise_append.mpr ⟨?_, hrest, ?_⟩) ?_
    · exact pairwise_map.mpr hsorted
    · intro a ha d hd
      obtain ⟨a, hkept, rfl⟩ := mem_map.mp ha
      obtain ⟨d, hdropped, rfl⟩ := mem_map.mp ((perm_insertionSort _ _).mem_iff.mp hd)
      exact hle a hkept d hdropped
    · refine (perm_insertionSort _ _).trans ?_
      refine (hall.map score).trans ?_
      rw [map_append]
      exact (perm_insertionSort _ _).symm.append_left _
  rw [topScores, hsort]
  rcases le_total k all.length with hk | hk
  · rw [min_eq_left hk] at hlen
    rw [take_left' (by rw [length_map, hlen])]
  · rw [min_eq_right hk] at hlen
    have hdropped : dropped = [] := by
      have := hall.length_eq
      rw [length_append, hlen] at this
      exact length_eq_zero_iff.mp (by omega)
    rw [hdropped, map_nil, insertionSort_nil, append_nil,
      take_of_length_le (by rw [length_map, hlen]; exact hk)]

end TopSelection
