import Mathlib
import CodeScout.ReconcilerPlan

/-!
# Detaching changesets

`detachChangeset` removes the associations of a changeset that are marked to be
detached. It ranges over the associations, while `RemoveBatchChangeID` shifts the
elements of the same array to the left. The element behind one that is removed takes its
place and is not visited, and behind the last association the loop reads copies of
it.

So the second of two neighbouring associations that are marked stays, unless it is the
last one, which its copy removes (`survivors`).
-/

namespace Reconciler

open List

/-- A slice: the array that it points into and its length. -/
structure AssocSlice where
  array : List BatchChangeAssoc
  len : ℕ

/-- The elements of a slice. -/
def AssocSlice.elems (s : AssocSlice) : List BatchChangeAssoc :=
  s.array.take s.len

/-- `append(s[:i], s[i+1:]...)`: the elements behind index `i` are moved in the array. -/
def AssocSlice.deleteAt (s : AssocSlice) (i : ℕ) : AssocSlice where
  array := s.array.take i ++ (s.array.take s.len).drop (i + 1) ++ s.array.drop (s.len - 1)
  len := s.len - 1

/-- The loop of `RemoveBatchChangeID`, with the indices less than `i` left. -/
def removeLoop (id : ℤ) : ℕ → AssocSlice → AssocSlice
  | 0, s => s
  | i + 1, s =>
    if s.array[i]?.any (·.batchChangeID == id) then removeLoop id i (s.deleteAt i)
    else removeLoop id i s

/-- `RemoveBatchChangeID`. -/
def removeBatchChangeID (s : AssocSlice) (id : ℤ) : AssocSlice :=
  removeLoop id s.len s

/-- An iteration of the loop of `detachChangeset`, which reads the array of the slice
that it was started with. -/
def detachAssoc (s : AssocSlice) (k : ℕ) : AssocSlice :=
  match s.array[k]? with
  | none => s
  | some assoc => if assoc.detach then removeBatchChangeID s assoc.batchChangeID else s

/-- The fields of a `Changeset` that the executor changes here. A zero time is
`none`. -/
structure ChangesetAssocs where
  batchChanges : AssocSlice
  detachedAt : Option ℤ

/-- **`detachChangeset`.** -/
def detachChangeset (now : ℤ) (ch : ChangesetAssocs) : ChangesetAssocs :=
  let batchChanges := (List.range ch.batchChanges.len).foldl detachAssoc ch.batchChanges
  { batchChanges
    detachedAt := if batchChanges.len = 0 then some now else ch.detachedAt }

/-! ## Removing an association -/

/-- The slice of the elements `l`, in an array with more elements behind them. -/
def sliceOf (l rest : List BatchChangeAssoc) : AssocSlice := ⟨l ++ rest, l.length⟩

theorem elems_sliceOf (l rest : List BatchChangeAssoc) : (sliceOf l rest).elems = l :=
  take_left

variable {a last : BatchChangeAssoc} {back front live rest : List BatchChangeAssoc}

theorem deleteAt_sliceOf (hlast : (a :: back).getLast? = some last) :
    (sliceOf (front ++ a :: back) rest).deleteAt front.length
      = sliceOf (front ++ back) (last :: rest) := by
  have hdrop : (front ++ a :: back ++ rest).drop ((front ++ a :: back).length - 1)
      = last :: rest := by
    have hsplit : front ++ a :: back = (front ++ (a :: back).dropLast) ++ [last] := by
      rw [append_assoc, dropLast_append_getLast? last hlast]
    have hlen : (front ++ a :: back).length - 1 = (front ++ (a :: back).dropLast).length := by
      simp
    rw [hlen, hsplit, append_assoc, drop_left]
    rfl
  have htake : (front ++ a :: back ++ rest).take front.length = front := by
    rw [append_assoc, take_left]
  have hback : (front ++ a :: back).drop (front.length + 1) = back := by
    rw [drop_append, drop_of_length_le (Nat.le_succ _), nil_append, Nat.add_sub_cancel_left]
    rfl
  unfold AssocSlice.deleteAt sliceOf
  rw [htake, take_left, hback, hdrop]
  simp

theorem removeLoop_skip {id : ℤ} {s : AssocSlice} {i n : ℕ} (hn : i ≤ n)
    (h : ∀ j < n, i ≤ j → ∀ a, s.array[j]? = some a → a.batchChangeID ≠ id) :
    removeLoop id n s = removeLoop id i s := by
  induction n, hn using Nat.le_induction with
  | base => rfl
  | succ n hn ih =>
    have hi : s.array[n]?.any (·.batchChangeID == id) = false := by
      cases hget : s.array[n]? with
      | none => rfl
      | some a => simpa using h n (Nat.lt_succ_self n) hn a hget
    rw [removeLoop, hi]
    exact ih fun j hj => h j (Nat.lt_succ_of_lt hj)

theorem removeLoop_of_forall_ne {id : ℤ} {s : AssocSlice} {i : ℕ}
    (h : ∀ j < i, ∀ a, s.array[j]? = some a → a.batchChangeID ≠ id) : removeLoop id i s = s :=
  removeLoop_skip (Nat.zero_le i) fun j hj _ => h j hj

/-- **Removing an association that is there.** -/
theorem removeBatchChangeID_of_mem (hfront : ∀ b ∈ front, b.batchChangeID ≠ a.batchChangeID)
    (hback : ∀ b ∈ back, b.batchChangeID ≠ a.batchChangeID)
    (hlast : (a :: back).getLast? = some last) :
    removeBatchChangeID (sliceOf (front ++ a :: back) rest) a.batchChangeID
      = sliceOf (front ++ back) (last :: rest) := by
  have hlen : (sliceOf (front ++ a :: back) rest).len = front.length + 1 + back.length := by
    simp only [sliceOf, length_append, length_cons]
    omega
  have hskip : removeLoop a.batchChangeID (front.length + 1 + back.length)
      (sliceOf (front ++ a :: back) rest)
        = removeLoop a.batchChangeID (front.length + 1) (sliceOf (front ++ a :: back) rest) := by
    refine removeLoop_skip (Nat.le_add_right _ _) fun j hj hle b hb => hback b ?_
    obtain ⟨i, rfl⟩ := Nat.exists_eq_add_of_le hle
    have hget : (front ++ a :: back ++ rest)[front.length + 1 + i]? = back[i]? := by
      rw [append_assoc, getElem?_append_right (by omega)]
      have hsub : front.length + 1 + i - front.length = i + 1 := by omega
      rw [hsub, cons_append, getElem?_cons_succ, getElem?_append_left (by omega)]
    exact mem_of_getElem? (hget ▸ hb)
  have hget : (front ++ a :: back ++ rest)[front.length]? = some a := by
    rw [append_assoc, getElem?_append_right le_rfl, Nat.sub_self]
    rfl
  rw [removeBatchChangeID, hlen, hskip, removeLoop]
  have hfound : (sliceOf (front ++ a :: back) rest).array[front.length]?.any
      (·.batchChangeID == a.batchChangeID) = true := by
    rw [sliceOf, hget]
    simp
  rw [if_pos hfound, deleteAt_sliceOf hlast]
  refine removeLoop_of_forall_ne fun j hj b hb => hfront b ?_
  have hb' : (front ++ back ++ last :: rest)[j]? = some b := hb
  rw [append_assoc, getElem?_append_left hj] at hb'
  exact mem_of_getElem? hb'

theorem removeBatchChangeID_of_forall_ne {l rest : List BatchChangeAssoc} {id : ℤ}
    (h : ∀ b ∈ l, b.batchChangeID ≠ id) :
    removeBatchChangeID (sliceOf l rest) id = sliceOf l rest := by
  refine removeLoop_of_forall_ne fun j hj b hb => h b ?_
  have hb' : (l ++ rest)[j]? = some b := hb
  rw [getElem?_append_left hj] at hb'
  exact mem_of_getElem? hb'

/-! ## The loop -/

/-- What is left of the associations: the one behind an association that is removed is
not visited, and stays if it is not the last one. -/
def survivors : List BatchChangeAssoc → List BatchChangeAssoc
  | [] => []
  | [a] => if a.detach then [] else [a]
  | a :: b :: rest =>
    if a.detach then
      if rest = [] then if b.detach then [] else [b] else b :: survivors rest
    else a :: survivors (b :: rest)

theorem detachAssoc_of_some {s : AssocSlice} {k : ℕ} (h : s.array[k]? = some a) :
    detachAssoc s k = if a.detach then removeBatchChangeID s a.batchChangeID else s := by
  rw [detachAssoc, h]

/-- Copies of an association that is gone, or not marked, do nothing. -/
theorem foldl_copies
    (hgone : last.detach = true → ∀ b ∈ live, b.batchChangeID ≠ last.batchChangeID) {ks : List ℕ}
    (hks : ∀ k ∈ ks, (live ++ rest)[k]? = some last) :
    ks.foldl detachAssoc (sliceOf live rest) = sliceOf live rest := by
  induction ks with
  | nil => rfl
  | cons k ks ih =>
    obtain ⟨hk, hrest⟩ := forall_mem_cons.mp hks
    have hstep : detachAssoc (sliceOf live rest) k = sliceOf live rest := by
      rw [detachAssoc_of_some hk]
      split
      case isTrue hdetach => exact removeBatchChangeID_of_forall_ne (hgone hdetach)
      case isFalse => rfl
    rw [foldl_cons, hstep]
    exact ih hrest

/-- The array behind the slice, when `r` associations were removed. -/
theorem getElem?_copies {live extra : List BatchChangeAssoc} {r k : ℕ}
    (hle : live.length ≤ k) (hlt : k < live.length + r) :
    (live ++ (replicate r last ++ extra))[k]? = some last := by
  rw [getElem?_append_right hle, getElem?_append_left (by simp; omega),
    getElem?_replicate, if_pos (by omega)]

theorem foldl_range'_copies {live extra : List BatchChangeAssoc}
    {r k m : ℕ} (hgone : last.detach = true → ∀ b ∈ live, b.batchChangeID ≠ last.batchChangeID)
    (hle : live.length ≤ k) (hm : k + m ≤ live.length + r) :
    (range' k m).foldl detachAssoc (sliceOf live (replicate r last ++ extra))
      = sliceOf live (replicate r last ++ extra) := by
  refine foldl_copies hgone fun j hj => ?_
  obtain ⟨hkj, hjm⟩ := mem_range'_1.mp hj
  exact getElem?_copies (hle.trans hkj) (hjm.trans_le hm)

theorem ne_of_nodup (h : ((front ++ a :: back).map (·.batchChangeID)).Nodup) :
    (∀ b ∈ front, b.batchChangeID ≠ a.batchChangeID)
      ∧ ∀ b ∈ back, b.batchChangeID ≠ a.batchChangeID := by
  rw [map_append, map_cons] at h
  obtain ⟨-, hcons, hdisjoint⟩ := nodup_append.mp h
  refine ⟨fun b hb => hdisjoint _ (mem_map_of_mem hb) _ mem_cons_self, fun b hb heq => ?_⟩
  exact (nodup_cons.mp hcons).1 (heq ▸ mem_map_of_mem hb)

theorem getElem?_visited (kept back rest : List BatchChangeAssoc) (a : BatchChangeAssoc) :
    (sliceOf (kept ++ a :: back) rest).array[kept.length]? = some a := by
  rw [sliceOf, append_assoc, getElem?_append_right le_rfl, Nat.sub_self]
  rfl

theorem foldl_visit {kept back rest : List BatchChangeAssoc} {m : ℕ} (hdetach : ¬ a.detach = true) :
    (range' kept.length (m + 1)).foldl detachAssoc (sliceOf (kept ++ a :: back) rest)
      = (range' (kept ++ [a]).length m).foldl detachAssoc
          (sliceOf (kept ++ a :: back) rest) := by
  rw [range'_succ, foldl_cons, detachAssoc_of_some (getElem?_visited kept back rest a),
    if_neg hdetach, length_append, length_singleton]

/-- One that is marked is removed, and the next one takes its place. -/
theorem foldl_detach {kept back rest : List BatchChangeAssoc} {m : ℕ}
    (hdetach : a.detach = true) (hlast : (a :: back).getLast? = some last)
    (hnodup : ((kept ++ a :: back).map (·.batchChangeID)).Nodup) :
    (range' kept.length (m + 1)).foldl detachAssoc (sliceOf (kept ++ a :: back) rest)
      = (range' (kept.length + 1) m).foldl detachAssoc
          (sliceOf (kept ++ back) (last :: rest)) := by
  obtain ⟨hfront, hback⟩ := ne_of_nodup hnodup
  rw [range'_succ, foldl_cons, detachAssoc_of_some (getElem?_visited kept back rest a),
    if_pos hdetach, removeBatchChangeID_of_mem hfront hback hlast]

/-- **The loop**, when the associations `kept` were visited or passed over, `todo` are
still ahead, and behind them `r` copies of the last one. -/
theorem foldl_detachAssoc {todo : List BatchChangeAssoc} (kept extra : List BatchChangeAssoc)
    (r : ℕ) (hlast : todo.getLast? = some last)
    (hnodup : ((kept ++ todo).map (·.batchChangeID)).Nodup) :
    ∃ rest, (range' kept.length (todo.length + r)).foldl detachAssoc
        (sliceOf (kept ++ todo) (replicate r last ++ extra))
      = sliceOf (kept ++ survivors todo) rest := by
  induction todo using survivors.induct generalizing kept extra r with
  | case1 => cases hlast
  | case2 a hdetach =>
    obtain rfl : a = last := Option.some.inj hlast
    rw [length_singleton, Nat.add_comm 1 r, foldl_detach hdetach hlast hnodup, append_nil,
      ← cons_append, ← replicate_succ, survivors, if_pos hdetach, append_nil]
    refine ⟨_, foldl_range'_copies (fun _ => (ne_of_nodup hnodup).1) (Nat.le_succ _) ?_⟩
    omega
  | case3 a hdetach =>
    obtain rfl : a = last := Option.some.inj hlast
    rw [length_singleton, Nat.add_comm 1 r, foldl_visit hdetach, survivors, if_neg hdetach]
    exact ⟨_, foldl_range'_copies (fun h => absurd h hdetach) le_rfl le_rfl⟩
  | case4 a b hdetach hb =>
    -- the last association was passed over, and its copy removes it
    obtain rfl : b = last := Option.some.inj hlast
    have hlen : [a, b].length + r = (r + 1) + 1 := by
      simp only [length_cons, length_nil]
      omega
    have hnodup' : ((kept ++ [b]).map (·.batchChangeID)).Nodup :=
      hnodup.sublist (((sublist_cons_self a [b]).append_left kept).map _)
    obtain ⟨hfront, hback⟩ := ne_of_nodup hnodup'
    have hcopy : (kept ++ [b] ++ (replicate (r + 1) b ++ extra))[kept.length + 1]? = some b :=
      getElem?_copies (by simp) (by simp)
    rw [hlen, foldl_detach hdetach hlast hnodup, survivors, if_pos hdetach, if_pos rfl, if_pos hb,
      ← cons_append, ← replicate_succ, range'_succ, foldl_cons,
      detachAssoc_of_some hcopy, if_pos hb, removeBatchChangeID_of_mem hfront hback rfl,
      append_nil, ← cons_append]
    refine ⟨_, foldl_range'_copies (r := r + 2) (fun _ => hfront) ?_ ?_⟩ <;> omega
  | case5 a b hdetach hb =>
    obtain rfl : b = last := Option.some.inj hlast
    have hlen : [a, b].length + r = (r + 1) + 1 := by
      simp only [length_cons, length_nil]
      omega
    rw [hlen, foldl_detach hdetach hlast hnodup, survivors, if_pos hdetach, if_pos rfl, if_neg hb,
      ← cons_append, ← replicate_succ]
    refine ⟨_, foldl_range'_copies (fun h => absurd h hb) ?_ ?_⟩
    · rw [length_append, length_singleton]
    · rw [length_append, length_singleton]
  | case6 a b rest hdetach hne ih =>
    have hlen : (a :: b :: rest).length + r = (rest.length + (r + 1)) + 1 := by
      simp only [length_cons]
      omega
    have hsplit : kept ++ b :: rest = kept ++ [b] ++ rest := by simp
    have hlast' : rest.getLast? = some last := by
      rw [← hlast]
      obtain ⟨c, rest, rfl⟩ := exists_cons_of_ne_nil hne
      rfl
    have hnodup' : ((kept ++ [b] ++ rest).map (·.batchChangeID)).Nodup := by
      rw [← hsplit]
      exact hnodup.sublist (((sublist_cons_self a (b :: rest)).append_left kept).map _)
    obtain ⟨tail, hfold⟩ := ih (kept ++ [b]) extra (r + 1) hlast' hnodup'
    refine ⟨tail, ?_⟩
    rw [hlen, foldl_detach hdetach hlast hnodup, survivors, if_pos hdetach, if_neg hne,
      ← cons_append, ← replicate_succ, hsplit]
    rw [length_append, length_singleton] at hfold
    rw [hfold, append_assoc, singleton_append]
  | case7 a b rest hdetach ih =>
    have hlen : (a :: b :: rest).length + r = ((b :: rest).length + r) + 1 := by
      simp only [length_cons]
      omega
    have hsplit : kept ++ a :: b :: rest = kept ++ [a] ++ b :: rest := by simp
    obtain ⟨tail, hfold⟩ := ih (kept ++ [a]) extra r hlast (hsplit ▸ hnodup)
    refine ⟨tail, ?_⟩
    rw [hlen, foldl_visit hdetach, survivors, if_neg hdetach, hsplit, hfold, append_assoc,
      singleton_append]

/-- **What `detachChangeset` leaves.** -/
theorem detachChangeset_eq (now : ℤ) (l extra : List BatchChangeAssoc) (detachedAt : Option ℤ)
    (hnodup : (l.map (·.batchChangeID)).Nodup) :
    (detachChangeset now ⟨sliceOf l extra, detachedAt⟩).batchChanges.elems = survivors l
      ∧ (detachChangeset now ⟨sliceOf l extra, detachedAt⟩).detachedAt
        = if survivors l = [] then some now else detachedAt := by
  obtain ⟨rest, hfold⟩ : ∃ rest, (range l.length).foldl detachAssoc (sliceOf l extra)
      = sliceOf (survivors l) rest := by
    cases hlast : l.getLast? with
    | none =>
      rw [getLast?_eq_none_iff.mp hlast]
      exact ⟨extra, rfl⟩
    | some last =>
      rw [range_eq_range']
      exact foldl_detachAssoc [] extra 0 hlast hnodup
  have hrange : (range (sliceOf l extra).len).foldl detachAssoc (sliceOf l extra)
      = sliceOf (survivors l) rest := hfold
  simp only [detachChangeset, hrange, elems_sliceOf, true_and]
  simp [sliceOf]

/-! ## When it removes what is marked -/

/-- Only the last two associations may both be marked. -/
def NoMarkedNeighbours (l : List BatchChangeAssoc) : Prop :=
  ∀ (i : ℕ) (a b : BatchChangeAssoc), i + 2 < l.length → l[i]? = some a → l[i + 1]? = some b →
    ¬ (a.detach = true ∧ b.detach = true)

theorem noMarkedNeighbours_cons {a b : BatchChangeAssoc} :
    NoMarkedNeighbours (a :: b :: rest)
      ↔ (rest ≠ [] → ¬ (a.detach = true ∧ b.detach = true)) ∧ NoMarkedNeighbours (b :: rest) := by
  constructor
  · intro h
    refine ⟨fun hne => h 0 a b ?_ rfl rfl, fun i c d hi hc hd => h (i + 1) c d ?_ hc hd⟩
    · have := length_pos_iff.mpr hne
      simp only [length_cons]
      omega
    · simp only [length_cons] at hi ⊢
      omega
  · rintro ⟨hfirst, h⟩ i c d hi hc hd
    cases i with
    | zero =>
      obtain rfl : a = c := Option.some.inj hc
      obtain rfl : b = d := Option.some.inj hd
      refine hfirst (length_pos_iff.mp ?_)
      simp only [length_cons] at hi
      omega
    | succ i =>
      refine h i c d ?_ hc hd
      simp only [length_cons] at hi ⊢
      omega

theorem noMarkedNeighbours_of_length_le {l : List BatchChangeAssoc} (h : l.length ≤ 2) :
    NoMarkedNeighbours l :=
  fun _ _ _ hi => absurd (hi.trans_le h) (Nat.not_lt.mpr (Nat.le_add_left 2 _))

/-- What is left are the associations that are not marked if and only if no two
neighbours are marked, but for the last two. -/
theorem survivors_eq_filter_iff (l : List BatchChangeAssoc) :
    survivors l = l.filter (fun a => !a.detach) ↔ NoMarkedNeighbours l := by
  induction l using survivors.induct with
  | case1 => exact iff_of_true rfl (noMarkedNeighbours_of_length_le (by simp))
  | case2 a hdetach =>
    exact iff_of_true (by simp [survivors, hdetach]) (noMarkedNeighbours_of_length_le (by simp))
  | case3 a hdetach =>
    exact iff_of_true (by simp [survivors, hdetach]) (noMarkedNeighbours_of_length_le (by simp))
  | case4 a b hdetach hb =>
    exact iff_of_true (by simp [survivors, hdetach, hb]) (noMarkedNeighbours_of_length_le le_rfl)
  | case5 a b hdetach hb =>
    exact iff_of_true (by simp [survivors, hdetach, hb]) (noMarkedNeighbours_of_length_le le_rfl)
  | case6 a b rest hdetach hne ih =>
    rw [survivors, if_pos hdetach, if_neg hne, noMarkedNeighbours_cons]
    by_cases hb : b.detach = true
    · -- the second of the two stays
      refine iff_of_false (fun heq => ?_) fun h => h.1 hne ⟨hdetach, hb⟩
      have hmem : b ∈ (a :: b :: rest).filter fun a => !a.detach := heq ▸ mem_cons_self
      have hkeep := of_mem_filter hmem
      rw [hb] at hkeep
      cases hkeep
    · obtain ⟨c, rest', rfl⟩ := exists_cons_of_ne_nil hne
      have hfilter : (a :: b :: c :: rest').filter (fun a => !a.detach)
          = b :: (c :: rest').filter fun a => !a.detach := by
        simp [hdetach, hb]
      rw [hfilter, cons_inj_right, ih, noMarkedNeighbours_cons (a := b) (b := c)]
      simp [hb]
  | case7 a b rest hdetach ih =>
    have hfilter : (a :: b :: rest).filter (fun a => !a.detach)
        = a :: (b :: rest).filter fun a => !a.detach := by
      simp [hdetach]
    rw [survivors, if_neg hdetach, hfilter, cons_inj_right, ih, noMarkedNeighbours_cons]
    simp [hdetach]

/-- **Exactly the marked associations are removed**, and the changeset is detached if
none remains, if and only if no two neighbouring associations are marked, but for the
last two. -/
theorem detachChangeset_removes_marked_iff (now : ℤ) (l extra : List BatchChangeAssoc)
    (detachedAt : Option ℤ) (hnodup : (l.map (·.batchChangeID)).Nodup) :
    ((detachChangeset now ⟨sliceOf l extra, detachedAt⟩).batchChanges.elems
          = l.filter (fun a => !a.detach)
        ∧ (detachChangeset now ⟨sliceOf l extra, detachedAt⟩).detachedAt
          = if l.filter (fun a => !a.detach) = [] then some now else detachedAt)
      ↔ NoMarkedNeighbours l := by
  obtain ⟨helems, hdetachedAt⟩ := detachChangeset_eq now l extra detachedAt hnodup
  rw [helems, hdetachedAt, ← survivors_eq_filter_iff]
  refine and_iff_left_of_imp fun heq => ?_
  rw [heq]

/-- The first and the third association are marked. -/
theorem detachChangeset_firstAndThird :
    (detachChangeset 1 ⟨sliceOf [⟨1, true, false, false⟩, ⟨2, false, false, false⟩,
        ⟨3, true, false, false⟩, ⟨4, false, false, false⟩] [], none⟩).batchChanges.elems
      = [⟨2, false, false, false⟩, ⟨4, false, false, false⟩] :=
  ((detachChangeset_removes_marked_iff 1 [⟨1, true, false, false⟩, ⟨2, false, false, false⟩,
    ⟨3, true, false, false⟩, ⟨4, false, false, false⟩] [] none (by decide)).mpr
      ((survivors_eq_filter_iff _).mp (by decide))).1

/-- Three associations, all of them marked: the second one stays, and the changeset is
not detached. -/
theorem detachChangeset_threeMarked :
    let l : List BatchChangeAssoc :=
      [⟨1, true, false, false⟩, ⟨2, true, false, false⟩, ⟨3, true, false, false⟩]
    (detachChangeset 1 ⟨sliceOf l [], none⟩).batchChanges.elems = [⟨2, true, false, false⟩]
      ∧ (detachChangeset 1 ⟨sliceOf l [], none⟩).detachedAt = none
      ∧ ¬ ∀ (now : ℤ) (l extra : List BatchChangeAssoc) (detachedAt : Option ℤ),
        (l.map (·.batchChangeID)).Nodup →
          (detachChangeset now ⟨sliceOf l extra, detachedAt⟩).batchChanges.elems
            = l.filter fun a => !a.detach := by
  refine ⟨by decide, by decide, fun hall => ?_⟩
  have hthree := hall 1 [⟨1, true, false, false⟩, ⟨2, true, false, false⟩,
    ⟨3, true, false, false⟩] [] none (by decide)
  revert hthree
  decide

end Reconciler
