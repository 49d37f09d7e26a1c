import CodeScout.ResultMatch
import CodeScout.Util.BitSet
import Mathlib.Data.List.AList

/-!
# Merging result sets

The merger is given matches from `numSources` sources, in any order, and
tells two kinds of matches apart: those that every source has found, which
it returns as soon as the last source finds them, and the others, which it
hands out at the end.

The abstract view is a *history*, the pairs of a key and a source that have
been added so far. A key is complete when every source has added it, and a
call returns the keys it completes (`Completed`). Since a key that is
complete stays complete, no key is completed twice, and the merger is right
when its map records the history (`Merger.Tracks`).
-/

namespace Result

open List

/-! ## Histories -/

section History

variable {κ : Type} {n : ℕ} {h h₁ h₂ : List (κ × ℕ)} {k : κ}

/-- Every source has added the key. -/
def AddedByAll (n : ℕ) (h : List (κ × ℕ)) (k : κ) : Prop :=
  ∀ i < n, (k, i) ∈ h

/-- Some source has added the key. -/
def Added (h : List (κ × ℕ)) (k : κ) : Prop :=
  ∃ i, (k, i) ∈ h

/-- The key is complete in the second history and not in the first. -/
def Completed (n : ℕ) (h h' : List (κ × ℕ)) (k : κ) : Prop :=
  AddedByAll n h' k ∧ ¬ AddedByAll n h k

theorem AddedByAll.mono (hsub : h ⊆ h₁) (hk : AddedByAll n h k) : AddedByAll n h₁ k :=
  fun i hi => hsub (hk i hi)

theorem AddedByAll.added (hn : 0 < n) (hk : AddedByAll n h k) : Added h k :=
  ⟨0, hk 0 hn⟩

/-- `ks` are the keys that are completed between two histories, each once. -/
structure Streams (n : ℕ) (h h' : List (κ × ℕ)) (ks : List κ) : Prop where
  nodup : ks.Nodup
  mem_iff : ∀ k, k ∈ ks ↔ Completed n h h' k

theorem Streams.refl : Streams n h h [] where
  nodup := nodup_nil
  mem_iff k := by
    refine iff_of_false not_mem_nil ?_
    rintro ⟨hall, hnot⟩
    exact hnot hall

/-- **What is completed in two stretches is what is completed in both
together**: no key is completed in either. -/
theorem Streams.append (hsub₁ : h ⊆ h₁) (hsub₂ : h₁ ⊆ h₂) {ks₁ ks₂ : List κ}
    (hs₁ : Streams n h h₁ ks₁) (hs₂ : Streams n h₁ h₂ ks₂) :
    Streams n h h₂ (ks₁ ++ ks₂) where
  nodup := by
    refine hs₁.nodup.append hs₂.nodup ?_
    intro k hk₁ hk₂
    exact ((hs₂.mem_iff k).mp hk₂).2 ((hs₁.mem_iff k).mp hk₁).1
  mem_iff k := by
    rw [mem_append, hs₁.mem_iff, hs₂.mem_iff]
    constructor
    · rintro (⟨hall, hnot⟩ | ⟨hall, hnot⟩)
      · exact ⟨hall.mono hsub₂, hnot⟩
      · exact ⟨hall, fun hk => hnot (hk.mono hsub₁)⟩
    · rintro ⟨hall, hnot⟩
      by_cases hk : AddedByAll n h₁ k
      · exact .inl ⟨hk, hnot⟩
      · exact .inr ⟨hall, hk⟩

theorem addedByAll_append_singleton_of_ne {k' : κ} {s : ℕ} (hne : k ≠ k') :
    AddedByAll n (h ++ [(k', s)]) k ↔ AddedByAll n h k := by
  refine forall_congr' fun i => imp_congr_right fun _ => ?_
  rw [mem_append, mem_singleton, Prod.mk.injEq]
  simp [hne]

end History

/-! ## The merger -/

variable (L : BitSetLib)

/-- A result, and the sources that it came from. -/
structure MergeVal where
  merged : Match
  seen : L.BitSet
  sent : Bool

/-- The results of several sources. -/
structure Merger where
  numSources : ℕ
  matchMap : AList (fun _ : Key => MergeVal L)

/-- `NewMerger`. -/
def newMerger (numSources : ℕ) : Merger L := ⟨numSources, ∅⟩

variable {L}

namespace Merger

/-- The assignment `lm.matches[key] = val`. -/
def track (lm : Merger L) (key : Key) (val : MergeVal L) : Merger L :=
  { lm with matchMap := lm.matchMap.insert key val }

/-- **`merger.addMatch`.** `none` is a panic; otherwise the second result
is the match to be streamed, if any. -/
def addMatch (lm : Merger L) (m : Match) (source : ℕ) : Option (Merger L × Option Match) :=
  let key := m.key
  match lm.matchMap.lookup key with
  | some prev =>
    if prev.sent then
      some (lm, none)
    else do
      let merged ← prev.merged.appendMatches m
      let seen := L.set prev.seen source
      if L.all seen then
        return (lm.track key ⟨merged, seen, true⟩, some merged)
      else
        return (lm.track key ⟨merged, seen, prev.sent⟩, none)
  | none =>
    some (lm.track key ⟨m, L.set (L.new lm.numSources) source, false⟩, none)

variable {lm : Merger L}

theorem addMatch_of_lookup_none {m : Match} (h : lm.matchMap.lookup m.key = none) (source : ℕ) :
    lm.addMatch m source
      = some (lm.track m.key ⟨m, L.set (L.new lm.numSources) source, false⟩, none) := by
  simp only [addMatch, h]

theorem addMatch_of_sent {m : Match} {prev : MergeVal L}
    (h : lm.matchMap.lookup m.key = some prev) (hsent : prev.sent = true) (source : ℕ) :
    lm.addMatch m source = some (lm, none) := by
  simp only [addMatch, h, hsent, if_true]

theorem addMatch_of_not_sent {m merged : Match} {prev : MergeVal L}
    (h : lm.matchMap.lookup m.key = some prev) (hsent : prev.sent = false)
    (hmerged : prev.merged.appendMatches m = some merged) (source : ℕ) :
    lm.addMatch m source
      = if L.all (L.set prev.seen source) then
          some (lm.track m.key ⟨merged, L.set prev.seen source, true⟩, some merged)
        else
          some (lm.track m.key ⟨merged, L.set prev.seen source, false⟩, none) := by
  simp only [addMatch, h, hsent, Bool.false_eq_true, if_false, hmerged, Option.bind_eq_bind,
    Option.bind_some, Option.pure_def]

/-- **`merger.AddMatches`.** -/
def addMatches (lm : Merger L) (ms : List Match) (source : ℕ) :
    Option (Merger L × List Match) :=
  match ms with
  | [] => some (lm, [])
  | m :: ms => do
    let (lm, streamable) ← lm.addMatch m source
    let (lm, rest) ← lm.addMatches ms source
    return (lm, streamable.toList ++ rest)

/-- A sequence of calls of `AddMatches`, with what each returned. -/
def addAll (lm : Merger L) (calls : List (List Match × ℕ)) :
    Option (Merger L × List (List Match)) :=
  match calls with
  | [] => some (lm, [])
  | (ms, source) :: calls => do
    let (lm, out) ← lm.addMatches ms source
    let (lm, outs) ← lm.addAll calls
    return (lm, out :: outs)

/-- The values `UnsentTracked` collects, in one order of the map. -/
def unsentVals (lm : Merger L) : List (MergeVal L) :=
  (lm.matchMap.entries.map (·.2)).filter (!·.sent)

/-- **`merger.UnsentTracked`** may return `res`: Go does not fix the order
in which a map is read, nor the order of equal elements after sorting. -/
def UnsentTracked (lm : Merger L) (res : List Match) : Prop :=
  ∃ vals : List (MergeVal L), vals.Perm lm.unsentVals
    ∧ vals.Pairwise (fun a b => L.count b.seen ≤ L.count a.seen)
    ∧ res = vals.map (·.merged)

/-- `sort.Reverse(byPopCount(_))`: keys found by more sources come first. -/
def byPopCount (a b : MergeVal L) : Bool :=
  decide (L.count b.seen ≤ L.count a.seen)

/-- One result of `UnsentTracked`. -/
def unsentTracked (lm : Merger L) : List Match :=
  (lm.unsentVals.mergeSort byPopCount).map (·.merged)

theorem unsentTracked_spec (lm : Merger L) : lm.UnsentTracked lm.unsentTracked := by
  refine ⟨_, mergeSort_perm _ byPopCount, ?_, rfl⟩
  have hsorted : (lm.unsentVals.mergeSort byPopCount).Pairwise (byPopCount · · = true) := by
    refine pairwise_mergeSort (fun a b c hab hbc => ?_) (fun a b => ?_) _
    · simp only [byPopCount, decide_eq_true_eq] at *
      exact hbc.trans hab
    · simp only [byPopCount, Bool.or_eq_true, decide_eq_true_eq]
      exact le_total _ _
  exact hsorted.imp fun h => of_decide_eq_true h

/-! ## Correctness -/

/-- **The map records the history.** -/
structure Tracks (n : ℕ) (h : List (Key × ℕ)) (lm : Merger L) : Prop where
  numSources : lm.numSources = n
  untracked : ∀ k, lm.matchMap.lookup k = none → ¬ Added h k
  tracked : ∀ k v, lm.matchMap.lookup k = some v →
    v.merged.key = k ∧ Added h k ∧ (v.sent = true ↔ AddedByAll n h k)
  seen : ∀ k v, lm.matchMap.lookup k = some v →
    L.len v.seen = n ∧ (v.sent = false → ∀ i, L.test v.seen i = true ↔ (k, i) ∈ h)

theorem newMerger_tracks (n : ℕ) : (newMerger L n).Tracks n [] where
  numSources := rfl
  untracked k _ := by
    rintro ⟨i, hi⟩
    cases hi
  tracked k v hv := by
    rw [newMerger, AList.lookup_empty] at hv
    cases hv
  seen k v hv := by
    rw [newMerger, AList.lookup_empty] at hv
    cases hv

variable {h : List (Key × ℕ)}

theorem mem_append_singleton_of_ne {k k' : Key} (hne : k' ≠ k)
    (i s : ℕ) : (k', i) ∈ h ++ [(k, s)] ↔ (k', i) ∈ h := by
  simp [hne]

variable {s : ℕ}

variable {n : ℕ} {k : Key}

/-- The history grows by one key, and the map is right about that key. -/
theorem Tracks.track (ht : lm.Tracks n h)
    {v : MergeVal L} (hkey : v.merged.key = k) (hlen : L.len v.seen = n)
    (hsent : v.sent = true ↔ AddedByAll n (h ++ [(k, s)]) k)
    (hseen : v.sent = false → ∀ i, L.test v.seen i = true ↔ (k, i) ∈ h ++ [(k, s)]) :
    (lm.track k v).Tracks n (h ++ [(k, s)]) where
  numSources := ht.numSources
  untracked k' hnone := by
    unfold Merger.track at hnone
    by_cases hne : k' = k
    · rw [hne, AList.lookup_insert] at hnone
      cases hnone
    · rw [AList.lookup_insert_ne hne] at hnone
      rintro ⟨i, hi⟩
      exact ht.untracked k' hnone ⟨i, (mem_append_singleton_of_ne hne i s).mp hi⟩
  tracked k' v' hv := by
    unfold Merger.track at hv
    by_cases hne : k' = k
    · rw [hne, AList.lookup_insert] at hv
      cases hv
      rw [hne]
      exact ⟨hkey, ⟨s, mem_append_right _ (mem_singleton.mpr rfl)⟩, hsent⟩
    · rw [AList.lookup_insert_ne hne] at hv
      obtain ⟨hk, ⟨i, hi⟩, hall⟩ := ht.tracked k' v' hv
      rw [addedByAll_append_singleton_of_ne hne]
      exact ⟨hk, ⟨i, mem_append_left _ hi⟩, hall⟩
  seen k' v' hv := by
    unfold Merger.track at hv
    by_cases hne : k' = k
    · rw [hne, AList.lookup_insert] at hv
      cases hv
      rw [hne]
      exact ⟨hlen, hseen⟩
    · rw [AList.lookup_insert_ne hne] at hv
      simp only [mem_append_singleton_of_ne hne]
      exact ht.seen k' v' hv

/-- A key that has been streamed is complete, and adding it again changes
nothing. -/
theorem Tracks.again (ht : lm.Tracks n h) (hs : s < n) (hall : AddedByAll n h k) :
    lm.Tracks n (h ++ [(k, s)]) := by
  have hmem : ∀ k' i, (k', i) ∈ h ++ [(k, s)] ↔ (k', i) ∈ h := by
    intro k' i
    rw [mem_append, mem_singleton, Prod.mk.injEq]
    refine ⟨?_, .inl⟩
    rintro (hi | ⟨rfl, rfl⟩)
    · exact hi
    · exact hall i hs
  have hadded : ∀ k', Added (h ++ [(k, s)]) k' ↔ Added h k' := fun k' =>
    exists_congr (hmem k')
  have hcomplete : ∀ k', AddedByAll n (h ++ [(k, s)]) k' ↔ AddedByAll n h k' := fun k' =>
    forall_congr' fun i => imp_congr_right fun _ => hmem k' i
  refine ⟨ht.numSources, ?_, ?_, ?_⟩
  · simp only [hadded]
    exact ht.untracked
  · simp only [hadded, hcomplete]
    exact ht.tracked
  · simp only [hmem]
    exact ht.seen

/-- The keys of some matches. -/
def keys (ms : List Match) : List Key := ms.map Match.key

/-- The history that one call adds. -/
def adds (ms : List Match) (source : ℕ) : List (Key × ℕ) :=
  ms.map fun m => (m.key, source)

/-- Nothing is completed by a key that is complete or stays incomplete. -/
theorem streams_nil_of_iff (hk : AddedByAll n (h ++ [(k, s)]) k → AddedByAll n h k) :
    Streams n h (h ++ [(k, s)]) [] where
  nodup := nodup_nil
  mem_iff k' := by
    refine iff_of_false not_mem_nil ?_
    rintro ⟨hall, hnot⟩
    by_cases hne : k' = k
    · exact hnot (hne ▸ hk (hne ▸ hall))
    · exact hnot ((addedByAll_append_singleton_of_ne hne).mp hall)

theorem streams_singleton (hall : AddedByAll n (h ++ [(k, s)]) k) (hnot : ¬ AddedByAll n h k) :
    Streams n h (h ++ [(k, s)]) [k] where
  nodup := nodup_singleton k
  mem_iff k' := by
    rw [mem_singleton]
    constructor
    · rintro rfl
      exact ⟨hall, hnot⟩
    · rintro ⟨hall', hnot'⟩
      by_contra hne
      exact hnot' ((addedByAll_append_singleton_of_ne hne).mp hall')

/-- **One match**: `addMatch` does not panic, records the match, and
returns the key exactly if it is completed. With a single source the first
match of a key would complete it, and would not be returned. -/
theorem addMatch_spec (hn : 2 ≤ n) (ht : lm.Tracks n h) (m : Match) (hs : s < n) :
    ∃ lm' out, lm.addMatch m s = some (lm', out) ∧ lm'.Tracks n (h ++ [(m.key, s)])
      ∧ Streams n h (h ++ [(m.key, s)]) (keys out.toList) := by
  cases hlookup : lm.matchMap.lookup m.key with
  | none =>
    have hfresh := ht.untracked _ hlookup
    have hmem : ∀ i, (m.key, i) ∈ h ++ [(m.key, s)] ↔ i = s := by
      intro i
      rw [mem_append, mem_singleton, Prod.mk.injEq]
      exact ⟨fun hi => hi.elim (fun hi => absurd ⟨i, hi⟩ hfresh) (·.2), fun hi => .inr ⟨rfl, hi⟩⟩
    have hnot : ¬ AddedByAll n (h ++ [(m.key, s)]) m.key := by
      intro hall
      have h₀ := (hmem 0).mp (hall 0 (by omega))
      have h₁ := (hmem 1).mp (hall 1 (by omega))
      omega
    have hlen : s < L.len (L.new lm.numSources) := by
      rwa [L.len_new, ht.numSources]
    refine ⟨_, none, addMatch_of_lookup_none hlookup s, ht.track ?_ ?_ ?_ ?_,
      streams_nil_of_iff fun hall => absurd hall hnot⟩
    · rfl
    · rw [L.len_set _ _ hlen, L.len_new, ht.numSources]
    · exact iff_of_false Bool.false_ne_true hnot
    · intro _ i
      rw [L.test_set _ _ _ hlen, L.test_new, hmem]
      simp
  | some prev =>
    obtain ⟨hkey, -, hsent⟩ := ht.tracked _ _ hlookup
    obtain ⟨hlen, hseen⟩ := ht.seen _ _ hlookup
    cases hprev : prev.sent with
    | true =>
      have hall := hsent.mp hprev
      exact ⟨lm, none, addMatch_of_sent hlookup hprev s, ht.again hs hall,
        streams_nil_of_iff fun _ => hall⟩
    | false =>
      have hnot : ¬ AddedByAll n h m.key := fun hall => by
        rw [hsent.mpr hall] at hprev
        cases hprev
      obtain ⟨merged, happend, hmerged⟩ := Match.appendMatches_of_key_eq hkey
      have hset : ∀ i, L.test (L.set prev.seen s) i = true ↔ (m.key, i) ∈ h ++ [(m.key, s)] := by
        intro i
        rw [L.test_set _ _ _ (hlen ▸ hs), hseen hprev, mem_append, mem_singleton,
          Prod.mk.injEq, or_comm]
        simp
      have hlen' : L.len (L.set prev.seen s) = n := by
        rw [L.len_set _ _ (hlen ▸ hs), hlen]
      have hcomplete : L.all (L.set prev.seen s) = true
          ↔ AddedByAll n (h ++ [(m.key, s)]) m.key := by
        rw [L.all_iff, hlen']
        exact forall_congr' fun i => imp_congr_right fun _ => hset i
      rw [addMatch_of_not_sent hlookup hprev happend]
      by_cases hall : L.all (L.set prev.seen s) = true
      · rw [if_pos hall]
        refine ⟨_, some merged, rfl, ht.track ?_ ?_ ?_ ?_, ?_⟩
        · exact hmerged.trans hkey
        · exact hlen'
        · exact iff_of_true rfl (hcomplete.mp hall)
        · rintro ⟨⟩
        · show Streams n h _ [merged.key]
          rw [hmerged.trans hkey]
          exact streams_singleton (hcomplete.mp hall) hnot
      · rw [if_neg hall]
        refine ⟨_, none, rfl, ht.track ?_ ?_ ?_ ?_, ?_⟩
        · exact hmerged.trans hkey
        · exact hlen'
        · exact iff_of_false Bool.false_ne_true fun hk => hall (hcomplete.mpr hk)
        · exact fun _ => hset
        · exact streams_nil_of_iff fun hk => absurd (hcomplete.mpr hk) hall

/-- **One call**: `AddMatches` returns the keys the call completes. -/
theorem addMatches_spec (hn : 2 ≤ n) (ht : lm.Tracks n h) (ms : List Match) (hs : s < n) :
    ∃ lm' out, lm.addMatches ms s = some (lm', out) ∧ lm'.Tracks n (h ++ adds ms s)
      ∧ Streams n h (h ++ adds ms s) (keys out) := by
  induction ms generalizing lm h with
  | nil => exact ⟨lm, [], rfl, by simpa [adds] using ht, by simpa [adds, keys] using Streams.refl⟩
  | cons m ms ih =>
    obtain ⟨lm₁, out, hadd, ht₁, hst₁⟩ := addMatch_spec hn ht m hs
    obtain ⟨lm₂, outs, hadds, ht₂, hst₂⟩ := ih ht₁
    have happend : h ++ adds (m :: ms) s = h ++ [(m.key, s)] ++ adds ms s :=
      append_cons h (m.key, s) (adds ms s)
    rw [happend, addMatches, hadd]
    simp only [Option.bind_eq_bind, Option.bind_some, hadds]
    refine ⟨_, _, rfl, ht₂, ?_⟩
    rw [keys, map_append]
    exact hst₁.append (subset_append_left _ _) (subset_append_left _ _) hst₂

/-- The history of a sequence of calls. -/
def history (calls : List (List Match × ℕ)) : List (Key × ℕ) :=
  calls.flatMap fun (ms, source) => adds ms source

/-- **A sequence of calls**: each returns the keys it completes. -/
theorem addAll_spec (hn : 2 ≤ n)
    (ht : lm.Tracks n h) (calls : List (List Match × ℕ)) (hs : ∀ c ∈ calls, c.2 < n) :
    ∃ lm' outs, lm.addAll calls = some (lm', outs) ∧ lm'.Tracks n (h ++ history calls)
      ∧ Streams n h (h ++ history calls) (keys outs.flatten)
      ∧ outs.length = calls.length
      ∧ ∀ j out, outs[j]? = some out →
        Streams n (h ++ history (calls.take j)) (h ++ history (calls.take (j + 1))) (keys out) := by
  induction calls generalizing lm h with
  | nil =>
    refine ⟨lm, [], rfl, ?_, ?_, rfl, ?_⟩
    · simpa [history] using ht
    · simpa [history, keys] using Streams.refl
    · rintro j out hout
      cases hout
  | cons c calls ih =>
    obtain ⟨lm₁, out, hadd, ht₁, hst₁⟩ := addMatches_spec hn ht c.1 (hs c mem_cons_self)
    obtain ⟨lm₂, outs, hadds, ht₂, hst₂, hlen, heach⟩ :=
      ih ht₁ fun c' hc' => hs c' (mem_cons_of_mem _ hc')
    have happend : ∀ calls', h ++ history (c :: calls') = h ++ adds c.1 c.2 ++ history calls' :=
      fun calls' => (append_assoc _ _ _).symm
    rw [happend, addAll, hadd]
    simp only [Option.bind_eq_bind, Option.bind_some, hadds]
    refine ⟨_, _, rfl, ht₂, ?_, ?_, ?_⟩
    · rw [flatten_cons, keys, map_append]
      exact hst₁.append (subset_append_left _ _) (subset_append_left _ _) hst₂
    · rw [length_cons, length_cons, hlen]
    · intro j out' hout
      cases j with
      | zero =>
        cases hout
        simpa [history] using hst₁
      | succ j =>
        rw [take_succ_cons, take_succ_cons, happend, happend]
        exact heach j out' hout

/-- **`UnsentTracked` returns the keys that were added and not completed**,
each once. -/
theorem UnsentTracked.keys_spec
    (ht : lm.Tracks n h) {res : List Match} (hres : lm.UnsentTracked res) :
    (keys res).Nodup ∧ ∀ k, k ∈ keys res ↔ Added h k ∧ ¬ AddedByAll n h k := by
  obtain ⟨vals, hperm, -, rfl⟩ := hres
  have hentry : ∀ e ∈ lm.matchMap.entries, lm.matchMap.lookup e.1 = some e.2 := fun e he =>
    AList.mem_lookup_iff.mpr he
  have hkeys : (keys (vals.map (·.merged))).Perm
      ((lm.matchMap.entries.filter (!·.2.sent)).map (·.1)) := by
    unfold keys
    rw [map_map]
    refine (hperm.map _).trans (.of_eq ?_)
    rw [unsentVals, filter_map, map_map]
    refine map_congr_left fun e he => ?_
    exact (ht.tracked _ _ (hentry e (mem_of_mem_filter he))).1
  have hnodup : ((lm.matchMap.entries.filter (!·.2.sent)).map (·.1)).Nodup :=
    List.Nodup.sublist (filter_sublist.map _)
      (show (lm.matchMap.entries.map (·.1)).Nodup from lm.matchMap.nodupKeys)
  refine ⟨hkeys.nodup_iff.mpr hnodup, fun k => ?_⟩
  rw [hkeys.mem_iff, mem_map]
  constructor
  · rintro ⟨e, he, rfl⟩
    rw [mem_filter] at he
    obtain ⟨-, hadded, hsent⟩ := ht.tracked _ _ (hentry e he.1)
    refine ⟨hadded, fun hall => ?_⟩
    rw [hsent.mpr hall] at he
    exact absurd he.2 (by decide)
  · rintro ⟨hadded, hnot⟩
    cases hlookup : lm.matchMap.lookup k with
    | none => exact absurd hadded (ht.untracked k hlookup)
    | some v =>
      obtain ⟨-, -, hsent⟩ := ht.tracked _ _ hlookup
      refine ⟨⟨k, v⟩, mem_filter.mpr ⟨AList.mem_lookup_iff.mp hlookup, ?_⟩, rfl⟩
      cases hv : v.sent with
      | true => exact absurd (hsent.mp hv) hnot
      | false => rfl

/-- **The streamed keys and the unsent ones are the keys ever added**, each
once. -/
theorem streamed_append_unsent (hn : 0 < n)
    (ht : lm.Tracks n h) {ks : List Key} (hst : Streams n [] h ks) {res : List Match}
    (hres : lm.UnsentTracked res) :
    (ks ++ keys res).Nodup ∧ ∀ k, k ∈ ks ++ keys res ↔ Added h k := by
  obtain ⟨hnodup, hmem⟩ := hres.keys_spec ht
  have hstreamed : ∀ k, k ∈ ks ↔ AddedByAll n h k := by
    intro k
    rw [hst.mem_iff, Completed, and_iff_left]
    exact fun hnil => absurd (hnil 0 hn) not_mem_nil
  refine ⟨hst.nodup.append hnodup ?_, fun k => ?_⟩
  · intro k hk hk'
    exact ((hmem k).mp hk').2 ((hstreamed k).mp hk)
  · rw [mem_append, hstreamed, hmem]
    constructor
    · rintro (hall | ⟨hadded, -⟩)
      · exact hall.added hn
      · exact hadded
    · intro hadded
      by_cases hall : AddedByAll n h k
      · exact .inl hall
      · exact .inr ⟨hadded, hall⟩

end Merger

end Result
