import CodeScout.Util.GoMap
import CodeScout.Util.GoSort
import CodeScout.Util.GoString
import Mathlib

/-!
# Aggregation with a limit

The aggregation of search results keeps counts for a limited number of labels.
When a new label finds no room it replaces the label with the smallest count,
or is dropped if its own count is smaller; what is dropped is added to the
other counts. Labels with equal counts are compared by their text.

The smallest entry is cached. It is computed anew when it is replaced or when
its own count grows, and otherwise only compared with an entry that is added.
That is enough: the counts of other labels only grow, so the cached entry stays
the smallest one (`Inv`). No count is lost on the way
(`Inv.addAll`), although a label that was dropped may come back and be
dropped again.

Counts have 32 bits. The sums are exact as long as their total fits.
-/

namespace Aggregation

open List

/-! ## Aggregates -/

/-- Addition in 32 bits. -/
def add32 (a b : ℤ) : ℤ := (a + b).bmod (2 ^ 32)

/-- A label with its count. -/
structure Aggregate where
  label : GoString
  count : ℤ
  deriving DecidableEq

/-- Strings are compared by their bytes. -/
def labelKey (label : GoString) : List ℕ := label.map UInt8.toNat

/-- `Less`, which is true also of an aggregate and itself. -/
def Aggregate.less (a b : Aggregate) : Bool :=
  if a.count = b.count then decide (labelKey a.label ≤ labelKey b.label)
  else decide (a.count < b.count)

/-- By count, then by label. -/
def Aggregate.key (a : Aggregate) : ℤ ×ₗ List ℕ := toLex (a.count, labelKey a.label)

theorem Aggregate.less_iff {a b : Aggregate} : a.less b = true ↔ a.key ≤ b.key := by
  unfold Aggregate.less Aggregate.key
  rw [Prod.Lex.toLex_le_toLex]
  split_ifs with h
  · simp [h]
  · rw [decide_eq_true_eq]
    exact (or_iff_left fun heq => h heq.1).symm

theorem Aggregate.key_injective : Function.Injective Aggregate.key := by
  rintro ⟨label, count⟩ ⟨label', count'⟩ h
  obtain ⟨hcount, hlabel⟩ := Prod.mk.inj (toLex_inj.mp h)
  have hinj : Function.Injective (map UInt8.toNat) :=
    map_injective_iff.mpr fun _ _ => UInt8.toNat_inj.mp
  dsimp only at hcount hlabel
  rw [hcount, hinj hlabel]

/-- What was dropped: results, and how often. -/
structure OtherCount where
  resultCount : ℤ
  groupCount : ℤ
  deriving DecidableEq

/-- The counts that are kept, with the smallest of them. -/
structure LimitedAggregator where
  resultBufferSize : ℤ
  smallestResult : Option Aggregate
  results : GoMap GoString ℤ
  otherCount : OtherCount

/-- `NewLimitedAggregator` -/
def newLimitedAggregator (bufferSize : ℤ) : LimitedAggregator :=
  ⟨bufferSize, none, ∅, ⟨0, 0⟩⟩

/-- The entries of the map. -/
def kept (results : GoMap GoString ℤ) : List Aggregate :=
  results.toPairs.map fun entry => ⟨entry.1, entry.2⟩

/-- An aggregate replaces the smallest one if there is none or it is less. -/
def smaller (smallest : Option Aggregate) (temp : Aggregate) : Option Aggregate :=
  if smallest.all temp.less then some temp else smallest

/-- The loop that looks for the smallest entry. -/
def findSmallestAggregate (order : RangeOrder) (results : GoMap GoString ℤ) : Option Aggregate :=
  (order.range [] (kept results)).foldl smaller none

namespace LimitedAggregator

variable (order : RangeOrder) (a : LimitedAggregator)

/-- The smallest entry is computed anew. -/
def updateSmallestAggregate : LimitedAggregator :=
  { a with smallestResult := (findSmallestAggregate order a.results).or a.smallestResult }

/-- What is dropped is counted. -/
def updateOtherCount (resultCount groupCount : ℤ) : LimitedAggregator :=
  { a with otherCount :=
    ⟨add32 a.otherCount.resultCount resultCount, add32 a.otherCount.groupCount groupCount⟩ }

/-- `Add` of a label that is not kept and finds no room. There is no result if
the smallest entry is missing, which would be a nil dereference. -/
def addFull (label : GoString) (count : ℤ) : Option LimitedAggregator :=
  a.smallestResult.map fun smallest =>
    if smallest.less ⟨label, count⟩ then
      updateSmallestAggregate order
        { a.updateOtherCount smallest.count 1 with
          results := (a.results.erase smallest.label).insert label count }
    else a.updateOtherCount count 1

/-- `Add` of a label that is kept. -/
def addKept (label : GoString) (current count : ℤ) : LimitedAggregator :=
  let updated := { a with results := a.results.insert label (add32 current count) }
  if a.smallestResult.all (label == ·.label) then updated.updateSmallestAggregate order
  else updated

/-- **`Add`.** -/
def add (label : GoString) (count : ℤ) : Option LimitedAggregator :=
  if a.resultBufferSize ≤ 0 then some a
  else
    match a.results.lookup label with
    | none =>
      if a.results.entries.length < a.resultBufferSize then
        some { a with
          results := a.results.insert label count
          smallestResult := smaller a.smallestResult ⟨label, count⟩ }
      else a.addFull order label count
    | some current => some (a.addKept order label current count)

/-- `SortAggregate`. No entry is compared with itself. -/
def sortAggregate (sorter : SliceSort) : List Aggregate :=
  sorter.sort (fun x y => x != y && y.less x) (order.range [] (kept a.results))

end LimitedAggregator

/-- A call of `Add`, with the order in which it ranges over the map. -/
structure AddCall where
  order : RangeOrder
  label : GoString
  count : ℤ

/-- One call after the other. -/
def addAll (a : LimitedAggregator) (calls : List AddCall) : Option LimitedAggregator :=
  calls.foldlM (fun a call => a.add call.order call.label call.count) a

/-! ## The smallest entry -/

/-- **The smallest of a list**, which is missing only if the list is empty. -/
structure IsSmallest (smallest : Option Aggregate) (l : List Aggregate) : Prop where
  eq_nil : smallest = none → l = []
  mem : ∀ m ∈ smallest, m ∈ l
  le : ∀ m ∈ smallest, ∀ x ∈ l, m.key ≤ x.key

theorem IsSmallest.nil : IsSmallest none [] := ⟨fun _ => rfl, nofun, nofun⟩

variable {smallest : Option Aggregate}

theorem IsSmallest.of_mem_iff {l l' : List Aggregate}
    (h : IsSmallest smallest l) (hl : ∀ x, x ∈ l' ↔ x ∈ l) : IsSmallest smallest l' where
  eq_nil hnone := eq_nil_iff_forall_not_mem.mpr fun x hx => by
    rw [hl, h.eq_nil hnone] at hx
    exact not_mem_nil hx
  mem m hm := (hl m).mpr (h.mem m hm)
  le m hm x hx := h.le m hm x ((hl x).mp hx)

theorem IsSmallest.cons {l : List Aggregate}
    (h : IsSmallest smallest l) (x : Aggregate) : IsSmallest (smaller smallest x) (x :: l) := by
  unfold smaller
  split_ifs with hless
  · refine ⟨nofun, fun m hm => ?_, fun m hm y hy => ?_⟩
    · rw [← Option.some.inj hm]
      exact mem_cons_self
    · rw [← Option.some.inj hm]
      rcases mem_cons.mp hy with rfl | hy
      · exact le_rfl
      · cases smallest with
        | none => exact absurd (h.eq_nil rfl ▸ hy) not_mem_nil
        | some s => exact (Aggregate.less_iff.mp hless).trans (h.le s rfl y hy)
  · refine ⟨fun hnone => ?_, fun m hm => mem_cons_of_mem _ (h.mem m hm), fun m hm y hy => ?_⟩
    · rw [hnone] at hless
      exact absurd rfl hless
    · rcases mem_cons.mp hy with rfl | hy
      · obtain rfl : smallest = some m := hm
        have hgreater : ¬y.key ≤ m.key := fun hle => hless (Aggregate.less_iff.mpr hle)
        exact (not_le.mp hgreater).le
      · exact h.le m hm y hy

theorem isSmallest_foldl {l seen : List Aggregate}
    (h : IsSmallest smallest seen) : IsSmallest (l.foldl smaller smallest) (l ++ seen) := by
  induction l generalizing smallest seen with
  | nil => exact h
  | cons x l ih =>
    refine (ih (h.cons x)).of_mem_iff fun y => ?_
    simp only [mem_append, mem_cons, or_left_comm, cons_append]

theorem isSmallest_findSmallestAggregate (order : RangeOrder) (results : GoMap GoString ℤ) :
    IsSmallest (findSmallestAggregate order results) (kept results) := by
  refine (isSmallest_foldl .nil).of_mem_iff fun x => ?_
  rw [append_nil, RangeOrder.mem_range]

theorem isSmallest_updateSmallestAggregate (order : RangeOrder) {a : LimitedAggregator}
    (hkept : kept a.results ≠ []) :
    IsSmallest (a.updateSmallestAggregate order).smallestResult (kept a.results) := by
  have hfound := isSmallest_findSmallestAggregate order a.results
  obtain ⟨m, hm⟩ : ∃ m, findSmallestAggregate order a.results = some m :=
    Option.ne_none_iff_exists'.mp fun hnone => hkept (hfound.eq_nil hnone)
  show IsSmallest ((findSmallestAggregate order a.results).or a.smallestResult) _
  rw [hm, Option.some_or, ← hm]
  exact hfound

/-! ## The entries of a map -/

variable {results : GoMap GoString ℤ}

theorem mem_kept {x : Aggregate} :
    x ∈ kept results ↔ results.lookup x.label = some x.count := by
  rw [← GoMap.mem_toPairs, kept, mem_map]
  constructor
  · rintro ⟨⟨label, count⟩, hmem, rfl⟩
    exact hmem
  · exact fun hmem => ⟨_, hmem, rfl⟩

/-- The sum of the counts that are kept. -/
def keptCount (results : GoMap GoString ℤ) : ℤ := (results.entries.map Sigma.snd).sum

theorem keptCount_insert (results : GoMap GoString ℤ) (label : GoString) (count : ℤ) :
    keptCount (results.insert label count) = count + keptCount (results.erase label) := by
  rw [keptCount, AList.entries_insert, map_cons, sum_cons]
  rfl

variable {label : GoString} {count : ℤ}

theorem keptCount_erase (h : results.lookup label = some count) :
    keptCount results = count + keptCount (results.erase label) := by
  have hmem : label ∈ results.entries.keys :=
    AList.lookup_isSome.mp (by rw [h]; rfl)
  obtain ⟨b, l₁, l₂, hl₁, hentries, herase⟩ := exists_of_kerase hmem
  have hb : b = count := by
    have hlookup : results.lookup label = some b :=
      AList.mem_lookup_iff.mpr (by rw [hentries]; exact mem_append_right _ mem_cons_self)
    exact Option.some.inj (hlookup.symm.trans h)
  show (results.entries.map Sigma.snd).sum = count + ((results.entries.kerase label).map _).sum
  rw [herase, hentries, hb]
  simp only [map_append, map_cons, sum_append, sum_cons]
  ring

theorem erase_eq_self
    (h : results.lookup label = none) : (results.erase label).entries = results.entries :=
  kerase_of_notMem_keys (AList.lookup_eq_none.mp h)

theorem length_erase (h : results.lookup label = some count) :
    (results.erase label).entries.length + 1 = results.entries.length := by
  have hmem : label ∈ results.entries.keys :=
    AList.lookup_isSome.mp (by rw [h]; rfl)
  obtain ⟨b, l₁, l₂, -, hentries, herase⟩ := exists_of_kerase hmem
  show (results.entries.kerase label).length + 1 = _
  rw [herase, hentries, length_append, length_append, length_cons]
  rfl

theorem length_insert (results : GoMap GoString ℤ) (label : GoString) (count : ℤ) :
    (results.insert label count).entries.length = (results.erase label).entries.length + 1 := by
  rw [AList.entries_insert, length_cons]
  rfl

theorem lookup_insert_iff {label label' : GoString}
    {count count' : ℤ} : (results.insert label count).lookup label' = some count' ↔
      label' = label ∧ count' = count ∨ label' ≠ label ∧ results.lookup label' = some count' := by
  by_cases h : label' = label
  · rw [h, AList.lookup_insert]
    simp [eq_comm]
  · rw [AList.lookup_insert_ne h]
    simp [h]

theorem lookup_of_erase {label label' : GoString}
    (h : (results.erase label).lookup label' = some count) :
    results.lookup label' = some count := by
  have hne : label' ≠ label := by
    rintro rfl
    rw [AList.lookup_erase] at h
    exact absurd h nofun
  rwa [AList.lookup_erase_ne hne] at h

theorem mem_kept_insert {x : Aggregate} : x ∈ kept (results.insert label count) ↔
      x = ⟨label, count⟩ ∨ x.label ≠ label ∧ x ∈ kept results := by
  obtain ⟨label', count'⟩ := x
  rw [mem_kept, mem_kept, lookup_insert_iff, Aggregate.mk.injEq]

theorem kept_insert_ne_nil (results : GoMap GoString ℤ) (label : GoString) (count : ℤ) :
    kept (results.insert label count) ≠ [] :=
  ne_nil_of_mem (mem_kept_insert.mpr (.inl rfl))

/-! ## What the calls add up to -/

/-- The sum of all counts. -/
def totalCount (calls : List AddCall) : ℤ := (calls.map AddCall.count).sum

/-- The sum of the counts of a label. -/
def addedCount (calls : List AddCall) (label : GoString) : ℤ :=
  totalCount (calls.filter (·.label == label))

/-- The labels of calls. -/
def labels (calls : List AddCall) : Finset GoString := (calls.map AddCall.label).toFinset

theorem totalCount_append (calls calls' : List AddCall) :
    totalCount (calls ++ calls') = totalCount calls + totalCount calls' := by
  rw [totalCount, map_append, sum_append]
  rfl

theorem totalCount_singleton (call : AddCall) : totalCount [call] = call.count :=
  sum_singleton

theorem totalCount_nonneg {calls : List AddCall} (h : ∀ call ∈ calls, 0 < call.count) :
    0 ≤ totalCount calls :=
  sum_nonneg fun _ hcount => by
    obtain ⟨call, hcall, rfl⟩ := mem_map.mp hcount
    exact (h call hcall).le

theorem addedCount_append (calls : List AddCall) (call : AddCall) (label : GoString) :
    addedCount (calls ++ [call]) label =
      addedCount calls label + if call.label = label then call.count else 0 := by
  rw [addedCount, filter_append, totalCount_append, filter_singleton]
  congr 1
  by_cases h : call.label = label
  · rw [if_pos h, beq_iff_eq.mpr h]
    exact totalCount_singleton call
  · rw [if_neg h, beq_eq_false_iff_ne.mpr h]
    rfl

theorem addedCount_le_append {calls : List AddCall} {call : AddCall} (h : 0 < call.count)
    (label : GoString) : addedCount calls label ≤ addedCount (calls ++ [call]) label := by
  rw [addedCount_append]
  split_ifs
  · exact le_add_of_nonneg_right h.le
  · rw [add_zero]

theorem labels_append (calls : List AddCall) (call : AddCall) :
    labels (calls ++ [call]) = insert call.label (labels calls) := by
  rw [labels, map_append, toFinset_append, Finset.union_comm]
  rfl

theorem addedCount_of_notMem {calls : List AddCall} {label : GoString} (h : label ∉ labels calls) :
    addedCount calls label = 0 := by
  rw [addedCount, filter_eq_nil_iff.mpr]
  · rfl
  · intro call hcall heq
    refine h (mem_toFinset.mpr ?_)
    rw [← beq_iff_eq.mp heq]
    exact mem_map_of_mem hcall

/-- The greatest number of 32 bits. -/
def maxInt32 : ℤ := 2 ^ 31 - 1

theorem add32_eq {a b : ℤ} (h : 0 ≤ a + b) (hmax : a + b ≤ maxInt32) : add32 a b = a + b := by
  unfold maxInt32 at hmax
  unfold add32
  exact Int.bmod_eq_of_le (by omega) (by omega)

/-! ## The invariant -/

/-- **What holds after some calls.** -/
structure Inv (bufferSize : ℤ) (calls : List AddCall) (a : LimitedAggregator) : Prop where
  pos : ∀ call ∈ calls, 0 < call.count
  size_eq : a.resultBufferSize = bufferSize
  length_le : a.results.entries.length ≤ bufferSize
  smallest : IsSmallest a.smallestResult (kept a.results)
  total_eq : keptCount a.results + a.otherCount.resultCount = totalCount calls
  counts : ∀ label count, a.results.lookup label = some count →
    0 < count ∧ count ≤ addedCount calls label
  other_nonneg : 0 ≤ a.otherCount.resultCount

theorem inv_new {bufferSize : ℤ} (h : 0 < bufferSize) :
    Inv bufferSize [] (newLimitedAggregator bufferSize) where
  pos := nofun
  size_eq := rfl
  length_le := h.le
  smallest := .nil
  total_eq := rfl
  counts := nofun
  other_nonneg := le_rfl

section

variable {bufferSize : ℤ} {calls : List AddCall} {a : LimitedAggregator}

theorem Inv.keptCount_nonneg (h : Inv bufferSize calls a) (label : GoString) :
    0 ≤ keptCount (a.results.erase label) := by
  refine sum_nonneg fun count hcount => ?_
  obtain ⟨⟨label', count'⟩, hmem, rfl⟩ := mem_map.mp hcount
  have hentry := (kerase_sublist label a.results.entries).subset hmem
  exact (h.counts label' count' (AList.mem_lookup_iff.mpr hentry)).1.le

/-- A count that is kept is part of the total, with the other counts. -/
theorem Inv.count_add_le (h : Inv bufferSize calls a)
    (hlookup : a.results.lookup label = some count) :
    count + a.otherCount.resultCount ≤ totalCount calls := by
  have hsum := h.total_eq
  rw [keptCount_erase hlookup] at hsum
  have hrest := h.keptCount_nonneg label
  omega

theorem Inv.other_le (h : Inv bufferSize calls a) :
    a.otherCount.resultCount ≤ totalCount calls := by
  have hnonneg : 0 ≤ keptCount a.results := by
    refine sum_nonneg fun count hcount => ?_
    obtain ⟨⟨label, count'⟩, hmem, rfl⟩ := mem_map.mp hcount
    exact (h.counts label count' (AList.mem_lookup_iff.mpr hmem)).1.le
  have hsum := h.total_eq
  omega

section

variable {call : AddCall} (hpos : 0 < call.count)

include hpos

theorem Inv.counts_insert (h : Inv bufferSize calls a)
    (hresults : ∀ label count, results.lookup label = some count →
      a.results.lookup label = some count) {new : ℤ} (hnew : 0 < new)
    (hle : new ≤ addedCount (calls ++ [call]) call.label) :
    ∀ label count, (results.insert call.label new).lookup label = some count →
      0 < count ∧ count ≤ addedCount (calls ++ [call]) label := by
  intro label count hlookup
  rcases lookup_insert_iff.mp hlookup with ⟨rfl, rfl⟩ | ⟨-, hlookup⟩
  · exact ⟨hnew, hle⟩
  · have hcount := h.counts label count (hresults label count hlookup)
    exact ⟨hcount.1, hcount.2.trans (addedCount_le_append hpos label)⟩

theorem Inv.pos_append (h : Inv bufferSize calls a) : ∀ c ∈ calls ++ [call], 0 < c.count := by
  intro c hc
  rcases mem_append.mp hc with hc | hc
  · exact h.pos c hc
  · rw [mem_singleton.mp hc]
    exact hpos

omit hpos in
theorem Inv.count_le_added (h : Inv bufferSize calls a) :
    call.count ≤ addedCount (calls ++ [call]) call.label := by
  rw [addedCount_append, if_pos rfl]
  exact le_add_of_nonneg_left (totalCount_nonneg fun c hc => h.pos c (mem_filter.mp hc).1)

theorem Inv.insert (h : Inv bufferSize calls a) (hlookup : a.results.lookup call.label = none)
    (hroom : a.results.entries.length < bufferSize) :
    Inv bufferSize (calls ++ [call])
      { a with
        results := a.results.insert call.label call.count
        smallestResult := smaller a.smallestResult ⟨call.label, call.count⟩ } where
  pos := h.pos_append hpos
  size_eq := h.size_eq
  length_le := by
    show ((a.results.insert call.label call.count).entries.length : ℤ) ≤ bufferSize
    rw [length_insert, erase_eq_self hlookup]
    omega
  smallest := by
    refine (h.smallest.cons ⟨call.label, call.count⟩).of_mem_iff fun x => ?_
    rw [mem_cons, mem_kept_insert]
    refine or_congr_right (and_iff_right_of_imp fun hx hlabel => ?_)
    rw [mem_kept, hlabel, hlookup] at hx
    exact absurd hx nofun
  total_eq := by
    show keptCount (a.results.insert call.label call.count) + _ = _
    rw [keptCount_insert, keptCount, erase_eq_self hlookup, totalCount_append,
      totalCount_singleton, ← h.total_eq, keptCount]
    ring
  counts := h.counts_insert hpos (fun _ _ => id) hpos h.count_le_added
  other_nonneg := h.other_nonneg

variable (hmax : totalCount (calls ++ [call]) ≤ maxInt32)

include hmax

theorem Inv.drop (h : Inv bufferSize calls a) :
    Inv bufferSize (calls ++ [call]) (a.updateOtherCount call.count 1) := by
  have hother := h.other_le
  have hnonneg := h.other_nonneg
  rw [totalCount_append, totalCount_singleton] at hmax
  have hadd : add32 a.otherCount.resultCount call.count =
      a.otherCount.resultCount + call.count := add32_eq (by omega) (by omega)
  refine ⟨h.pos_append hpos, h.size_eq, h.length_le, h.smallest, ?_,
    fun label count hlookup => ?_, ?_⟩
  · show keptCount a.results + add32 a.otherCount.resultCount call.count = _
    rw [hadd, totalCount_append, totalCount_singleton, ← h.total_eq]
    ring
  · have hcount := h.counts label count hlookup
    exact ⟨hcount.1, hcount.2.trans (addedCount_le_append hpos label)⟩
  · show 0 ≤ add32 a.otherCount.resultCount call.count
    omega

theorem Inv.replace (h : Inv bufferSize calls a) (order : RangeOrder)
    (hlookup : a.results.lookup call.label = none) {smallest : Aggregate}
    (hsmallest : a.smallestResult = some smallest) :
    Inv bufferSize (calls ++ [call])
      (LimitedAggregator.updateSmallestAggregate order
        { a.updateOtherCount smallest.count 1 with
          results := (a.results.erase smallest.label).insert call.label call.count }) := by
  have hkept : a.results.lookup smallest.label = some smallest.count :=
    mem_kept.mp (h.smallest.mem smallest hsmallest)
  have hother := h.count_add_le hkept
  have hnonneg := h.other_nonneg
  have hpositive := (h.counts _ _ hkept).1
  have herased : (a.results.erase smallest.label).lookup call.label = none := by
    by_contra hne
    obtain ⟨count, hcount⟩ := Option.ne_none_iff_exists'.mp hne
    rw [lookup_of_erase hcount] at hlookup
    exact absurd hlookup nofun
  rw [totalCount_append, totalCount_singleton] at hmax
  have hadd : add32 a.otherCount.resultCount smallest.count =
      a.otherCount.resultCount + smallest.count := add32_eq (by omega) (by omega)
  refine ⟨h.pos_append hpos, h.size_eq, ?_, ?_, ?_, ?_, ?_⟩
  · show (((a.results.erase smallest.label).insert call.label call.count).entries.length : ℤ) ≤ _
    rw [length_insert, erase_eq_self herased, length_erase hkept]
    exact h.length_le
  · exact isSmallest_updateSmallestAggregate order (kept_insert_ne_nil _ _ _)
  · show keptCount ((a.results.erase smallest.label).insert call.label call.count) +
      add32 a.otherCount.resultCount smallest.count = _
    rw [hadd, keptCount_insert, keptCount, erase_eq_self herased, totalCount_append,
      totalCount_singleton, ← h.total_eq, keptCount_erase hkept, keptCount]
    ring
  · exact h.counts_insert hpos (fun _ _ => lookup_of_erase) hpos h.count_le_added
  · show 0 ≤ add32 a.otherCount.resultCount smallest.count
    omega

/-- A label that is kept. -/
theorem Inv.update (h : Inv bufferSize calls a) (order : RangeOrder) {current : ℤ}
    (hlookup : a.results.lookup call.label = some current) :
    Inv bufferSize (calls ++ [call]) (a.addKept order call.label current call.count) := by
  have hother := h.count_add_le hlookup
  have hnonneg := h.other_nonneg
  obtain ⟨hpositive, hadded⟩ := h.counts _ _ hlookup
  rw [totalCount_append, totalCount_singleton] at hmax
  have hadd : add32 current call.count = current + call.count :=
    add32_eq (by omega) (by omega)
  -- everything but the cache
  have hrest : ∀ a', a'.resultBufferSize = a.resultBufferSize →
      a'.results = a.results.insert call.label (add32 current call.count) →
      a'.otherCount = a.otherCount → IsSmallest a'.smallestResult (kept a'.results) →
      Inv bufferSize (calls ++ [call]) a' := by
    intro a' hsize hresults hcount hsmallest
    refine ⟨h.pos_append hpos, hsize.trans h.size_eq, ?_, hsmallest, ?_, ?_, ?_⟩
    · rw [hresults, length_insert, length_erase hlookup]
      exact h.length_le
    · rw [hresults, hcount, hadd, keptCount_insert, totalCount_append, totalCount_singleton,
        ← h.total_eq, keptCount_erase hlookup]
      ring
    · rw [hresults, hadd]
      refine h.counts_insert hpos (fun _ _ => id) (by omega) ?_
      rw [addedCount_append, if_pos rfl]
      omega
    · rw [hcount]
      exact hnonneg
  unfold LimitedAggregator.addKept
  dsimp only
  split_ifs with hcached
  · exact hrest _ rfl rfl rfl (isSmallest_updateSmallestAggregate order (kept_insert_ne_nil _ _ _))
  · refine hrest _ rfl rfl rfl ⟨fun hnone => ?_, fun m hm => ?_, fun m hm x hx => ?_⟩
    · dsimp only at hnone
      rw [hnone] at hcached
      exact absurd rfl hcached
    · obtain hm : a.smallestResult = some m := hm
      rw [hm] at hcached
      refine mem_kept_insert.mpr (.inr ⟨fun hlabel => hcached ?_, h.smallest.mem m hm⟩)
      exact beq_iff_eq.mpr hlabel.symm
    · rcases mem_kept_insert.mp hx with rfl | ⟨-, hx⟩
      · -- the count of the label has grown
        refine (h.smallest.le m hm ⟨call.label, current⟩ (mem_kept.mpr hlookup)).trans ?_
        rw [hadd]
        exact Prod.Lex.toLex_le_toLex.mpr (.inl (lt_add_of_pos_right current hpos))
      · exact h.smallest.le m hm x hx

/-- **A call keeps the invariant**, and does not fail. -/
theorem Inv.add (hsize : 0 < bufferSize) (h : Inv bufferSize calls a) :
    ∃ a', a.add call.order call.label call.count = some a' ∧
      Inv bufferSize (calls ++ [call]) a' := by
  unfold LimitedAggregator.add
  rw [if_neg (by rw [h.size_eq]; omega)]
  cases hlookup : a.results.lookup call.label with
  | some current => exact ⟨_, rfl, h.update hpos hmax call.order hlookup⟩
  | none =>
    dsimp only
    split_ifs with hroom
    · exact ⟨_, rfl, h.insert hpos hlookup (h.size_eq ▸ hroom)⟩
    · obtain ⟨smallest, hsmallest⟩ : ∃ smallest, a.smallestResult = some smallest := by
        rw [h.size_eq] at hroom
        refine Option.ne_none_iff_exists'.mp fun hnone => hroom ?_
        have hkept := h.smallest.eq_nil hnone
        have hempty : a.results.entries = [] := by
          rw [kept, GoMap.toPairs, map_map] at hkept
          exact map_eq_nil_iff.mp hkept
        rw [hempty]
        exact hsize
      unfold LimitedAggregator.addFull
      rw [hsmallest, Option.map_some]
      refine ⟨_, rfl, ?_⟩
      split_ifs
      · exact h.replace hpos hmax call.order hlookup hsmallest
      · exact h.drop hpos hmax

/-- **Exact counts stay exact** while there is room for all labels. -/
theorem Inv.lookup_add (h : Inv bufferSize calls a)
    (hexact : ∀ label, a.results.lookup label
      = if label ∈ labels calls then some (addedCount calls label) else none)
    (hroom : ((labels (calls ++ [call])).card : ℤ) ≤ bufferSize) {a' : LimitedAggregator}
    (hadd : a.add call.order call.label call.count = some a') (label : GoString) :
    a'.results.lookup label = if label ∈ labels (calls ++ [call]) then
      some (addedCount (calls ++ [call]) label) else none := by
  have hsize : ¬ a.resultBufferSize ≤ 0 := by
    have hcard := Finset.card_pos.mpr ⟨_, labels_append calls call ▸ Finset.mem_insert_self _ _⟩
    rw [h.size_eq]
    omega
  suffices hresults : a'.results
      = a.results.insert call.label (addedCount (calls ++ [call]) call.label) by
    rw [hresults, labels_append]
    by_cases hlabel : label = call.label
    · rw [hlabel, AList.lookup_insert, if_pos (Finset.mem_insert_self _ _)]
    · rw [AList.lookup_insert_ne hlabel, hexact, addedCount_append, if_neg (Ne.symm hlabel),
        add_zero]
      simp only [Finset.mem_insert, hlabel, false_or]
  rw [LimitedAggregator.add, if_neg hsize] at hadd
  cases hlookup : a.results.lookup call.label with
  | some current =>
    obtain ⟨hpositive, -⟩ := h.counts _ _ hlookup
    have hother := h.count_add_le hlookup
    have hnonneg := h.other_nonneg
    rw [totalCount_append, totalCount_singleton] at hmax
    have hcurrent := hexact call.label
    rw [hlookup] at hadd hcurrent
    split_ifs at hcurrent
    rw [addedCount_append, if_pos rfl, ← Option.some.inj hcurrent,
      ← add32_eq (a := current) (b := call.count) (by omega) (by omega), ← Option.some.inj hadd]
    dsimp only [LimitedAggregator.addKept]
    split_ifs <;> rfl
  | none =>
    have hnew : call.label ∉ labels calls := fun hmem => by
      rw [hexact, if_pos hmem] at hlookup
      cases hlookup
    -- the labels that are kept are those of the calls
    have hkeys : a.results.keys.toFinset = labels calls := by
      ext label
      rw [mem_toFinset, ← AList.mem_keys, ← AList.lookup_isSome, hexact]
      by_cases hmem : label ∈ labels calls <;> simp [hmem]
    have hlength : a.results.entries.length = (labels calls).card := by
      rw [← hkeys, toFinset_card_of_nodup a.results.keys_nodup]
      exact (length_map _).symm
    have hless : (a.results.entries.length : ℤ) < a.resultBufferSize := by
      rw [labels_append, Finset.card_insert_of_notMem hnew] at hroom
      rw [h.size_eq, hlength]
      push_cast at hroom
      omega
    rw [hlookup] at hadd
    dsimp only at hadd
    rw [if_pos hless] at hadd
    rw [addedCount_append, if_pos rfl, addedCount_of_notMem hnew, zero_add,
      ← Option.some.inj hadd]

end

end

/-- **Every sequence of calls keeps the invariant.** The induction is on the
calls that are left. -/
theorem Inv.addAll {bufferSize : ℤ} (hsize : 0 < bufferSize) {calls rest : List AddCall}
    {a : LimitedAggregator} (h : Inv bufferSize calls a) (hpos : ∀ call ∈ rest, 0 < call.count)
    (hmax : totalCount (calls ++ rest) ≤ maxInt32) :
    ∃ a', addAll a rest = some a' ∧ Inv bufferSize (calls ++ rest) a' ∧
      ((∀ label, a.results.lookup label
          = if label ∈ labels calls then some (addedCount calls label) else none) →
        ((labels (calls ++ rest)).card : ℤ) ≤ bufferSize →
        ∀ label, a'.results.lookup label = if label ∈ labels (calls ++ rest) then
          some (addedCount (calls ++ rest) label) else none) := by
  induction rest generalizing calls a with
  | nil => exact ⟨a, rfl, by rwa [append_nil], by rw [append_nil]; exact fun h _ => h⟩
  | cons call rest ih =>
    rw [forall_mem_cons] at hpos
    have hcut : calls ++ call :: rest = (calls ++ [call]) ++ rest := by
      rw [append_assoc, singleton_append]
    rw [hcut] at hmax ⊢
    have hcall : totalCount (calls ++ [call]) ≤ maxInt32 := by
      rw [totalCount_append] at hmax
      exact (le_add_of_nonneg_right (totalCount_nonneg hpos.2)).trans hmax
    obtain ⟨a₁, hadd, h₁⟩ := h.add hpos.1 hcall hsize
    obtain ⟨a', hrest, h', hexact'⟩ := ih h₁ hpos.2 hmax
    refine ⟨a', ?_, h', fun hexact hroom => hexact' ?_ hroom⟩
    · rw [Aggregation.addAll, foldlM_cons, hadd]
      exact hrest
    · refine h.lookup_add hpos.1 hcall hexact (le_trans ?_ hroom) hadd
      refine Int.ofNat_le.mpr (Finset.card_le_card fun label hlabel => ?_)
      rw [labels, map_append, toFinset_append]
      exact Finset.mem_union_left _ hlabel

/-! ## Sorted entries -/

theorem nodup_kept (results : GoMap GoString ℤ) : (kept results).Nodup := by
  refine List.Nodup.of_map Aggregate.label ?_
  rw [kept, map_map]
  exact results.nodup_toPairs

theorem sortAggregate_spec (sorter : SliceSort) (order : RangeOrder) (a : LimitedAggregator) :
    (a.sortAggregate order sorter).Perm (kept a.results) ∧
      (a.sortAggregate order sorter).Pairwise fun x y => y.key < x.key := by
  have hless : ∀ x y : Aggregate, (x != y && y.less x) = true ↔
      OrderDual.toDual x.key < OrderDual.toDual y.key := by
    intro x y
    rw [Bool.and_eq_true, bne_iff_ne, Aggregate.less_iff, OrderDual.toDual_lt_toDual,
      lt_iff_le_and_ne, and_comm, Ne, Ne, Aggregate.key_injective.eq_iff, eq_comm]
  have hnodup : ((order.range [] (kept a.results)).map fun x => OrderDual.toDual x.key).Nodup := by
    refine List.Nodup.map (fun x y h => Aggregate.key_injective h) ?_
    exact (order.range_perm [] (kept a.results)).nodup_iff.mpr (nodup_kept a.results)
  exact ⟨(sorter.sort_perm _ _).trans (order.range_perm [] (kept a.results)),
    sorter.pairwise_lt_of_key (fun x : Aggregate => OrderDual.toDual x.key) hless hnodup⟩

/-- **The aggregation conserves counts.** After all calls, if their total fits
in 32 bits: the counts that are kept and the other counts are the total; there
are no more labels than the limit; no label has more than was added for it, and each
has exactly that if there were no more labels than the limit; the cached entry is the
smallest; and the entries are sorted in descending order. -/
theorem addAll_conserves {bufferSize : ℤ} (hsize : 0 < bufferSize) {calls : List AddCall}
    (hpos : ∀ call ∈ calls, 0 < call.count) (hmax : totalCount calls ≤ maxInt32) :
    ∃ a, addAll (newLimitedAggregator bufferSize) calls = some a ∧
      keptCount a.results + a.otherCount.resultCount = totalCount calls ∧
      a.results.entries.length ≤ bufferSize ∧
      (∀ label count, a.results.lookup label = some count → count ≤ addedCount calls label) ∧
      (((labels calls).card : ℤ) ≤ bufferSize → ∀ label ∈ labels calls,
        a.results.lookup label = some (addedCount calls label)) ∧
      IsSmallest a.smallestResult (kept a.results) ∧
      ∀ sorter order, (a.sortAggregate order sorter).Perm (kept a.results) ∧
        (a.sortAggregate order sorter).Pairwise fun x y => y.key < x.key := by
  obtain ⟨a, hadd, h, hexact⟩ := (inv_new hsize).addAll hsize hpos hmax
  rw [nil_append] at h hexact
  refine ⟨a, hadd, h.total_eq, h.length_le,
    fun label count hcount => (h.counts label count hcount).2, fun hroom label hlabel => ?_,
    h.smallest, fun sorter order => sortAggregate_spec sorter order a⟩
  rw [hexact (fun _ => rfl) hroom, if_pos hlabel]

/-- The label `a` is dropped and comes back. -/
def returningCalls : List AddCall :=
  [⟨.byEntries, lit "a", 1⟩, ⟨.byEntries, lit "b", 3⟩, ⟨.byEntries, lit "a", 5⟩,
    ⟨.byEntries, lit "c", 2⟩]

theorem addAll_returningCalls : ∃ a, addAll (newLimitedAggregator 1) returningCalls = some a ∧
    keptCount a.results + a.otherCount.resultCount = totalCount returningCalls ∧
    a.results.entries.length ≤ (1 : ℤ) ∧
    (∀ label count, a.results.lookup label = some count →
      count ≤ addedCount returningCalls label) ∧
    (((labels returningCalls).card : ℤ) ≤ 1 → ∀ label ∈ labels returningCalls,
      a.results.lookup label = some (addedCount returningCalls label)) ∧
    IsSmallest a.smallestResult (kept a.results) ∧
    ∀ sorter order, (a.sortAggregate order sorter).Perm (kept a.results) ∧
      (a.sortAggregate order sorter).Pairwise fun x y => y.key < x.key :=
  addAll_conserves (by decide) (by simp [returningCalls]) (by decide)

end Aggregation
