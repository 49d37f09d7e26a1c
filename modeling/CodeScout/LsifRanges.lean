import CodeScout.LsifChains
import Mathlib

/-!
# What ranges and result sets resolve to

A range or a result set has one chain of next edges. In the end it has the
first definition, reference, implementation and hover result along its chain,
and the monikers of its chain with those linked to them that are not local.
-/

namespace Conversion

open Outcome Chains List

/-! ## The first result along a chain -/

/-- The first identifier that is not zero, or zero. -/
def firstNonZero (ids : List ℤ) : ℤ := (ids.find? (· ≠ 0)).getD 0

theorem firstNonZero_cons (id : ℤ) (ids : List ℤ) :
    firstNonZero (id :: ids) = if id = 0 then firstNonZero ids else id := by
  unfold firstNonZero
  rw [find?_cons]
  split_ifs with h
  · simp [h]
  · simp [h]

/-- **The results are the first ones** of a list of ranges and result sets. -/
structure FirstOf (results : ResultIDs) (l : List ResultIDs) : Prop where
  definition : results.definitionResultID = firstNonZero (l.map (·.definitionResultID))
  reference : results.referenceResultID = firstNonZero (l.map (·.referenceResultID))
  implementation :
    results.implementationResultID = firstNonZero (l.map (·.implementationResultID))
  hover : results.hoverResultID = firstNonZero (l.map (·.hoverResultID))

theorem FirstOf.cons {results : ResultIDs} {l : List ResultIDs} (h : FirstOf results l)
    (own : ResultIDs) : FirstOf (own.merge results) (own :: l) := by
  refine ⟨?_, ?_, ?_, ?_⟩ <;> rw [map_cons, firstNonZero_cons]
  · rw [← h.definition]
    rfl
  · rw [← h.reference]
    rfl
  · rw [← h.implementation]
    rfl
  · rw [← h.hover]
    rfl

/-- What the result sets of a list have. -/
def resultSets (orig : State) (l : List ℤ) : List ResultIDs :=
  l.map fun id => (orig.resultSet id).toResultIDs

theorem firstOf_resolve (orig : State) (l : List ℤ) :
    FirstOf (resolve orig l) (resultSets orig l) := by
  induction l with
  | nil => exact ⟨rfl, rfl, rfl, rfl⟩
  | cons id l ih => exact ih.cons _

/-- **A range or result set is canonical**: it has no next edge, the first
results along its chain and the monikers of its chain. `own` are the results it
had and `results` those it has. -/
def Canonical (orig final : State) (id : ℤ) (own results : ResultIDs) : Prop :=
  ∃ chain, Chain orig.nextID id chain ∧ final.nextID id = none ∧
    FirstOf results (own :: resultSets orig chain.tail) ∧
    ∀ m, m ∈ final.monikers.ids id ↔ Reached orig chain m

/-! ## Ranges -/

/-- A range has what its chain has. -/
def RangeDone (orig state : State) (id : ℤ) : Prop :=
  state.nextID id = none ∧ ∃ l, Chain orig.nextID id (id :: l) ∧
    state.rangeData.lookup id = some ⟨((orig.rangeData.lookup id).getD {}).toResultIDs.merge
      (resolve orig l)⟩ ∧
    ∀ m, m ∈ state.monikers.ids id ↔ Reached orig (id :: l) m

/-- A range is as it was. -/
structure RangeTodo (orig state : State) (id : ℤ) : Prop where
  nextID : state.nextID id = orig.nextID id
  rangeData : state.rangeData.lookup id = orig.rangeData.lookup id
  monikers : ∀ m, m ∈ state.monikers.ids id ↔ m ∈ orig.monikers.ids id

/-- **The state while ranges are merged.** -/
structure Ranging (orig state : State) (done : List ℤ) : Prop where
  resultSet : ∀ id ∈ orig.resultSetData, state.nextID id = none ∧
    ∃ l, Chain orig.nextID id l ∧ (state.resultSet id).toResultIDs = resolve orig l ∧
      ∀ m, m ∈ state.monikers.ids id ↔ Reached orig l m
  merged : ∀ id ∈ done, RangeDone orig state id
  todo : ∀ id ∈ orig.rangeData, id ∉ done → RangeTodo orig state id
  linkedMonikers : state.linkedMonikers = orig.linkedMonikers
  monikerData : state.monikerData = orig.monikerData
  keys : ∀ id, id ∈ state.resultSetData ↔ id ∈ orig.resultSetData

variable {orig state : State}

theorem Finished.ranging (h : Finished orig state)
    (hdisjoint : ∀ id ∈ orig.rangeData, id ∉ orig.resultSetData) : Ranging orig state [] where
  resultSet := h.resultSet
  merged id hid := absurd hid not_mem_nil
  todo id hid _ := by
    obtain ⟨hnext, hmonikers⟩ := h.other id (hdisjoint id hid)
    exact ⟨hnext, by rw [h.rangeData], hmonikers⟩
  linkedMonikers := h.linkedMonikers
  monikerData := h.monikerData
  keys := h.keys

/-- The monikers linked to those of a chain that has its linked ones already. -/
theorem reached_cons_iff (hlinked : state.linkedMonikers = orig.linkedMonikers)
    (hdata : state.monikerData = orig.monikerData) {source : IDSet} {id : ℤ} {l : List ℤ}
    (hsource : ∀ m, m ∈ source ↔ m ∈ orig.monikers.ids id ∨ Reached orig l m) (m : ℤ) :
    m ∈ source ∨ Gathered state source m ↔ Reached orig (id :: l) m := by
  unfold Gathered State.isLocal
  rw [hlinked, hdata, hsource]
  unfold Reached State.isLocal
  simp only [mem_cons, exists_eq_or_imp]
  constructor
  · rintro ((hown | hchain | hgathered) | ⟨hlocal, x, hx, hlink⟩)
    · exact .inl (.inl hown)
    · exact .inl (.inr hchain)
    · exact .inr ⟨hgathered.1, .inr hgathered.2⟩
    · refine .inr ⟨hlocal, ?_⟩
      -- what is linked to a linked moniker is linked to where that comes from
      rcases (hsource x).1 hx with hown | ⟨a, ha, hxa⟩ | ⟨-, a, ha, y, hy, hlink'⟩
      · exact .inl ⟨x, hown, hlink⟩
      · exact .inr ⟨a, ha, x, hxa, hlink⟩
      · exact .inr ⟨a, ha, y, hy, hlink'.trans hlink⟩
  · rintro ((hown | hchain) | ⟨hlocal, ⟨x, hx, hlink⟩ | ⟨a, ha, x, hx, hlink⟩⟩)
    · exact .inl (.inl hown)
    · exact .inl (.inr (.inl hchain))
    · exact .inr ⟨hlocal, x, (hsource x).2 (.inl hx), hlink⟩
    · exact .inr ⟨hlocal, x, (hsource x).2 (.inr (.inl ⟨a, ha, hx⟩)), hlink⟩

/-- What merging a range does. -/
structure RangeMerged (orig state state₁ : State) (id : ℤ) : Prop where
  own : state₁.nextID id = none ∧ ∃ l, Chain orig.nextID id (id :: l) ∧
    state₁.rangeData.lookup id = some ⟨((orig.rangeData.lookup id).getD {}).toResultIDs.merge
      (resolve orig l)⟩ ∧
    ∀ m, m ∈ state₁.monikers.ids id ↔ m ∈ orig.monikers.ids id ∨ Reached orig l m
  other : ∀ id', id' ≠ id → state₁.nextID id' = state.nextID id' ∧
    state₁.rangeData.lookup id' = state.rangeData.lookup id' ∧
    ∀ m, m ∈ state₁.monikers.ids id' ↔ m ∈ state.monikers.ids id'
  resultSetData : state₁.resultSetData = state.resultSetData
  linkedMonikers : state₁.linkedMonikers = state.linkedMonikers
  monikerData : state₁.monikerData = state.monikerData

variable {done : List ℤ}

theorem Ranging.mergeRange (h : Ranging orig state done)
    (hclosed : NextClosed orig) {id : ℤ} (hid : id ∈ orig.rangeData) (hdone : id ∉ done) :
    RangeMerged orig state (mergeRange state id) id := by
  have htodo := h.todo id hid hdone
  cases hnext : state.nextID id with
  | none =>
    rw [mergeRange_of_none hnext]
    refine ⟨⟨hnext, [], .last (htodo.nextID.symm.trans hnext), ?_, fun m => ?_⟩,
      fun id' hne => ⟨rfl, AList.lookup_insert_ne hne, fun _ => .rfl⟩, rfl, rfl, rfl⟩
    · rw [AList.lookup_insert, htodo.rangeData]
      exact congrArg (fun ids => some (Range.mk ids)) (ResultIDs.merge_empty _).symm
    · rw [htodo.monikers, or_iff_left]
      rintro (⟨a, ha, -⟩ | ⟨-, a, ha, -⟩)
      · exact not_mem_nil ha
      · exact not_mem_nil ha
  | some nextID =>
    have hnext' := htodo.nextID.symm.trans hnext
    obtain ⟨-, l, hchain, hids, hmonikers⟩ := h.resultSet nextID (hclosed hnext')
    rw [mergeRange_of_some hnext]
    refine ⟨⟨AList.lookup_erase _ _, l, .step hnext' hchain, ?_, fun m => ?_⟩,
      fun id' hne => ⟨AList.lookup_erase_ne hne, AList.lookup_insert_ne hne, fun m => ?_⟩,
      rfl, rfl, rfl⟩
    · rw [AList.lookup_insert, htodo.rangeData, hids]
    · show m ∈ (state.monikers.unionIDSet id (state.monikers.lookup nextID)).ids id ↔ _
      rw [IDSetMap.mem_ids_unionIDSet, and_iff_right rfl, htodo.monikers, ← hmonikers]
      rfl
    · show m ∈ (state.monikers.unionIDSet id (state.monikers.lookup nextID)).ids id' ↔ _
      rw [IDSetMap.mem_ids_unionIDSet, or_iff_left fun heq => hne heq.1]

/-- **The step for a range.** -/
theorem Ranging.step (h : Ranging orig state done)
    (hclosed : NextClosed orig) (hdisjoint : ∀ id ∈ orig.rangeData, id ∉ orig.resultSetData)
    {order : RangeOrder} {fuel : ℕ} (hfuel : searchFuel orig.linkedMonikers ≤ fuel) {id : ℤ}
    (hid : id ∈ orig.rangeData) (hdone : id ∉ done) :
    Safe (fun state' => Ranging orig state' (done ++ [id]))
      (canonicalizeRange order fuel state id) := by
  have hmerged := h.mergeRange hclosed hid hdone
  have hlinked := hmerged.linkedMonikers.trans h.linkedMonikers
  have hdata := hmerged.monikerData.trans h.monikerData
  refine (addLinkedMonikers_safe order (loopOf 12 id) (hlinked ▸ hfuel) id).mono
    fun state' hadded => ?_
  -- other ranges and result sets keep what they have
  have hother : ∀ id', id' ≠ id → state'.nextID id' = state.nextID id' ∧
      state'.rangeData.lookup id' = state.rangeData.lookup id' ∧
      ∀ m, m ∈ state'.monikers.ids id' ↔ m ∈ state.monikers.ids id' := by
    intro id' hne
    obtain ⟨hnext, hrange, hmonikers⟩ := hmerged.other id' hne
    refine ⟨?_, ?_, fun m => ?_⟩
    · unfold State.nextID
      rw [hadded.nextData]
      exact hnext
    · rw [hadded.rangeData]
      exact hrange
    · rw [hadded.monikers, or_iff_left fun heq => hne heq.1]
      exact hmonikers m
  have hresultSet : ∀ id', state'.resultSet id' = state.resultSet id' := by
    intro id'
    unfold State.resultSet
    rw [hadded.resultSetData, hmerged.resultSetData]
  refine ⟨fun id' hid' => ?_, forall_mem_append.2 ⟨fun id' hid' => ?_, ?_⟩,
    fun id' hid' hnot => ?_, hadded.linkedMonikers.trans hlinked,
    hadded.monikerData.trans hdata, ?_⟩
  · obtain ⟨hnext, -, hmonikers⟩ := hother id' fun heq => hdisjoint id hid (heq ▸ hid')
    rw [hnext, hresultSet]
    simp only [hmonikers]
    exact h.resultSet id' hid'
  · obtain ⟨hnext, hrange, hmonikers⟩ := hother id' fun heq => hdone (heq ▸ hid')
    unfold RangeDone
    rw [hnext, hrange]
    simp only [hmonikers]
    exact h.merged id' hid'
  · rw [forall_mem_singleton]
    obtain ⟨hnext, l, hchain, hrange, hmonikers⟩ := hmerged.own
    refine ⟨?_, l, hchain, ?_, fun m => ?_⟩
    · unfold State.nextID
      rw [hadded.nextData]
      exact hnext
    · rw [hadded.rangeData]
      exact hrange
    · rw [hadded.monikers, and_iff_right rfl]
      exact reached_cons_iff hlinked hdata hmonikers m
  · rw [mem_append, mem_singleton, not_or] at hnot
    obtain ⟨hnext, hrange, hmonikers⟩ := hother id' hnot.2
    have htodo := h.todo id' hid' hnot.1
    exact ⟨hnext.trans htodo.nextID, hrange.trans htodo.rangeData,
      fun m => (hmonikers m).trans (htodo.monikers m)⟩
  · rw [hadded.resultSetData, hmerged.resultSetData]
    exact h.keys

theorem canonicalizeRanges_safe (h : Finished orig state)
    (hclosed : NextClosed orig) (hdisjoint : ∀ id ∈ orig.rangeData, id ∉ orig.resultSetData)
    (order : RangeOrder) {fuel : ℕ} (hfuel : searchFuel orig.linkedMonikers ≤ fuel) :
    Safe (fun final => Ranging orig final (order.range [13] state.rangeData.keys))
      (canonicalizeRanges order fuel state) := by
  refine Safe.foldlM (fun done state => Ranging orig state done) ?_ (h.ranging hdisjoint)
  intro done id hbegins state₁ h₁
  have hnodup : (done ++ [id]).Nodup := hbegins.sublist.nodup
    ((order.range_perm _ _).nodup_iff.2 state.rangeData.nodupKeys)
  have hmem : id ∈ orig.rangeData := by
    rw [← h.rangeData]
    exact RangeOrder.mem_range.1 (mem_of_append_isPrefix hbegins)
  refine h₁.step hclosed hdisjoint hfuel hmem fun hid => ?_
  exact (nodup_append.1 hnodup).2.2 id hid id mem_cons_self rfl

/-! ## The result -/

/-- Result sets and then ranges. -/
def canonicalizeChains (order : RangeOrder) (fuel : ℕ) (state : State) : Outcome Empty State :=
  (canonicalizeResultSets order fuel state).bind (canonicalizeRanges order fuel)

/-- **All ranges and result sets are canonical.** -/
def AllCanonical (orig final : State) : Prop :=
  (∀ id resultSet, orig.resultSetData.lookup id = some resultSet →
    ∃ resultSet', final.resultSetData.lookup id = some resultSet' ∧
      Canonical orig final id resultSet.toResultIDs resultSet'.toResultIDs) ∧
  ∀ id range, orig.rangeData.lookup id = some range →
    ∃ range', final.rangeData.lookup id = some range' ∧
      Canonical orig final id range.toResultIDs range'.toResultIDs

theorem Chain.eq_cons {α : Type} {next : α → Option α} {a : α} {l : List α}
    (h : Chain next a l) : l = a :: l.tail := by
  cases h <;> rfl

theorem Ranging.allCanonical {orig final : State} (h : Ranging orig final done)
    (hdone : ∀ id ∈ orig.rangeData, id ∈ done) : AllCanonical orig final := by
  refine ⟨fun id resultSet hlookup => ?_, fun id range hlookup => ?_⟩
  · have hid : id ∈ orig.resultSetData := AList.lookup_isSome.1 (Option.isSome_of_eq_some hlookup)
    obtain ⟨hnext, l, hchain, hids, hmonikers⟩ := h.resultSet id hid
    obtain ⟨resultSet', hlookup'⟩ :=
      Option.isSome_iff_exists.1 (AList.lookup_isSome.2 ((h.keys id).2 hid))
    refine ⟨resultSet', hlookup', l, hchain, hnext, ?_, hmonikers⟩
    have hfirst := firstOf_resolve orig l
    rw [← hids, Chain.eq_cons hchain] at hfirst
    unfold resultSets State.resultSet at hfirst
    rw [map_cons, hlookup, hlookup'] at hfirst
    exact hfirst
  · have hid : id ∈ orig.rangeData := AList.lookup_isSome.1 (Option.isSome_of_eq_some hlookup)
    obtain ⟨hnext, l, hchain, hrange, hmonikers⟩ := h.merged id (hdone id hid)
    rw [hlookup] at hrange
    exact ⟨_, hrange, id :: l, hchain, hnext, (firstOf_resolve orig l).cons _, hmonikers⟩

/-- **Chains of next edges are resolved** in whatever order maps are visited, if
no identifier stands for a range and a result set. -/
theorem canonicalizeChains_allCanonical
    {rel : GoString → GoString → Except GoString GoString} {dumpRoot : GoString}
    {elements : List Element} {state : WrappedState}
    (h : correlate rel dumpRoot elements = .ok state) (hacyclic : Acyclic state.nextID)
    (hdisjoint : ∀ id ∈ state.rangeData, id ∉ state.resultSetData) (order : RangeOrder) :
    ∃ bound, ∀ fuel, bound ≤ fuel → ∃ final,
      canonicalizeChains order fuel state.toState = .ok final ∧
        AllCanonical state.toState final := by
  have hclosed : NextClosed state.toState := (wellFormed_of_correlate h).next_target
  refine ⟨state.nextData.keys.length + 1 + searchFuel state.linkedMonikers, fun fuel hfuel => ?_⟩
  have hlinks : searchFuel state.linkedMonikers ≤ fuel := (Nat.le_add_left _ _).trans hfuel
  have hsafe : Safe (AllCanonical state.toState) (canonicalizeChains order fuel state.toState) := by
    refine (canonicalizeResultSets_safe hclosed order (fun id _ => ?_) hlinks).bind
      fun finished hfinished => ?_
    · obtain ⟨l, hchain, hle⟩ := exists_chain_of_acyclic hacyclic id
      exact ⟨l, hchain, hle.trans ((Nat.le_add_right _ _).trans hfuel)⟩
    · refine (canonicalizeRanges_safe hfinished hclosed hdisjoint order hlinks).mono
        fun final hfinal => hfinal.allCanonical fun id hid => ?_
      rw [RangeOrder.mem_range, hfinished.rangeData]
      exact hid
  exact hsafe.exists_ok

/-- A range, a result set with a definition and an edge from one to the other. -/
def definedRange : List Element :=
  [rangeVertex 1, resultSetVertex 2, ⟨3, lit "vertex", lit "definitionResult", .other⟩,
    edgeTo 4 (lit "textDocument/definition") 2 3, edgeTo 5 (lit "next") 1 2]

theorem acyclic_of_entries {id nextID : ℤ} (hne : id ≠ nextID)
    (h : state.nextData.entries = [⟨id, nextID⟩]) : Acyclic state.nextID := by
  have hleads : ∀ {id₁ id₂}, state.nextID id₁ = some id₂ → id₁ = id ∧ id₂ = nextID := by
    intro id₁ id₂ hlookup
    have hmem := AList.mem_lookup_iff.1 hlookup
    rw [h, mem_singleton] at hmem
    cases hmem
    exact ⟨rfl, rfl⟩
  intro id₁ hcycle
  obtain ⟨_, hfirst, -⟩ := Relation.TransGen.head'_iff.1 hcycle
  obtain ⟨_, -, hlast⟩ := Relation.TransGen.tail'_iff.1 hcycle
  exact hne ((hleads hfirst).1.symm.trans (hleads hlast).2)

theorem canonicalizeChains_definedRange : ∃ state : WrappedState,
    correlate (fun _ uri => .ok uri) [] definedRange = .ok state ∧
    ∃ bound, ∀ fuel, bound ≤ fuel → ∃ final,
      canonicalizeChains .byEntries fuel state.toState = .ok final ∧
        AllCanonical state.toState final := by
  obtain ⟨state, h, hnext, hrange, hresultSet⟩ : ∃ state : WrappedState,
      correlate (fun _ uri => .ok uri) [] definedRange = .ok state ∧
        state.nextData.entries = [⟨1, 2⟩] ∧ state.rangeData.keys = [1] ∧
        state.resultSetData.keys = [2] := ⟨_, rfl, rfl, rfl, rfl⟩
  refine ⟨state, h, canonicalizeChains_allCanonical h
    (acyclic_of_entries (by decide) hnext) (fun id hid => ?_) _⟩
  rw [AList.mem_keys, hrange, mem_singleton] at hid
  rw [AList.mem_keys, hresultSet, mem_singleton, hid]
  decide

/-- A range and a result set with one identifier, which leads to a result set with
a definition. -/
def sharedIdentifier : List Element :=
  [rangeVertex 1, resultSetVertex 1, resultSetVertex 2,
    ⟨3, lit "vertex", lit "definitionResult", .other⟩,
    edgeTo 4 (lit "textDocument/definition") 2 3, edgeTo 5 (lit "next") 1 2]

/-- **A range that shares its identifier with a result set stays without a
definition.** -/
theorem canonicalizeChains_sharedIdentifier : ∃ (state : WrappedState) (final : State),
    correlate (fun _ uri => .ok uri) [] sharedIdentifier = .ok state ∧ Acyclic state.nextID ∧
    canonicalizeChains .byEntries 5 state.toState = .ok final ∧
    (final.rangeData.lookup 1).map (·.definitionResultID) = some 0 ∧
    ¬ AllCanonical state.toState final := by
  obtain ⟨state, final, h, hnext, hrange, hsets, hfinal, hdefinition⟩ :
      ∃ (state : WrappedState) (final : State),
        correlate (fun _ uri => .ok uri) [] sharedIdentifier = .ok state ∧
        state.nextData.entries = [⟨1, 2⟩] ∧ state.rangeData.lookup 1 = some {} ∧
        resultSets state.toState [2] = [{ definitionResultID := 3 }] ∧
        canonicalizeChains .byEntries 5 state.toState = .ok final ∧
        (final.rangeData.lookup 1).map (·.definitionResultID) = some 0 :=
    ⟨_, _, rfl, rfl, rfl, rfl, rfl, rfl⟩
  refine ⟨state, final, h, acyclic_of_entries (by decide) hnext, hfinal, hdefinition, ?_⟩
  intro hall
  obtain ⟨range', hlookup, chain, hchain, -, hfirst, -⟩ := hall.2 1 {} hrange
  have hleads : ∀ id, state.nextID id = if id = 1 then some 2 else none := by
    intro id
    show dlookup id state.nextData.entries = _
    rw [hnext]
    by_cases hid : id = 1
    · rw [hid]
      rfl
    · rw [if_neg hid, dlookup_cons_ne _ _ hid]
      rfl
  have hunique := hchain.unique (.step (hleads 1) (.last (hleads 2)))
  have h3 := hfirst.definition
  rw [hunique, tail_cons, hsets] at h3
  rw [hlookup] at hdefinition
  exact absurd ((Option.some.inj hdefinition).symm.trans h3) (by decide)

end Conversion
