import CodeScout.LsifTotal
import Mathlib

/-!
# Chains of result sets

A result set is merged with what follows it once the next result set is
finished, and then its next edge is removed. So at any time a result set is as
it was or has all that its chain has, whatever was visited first and however
chains run into each other.

A range is merged with the result set it leads to when all result sets are
finished. That relies on ranges and result sets having different identifiers:
the next edge of a range with the identifier of a result set is gone by then.
-/

namespace Conversion

open Outcome Chains List

/-- Where the next edge of a range or a result set leads. -/
def State.nextID (state : State) (id : ℤ) : Option ℤ := state.nextData.lookup id

/-- Next edges lead to result sets. -/
def NextClosed (state : State) : Prop :=
  ∀ {id nextID}, state.nextID id = some nextID → nextID ∈ state.resultSetData

/-! ## Merging -/

theorem ResultIDs.merge_empty (ids : ResultIDs) : ids.merge {} = ids := by
  unfold ResultIDs.merge
  ext <;> dsimp only <;> split_ifs with h <;> first | exact h.symm | rfl

/-- What the result sets of a chain have together. -/
def resolve (orig : State) (chain : List ℤ) : ResultIDs :=
  chain.foldr (fun id ids => (orig.resultSet id).toResultIDs.merge ids) {}

/-- A result set has all that its chain has. -/
structure ResolvedAt (orig state : State) (id : ℤ) : Prop where
  mem : id ∈ orig.resultSetData
  nextID : state.nextID id = none
  chain : ∃ l, Chain orig.nextID id l ∧ (state.resultSet id).toResultIDs = resolve orig l ∧
    ∀ m, m ∈ state.monikers.ids id ↔ ∃ a ∈ l, m ∈ orig.monikers.ids a

/-- A range or a result set is as it was. -/
structure SameAt (orig state : State) (id : ℤ) : Prop where
  nextID : state.nextID id = orig.nextID id
  resultSet : state.resultSet id = orig.resultSet id
  monikers : state.monikers.ids id = orig.monikers.ids id

/-- **The state while result sets are merged.** -/
structure Merging (orig state : State) : Prop where
  each : ∀ id, SameAt orig state id ∨ ResolvedAt orig state id
  rangeData : state.rangeData = orig.rangeData
  linkedMonikers : state.linkedMonikers = orig.linkedMonikers
  monikerData : state.monikerData = orig.monikerData
  keys : ∀ id, id ∈ state.resultSetData ↔ id ∈ orig.resultSetData

theorem merging_refl (orig : State) : Merging orig orig :=
  ⟨fun _ => .inl ⟨rfl, rfl, rfl⟩, rfl, rfl, rfl, fun _ => .rfl⟩

variable {orig state state' : State}

theorem SameAt.trans {id : ℤ} (h : SameAt orig state id) (hsame : SameAt state state' id) :
    SameAt orig state' id :=
  ⟨hsame.nextID.trans h.nextID, hsame.resultSet.trans h.resultSet, hsame.monikers.trans h.monikers⟩

theorem ResolvedAt.congr {id : ℤ} (h : ResolvedAt orig state id)
    (hsame : SameAt state state' id) : ResolvedAt orig state' id :=
  ⟨h.mem, hsame.nextID.trans h.nextID, by rw [hsame.resultSet, hsame.monikers]; exact h.chain⟩

/-- The next edge of a resolved result set is gone. -/
theorem Merging.sameAt (h : Merging orig state) {id nextID : ℤ}
    (hnext : state.nextID id = some nextID) : SameAt orig state id :=
  (h.each id).resolve_right fun hresolved => nomatch hresolved.nextID.symm.trans hnext

theorem resultSet_insert (state : State) (id id' : ℤ) (item : ResultSet) :
    ({ state with resultSetData := state.resultSetData.insert id item } : State).resultSet id' =
      if id' = id then item else state.resultSet id' := by
  unfold State.resultSet
  split_ifs with h
  · rw [h, AList.lookup_insert]
    rfl
  · rw [AList.lookup_insert_ne h]

theorem Merging.write (h : Merging orig state) {id : ℤ}
    (hid : id ∈ orig.resultSetData) (hnext : state.nextID id = none) :
    let state' : State :=
      { state with resultSetData := state.resultSetData.insert id (state.resultSet id) }
    Merging orig state' ∧ ResolvedAt orig state' id ∧ ∀ id', SameAt state state' id' := by
  intro state'
  have hsame : ∀ id', SameAt state state' id' := by
    intro id'
    refine ⟨rfl, ?_, rfl⟩
    rw [resultSet_insert]
    split_ifs with heq
    · rw [heq]
    · rfl
  refine ⟨⟨fun id' => (h.each id').imp (·.trans (hsame id')) (·.congr (hsame id')), h.rangeData,
    h.linkedMonikers, h.monikerData, fun id' => ?_⟩, ?_, hsame⟩
  · rw [AList.mem_insert, h.keys]
    exact or_iff_right_of_imp fun heq => heq ▸ hid
  · rcases h.each id with huntouched | hresolved
    · refine ⟨hid, hnext, [id], .last (huntouched.nextID.symm.trans hnext), ?_, fun m => ?_⟩
      · rw [(hsame id).resultSet, huntouched.resultSet]
        exact (ResultIDs.merge_empty _).symm
      · rw [(hsame id).monikers, huntouched.monikers]
        simp
    · exact hresolved.congr (hsame id)

theorem Merging.merge {orig state state₁ : State} (h : Merging orig state)
    (h₁ : Merging orig state₁) {id nextID : ℤ} (hid : id ∈ orig.resultSetData)
    (hnext : state.nextID id = some nextID) (hresolved : ResolvedAt orig state₁ nextID) :
    let item : ResultSet :=
      ⟨(state.resultSet id).toResultIDs.merge (state₁.resultSet nextID).toResultIDs⟩
    let state' : State := { state₁.mergeMonikers id nextID with
      nextData := state₁.nextData.erase id
      resultSetData := state₁.resultSetData.insert id item }
    Merging orig state' ∧ ResolvedAt orig state' id ∧ item = state'.resultSet id ∧
      ∀ id', id' ≠ id → SameAt state₁ state' id' := by
  intro item state'
  have huntouched := h.sameAt hnext
  have hnext' : orig.nextID id = some nextID := huntouched.nextID.symm.trans hnext
  have hsame : ∀ id', id' ≠ id → SameAt state₁ state' id' := by
    intro id' hne
    refine ⟨AList.lookup_erase_ne hne, ?_, ?_⟩
    · exact (resultSet_insert (state₁.mergeMonikers id nextID) id id' item).trans (if_neg hne)
    · show (state₁.monikers.unionIDSet id (state₁.monikers.lookup nextID)).ids id' = _
      unfold IDSetMap.unionIDSet
      split
      · rfl
      · split_ifs
        · rfl
        · unfold IDSetMap.ids
          rw [AList.lookup_insert_ne hne]
  have hitem : item = state'.resultSet id :=
    ((resultSet_insert (state₁.mergeMonikers id nextID) id id item).trans (if_pos rfl)).symm
  have hresolved' : ResolvedAt orig state' id := by
    obtain ⟨l, hchain, hids, hmonikers⟩ := hresolved.chain
    refine ⟨hid, AList.lookup_erase _ _, id :: l, .step hnext' hchain, ?_, fun m => ?_⟩
    · rw [← hitem]
      show (state.resultSet id).toResultIDs.merge _ = (orig.resultSet id).toResultIDs.merge _
      rw [huntouched.resultSet, hids]
      rfl
    · show m ∈ (state₁.monikers.unionIDSet id (state₁.monikers.lookup nextID)).ids id ↔ _
      rw [IDSetMap.mem_ids_unionIDSet]
      simp only [true_and, mem_cons, exists_eq_or_imp]
      rw [show (state₁.monikers.lookup nextID).getD [] = state₁.monikers.ids nextID from rfl,
        hmonikers]
      rcases h₁.each id with huntouched₁ | hresolved₁
      · rw [huntouched₁.monikers]
      · obtain ⟨l', hchain', -, hmonikers'⟩ := hresolved₁.chain
        rw [hchain'.unique (.step hnext' hchain)] at hmonikers'
        rw [hmonikers']
        simp only [mem_cons, exists_eq_or_imp]
        tauto
  refine ⟨⟨fun id' => ?_, h₁.rangeData, h₁.linkedMonikers, h₁.monikerData, fun id' => ?_⟩,
    hresolved', hitem, hsame⟩
  · by_cases hne : id' = id
    · exact .inr (hne ▸ hresolved')
    · exact (h₁.each id').imp (·.trans (hsame id' hne)) (·.congr (hsame id' hne))
  · rw [AList.mem_insert]
    exact (or_iff_right_of_imp fun heq => heq ▸ (h₁.keys id).2 hid).trans (h₁.keys id')

/-- **The canonicalization of a result set**, when it returns. -/
theorem canonicalizeResultSetData_ok (hclosed : NextClosed orig) (fuel : ℕ) :
    ∀ {state state' : State} {id : ℤ} {item : ResultSet}, Merging orig state →
      id ∈ orig.resultSetData →
      canonicalizeResultSetData fuel state id (state.resultSet id) = .ok (state', item) →
      Merging orig state' ∧ ResolvedAt orig state' id ∧ item = state'.resultSet id ∧
        ∀ id', ResolvedAt orig state id' → ResolvedAt orig state' id' := by
  induction fuel with
  | zero => exact fun _ _ heq => nomatch heq
  | succ fuel ih =>
    intro state state' id item h hid heq
    unfold canonicalizeResultSetData next at heq
    cases hnext : state.nextData.lookup id with
    | none =>
      rw [hnext] at heq
      cases heq
      obtain ⟨hmerging, hresolved, hsame⟩ := h.write hid hnext
      refine ⟨hmerging, hresolved, (hsame id).resultSet.symm, fun id' h' => h'.congr (hsame id')⟩
    | some nextID =>
      rw [hnext] at heq
      obtain ⟨⟨state₁, nextItem⟩, hfirst, hrest⟩ := bind_eq_ok.1 heq
      cases hrest
      have huntouched := h.sameAt hnext
      have htarget : nextID ∈ orig.resultSetData :=
        hclosed (huntouched.nextID.symm.trans hnext)
      obtain ⟨h₁, hresolved₁, rfl, hmono₁⟩ := ih h htarget hfirst
      obtain ⟨hmerging, hresolved, hitem, hsame⟩ := h.merge h₁ hid hnext hresolved₁
      refine ⟨hmerging, hresolved, hitem, fun id' h' => ?_⟩
      by_cases hne : id' = id
      · exact hne ▸ hresolved
      · exact (hmono₁ id' h').congr (hsame id' hne)

/-- **The canonicalization of a result set returns** with fuel for its chain. -/
theorem canonicalizeResultSetData_returns (h : Merging orig state)
    (fuel : ℕ) : ∀ {id : ℤ} (item : ResultSet) {l : List ℤ}, Chain orig.nextID id l →
      l.length ≤ fuel → ∃ result, canonicalizeResultSetData fuel state id item = .ok result := by
  induction fuel with
  | zero =>
    intro id item l hchain hfuel
    cases hchain <;> exact absurd hfuel (Nat.not_succ_le_zero _)
  | succ fuel ih =>
    intro id item l hchain hfuel
    unfold canonicalizeResultSetData next
    cases hnext : state.nextData.lookup id with
    | none => exact ⟨_, rfl⟩
    | some nextID =>
      have huntouched := h.sameAt hnext
      obtain ⟨l', hchain', rfl⟩ := hchain.tail (huntouched.nextID.symm.trans hnext)
      obtain ⟨⟨state₁, nextItem⟩, hfirst⟩ :=
        ih (state.resultSet nextID) hchain' (Nat.le_of_succ_le_succ hfuel)
      simp only [Option.map_some, hfirst]
      exact ⟨_, rfl⟩

/-! ## All result sets -/

/-- The loop over the result sets. -/
def mergeResultSets (order : RangeOrder) (fuel : ℕ) (state : State) : Outcome Empty State :=
  (order.range [9] state.resultSetData.keys).foldlM (fun state id =>
    (canonicalizeResultSetData fuel state id (state.resultSet id)).bind fun result =>
      .ok result.1) state

/-- All result sets have what their chains have. -/
def Merged (orig state : State) : Prop :=
  Merging orig state ∧ ∀ id ∈ orig.resultSetData, ResolvedAt orig state id

variable {fuel : ℕ}

theorem merged_step (hclosed : NextClosed orig) {id : ℤ}
    {item : ResultSet} {done : List ℤ} (hid : id ∈ orig.resultSetData)
    (h : Merging orig state ∧ ∀ id ∈ done, ResolvedAt orig state id)
    (heq : canonicalizeResultSetData fuel state id (state.resultSet id) = .ok (state', item)) :
    Merging orig state' ∧ ∀ id' ∈ done ++ [id], ResolvedAt orig state' id' := by
  obtain ⟨hmerging, hresolved, -, hmono⟩ := canonicalizeResultSetData_ok hclosed fuel h.1 hid heq
  exact ⟨hmerging, forall_mem_append.2 ⟨fun id' hid' => hmono id' (h.2 id' hid'),
    forall_mem_singleton.2 hresolved⟩⟩

theorem mem_of_append_isPrefix {l done : List ℤ} {id : ℤ} (h : done ++ [id] <+: l) : id ∈ l :=
  h.subset (mem_append_right _ mem_cons_self)

/-- **When the loop over the result sets returns**, all of them are merged. -/
theorem mergeResultSets_ok (hclosed : NextClosed orig) {order : RangeOrder}
    (h : mergeResultSets order fuel orig = .ok state') : Merged orig state' := by
  have hinv : Merging orig state' ∧
      ∀ id ∈ order.range [9] orig.resultSetData.keys, ResolvedAt orig state' id := by
    refine inv_of_foldlM_eq_ok (fun done state => Merging orig state ∧
      ∀ id ∈ done, ResolvedAt orig state id) ?_
      ⟨merging_refl orig, fun id hid => absurd hid not_mem_nil⟩ h
    intro done id hbegins state state₁ hstate hstep
    obtain ⟨⟨state₂, item⟩, hcanonical, hrest⟩ := bind_eq_ok.1 hstep
    cases hrest
    exact merged_step hclosed (RangeOrder.mem_range.1 (mem_of_append_isPrefix hbegins)) hstate
      hcanonical
  exact ⟨hinv.1, fun id hid => hinv.2 id (RangeOrder.mem_range.2 hid)⟩

/-- **The loop over the result sets returns** with fuel for the chains. -/
theorem mergeResultSets_safe (hclosed : NextClosed orig) (order : RangeOrder)
    (hchains : ∀ id ∈ orig.resultSetData, ∃ l, Chain orig.nextID id l ∧ l.length ≤ fuel) :
    Safe (Merged orig) (mergeResultSets order fuel orig) := by
  have hloop : Safe (fun state => Merging orig state ∧
      ∀ id ∈ order.range [9] orig.resultSetData.keys, ResolvedAt orig state id)
      (mergeResultSets order fuel orig) := by
    refine Safe.foldlM (fun done state => Merging orig state ∧
      ∀ id ∈ done, ResolvedAt orig state id) ?_
      ⟨merging_refl orig, fun id hid => absurd hid not_mem_nil⟩
    intro done id hbegins state hstate
    have hid := RangeOrder.mem_range.1 (mem_of_append_isPrefix hbegins)
    obtain ⟨l, hchain, hle⟩ := hchains id hid
    obtain ⟨⟨state₁, item⟩, heq⟩ :=
      canonicalizeResultSetData_returns hstate.1 fuel (state.resultSet id) hchain hle
    rw [heq]
    exact merged_step hclosed hid hstate heq
  exact hloop.mono fun state h => ⟨h.1, fun id hid => h.2 id (RangeOrder.mem_range.2 hid)⟩

/-! ## Monikers of result sets -/

/-- The monikers of a list of ranges and result sets, and those linked to them
that are not local. -/
def Reached (orig : State) (l : List ℤ) (m : ℤ) : Prop :=
  (∃ a ∈ l, m ∈ orig.monikers.ids a) ∨ orig.isLocal m = false ∧
    ∃ a ∈ l, ∃ x ∈ orig.monikers.ids a, Relation.ReflTransGen (Links orig.linkedMonikers) x m

/-- The monikers at an identifier get those linked to them, and nothing else
changes. -/
structure LinkedAdded (state state' : State) (id : ℤ) : Prop where
  nextData : state'.nextData = state.nextData
  resultSetData : state'.resultSetData = state.resultSetData
  rangeData : state'.rangeData = state.rangeData
  linkedMonikers : state'.linkedMonikers = state.linkedMonikers
  monikerData : state'.monikerData = state.monikerData
  monikers : ∀ id' m, m ∈ state'.monikers.ids id' ↔
    m ∈ state.monikers.ids id' ∨ id' = id ∧ Gathered state (state.monikers.ids id) m

theorem addLinkedMonikers_safe (order : RangeOrder) (loop : List ℕ)
    (hfuel : searchFuel state.linkedMonikers ≤ fuel) (id : ℤ) :
    Safe (fun state' => LinkedAdded state state' id)
      (addLinkedMonikers order loop fuel state id) := by
  unfold addLinkedMonikers
  refine (gatherMonikers_safe order loop hfuel _).bind fun monikers hmonikers => ?_
  refine ⟨rfl, rfl, rfl, rfl, rfl, fun id' m => ?_⟩
  rw [IDSetMap.mem_ids_unionIDSet, hmonikers]
  rfl

/-- **All result sets are finished**: each has what its chain has, with the
monikers linked to it, and ranges are as they were. -/
structure Finished (orig state : State) : Prop where
  resultSet : ∀ id ∈ orig.resultSetData, state.nextID id = none ∧
    ∃ l, Chain orig.nextID id l ∧ (state.resultSet id).toResultIDs = resolve orig l ∧
      ∀ m, m ∈ state.monikers.ids id ↔ Reached orig l m
  other : ∀ id ∉ orig.resultSetData, state.nextID id = orig.nextID id ∧
    ∀ m, m ∈ state.monikers.ids id ↔ m ∈ orig.monikers.ids id
  rangeData : state.rangeData = orig.rangeData
  linkedMonikers : state.linkedMonikers = orig.linkedMonikers
  monikerData : state.monikerData = orig.monikerData
  keys : ∀ id, id ∈ state.resultSetData ↔ id ∈ orig.resultSetData

/-- The loop over the monikers of result sets, in the middle. -/
structure Linking (merged state : State) (done : List ℤ) : Prop where
  nextData : state.nextData = merged.nextData
  resultSetData : state.resultSetData = merged.resultSetData
  rangeData : state.rangeData = merged.rangeData
  linkedMonikers : state.linkedMonikers = merged.linkedMonikers
  monikerData : state.monikerData = merged.monikerData
  monikers : ∀ id m, m ∈ state.monikers.ids id ↔
    m ∈ merged.monikers.ids id ∨ id ∈ done ∧ Gathered merged (merged.monikers.ids id) m

theorem gathered_congr (hlinked : state'.linkedMonikers = state.linkedMonikers)
    (hdata : state'.monikerData = state.monikerData) {source source' : IDSet}
    (hsource : ∀ m, m ∈ source' ↔ m ∈ source) (m : ℤ) :
    Gathered state' source' m ↔ Gathered state source m := by
  unfold Gathered State.isLocal
  rw [hlinked, hdata]
  simp only [hsource]

/-- **The monikers of result sets are linked.** -/
theorem linkMonikers_safe (order : RangeOrder) {merged : State}
    (hfuel : searchFuel merged.linkedMonikers ≤ fuel) :
    Safe (fun state => Linking merged state (order.range [10] merged.resultSetData.keys))
      ((order.range [10] merged.resultSetData.keys).foldlM
        (fun state id => addLinkedMonikers order (loopOf 11 id) fuel state id) merged) := by
  refine Safe.foldlM (fun done state => Linking merged state done) ?_
    ⟨rfl, rfl, rfl, rfl, rfl, fun id m => by simp⟩
  intro done id hbegins state h
  -- each result set comes once, so its monikers are those it had before the loop
  have hnot : id ∉ done := by
    have hnodup : (order.range [10] merged.resultSetData.keys).Nodup :=
      (order.range_perm _ _).nodup_iff.2 merged.resultSetData.nodupKeys
    have hdisjoint := (nodup_append.1 (hbegins.sublist.nodup hnodup)).2.2
    exact fun hmem => hdisjoint id hmem id mem_cons_self rfl
  rw [← h.linkedMonikers] at hfuel
  refine (addLinkedMonikers_safe order (loopOf 11 id) hfuel id).mono fun state' h' => ?_
  refine ⟨h'.nextData.trans h.nextData, h'.resultSetData.trans h.resultSetData,
    h'.rangeData.trans h.rangeData, h'.linkedMonikers.trans h.linkedMonikers,
    h'.monikerData.trans h.monikerData, fun id' m => ?_⟩
  have hsource : ∀ m, m ∈ state.monikers.ids id ↔ m ∈ merged.monikers.ids id := fun m =>
    (h.monikers id m).trans (or_iff_left fun hdone => hnot hdone.1)
  rw [h'.monikers, h.monikers, gathered_congr h.linkedMonikers h.monikerData hsource,
    mem_append, mem_singleton]
  constructor
  · rintro ((hold | hdone) | ⟨rfl, hgathered⟩)
    · exact .inl hold
    · exact .inr ⟨.inl hdone.1, hdone.2⟩
    · exact .inr ⟨.inr rfl, hgathered⟩
  · rintro (hold | ⟨hdone | rfl, hgathered⟩)
    · exact .inl (.inl hold)
    · exact .inl (.inr ⟨hdone, hgathered⟩)
    · exact .inr ⟨rfl, hgathered⟩

theorem reached_iff (hlinked : state.linkedMonikers = orig.linkedMonikers)
    (hdata : state.monikerData = orig.monikerData) {source : IDSet} {l : List ℤ}
    (hsource : ∀ m, m ∈ source ↔ ∃ a ∈ l, m ∈ orig.monikers.ids a) (m : ℤ) :
    m ∈ source ∨ Gathered state source m ↔ Reached orig l m := by
  unfold Reached Gathered State.isLocal
  rw [hlinked, hdata, hsource]
  refine or_congr_right (and_congr_right fun _ => ?_)
  constructor
  · rintro ⟨x, hx, hlink⟩
    obtain ⟨a, ha, hxa⟩ := (hsource x).1 hx
    exact ⟨a, ha, x, hxa, hlink⟩
  · rintro ⟨a, ha, x, hxa, hlink⟩
    exact ⟨x, (hsource x).2 ⟨a, ha, hxa⟩, hlink⟩

theorem Merged.finished {orig merged state : State} (h : Merged orig merged) {done : List ℤ}
    (hdone : ∀ id, id ∈ done ↔ id ∈ merged.resultSetData) (hlinking : Linking merged state done) :
    Finished orig state where
  resultSet id hid := by
    obtain ⟨l, hchain, hids, hmonikers⟩ := (h.2 id hid).chain
    refine ⟨?_, l, hchain, ?_, fun m => ?_⟩
    · unfold State.nextID
      rw [hlinking.nextData]
      exact (h.2 id hid).nextID
    · unfold State.resultSet
      rw [hlinking.resultSetData]
      exact hids
    · rw [hlinking.monikers, ← reached_iff h.1.linkedMonikers h.1.monikerData hmonikers]
      exact or_congr_right (and_iff_right ((hdone id).2 ((h.1.keys id).2 hid)))
  other id hid := by
    have huntouched := (h.1.each id).resolve_right fun hresolved => hid hresolved.mem
    refine ⟨?_, fun m => ?_⟩
    · unfold State.nextID
      rw [hlinking.nextData]
      exact huntouched.nextID
    · rw [hlinking.monikers, huntouched.monikers]
      exact or_iff_left fun hmem => hid ((h.1.keys id).1 ((hdone id).1 hmem.1))
  rangeData := hlinking.rangeData.trans h.1.rangeData
  linkedMonikers := hlinking.linkedMonikers.trans h.1.linkedMonikers
  monikerData := hlinking.monikerData.trans h.1.monikerData
  keys id := by
    rw [hlinking.resultSetData]
    exact h.1.keys id

/-- **Result sets are canonicalized** with fuel for the chains and the links. -/
theorem canonicalizeResultSets_safe (hclosed : NextClosed orig) (order : RangeOrder)
    (hchains : ∀ id ∈ orig.resultSetData, ∃ l, Chain orig.nextID id l ∧ l.length ≤ fuel)
    (hfuel : searchFuel orig.linkedMonikers ≤ fuel) :
    Safe (Finished orig) (canonicalizeResultSets order fuel orig) := by
  refine (mergeResultSets_safe hclosed order hchains).bind fun merged hmerged => ?_
  rw [← hmerged.1.linkedMonikers] at hfuel
  exact (linkMonikers_safe order hfuel).mono fun state hlinking =>
    hmerged.finished (fun id => RangeOrder.mem_range) hlinking

/-! ## Termination -/

theorem SameLinks.wellFormed (h : SameLinks state state')
    (hwf : state.WellFormed) : state'.WellFormed :=
  hwf.grow h.nextData h.linkedReferenceResults h.linkedMonikers
    (fun _ => by rw [h.rangeData]; exact fun hid => hid)
    (fun _ => by rw [h.resultSetData]; exact fun hid => hid) h.referenceData

/-- A cycle of next edges goes through result sets. -/
theorem acyclic_of_chains (hclosed : NextClosed orig)
    (h : ∀ id ∈ orig.resultSetData, ∃ l, Chain orig.nextID id l) : Acyclic orig.nextID := by
  intro id hcycle
  obtain ⟨id', -, hlast⟩ := Relation.TransGen.tail'_iff.1 hcycle
  obtain ⟨l, hchain⟩ := h id (hclosed hlast)
  exact hchain.not_transGen hcycle

/-- **If the canonicalization returns, next edges have no cycle.** -/
theorem acyclic_of_canonicalize (hwf : orig.WellFormed) {order : RangeOrder}
    (h : canonicalize order fuel orig = .ok state') : Acyclic orig.nextID := by
  unfold canonicalize at h
  obtain ⟨state₁, hdocuments, h⟩ := bind_eq_ok.1 h
  obtain ⟨state₂, hreferences, h⟩ := bind_eq_ok.1 h
  obtain ⟨state₃, hresultSets, -⟩ := bind_eq_ok.1 h
  obtain ⟨merged, hmerged, -⟩ := bind_eq_ok.1 hresultSets
  have hsame₁ : SameLinks orig state₁ := by
    have hsafe := canonicalizeDocuments_safe order orig
    rwa [hdocuments] at hsafe
  obtain ⟨visits, -, hvisits⟩ := bind_eq_ok.1 hreferences
  cases hvisits
  have hnext : State.nextID { state₁ with referenceData := visits.2 } = orig.nextID :=
    congrArg (fun nextData id => AList.lookup id nextData) hsame₁.nextData
  have hclosed : NextClosed { state₁ with referenceData := visits.2 } := by
    intro id nextID hlookup
    rw [hnext] at hlookup
    show nextID ∈ state₁.resultSetData
    rw [hsame₁.resultSetData]
    exact hwf.next_target hlookup
  rw [← hnext]
  refine acyclic_of_chains hclosed fun id hid => ?_
  obtain ⟨l, hchain, -⟩ := ((mergeResultSets_ok hclosed hmerged).2 id hid).chain
  exact ⟨l, hchain⟩

theorem mergeRange_of_none {rangeID : ℤ} (h : state.nextID rangeID = none) :
    mergeRange state rangeID = { state with
      rangeData := state.rangeData.insert rangeID ((state.rangeData.lookup rangeID).getD {}) } := by
  unfold mergeRange next
  rw [show state.nextData.lookup rangeID = none from h]
  rfl

theorem mergeRange_of_some {rangeID nextID : ℤ} (h : state.nextID rangeID = some nextID) :
    mergeRange state rangeID = { state.mergeMonikers rangeID nextID with
      nextData := state.nextData.erase rangeID
      rangeData := state.rangeData.insert rangeID
        ⟨((state.rangeData.lookup rangeID).getD {}).toResultIDs.merge
          (state.resultSet nextID).toResultIDs⟩ } := by
  unfold mergeRange next
  rw [show state.nextData.lookup rangeID = some nextID from h]
  rfl

theorem mergeRange_linkedMonikers (state : State) (rangeID : ℤ) :
    (mergeRange state rangeID).linkedMonikers = state.linkedMonikers := by
  cases hnext : state.nextID rangeID with
  | none => rw [mergeRange_of_none hnext]
  | some nextID =>
    rw [mergeRange_of_some hnext]
    rfl

/-- Ranges are canonicalized whatever their next edges lead to. -/
theorem canonicalizeRanges_returns (order : RangeOrder)
    (hfuel : searchFuel state.linkedMonikers ≤ fuel) :
    Safe (fun state' => state'.linkedMonikers = state.linkedMonikers)
      (canonicalizeRanges order fuel state) := by
  refine Safe.foldlM_of_forall (fun rangeID _ state₁ h₁ => ?_) rfl
  have hlinks := (mergeRange_linkedMonikers state₁ rangeID).trans h₁
  unfold canonicalizeRange
  exact (addLinkedMonikers_safe order _ (hlinks ▸ hfuel) rangeID).mono
    fun state₂ h₂ => h₂.linkedMonikers.trans hlinks

/-- Every chain is shorter than the number of next edges allows. -/
theorem exists_chain_of_acyclic (hacyclic : Acyclic orig.nextID) (id : ℤ) :
    ∃ l, Chain orig.nextID id l ∧ l.length ≤ orig.nextData.keys.length + 1 := by
  obtain ⟨l, hchain, hle⟩ := exists_chain hacyclic orig.nextData.keys.toFinset
    (fun hnext => mem_toFinset.2 (AList.lookup_isSome.1 (Option.isSome_of_eq_some hnext))) id
  exact ⟨l, hchain, hle.trans (Nat.add_le_add_right (toFinset_card_le _) 1)⟩

/-- **If next edges have no cycle, the canonicalization returns.** -/
theorem canonicalize_of_acyclic (hwf : orig.WellFormed)
    (hacyclic : Acyclic orig.nextID) (order : RangeOrder) :
    ∃ fuel state', canonicalize order fuel orig = .ok state' := by
  obtain ⟨state₁, hdocuments, hsame₁⟩ := (canonicalizeDocuments_safe order orig).exists_ok
  have hwf₁ := hsame₁.wellFormed hwf
  -- fuel for the reference results, the chains and the links
  obtain ⟨fuel, hreference, hchain, hlinks⟩ : ∃ fuel, state₁.referenceData.keys.length < fuel ∧
      orig.nextData.keys.length + 1 ≤ fuel ∧ searchFuel orig.linkedMonikers ≤ fuel :=
    ⟨state₁.referenceData.keys.length + 1 + (orig.nextData.keys.length + 1) +
      searchFuel orig.linkedMonikers, by omega, by omega, by omega⟩
  refine ⟨fuel, ?_⟩
  have hsafe : Safe (fun _ => True) (canonicalize order fuel orig) := by
    unfold canonicalize
    rw [hdocuments]
    refine (canonicalizeReferenceResults_safe order hwf₁.linked hreference).bind
      fun state₂ hsame₂ => ?_
    have hsame := hsame₁.trans hsame₂
    have hnext : state₂.nextID = orig.nextID :=
      congrArg (fun nextData id => AList.lookup id nextData) hsame.nextData
    have hclosed : NextClosed state₂ := (hsame.wellFormed hwf).next_target
    refine (canonicalizeResultSets_safe hclosed order (fun id _ => ?_) ?_).bind
      fun state₃ hfinished => ?_
    · rw [hnext]
      obtain ⟨l, hl, hle⟩ := exists_chain_of_acyclic hacyclic id
      exact ⟨l, hl, hle.trans hchain⟩
    · rwa [hsame.linkedMonikers]
    · refine (canonicalizeRanges_returns order ?_).mono fun _ _ => trivial
      rwa [hfinished.linkedMonikers, hsame.linkedMonikers]
  obtain ⟨state', hok, -⟩ := hsafe.exists_ok
  exact ⟨state', hok⟩

/-- **The canonicalization of a dump ends** if and only if its next edges have no
cycle, in whatever order maps are visited. -/
theorem canonicalize_returns_iff {rel : GoString → GoString → Except GoString GoString}
    {dumpRoot : GoString} {elements : List Element} {state : WrappedState}
    (h : correlate rel dumpRoot elements = .ok state) (order : RangeOrder) :
    (∃ fuel state', canonicalize order fuel state.toState = .ok state') ↔
      Acyclic state.nextID := by
  have hwf := wellFormed_of_correlate h
  exact ⟨fun ⟨_, _, hok⟩ => acyclic_of_canonicalize hwf hok,
    fun hacyclic => canonicalize_of_acyclic hwf hacyclic order⟩

/-- A vertex for a result set. -/
def resultSetVertex (id : ℤ) : Element := ⟨id, lit "vertex", lit "resultSet", .other⟩

/-- A vertex for a range. -/
def rangeVertex (id : ℤ) : Element := ⟨id, lit "vertex", lit "range", .range {}⟩

/-- An edge with one target. -/
def edgeTo (id : ℤ) (label : GoString) (outV inV : ℤ) : Element :=
  ⟨id, lit "edge", label, .edge ⟨outV, inV, [], 0⟩⟩

/-- Two result sets, one after the other. -/
theorem canonicalize_returns_iff_two_resultSets : ∃ state : WrappedState,
    correlate (fun _ uri => .ok uri) []
      [resultSetVertex 1, resultSetVertex 2, edgeTo 3 (lit "next") 1 2] = .ok state ∧
    ((∃ fuel state', canonicalize .byEntries fuel state.toState = .ok state') ↔
      Acyclic state.nextID) := by
  obtain ⟨state, h⟩ : ∃ state : WrappedState, correlate (fun _ uri => .ok uri) []
      [resultSetVertex 1, resultSetVertex 2, edgeTo 3 (lit "next") 1 2] = .ok state := ⟨_, rfl⟩
  exact ⟨state, h, canonicalize_returns_iff h .byEntries⟩

/-- **A result set that is its own next is never canonicalized.** -/
theorem canonicalize_selfLoop : ∃ state : WrappedState,
    correlate (fun _ uri => .ok uri) []
      [resultSetVertex 1, edgeTo 2 (lit "next") 1 1] = .ok state ∧
    ∀ order fuel state', canonicalize order fuel state.toState ≠ .ok state' := by
  obtain ⟨state, h, hnext⟩ : ∃ state : WrappedState, correlate (fun _ uri => .ok uri) []
      [resultSetVertex 1, edgeTo 2 (lit "next") 1 1] = .ok state ∧ state.nextID 1 = some 1 :=
    ⟨_, rfl, rfl⟩
  exact ⟨state, h, fun order fuel state' hok =>
    acyclic_of_canonicalize (wellFormed_of_correlate h) hok 1 (.single hnext)⟩

end Conversion
