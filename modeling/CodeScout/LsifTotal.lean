import CodeScout.LsifCanonicalize
import CodeScout.Util.Chains
import Mathlib

/-!
# When the canonicalization ends

The canonicalization of documents and reference results always ends, and so
does the search for the monikers that are linked to a moniker. The recursion
along the next edges ends if they have no cycle, and only then: an edge is
removed after what it leads to is canonicalized.
-/

namespace Conversion

open Outcome Chains List

/-! ## Documents -/

/-- What the canonicalization of documents and reference results leaves as it
is. -/
structure SameLinks (state state' : State) : Prop where
  nextData : state'.nextData = state.nextData
  resultSetData : state'.resultSetData = state.resultSetData
  rangeData : state'.rangeData = state.rangeData
  monikers : state'.monikers = state.monikers
  linkedMonikers : state'.linkedMonikers = state.linkedMonikers
  monikerData : state'.monikerData = state.monikerData
  linkedReferenceResults : state'.linkedReferenceResults = state.linkedReferenceResults
  referenceData : ∀ id ∈ state.referenceData, id ∈ state'.referenceData

theorem SameLinks.trans {state₁ state₂ state₃ : State} (h : SameLinks state₁ state₂)
    (h' : SameLinks state₂ state₃) : SameLinks state₁ state₃ :=
  ⟨h'.nextData.trans h.nextData, h'.resultSetData.trans h.resultSetData,
    h'.rangeData.trans h.rangeData, h'.monikers.trans h.monikers,
    h'.linkedMonikers.trans h.linkedMonikers, h'.monikerData.trans h.monikerData,
    h'.linkedReferenceResults.trans h.linkedReferenceResults,
    fun id hid => h'.referenceData id (h.referenceData id hid)⟩

/-- No list of a map is empty. -/
def NoneEmpty (ids : GoMap GoString (List ℤ)) : Prop :=
  ∀ {uri l}, ids.lookup uri = some l → l ≠ []

variable {ids : GoMap GoString (List ℤ)}

theorem NoneEmpty.insert (h : NoneEmpty ids) {uri : GoString}
    {l : List ℤ} (hl : l ≠ []) : NoneEmpty (ids.insert uri l) := by
  intro uri' l' hlookup
  by_cases huri : uri' = uri
  · rw [huri, AList.lookup_insert] at hlookup
    cases hlookup
    exact hl
  · rw [AList.lookup_insert_ne huri] at hlookup
    exact h hlookup

theorem foldl_appendTo {documents : List (ℤ × GoString)} (h : NoneEmpty ids) :
    NoneEmpty (documents.foldl (fun ids document => ids.appendTo document.2 document.1) ids) ∧
      ∀ uri, uri ∈ ids ∨ uri ∈ documents.map Prod.snd →
        uri ∈ documents.foldl (fun ids document => ids.appendTo document.2 document.1) ids := by
  induction documents generalizing ids with
  | nil => exact ⟨h, fun uri huri => huri.resolve_right not_mem_nil⟩
  | cons document documents ih =>
    have hne : (ids.lookup document.2).getD [] ++ [document.1] ≠ [] :=
      append_ne_nil_of_right_ne_nil _ (cons_ne_nil _ _)
    refine ⟨(ih (h.insert hne)).1, fun uri huri => (ih (h.insert hne)).2 uri ?_⟩
    rw [AList.mem_insert]
    rw [map_cons, mem_cons] at huri
    tauto

theorem foldl_sort {entries : List (GoString × List ℤ)} (hentries : ∀ entry ∈ entries, entry.2 ≠ [])
    (h : NoneEmpty ids) :
    NoneEmpty (entries.foldl
        (fun ids entry => ids.insert entry.1 (entry.2.insertionSort (· ≤ ·))) ids) ∧
      ∀ uri ∈ ids, uri ∈ entries.foldl
        (fun ids entry => ids.insert entry.1 (entry.2.insertionSort (· ≤ ·))) ids := by
  induction entries generalizing ids with
  | nil => exact ⟨h, fun _ huri => huri⟩
  | cons entry entries ih =>
    rw [forall_mem_cons] at hentries
    have hsort : entry.2.insertionSort (· ≤ ·) ≠ [] := by
      intro hnil
      have hlength := length_insertionSort (· ≤ ·) entry.2
      rw [hnil] at hlength
      exact hentries.1 (eq_nil_of_length_eq_zero hlength.symm)
    refine ⟨(ih hentries.2 (h.insert hsort)).1, fun uri huri => ?_⟩
    exact (ih hentries.2 (h.insert hsort)).2 uri (mem_insert_of_mem huri)

variable {state : State}

theorem exists_canonicalID (order : RangeOrder) {document : ℤ × GoString}
    (h : document ∈ state.documentData.toPairs) :
    ∃ id, ((documentIDs order state).lookup document.2).bind head? = some id := by
  obtain ⟨hne, hmem⟩ := @foldl_appendTo ∅ (order.range [0] state.documentData.toPairs)
    fun hlookup => nomatch hlookup
  obtain ⟨hne', hmem'⟩ := foldl_sort (fun entry hentry =>
    hne (GoMap.mem_toPairs.1 (@RangeOrder.mem_range order _ [1] _ entry |>.1 hentry))) hne
  have huri : document.2 ∈ documentIDs order state := hmem' document.2 (hmem document.2
    (.inr (mem_map_of_mem (RangeOrder.mem_range.2 h))))
  obtain ⟨l, hl⟩ := Option.isSome_iff_exists.1 (AList.lookup_isSome.2 huri)
  rw [hl]
  cases l with
  | nil => exact absurd rfl (hne' hl)
  | cons id l => exact ⟨id, rfl⟩

theorem canonicalIDs_safe (order : RangeOrder) (state : State) :
    Safe (fun _ => True) (canonicalIDs order state) := by
  unfold canonicalIDs
  refine Safe.foldlM_of_forall (fun document hdocument canonical _ => ?_) trivial
  obtain ⟨id, hid⟩ := exists_canonicalID order (RangeOrder.mem_range.1 hdocument)
  rw [hid]
  trivial

variable {id start v : ℤ}

theorem mem_canonicalizeDocumentsInDefinitionReferences {order : RangeOrder} {loop : ℕ}
    {data : GoMap ℤ IDSetMap} {canonical : GoMap ℤ ℤ} (h : id ∈ data) :
    id ∈ canonicalizeDocumentsInDefinitionReferences order loop data canonical := by
  unfold canonicalizeDocumentsInDefinitionReferences
  generalize order.range [loop] data.toPairs = entries
  induction entries generalizing data with
  | nil => exact h
  | cons entry entries ih => exact ih (mem_insert_of_mem h)

theorem sameLinks_foldl {step : State → ℤ × ℤ → State}
    (hstep : ∀ state entry, SameLinks state (step state entry)) (entries : List (ℤ × ℤ))
    (state : State) : SameLinks state (entries.foldl step state) := by
  induction entries generalizing state with
  | nil => exact ⟨rfl, rfl, rfl, rfl, rfl, rfl, rfl, fun _ hid => hid⟩
  | cons entry entries ih => exact (hstep state entry).trans (ih (step state entry))

/-- **Documents are canonicalized** without a change to the links. -/
theorem canonicalizeDocuments_safe (order : RangeOrder) (state : State) :
    Safe (SameLinks state) (canonicalizeDocuments order state) := by
  unfold canonicalizeDocuments
  refine (canonicalIDs_safe order state).bind fun canonical _ => ?_
  have hmoved : SameLinks state { state with
      definitionData :=
        canonicalizeDocumentsInDefinitionReferences order 3 state.definitionData canonical
      referenceData :=
        canonicalizeDocumentsInDefinitionReferences order 4 state.referenceData canonical
      implementationData :=
        canonicalizeDocumentsInDefinitionReferences order 5 state.implementationData canonical } :=
    ⟨rfl, rfl, rfl, rfl, rfl, rfl, rfl, fun _ => mem_canonicalizeDocumentsInDefinitionReferences⟩
  refine hmoved.trans (sameLinks_foldl (fun state entry => ?_) _ _)
  exact ⟨rfl, rfl, rfl, rfl, rfl, rfl, rfl, fun _ hid => hid⟩

/-! ## Reference results -/

/-- The reference results that were there are still there. -/
def HasAll (keys : List ℤ) (data : GoMap ℤ IDSetMap) : Prop := ∀ id ∈ keys, id ∈ data

theorem ofOption_lookup_safe {α : Type} {m : GoMap ℤ α} (h : id ∈ m) :
    Safe (fun _ => True) (ofOption (m.lookup id) : Outcome Empty α) := by
  obtain ⟨a, ha⟩ := Option.isSome_iff_exists.1 (AList.lookup_isSome.2 h)
  rw [ha]
  trivial

theorem copyReferences_safe (order : RangeOrder) {keys : List ℤ} {data : GoMap ℤ IDSetMap}
    (h : HasAll keys data) {nextID id : ℤ} (hnext : nextID ∈ keys) (hid : id ∈ keys) :
    Safe (HasAll keys) (copyReferences order data nextID id) := by
  unfold copyReferences
  refine (ofOption_lookup_safe (h nextID hnext)).bind fun source _ => ?_
  refine Safe.foldlM_of_forall (fun entry _ data hdata => ?_) h
  exact (ofOption_lookup_safe (hdata id hid)).bind fun target _ =>
    fun id' hid' => mem_insert_of_mem (hdata id' hid')

/-- The identifiers that were not visited yet. -/
def unvisited (keys visited : List ℤ) : Finset ℤ := keys.toFinset \ visited.toFinset

open IDSet

/-- **A visit ends** with fuel for the identifiers that were not visited, and
visits more. -/
theorem visit_safe (order : RangeOrder) {linked : GoMap ℤ (List ℤ)} {keys : List ℤ}
    (hlinked : ∀ {id nextIDs}, linked.lookup id = some nextIDs →
      id ∈ keys ∧ ∀ nextID ∈ nextIDs, nextID ∈ keys)
    (fuel : ℕ) : ∀ (visits : Visits) (id : ℤ), id ∈ keys → HasAll keys visits.2 →
      (unvisited keys visits.1).card < fuel →
      Safe (fun visits' => HasAll keys visits'.2 ∧ visits.1 ⊆ visits'.1)
        (visit order linked fuel visits id) := by
  induction fuel with
  | zero => exact fun _ _ _ _ hfuel => absurd hfuel (Nat.not_lt_zero _)
  | succ fuel ih =>
    intro ⟨visited, data⟩ id hid hdata hfuel
    unfold visit
    have hsubset : visited ⊆ add visited id := fun _ h => mem_add.2 (.inl h)
    by_cases hvisited : id ∈ visited
    · rw [if_pos hvisited]
      exact ⟨hdata, fun _ h => h⟩
    · rw [if_neg hvisited]
      cases hlookup : linked.lookup id with
      | none => exact ⟨hdata, hsubset⟩
      | some nextIDs =>
        -- the visits of the loop have one identifier less that was not visited
        have hcard : (unvisited keys (add visited id)).card < fuel := by
          refine Nat.lt_of_lt_of_le (Finset.card_lt_card ?_) (Nat.le_of_lt_succ hfuel)
          refine Finset.ssubset_iff_of_subset ?_ |>.2 ⟨id, ?_, ?_⟩
          · intro a ha
            simp only [unvisited, Finset.mem_sdiff, mem_toFinset, mem_add] at ha ⊢
            exact ⟨ha.1, fun h => ha.2 (.inl h)⟩
          · simp only [unvisited, Finset.mem_sdiff, mem_toFinset]
            exact ⟨hid, hvisited⟩
          · simp only [unvisited, Finset.mem_sdiff, mem_toFinset, mem_add]
            exact fun h => h.2 (.inr trivial)
        have hloop : Safe (fun visits' : Visits => HasAll keys visits'.2 ∧
            add visited id ⊆ visits'.1)
            (nextIDs.foldlM (fun visits nextID =>
              (visit order linked fuel visits nextID).bind fun visits =>
                (copyReferences order visits.2 nextID id).bind fun data => .ok (visits.1, data))
              (add visited id, data)) := by
          refine Safe.foldlM_of_forall (fun nextID hnextID visits hvisits => ?_)
            ⟨hdata, fun _ h => h⟩
          have hnext := (hlinked hlookup).2 nextID hnextID
          have hle : (unvisited keys visits.1).card < fuel := by
            refine (Finset.card_le_card ?_).trans_lt hcard
            intro a ha
            simp only [unvisited, Finset.mem_sdiff, mem_toFinset] at ha ⊢
            exact ⟨ha.1, fun h => ha.2 (hvisits.2 h)⟩
          refine (ih visits nextID hnext hvisits.1 hle).bind fun visits' hvisits' => ?_
          refine (copyReferences_safe order hvisits'.1 hnext hid).bind fun data' hdata' => ?_
          exact ⟨hdata', fun _ h => hvisits'.2 (hvisits.2 h)⟩
        exact hloop.mono fun visits' hvisits' => ⟨hvisits'.1, fun _ h => hvisits'.2 (hsubset h)⟩

/-- **Reference results are canonicalized** without a change to the links. -/
theorem canonicalizeReferenceResults_safe (order : RangeOrder)
    (hlinked : ∀ {id nextIDs}, state.linkedReferenceResults.lookup id = some nextIDs →
      id ∈ state.referenceData ∧ ∀ nextID ∈ nextIDs, nextID ∈ state.referenceData)
    {fuel : ℕ} (hfuel : state.referenceData.keys.length < fuel) :
    Safe (SameLinks state) (canonicalizeReferenceResults order fuel state) := by
  unfold canonicalizeReferenceResults
  have hloop : Safe (fun visits : Visits => HasAll state.referenceData.keys visits.2)
      ((order.range [8] state.referenceData.keys).foldlM
        (visit order state.linkedReferenceResults fuel) ([], state.referenceData)) := by
    refine Safe.foldlM_of_forall (fun id hid visits hvisits => ?_) fun id hid => hid
    refine (visit_safe order hlinked fuel visits id (RangeOrder.mem_range.1 hid) hvisits
      ?_).mono fun _ h => h.1
    calc (unvisited state.referenceData.keys visits.1).card
        ≤ state.referenceData.keys.toFinset.card := Finset.card_le_card Finset.sdiff_subset
      _ ≤ state.referenceData.keys.length := toFinset_card_le _
      _ < fuel := hfuel
  exact hloop.bind fun visits hvisits => ⟨rfl, rfl, rfl, rfl, rfl, rfl, rfl, hvisits⟩

/-! ## Linked monikers -/

/-- A moniker is linked to another. -/
def Links (links : IDSetMap) (id id' : ℤ) : Prop := id' ∈ links.ids id

/-- The monikers that occur in links, with those the search starts from. -/
def linkKeys (links : IDSetMap) : Finset ℤ :=
  (links.entries.flatMap fun entry => entry.2).toFinset

variable {links : IDSetMap}

theorem mem_linkKeys {id id' : ℤ} (h : Links links id id') :
    id' ∈ linkKeys links := by
  unfold Links IDSetMap.ids at h
  cases hlookup : links.lookup id with
  | none =>
    rw [hlookup] at h
    exact absurd h not_mem_nil
  | some set =>
    rw [hlookup] at h
    rw [linkKeys, mem_toFinset, mem_flatMap]
    exact ⟨⟨id, set⟩, AList.mem_lookup_iff.1 hlookup, h⟩

/-- **The search for linked monikers**, in the middle: what was found is linked
to the start, and what it links to is found or in the frontier. -/
structure Searching (links : IDSetMap) (start : ℤ) (s frontier : IDSet) : Prop where
  linked : ∀ id, id ∈ s ∨ id ∈ frontier → Relation.ReflTransGen (Links links) start id
  closed : ∀ id ∈ s, ∀ id', Links links id id' → id' ∈ s ∨ id' ∈ frontier
  start_mem : start ∈ s ∨ start ∈ frontier
  nodup : frontier.Nodup

variable {frontier s : IDSet}

theorem IDSet.nodup_add (h : s.Nodup) (id : ℤ) : (s.add id).Nodup := by
  unfold add
  split_ifs with hid
  · exact h
  · exact nodup_append.2 ⟨h, nodup_singleton id, fun a ha b hb hab =>
      hid (mem_singleton.1 hb ▸ hab ▸ ha)⟩

theorem IDSet.nodup_union (h : s.Nodup) (other : IDSet) : (s.union other).Nodup := by
  unfold union
  induction other generalizing s with
  | nil => exact h
  | cons id other ih => exact ih (nodup_add h id)

/-- The search takes a moniker that was found before. -/
theorem Searching.skip (h : Searching links start s (v :: frontier)) (hv : v ∈ s) :
    Searching links start s frontier where
  linked id hid := h.linked id (hid.imp_right (mem_cons_of_mem v))
  closed id hid id' hlink := by
    rcases h.closed id hid id' hlink with hs | hfrontier
    · exact .inl hs
    · rcases mem_cons.1 hfrontier with rfl | hrest
      · exact .inl hv
      · exact .inr hrest
  start_mem := by
    rcases h.start_mem with hs | hfrontier
    · exact .inl hs
    · rcases mem_cons.1 hfrontier with rfl | hrest
      · exact .inl hv
      · exact .inr hrest
  nodup := (nodup_cons.1 h.nodup).2

/-- The search takes a new moniker. -/
theorem Searching.add (h : Searching links start s (v :: frontier)) :
    Searching links start (s.add v) (frontier.union (links.ids v)) where
  linked id hid := by
    rw [mem_add, mem_union] at hid
    have hv := h.linked v (.inr mem_cons_self)
    rcases hid with (hs | rfl) | (hfrontier | hlink)
    · exact h.linked id (.inl hs)
    · exact hv
    · exact h.linked id (.inr (mem_cons_of_mem v hfrontier))
    · exact hv.tail hlink
  closed id hid id' hlink := by
    rw [mem_add, mem_union]
    rcases mem_add.1 hid with hs | rfl
    · rcases h.closed id hs id' hlink with hs' | hfrontier
      · exact .inl (.inl hs')
      · exact (mem_cons.1 hfrontier).elim (fun heq => .inl (.inr heq)) fun h => .inr (.inl h)
    · exact .inr (.inr hlink)
  start_mem := by
    rw [mem_add, mem_union]
    rcases h.start_mem with hs | hfrontier
    · exact .inl (.inl hs)
    · exact (mem_cons.1 hfrontier).elim (fun heq => .inl (.inr heq)) fun h => .inr (.inl h)
  nodup := nodup_union (nodup_cons.1 h.nodup).2 _

theorem Searching.of_perm {s frontier frontier' : IDSet}
    (h : Searching links start s frontier) (hperm : frontier'.Perm frontier) :
    Searching links start s frontier' :=
  ⟨fun id hid => h.linked id (hid.imp_right hperm.mem_iff.1),
    fun id hid id' hlink => (h.closed id hid id' hlink).imp_right hperm.mem_iff.2,
    h.start_mem.imp_right hperm.mem_iff.2, hperm.nodup_iff.2 h.nodup⟩

/-- At the end the search has found what is linked to the start. -/
theorem Searching.mem_iff (h : Searching links start s []) :
    id ∈ s ↔ Relation.ReflTransGen (Links links) start id := by
  refine ⟨fun hid => h.linked id (.inl hid), fun hlinked => ?_⟩
  induction hlinked with
  | refl => exact h.start_mem.resolve_right not_mem_nil
  | tail _ hlink ih => exact (h.closed _ ih _ hlink).resolve_right not_mem_nil

theorem Searching.length_le (h : Searching links start s frontier) :
    frontier.length ≤ (insert start (linkKeys links)).card := by
  rw [← toFinset_card_of_nodup h.nodup]
  refine Finset.card_le_card fun id hid => ?_
  rcases (h.linked id (.inr (mem_toFinset.1 hid))).cases_tail with rfl | ⟨id', -, hlink⟩
  · exact Finset.mem_insert_self _ _
  · exact Finset.mem_insert_of_mem (mem_linkKeys hlink)

/-- The steps that are left: one for each moniker in the frontier, and those for
the frontiers of the monikers that were not found yet. -/
def stepsLeft (links : IDSetMap) (start : ℤ) (s frontier : IDSet) : ℕ :=
  let all := insert start (linkKeys links)
  (all \ s.toFinset).card * (all.card + 1) + frontier.length

theorem stepsLeft_add (h : Searching links start s (v :: frontier)) (hv : v ∉ s) :
    stepsLeft links start (s.add v) (frontier.union (links.ids v)) <
      stepsLeft links start s (v :: frontier) := by
  have hlength := h.add.length_le
  have hmem : v ∈ insert start (linkKeys links) \ s.toFinset := by
    rw [Finset.mem_sdiff, mem_toFinset]
    refine ⟨?_, hv⟩
    rcases (h.linked v (.inr mem_cons_self)).cases_tail with rfl | ⟨id', -, hlink⟩
    · exact Finset.mem_insert_self _ _
    · exact Finset.mem_insert_of_mem (mem_linkKeys hlink)
  have hsdiff : insert start (linkKeys links) \ (s.add v).toFinset =
      (insert start (linkKeys links) \ s.toFinset).erase v := by
    ext id
    simp only [Finset.mem_sdiff, Finset.mem_erase, mem_toFinset, mem_add]
    tauto
  have hpos := Finset.card_pos.2 ⟨v, hmem⟩
  unfold stepsLeft
  dsimp only
  rw [hsdiff, Finset.card_erase_of_mem hmem, length_cons]
  obtain ⟨n, hn⟩ := Nat.exists_eq_succ_of_ne_zero hpos.ne'
  rw [hn, Nat.succ_sub_one, Nat.succ_mul]
  omega

/-- **The search ends** with what is linked to its start. -/
theorem extractFrom_safe (order : RangeOrder) (loop : List ℕ)
    (fuel : ℕ) : ∀ s frontier : IDSet, Searching links start s frontier →
      stepsLeft links start s frontier < fuel →
      Safe (fun set => ∀ id, id ∈ set ↔ Relation.ReflTransGen (Links links) start id)
        (extractFrom order loop links fuel s frontier) := by
  induction fuel with
  | zero => exact fun _ _ _ hfuel => absurd hfuel (Nat.not_lt_zero _)
  | succ fuel ih =>
    intro s frontier h hfuel
    unfold extractFrom
    have hperm := order.range_perm (loop ++ [s.length, frontier.length]) frontier
    have hsteps : stepsLeft links start s
        (order.range (loop ++ [s.length, frontier.length]) frontier) < fuel + 1 := by
      unfold stepsLeft at hfuel ⊢
      rwa [hperm.length_eq]
    replace h := h.of_perm hperm
    revert h hsteps
    generalize order.range (loop ++ [s.length, frontier.length]) frontier = frontier
    intro hsteps h
    cases frontier with
    | nil => exact fun id => h.mem_iff
    | cons v frontier =>
      dsimp only
      by_cases hv : v ∈ s
      · rw [if_pos hv]
        exact ih s frontier (h.skip hv) (Nat.lt_of_succ_lt_succ hsteps)
      · rw [if_neg hv]
        exact ih _ _ h.add ((stepsLeft_add h hv).trans_le (Nat.le_of_lt_succ hsteps))

/-- The fuel for every search. -/
def searchFuel (links : IDSetMap) : ℕ :=
  ((linkKeys links).card + 1) * ((linkKeys links).card + 1 + 1) + 2

theorem extractSet_safe (order : RangeOrder) (loop : List ℕ) {fuel : ℕ}
    (hfuel : searchFuel links ≤ fuel) (start : ℤ) :
    Safe (fun set => ∀ id, id ∈ set ↔ Relation.ReflTransGen (Links links) start id)
      (extractSet order loop links fuel start) := by
  refine extractFrom_safe order loop fuel [] [start] ⟨?_, ?_, .inr mem_cons_self,
    nodup_singleton start⟩ (Nat.lt_of_lt_of_le ?_ hfuel)
  · rintro id (hid | hid)
    · exact absurd hid not_mem_nil
    · rw [mem_singleton.1 hid]
  · exact fun id hid => absurd hid not_mem_nil
  · have hcard := Finset.card_insert_le start (linkKeys links)
    have hmul := Nat.mul_le_mul hcard (Nat.add_le_add_right hcard 1)
    unfold stepsLeft searchFuel
    simp only [toFinset_nil, Finset.sdiff_empty, length_singleton]
    omega

/-- What is added for a list of monikers: those linked to them that are not
local. -/
def Gathered (state : State) (source : IDSet) (id : ℤ) : Prop :=
  state.isLocal id = false ∧
    ∃ sourceID ∈ source, Relation.ReflTransGen (Links state.linkedMonikers) sourceID id

theorem mem_foldl_nonLocal {set monikers : IDSet} :
    id ∈ set.foldl
        (fun monikers id => if !state.isLocal id then IDSet.add monikers id else monikers)
        monikers ↔
      id ∈ monikers ∨ state.isLocal id = false ∧ id ∈ set := by
  induction set generalizing monikers with
  | nil => simp
  | cons id' set ih =>
    rw [foldl_cons, ih, mem_cons]
    cases hlocal : state.isLocal id' with
    | true =>
      simp only [Bool.not_true, Bool.false_eq_true, if_false]
      constructor
      · exact Or.imp_right (And.imp_right .inr)
      · rintro (h | ⟨h, rfl | hset⟩)
        · exact .inl h
        · exact absurd (h.symm.trans hlocal) Bool.false_ne_true
        · exact .inr ⟨h, hset⟩
    | false =>
      simp only [Bool.not_false, if_true, mem_add]
      constructor
      · rintro ((h | rfl) | ⟨h, hset⟩)
        · exact .inl h
        · exact .inr ⟨hlocal, .inl rfl⟩
        · exact .inr ⟨h, .inr hset⟩
      · rintro (h | ⟨h, rfl | hset⟩)
        · exact .inl (.inl h)
        · exact .inl (.inr rfl)
        · exact .inr ⟨h, hset⟩

/-- **Monikers are gathered.** -/
theorem gatherMonikers_safe (order : RangeOrder) (loop : List ℕ) {fuel : ℕ}
    (hfuel : searchFuel state.linkedMonikers ≤ fuel) (source : Option IDSet) :
    Safe (fun monikers => ∀ id, id ∈ monikers.getD [] ↔ Gathered state (source.getD []) id)
      (gatherMonikers order loop fuel state source) := by
  unfold gatherMonikers
  have hnil : ∀ id, id ∈ (none : Option IDSet).getD [] ↔ Gathered state [] id := fun id =>
    iff_of_false not_mem_nil fun ⟨_, _, h, _⟩ => not_mem_nil h
  cases source with
  | none => exact hnil
  | some source =>
    dsimp only
    by_cases hlength : source.length = 0
    · rw [if_pos hlength, eq_nil_of_length_eq_zero hlength]
      exact hnil
    · rw [if_neg hlength]
      refine Safe.bind (Safe.foldlM
        (fun done monikers => ∀ id, id ∈ monikers ↔ Gathered state done id) ?_ ?_) ?_
      · intro done sourceID _ monikers hmonikers
        refine (extractSet_safe order _ hfuel sourceID).bind fun set hset => ?_
        intro id
        rw [mem_foldl_nonLocal, hmonikers, RangeOrder.mem_range, hset]
        unfold Gathered
        simp only [mem_append, mem_singleton]
        constructor
        · rintro (⟨hlocal, id', hid', hlinked⟩ | ⟨hlocal, hlinked⟩)
          · exact ⟨hlocal, id', .inl hid', hlinked⟩
          · exact ⟨hlocal, sourceID, .inr rfl, hlinked⟩
        · rintro ⟨hlocal, id', hid' | rfl, hlinked⟩
          · exact .inl ⟨hlocal, id', hid', hlinked⟩
          · exact .inr ⟨hlocal, hlinked⟩
      · exact hnil
      · intro monikers hmonikers id
        rw [Option.getD_some, hmonikers]
        unfold Gathered
        simp only [RangeOrder.mem_range, Option.getD_some]

end Conversion
