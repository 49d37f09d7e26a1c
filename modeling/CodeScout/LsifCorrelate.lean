import CodeScout.LsifState
import CodeScout.Util.Outcome
import Mathlib

/-!
# States of LSIF dumps

An edge is accepted only if its vertices were seen before, so the links of a
state lead to where the code that follows them expects to arrive. No edge is
rejected for what it leads to by way of others: result sets may be linked in a
cycle.
-/

namespace Conversion

open List

/-- **What the correlation makes sure of**: a next edge leads from a range or a
result set to a result set, reference results are linked among themselves, and
links between monikers go both ways. -/
structure State.WellFormed (state : State) : Prop where
  next_target : ∀ {id nextID}, state.nextData.lookup id = some nextID →
    nextID ∈ state.resultSetData
  next_source : ∀ {id nextID}, state.nextData.lookup id = some nextID →
    id ∈ state.rangeData ∨ id ∈ state.resultSetData
  linked : ∀ {id nextIDs}, state.linkedReferenceResults.lookup id = some nextIDs →
    id ∈ state.referenceData ∧ ∀ nextID ∈ nextIDs, nextID ∈ state.referenceData
  link_symm : ∀ {id id'}, id' ∈ state.linkedMonikers.ids id → id ∈ state.linkedMonikers.ids id'

theorem wellFormed_newState : newState.WellFormed where
  next_target h := nomatch h
  next_source h := nomatch h
  linked h := nomatch h
  link_symm h := absurd h not_mem_nil

theorem State.WellFormed.grow {state state' : State} (h : state.WellFormed)
    (hnext : state'.nextData = state.nextData)
    (hlinked : state'.linkedReferenceResults = state.linkedReferenceResults)
    (hmonikers : state'.linkedMonikers = state.linkedMonikers)
    (hrange : ∀ id ∈ state.rangeData, id ∈ state'.rangeData)
    (hresultSet : ∀ id ∈ state.resultSetData, id ∈ state'.resultSetData)
    (hreference : ∀ id ∈ state.referenceData, id ∈ state'.referenceData) :
    state'.WellFormed where
  next_target hlookup := hresultSet _ (h.next_target (hnext ▸ hlookup))
  next_source hlookup := (h.next_source (hnext ▸ hlookup)).imp (hrange _) (hresultSet _)
  linked hlookup :=
    let h' := h.linked (hlinked ▸ hlookup)
    ⟨hreference _ h'.1, fun nextID hmem => hreference _ (h'.2 nextID hmem)⟩
  link_symm hmem := by
    rw [hmonikers] at hmem ⊢
    exact h.link_symm hmem

/-- The outcome of a handler: an error, or a well-formed state. -/
def Keeps (result : Correlated) : Prop := ∀ state', result = .ok state' → state'.WellFormed

theorem keeps_error (e : CorrelateError) : Keeps (.error e) := fun _ h => nomatch h

variable {state : WrappedState}

theorem keeps_ok (h : state.WellFormed) : Keeps (.ok state) :=
  fun _ heq => Except.ok.inj heq ▸ h

theorem keeps_same {state' : WrappedState} (h : state.WellFormed)
    (hsame : (state'.nextData, state'.linkedReferenceResults, state'.linkedMonikers,
        state'.rangeData, state'.resultSetData, state'.referenceData)
      = (state.nextData, state.linkedReferenceResults, state.linkedMonikers,
        state.rangeData, state.resultSetData, state.referenceData)) : Keeps (.ok state') := by
  simp only [Prod.mk.injEq] at hsame
  obtain ⟨hnext, hlinked, hmonikers, hrange, hresultSet, hreference⟩ := hsame
  exact keeps_ok (h.grow hnext hlinked hmonikers (fun _ => hrange ▸ id) (fun _ => hresultSet ▸ id)
    fun _ => hreference ▸ id)

theorem inv_foldlM {Inv : WrappedState → Prop} {α : Type} {step : WrappedState → α → Correlated}
    (hstep : ∀ state a, Inv state → ∀ state', step state a = .ok state' → Inv state')
    (l : List α) : ∀ state state' : WrappedState, Inv state →
      l.foldlM step state = .ok state' → Inv state' := by
  induction l with
  | nil =>
    intro state state' h heq
    cases heq
    exact h
  | cons a l ih =>
    intro state state' h heq
    rw [foldlM_cons] at heq
    obtain ⟨state₁, hfirst, heq⟩ := Except.exists_of_bind heq
    exact ih state₁ state' (hstep state a h state₁ hfirst) heq

theorem keeps_foldlM {step : WrappedState → ℤ → Correlated}
    (hstep : ∀ state inV, state.WellFormed → Keeps (step state inV)) (inVs : List ℤ)
    (h : state.WellFormed) : Keeps (inVs.foldlM step state) :=
  fun state' => @inv_foldlM (·.WellFormed) ℤ step (fun state inV h => hstep state inV h) inVs state
    state' h

theorem mem_insert_of_mem {κ α : Type} [DecidableEq κ] {m : GoMap κ α} {key key' : κ} {a : α}
    (h : key ∈ m) : key ∈ m.insert key' a :=
  (AList.mem_insert m).2 (.inr h)

theorem mem_of_lookup_eq_some {α : Type} {l : List (GoString × α)} {label : GoString} {a : α}
    (h : l.lookup label = some a) : (label, a) ∈ l := by
  obtain ⟨l₁, l₂, rfl, -⟩ := lookup_eq_some_iff.1 h
  exact mem_append_right _ mem_cons_self

variable {rel : GoString → GoString → Except GoString GoString}

theorem keeps_vertexHandlers
    {entry : GoString × (WrappedState → Element → Correlated)} (hentry : entry ∈ vertexHandlers rel)
    (h : state.WellFormed) (element : Element) :
    Keeps (entry.2 state element) := by
  simp only [vertexHandlers, mem_cons, not_mem_nil, or_false] at hentry
  -- each handler inserts the vertex into one map, or fails
  obtain rfl | rfl | rfl | rfl | rfl | rfl | rfl | rfl | rfl | rfl | rfl := hentry
  · show Keeps (correlateMetaData state element)
    unfold correlateMetaData
    split
    · exact keeps_same h rfl
    · exact keeps_error _
  · show Keeps (correlateDocument rel state element)
    unfold correlateDocument
    split
    · split
      · exact keeps_error _
      · split
        · exact keeps_error _
        · exact keeps_same h rfl
    · exact keeps_error _
  · show Keeps (correlateRange state element)
    unfold correlateRange
    split
    · exact keeps_ok (h.grow rfl rfl rfl (fun _ => mem_insert_of_mem) (fun _ => id) fun _ => id)
    · exact keeps_error _
  · exact keeps_ok (h.grow rfl rfl rfl (fun _ => id) (fun _ => mem_insert_of_mem) fun _ => id)
  · exact keeps_same h rfl
  · exact keeps_ok (h.grow rfl rfl rfl (fun _ => id) (fun _ => id) fun _ => mem_insert_of_mem)
  · exact keeps_same h rfl
  all_goals
    first
    | show Keeps (correlateHoverResult state element)
      unfold correlateHoverResult
    | show Keeps (correlateMoniker state element)
      unfold correlateMoniker
    | show Keeps (correlatePackageInformation state element)
      unfold correlatePackageInformation
    | show Keeps (correlateDiagnosticResult state element)
      unfold correlateDiagnosticResult
    split
    · exact keeps_same h rfl
    · exact keeps_error _

theorem keeps_vertex (h : state.WellFormed) (element : Element) :
    Keeps (correlateVertex rel state element) := by
  unfold correlateVertex
  split
  · exact keeps_same h rfl
  · rename_i handler hlabel
    exact keeps_vertexHandlers (mem_of_lookup_eq_some hlabel) h element

theorem keeps_containsEdge (h : state.WellFormed) (id : ℤ) (edge : Edge) :
    Keeps (correlateContainsEdge state id edge) := by
  unfold correlateContainsEdge
  split
  · exact keeps_ok h
  · refine keeps_foldlM (fun state inV h => ?_) edge.inVs h
    split
    · exact keeps_error _
    · split
      · split
        · exact keeps_error _
        · exact keeps_same h rfl
      · exact keeps_same h rfl

theorem State.WellFormed.insert_next {state : State} (h : state.WellFormed) {id nextID : ℤ}
    (htarget : nextID ∈ state.resultSetData)
    (hsource : id ∈ state.rangeData ∨ id ∈ state.resultSetData) :
    { state with nextData := state.nextData.insert id nextID : State }.WellFormed := by
  refine ⟨fun {id' nextID'} hlookup => ?_, fun {id' nextID'} hlookup => ?_, h.linked, h.link_symm⟩
  all_goals
    by_cases hid : id' = id
    · subst hid
      rw [AList.lookup_insert] at hlookup
      cases hlookup
      assumption
    · rw [AList.lookup_insert_ne hid] at hlookup
      first
      | exact h.next_target hlookup
      | exact h.next_source hlookup

theorem keeps_nextEdge (h : state.WellFormed) (id : ℤ) (edge : Edge) :
    Keeps (correlateNextEdge state id edge) := by
  unfold correlateNextEdge
  split_ifs with htarget hrange hresultSet
  · exact keeps_ok (h.insert_next htarget (.inl hrange))
  · exact keeps_ok (h.insert_next htarget (.inr hresultSet))
  · exact keeps_error _
  · exact keeps_error _

theorem keeps_linkRange (h : state.WellFormed) (id : ℤ) (edge : Edge)
    (inV : ℤ) : Keeps (linkRange id edge state inV) := by
  unfold linkRange
  split
  · split_ifs
    · exact keeps_error _
    · exact keeps_same h rfl
  · exact keeps_same h rfl

theorem State.WellFormed.link {state : State} (h : state.WellFormed) {id nextID : ℤ}
    (hid : id ∈ state.referenceData) (hnext : nextID ∈ state.referenceData) :
    { state with
      linkedReferenceResults := state.linkedReferenceResults.appendTo id nextID : State
      }.WellFormed := by
  refine ⟨h.next_target, h.next_source, fun {id' nextIDs} hlookup => ?_, h.link_symm⟩
  unfold GoMap.appendTo at hlookup
  by_cases heq : id' = id
  · subst heq
    rw [AList.lookup_insert] at hlookup
    cases hlookup
    refine ⟨hid, forall_mem_append.2 ⟨?_, forall_mem_singleton.2 hnext⟩⟩
    cases hold : state.linkedReferenceResults.lookup id' with
    | none => exact fun _ hmem => absurd hmem not_mem_nil
    | some old => exact (h.linked hold).2
  · rw [AList.lookup_insert_ne heq] at hlookup
    exact h.linked hlookup

/-- The items of a reference result, which stays known while they are read. -/
theorem keeps_referenceItem {edge : Edge} (id inV : ℤ)
    (h : state.WellFormed ∧ edge.outV ∈ state.referenceData) {state' : WrappedState}
    (heq : (if inV ∈ state.referenceData then
        .ok { state with
          linkedReferenceResults := state.linkedReferenceResults.appendTo edge.outV inV }
      else if inV ∉ state.rangeData then .error (.malformedDump id inV [lit "range"])
      else linkRange id edge
        { state with referenceData := addRange state.referenceData edge inV } inV) = .ok state') :
    state'.WellFormed ∧ edge.outV ∈ state'.referenceData := by
  split at heq
  · rename_i hlinked
    cases heq
    exact ⟨h.1.link h.2 hlinked, h.2⟩
  · split at heq
    · cases heq
    · have hgrow : ({ state with
          referenceData := addRange state.referenceData edge inV } : WrappedState).WellFormed :=
        h.1.grow rfl rfl rfl (fun _ hmem => hmem) (fun _ hmem => hmem) fun _ => mem_insert_of_mem
      refine ⟨keeps_linkRange hgrow id edge inV state' heq, ?_⟩
      have hmem : edge.outV ∈ addRange state.referenceData edge inV := mem_insert_of_mem h.2
      unfold linkRange at heq
      split at heq
      · split at heq
        · cases heq
        · cases heq
          exact hmem
      · cases heq
        exact hmem

theorem keeps_itemEdge (h : state.WellFormed) (id : ℤ) (edge : Edge) :
    Keeps (correlateItemEdge state id edge) := by
  unfold correlateItemEdge
  split
  · exact keeps_error _
  split
  · refine keeps_foldlM (fun state inV h => ?_) edge.inVs h
    split
    · exact keeps_error _
    · refine keeps_linkRange ?_ id edge inV
      exact h.grow rfl rfl rfl (fun _ hmem => hmem) (fun _ hmem => hmem) fun _ hmem => hmem
  split
  · rename_i hreference
    exact fun state' heq => (inv_foldlM (fun state inV hinv _ => keeps_referenceItem id inV hinv)
      edge.inVs state state' ⟨h, hreference⟩ heq).1
  split
  · refine keeps_foldlM (fun state inV h => ?_) edge.inVs h
    split
    · exact keeps_error _
    · exact keeps_same h rfl
  split
  · exact keeps_error _
  · exact keeps_ok h

theorem keeps_resultEdge {α : Type} {known : WrappedState → GoMap ℤ α} {kind : GoString}
    {set : ℤ → ResultIDs → ResultIDs} (h : state.WellFormed) (id : ℤ)
    (edge : Edge) : Keeps (correlateResultEdge known kind set state id edge) := by
  unfold correlateResultEdge
  split
  · exact keeps_error _
  split
  · exact keeps_ok (h.grow rfl rfl rfl (fun _ => mem_insert_of_mem) (fun _ hmem => hmem)
      fun _ hmem => hmem)
  split
  · exact keeps_ok (h.grow rfl rfl rfl (fun _ hmem => hmem) (fun _ => mem_insert_of_mem)
      fun _ hmem => hmem)
  · exact keeps_error _

theorem keeps_monikerEdge (h : state.WellFormed) (id : ℤ) (edge : Edge) :
    Keeps (correlateMonikerEdge state id edge) := by
  unfold correlateMonikerEdge
  split_ifs
  · exact keeps_same h rfl
  · exact keeps_same h rfl
  · exact keeps_error _
  · exact keeps_error _

theorem IDSetMap.mem_ids_addID {m : IDSetMap} {key key' id id' : ℤ} :
    id' ∈ (m.addID key id).ids key' ↔ id' ∈ m.ids key' ∨ key' = key ∧ id' = id := by
  unfold IDSetMap.addID IDSetMap.ids
  by_cases hkey : key' = key
  · subst hkey
    rw [AList.lookup_insert, Option.getD_some, IDSet.mem_add, and_iff_right rfl]
  · rw [AList.lookup_insert_ne hkey]
    simp [hkey]

theorem keeps_nextMonikerEdge (h : state.WellFormed) (id : ℤ)
    (edge : Edge) : Keeps (correlateNextMonikerEdge state id edge) := by
  unfold correlateNextMonikerEdge
  split_ifs
  · refine keeps_ok ⟨h.next_target, h.next_source, h.linked, fun {id id'} hmem => ?_⟩
    simp only [IDSetMap.link, IDSetMap.mem_ids_addID] at hmem ⊢
    obtain (hold | ⟨rfl, rfl⟩) | ⟨rfl, rfl⟩ := hmem
    · exact .inl (.inl (h.link_symm hold))
    · exact .inr ⟨rfl, rfl⟩
    · exact .inl (.inr ⟨rfl, rfl⟩)
  · exact keeps_error _
  · exact keeps_error _

theorem keeps_packageInformationEdge (h : state.WellFormed) (id : ℤ)
    (edge : Edge) : Keeps (correlatePackageInformationEdge state id edge) := by
  unfold correlatePackageInformationEdge
  split
  · exact keeps_error _
  split
  · exact keeps_error _
  · dsimp only
    split_ifs <;> exact keeps_same h rfl

theorem keeps_diagnosticEdge (h : state.WellFormed) (id : ℤ)
    (edge : Edge) : Keeps (correlateDiagnosticEdge state id edge) := by
  unfold correlateDiagnosticEdge
  split_ifs
  · exact keeps_same h rfl
  · exact keeps_error _
  · exact keeps_error _

theorem keeps_edgeHandlers {entry : GoString × (WrappedState → ℤ → Edge → Correlated)}
    (hentry : entry ∈ edgeHandlers) (h : state.WellFormed) (id : ℤ)
    (edge : Edge) : Keeps (entry.2 state id edge) := by
  simp only [edgeHandlers, mem_cons, not_mem_nil, or_false] at hentry
  obtain rfl | rfl | rfl | rfl | rfl | rfl | rfl | rfl | rfl | rfl | rfl := hentry
  · exact keeps_containsEdge h id edge
  · exact keeps_nextEdge h id edge
  · exact keeps_itemEdge h id edge
  · simp only [correlateTextDocumentDefinitionEdge]
    exact keeps_resultEdge h id edge
  · simp only [correlateTextDocumentReferencesEdge]
    exact keeps_resultEdge h id edge
  · simp only [correlateTextDocumentImplementationEdge]
    exact keeps_resultEdge h id edge
  · simp only [correlateTextDocumentHoverEdge]
    exact keeps_resultEdge h id edge
  · exact keeps_monikerEdge h id edge
  · exact keeps_nextMonikerEdge h id edge
  · exact keeps_packageInformationEdge h id edge
  · exact keeps_diagnosticEdge h id edge

theorem keeps_element (h : state.WellFormed) (element : Element) :
    Keeps (correlateElement rel state element) := by
  unfold correlateElement
  split_ifs
  · exact keeps_vertex h element
  · unfold correlateEdge
    split
    · split
      · exact keeps_ok h
      · rename_i handler hlabel
        exact keeps_edgeHandlers (mem_of_lookup_eq_some hlabel) h element.id _
    · exact keeps_ok h
  · exact keeps_error _

/-- **The state of every dump is well-formed.** -/
theorem wellFormed_of_correlate {dumpRoot : GoString} {elements : List Element}
    (h : correlate rel dumpRoot elements = .ok state) : state.WellFormed :=
  inv_foldlM (fun _ element hinv => keeps_element hinv element) elements _ state
    wellFormed_newState h

end Conversion
