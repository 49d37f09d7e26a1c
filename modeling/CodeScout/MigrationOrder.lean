import CodeScout.MigrationDefinition

/-!
# The order of migrations

`NewDefinitions` puts the definitions into an order in which every one comes
after its parents, or says why there is none: a parent is unknown, there is
not exactly one definition without parents, or there is a cycle. The search
starts at the root, and what it does not reach from there can only be the
part of the graph behind a cycle – if the identifiers are distinct. A list in
which an identifier occurs twice has more definitions than the search can
ever list, and if nothing else is wrong with it the search ends where the
author expected a cycle, in a panic (`newDefinitions_reorders_iff`).
-/

namespace Migration

open Relation DepthFirst List

/-- A definition names a parent that is not defined. -/
def UnknownParent (definitions : List Definition) : Prop :=
  ∃ d ∈ definitions, ∃ parent ∈ d.parents, parent ∉ definitions.map Definition.id

/-- The parent relation has a cycle. -/
def Cyclic (definitions : List Definition) : Prop :=
  ∃ id, TransGen (Parent definitions) id id

/-- **What an error is returned for** besides identifiers that occur twice. -/
def Malformed (definitions : List Definition) : Prop :=
  UnknownParent definitions ∨ definitions.countP (fun d => d.parents.length = 0) ≠ 1
    ∨ Cyclic definitions

/-- **Every definition comes after its parents.** -/
def Ordered (definitions : List Definition) : Prop :=
  ∀ front d back, definitions = front ++ d :: back →
    ∀ parent ∈ d.parents, parent ∈ front.map Definition.id

/-- The same by positions, which can be checked. -/
theorem ordered_iff (definitions : List Definition) :
    Ordered definitions ↔ ∀ i : Fin definitions.length, ∀ parent ∈ (definitions.get i).parents,
      parent ∈ (definitions.take i).map Definition.id := by
  constructor
  · intro h i
    refine h (definitions.take i) (definitions.get i) (definitions.drop (i + 1)) ?_
    rw [get_eq_getElem, getElem_cons_drop, take_append_drop]
  · rintro h front d back rfl
    have hlt : front.length < (front ++ d :: back).length := by
      rw [length_append, length_cons]
      omega
    have hget := h ⟨front.length, hlt⟩
    rw [get_eq_getElem, getElem_append_right (Nat.le_refl _)] at hget
    simpa only [Nat.sub_self, getElem_cons_zero, take_left'] using hget

instance : DecidablePred Ordered := fun definitions =>
  decidable_of_iff _ (ordered_iff definitions).symm

/-- **What `NewDefinitions` promises**: an error if the definitions are not a
graph with one root and without cycles, and otherwise the definitions in an
order in which every one comes after its parents. -/
def Reorders (definitions : List Definition) : Prop :=
  (¬(definitions.map Definition.id).Nodup ∨ Malformed definitions →
      ∃ e, newDefinitions definitions = .error e)
    ∧ ((definitions.map Definition.id).Nodup → ¬Malformed definitions →
      ∃ ds, newDefinitions definitions = .ok ds ∧ ds.definitions.Perm definitions
        ∧ Ordered ds.definitions)

section search

variable {definitions : List Definition}

/-! ## The search -/

/-- The vertices of the graph. -/
def vertices (definitions : List Definition) : Finset ℤ :=
  (definitions.map Definition.id).toFinset

theorem mem_vertices {id : ℤ} :
    id ∈ vertices definitions ↔ id ∈ definitions.map Definition.id :=
  mem_toFinset

theorem mem_sortedChildren {parent child : ℤ} :
    child ∈ sortedChildren definitions parent ↔ Parent definitions parent child :=
  (perm_insertionSort _ _).mem_iff.trans mem_childrenOf

theorem edge_eq : Edge (sortedChildren definitions) = Parent definitions := by
  funext parent child
  exact propext mem_sortedChildren

theorem cyclic_of_edge (h : ∃ id, TransGen (Edge (sortedChildren definitions)) id id) :
    Cyclic definitions := by
  rw [edge_eq] at h
  exact h

theorem sortedChildren_subset (parent child : ℤ) (h : child ∈ sortedChildren definitions parent) :
    child ∈ vertices definitions := by
  obtain ⟨d, hd, rfl, -⟩ := mem_sortedChildren.mp h
  exact mem_vertices.mpr (mem_map_of_mem hd)

/-- The panic in the search is not reached: a definition that is being visited
is on the path. -/
theorem reportCycle_error (id : ℤ) (path : List ℤ) (h : id ∈ path) :
    ∃ e, (reportCycle id path : Result (State ℤ)) = .error e := by
  unfold reportCycle
  have hne : path.dropWhile (fun parent => parent ≠ id) ≠ [] := by
    intro hnil
    have := dropWhile_eq_nil_iff.mp hnil id h
    simp at this
  obtain ⟨first, rest, hcons⟩ := exists_cons_of_ne_nil hne
  rw [hcons]
  exact ⟨_, rfl⟩

/-- The state of a search between two calls. -/
abbrev Between (definitions : List Definition) (s : State ℤ) : Prop :=
  Inv (vertices definitions) (sortedChildren definitions) [] s

variable {s : State ℤ}

theorem dfs_spec {id : ℤ} (hid : id ∈ definitions.map Definition.id) (hs : Between definitions s) :
    Visits (vertices definitions) (sortedChildren definitions) [id] [] s
      (dfs definitions id s) := by
  have hcard : (vertices definitions).card ≤ definitions.length := by
    rw [← length_map Definition.id]
    exact toFinset_card_le _
  refine visit_spec (fun v _ => sortedChildren_subset v) reportCycle_error _
    (mem_vertices.mpr hid) (fun u hu => absurd hu not_mem_nil) nodup_nil ?_ hs
    fun u hu => absurd hu not_mem_nil
  rw [length_nil]
  omega

theorem visitUnvisited_spec (hs : Between definitions s) :
    Visits (vertices definitions) (sortedChildren definitions) (definitions.map Definition.id) [] s
      (visitUnvisited definitions s) := by
  have hsearch : ∀ id ∈ definitions.map Definition.id, ∀ s, Between definitions s →
      Visits (vertices definitions) (sortedChildren definitions) [id] [] s
        (if (s.marks.lookup id).isNone then dfs definitions id s else .ok s) := by
    intro id hid s hs
    cases hmark : s.marks.lookup id with
    | none => exact dfs_spec hid hs
    | some mark =>
      cases mark with
      | visiting => exact absurd ((hs.visiting id).mp hmark) not_mem_nil
      | visited =>
        refine .inr ⟨s, rfl, hs, prefix_rfl, fun v hv => ?_⟩
        rw [mem_singleton.mp hv]
        exact (hs.visited id).mp hmark
  exact visits_foldlM hsearch s hs

/-- A search that lists all definitions has found no cycle. -/
theorem not_cyclic (hs : Between definitions s)
    (hall : ∀ id ∈ definitions.map Definition.id, id ∈ s.order) : ¬Cyclic definitions := by
  rintro ⟨id, hcycle⟩
  obtain ⟨parent, -, hlast⟩ := TransGen.tail'_iff.mp hcycle
  obtain ⟨d, hd, rfl, -⟩ := hlast
  rw [← edge_eq] at hcycle
  exact hs.not_transGen (hall _ (mem_map_of_mem hd)) hcycle

/-! ## The root -/

theorem countP_root :
    definitions.countP (fun d => d.parents.length = 0)
      = ((definitions.filter fun d => d.parents.length = 0).map Definition.id).length := by
  rw [length_map, countP_eq_length_filter]

/-- **`root` returns the one definition without parents**, or an error. -/
theorem root_cases (definitions : List Definition) :
    (∃ e, root definitions = .error e)
        ∧ definitions.countP (fun d => d.parents.length = 0) ≠ 1
      ∨ ∃ d ∈ definitions, root definitions = .ok d.id
        ∧ definitions.countP (fun d => d.parents.length = 0) = 1
        ∧ ∀ d' ∈ definitions, d'.parents.length = 0 → d'.id = d.id := by
  unfold root
  rw [countP_root]
  cases hroots : (definitions.filter fun d => d.parents.length = 0).map Definition.id with
  | nil => exact .inl ⟨⟨_, rfl⟩, Nat.zero_ne_one⟩
  | cons r roots =>
    cases roots with
    | nil =>
      have hmem : ∀ id, id ∈ (definitions.filter fun d => d.parents.length = 0).map Definition.id
          ↔ id = r := fun id => by rw [hroots, mem_singleton]
      obtain ⟨d, hd, rfl⟩ := mem_map.mp ((hmem r).mpr rfl)
      refine .inr ⟨d, (mem_filter.mp hd).1, rfl, rfl, fun d' hd' hparents => ?_⟩
      exact (hmem _).mp (mem_map_of_mem (mem_filter.mpr ⟨hd', by simpa using hparents⟩))
    | cons r' roots =>
      refine .inl ⟨⟨_, rfl⟩, ?_⟩
      rw [length_cons, length_cons]
      omega

/-- **Everything is reached from the root** in a graph without cycles. The
induction goes along an order of all definitions, from its end. -/
theorem reflTransGen_root (hs : Between definitions s)
    (hall : ∀ id ∈ definitions.map Definition.id, id ∈ s.order) {r : ℤ}
    (hroot : ∀ d ∈ definitions, d.parents.length = 0 → d.id = r)
    (hknown : ¬UnknownParent definitions) (n : ℕ) :
    ∀ front id back, s.order = front ++ id :: back → back.length = n →
      ReflTransGen (Edge (sortedChildren definitions)) r id := by
  induction n using Nat.strong_induction_on with
  | _ n ih =>
    intro front id back hsplit hlength
    have hid : id ∈ definitions.map Definition.id :=
      mem_vertices.mp (hs.subset id (hsplit ▸ mem_append_right _ mem_cons_self))
    obtain ⟨d, hd, rfl⟩ := mem_map.mp hid
    cases hparents : d.parents with
    | nil => rw [hroot d hd (by rw [hparents]; rfl)]
    | cons parent parents =>
      have hparent : parent ∈ d.parents := hparents ▸ mem_cons_self
      have hedge : d.id ∈ sortedChildren definitions parent :=
        mem_sortedChildren.mpr ⟨d, hd, rfl, hparent⟩
      have hdefined : parent ∈ definitions.map Definition.id :=
        not_not.mp fun hnot => hknown ⟨d, hd, parent, hparent, hnot⟩
      -- the parent comes later in the order
      obtain ⟨back₁, back₂, rfl⟩ :=
        append_of_mem (hs.mem_back hedge (hall parent hdefined) hsplit)
      refine ReflTransGen.tail ?_ hedge
      refine ih back₂.length ?_ (front ++ d.id :: back₁) parent back₂ ?_ rfl
      · rw [← hlength, length_append, length_cons]
        omega
      · rw [hsplit, append_assoc, cons_append]

/-! ## The order -/

/-- **What `findDefinitionOrder` returns** for definitions whose parents are
known. -/
theorem findDefinitionOrder_cases (hknown : ¬UnknownParent definitions) :
    (∃ e, findDefinitionOrder definitions = .error e) ∧ Malformed definitions
      ∨ findDefinitionOrder definitions = .panic ∧ ¬Malformed definitions
        ∧ ¬(definitions.map Definition.id).Nodup
      ∨ ∃ s, findDefinitionOrder definitions = .ok s.order ∧ Between definitions s
        ∧ definitions.length ≤ s.order.length
        ∧ definitions.countP (fun d => d.parents.length = 0) = 1 := by
  unfold findDefinitionOrder
  rcases root_cases definitions with ⟨⟨e, he⟩, hcount⟩ | ⟨d, hd, he, hcount, huniq⟩
  · rw [he]
    exact .inl ⟨⟨e, rfl⟩, .inr (.inl hcount)⟩
  rw [he, Outcome.ok_bind]
  rcases dfs_spec (mem_map_of_mem hd) inv_start with ⟨e, he, hcycle⟩ | ⟨s, he, hs, -, hroot⟩
  · rw [he]
    exact .inl ⟨⟨e, rfl⟩, .inr (.inr (cyclic_of_edge hcycle))⟩
  rw [he, Outcome.ok_bind]
  by_cases hlength : s.order.length < definitions.length
  · rw [if_pos hlength]
    rcases visitUnvisited_spec hs with ⟨e, he, hcycle⟩ | ⟨s', he, hs', -, hall⟩
    · rw [he]
      exact .inl ⟨⟨e, rfl⟩, .inr (.inr (cyclic_of_edge hcycle))⟩
    rw [he, Outcome.ok_bind]
    refine .inr (.inl ⟨rfl, ?_, fun hnodup => ?_⟩)
    · rintro (h | h | h)
      · exact hknown h
      · exact h hcount
      · exact not_cyclic hs' hall h
    · -- the search from the root has listed every identifier
      have hsub : definitions.map Definition.id ⊆ s.order := by
        intro id hid
        obtain ⟨front, back, hsplit⟩ := append_of_mem (hall id hid)
        exact hs.mem_of_reflTransGen (hroot d.id mem_cons_self)
          (reflTransGen_root hs' hall huniq hknown _ front id back hsplit rfl)
      have hle := (hnodup.subperm hsub).length_le
      rw [length_map] at hle
      omega
  · rw [if_neg hlength]
    exact .inr (.inr ⟨s, rfl, hs, Nat.le_of_not_lt hlength, hcount⟩)

/-! ## Filling in the definitions -/

theorem fillBackwards_eq (m : GoMap ℤ Definition) (order : List ℤ) :
    ∀ (front back : List Definition), order.length = front.length →
      fillBackwards m back.length order (front ++ back)
        = .ok ((order.map fun id => (m.lookup id).getD {}).reverse ++ back) := by
  induction order with
  | nil =>
    intro front back hlength
    rw [length_eq_zero_iff.mp hlength.symm]
    rfl
  | cons id order ih =>
    intro front back hlength
    obtain ⟨front, last, rfl⟩ : ∃ front' last, front = front' ++ [last] := by
      refine ⟨front.dropLast, front.getLast ?_, (dropLast_append_getLast _).symm⟩
      rintro rfl
      exact absurd hlength (Nat.succ_ne_zero _)
    rw [length_append, length_singleton, length_cons] at hlength
    have hindex : (front ++ [last] ++ back).length - 1 - back.length = front.length := by
      rw [length_append, length_append, length_singleton]
      omega
    rw [fillBackwards, if_pos (by rw [length_append, length_append]; simp),
      hindex, GoSlice.store_of_lt (by rw [length_append, length_append]; simp; omega),
      Outcome.ok_bind, append_assoc, singleton_append,
      set_append_right _ _ (Nat.le_refl _), Nat.sub_self, set_cons_zero]
    have hrest := ih front ((m.lookup id).getD {} :: back) (Nat.succ.inj hlength)
    rw [length_cons] at hrest
    rw [hrest, map_cons, reverse_cons, append_assoc, singleton_append]

/-- The definition with the identifier. -/
def definitionAt (definitions : List Definition) (id : ℤ) : Definition :=
  ((stash definitions).lookup id).getD {}

theorem definitionAt_eq (h : (definitions.map Definition.id).Nodup) {d : Definition}
    (hd : d ∈ definitions) : definitionAt definitions d.id = d := by
  unfold definitionAt
  rw [(lookup_stash h).mpr ⟨hd, rfl⟩]
  rfl

/-- **The definitions in the opposite of the order of the search.** -/
theorem ordered_of_between (hs : Between definitions s)
    (hknown : ¬UnknownParent definitions) (hlength : definitions.length ≤ s.order.length) :
    (definitions.map Definition.id).Nodup ∧ s.order.length = definitions.length
      ∧ ((s.order.map (definitionAt definitions)).reverse).Perm definitions
      ∧ Ordered ((s.order.map (definitionAt definitions)).reverse) := by
  have hsub : s.order.Subperm (definitions.map Definition.id) :=
    hs.nodup.subperm fun id hid => mem_vertices.mp (hs.subset id hid)
  have hperm : s.order.Perm (definitions.map Definition.id) :=
    hsub.perm_of_length_le (by rw [length_map]; exact hlength)
  have hnodup := hperm.nodup_iff.mp hs.nodup
  have hmap : (definitions.map Definition.id).map (definitionAt definitions) = definitions := by
    rw [List.map_map]
    exact (map_congr_left fun d hd => definitionAt_eq hnodup hd).trans (map_id' _)
  have hid : ∀ id ∈ s.order, (definitionAt definitions id).id = id := by
    intro id hid
    obtain ⟨d, hd, rfl⟩ := mem_map.mp (hperm.mem_iff.mp hid)
    rw [definitionAt_eq hnodup hd]
  refine ⟨hnodup, by rw [hperm.length_eq, length_map],
    (reverse_perm _).trans ((hperm.map _).trans (.of_eq hmap)), ?_⟩
  intro front d back hsplit parent hparent
  -- the identifiers are the order of the search backwards
  have hids : s.order
      = (back.map Definition.id).reverse ++ d.id :: (front.map Definition.id).reverse := by
    have hall : ((s.order.map (definitionAt definitions)).reverse).map Definition.id
        = s.order.reverse := by
      rw [List.map_reverse, List.map_map]
      exact congrArg _ ((map_congr_left hid).trans (map_id' _))
    rw [hsplit, map_append, map_cons] at hall
    rw [← reverse_reverse s.order, ← hall]
    simp
  have hd : d ∈ definitions := by
    have hmem : d ∈ (s.order.map (definitionAt definitions)).reverse := by
      rw [hsplit]
      exact mem_append_right _ mem_cons_self
    exact ((reverse_perm _).trans ((hperm.map _).trans (.of_eq hmap))).mem_iff.mp hmem
  have hdefined : parent ∈ definitions.map Definition.id :=
    not_not.mp fun hnot => hknown ⟨d, hd, parent, hparent, hnot⟩
  exact mem_reverse.mp (hs.mem_back (mem_sortedChildren.mpr ⟨d, hd, rfl, hparent⟩)
    (hperm.mem_iff.mpr hdefined) hids)

/-! ## The main result -/

theorem unknownParent_eq_none : unknownParent definitions = none ↔ ¬UnknownParent definitions := by
  unfold unknownParent UnknownParent
  rw [findSome?_eq_none_iff]
  have hlookup : ∀ parent, ((stash definitions).lookup parent).isNone = true
      ↔ parent ∉ definitions.map Definition.id := by
    intro parent
    rw [← lookup_stash_isSome, Option.isNone_iff_eq_none, Option.isSome_iff_ne_none, not_not]
  simp only [Option.map_eq_none_iff, find?_eq_none, hlookup]
  push Not
  exact Iff.rfl

/-- **The outcomes of `NewDefinitions`**: an error for definitions that are
malformed, and otherwise an order or, if an identifier occurs twice, a
panic. -/
theorem newDefinitions_cases (hne : definitions ≠ []) :
    (∃ e, newDefinitions definitions = .error e) ∧ Malformed definitions
      ∨ newDefinitions definitions = .panic ∧ ¬Malformed definitions
        ∧ ¬(definitions.map Definition.id).Nodup
      ∨ ∃ ds, newDefinitions definitions = .ok ds ∧ ¬Malformed definitions
        ∧ (definitions.map Definition.id).Nodup ∧ ds.definitions.Perm definitions
        ∧ Ordered ds.definitions := by
  unfold newDefinitions reorderDefinitions
  rw [if_neg fun h => hne (length_eq_zero_iff.mp h)]
  cases hunknown : unknownParent definitions with
  | some unknown =>
    refine .inl ⟨⟨_, rfl⟩, .inl (not_not.mp fun h => ?_)⟩
    rw [unknownParent_eq_none.mpr h] at hunknown
    exact nomatch hunknown
  | none =>
    have hknown := unknownParent_eq_none.mp hunknown
    dsimp only
    rcases findDefinitionOrder_cases hknown with
      ⟨⟨e, he⟩, hmalformed⟩ | ⟨he, hrest⟩ | ⟨s, he, hs, hlength, hcount⟩
    · rw [he]
      exact .inl ⟨⟨_, rfl⟩, hmalformed⟩
    · rw [he]
      exact .inr (.inl ⟨rfl, hrest⟩)
    · obtain ⟨hnodup, hlength', hperm, hordered⟩ := ordered_of_between hs hknown hlength
      have hfill := fillBackwards_eq (stash definitions) s.order definitions [] hlength'
      rw [append_nil, append_nil, length_nil] at hfill
      rw [he, Outcome.ok_bind, hfill]
      refine .inr (.inr ⟨_, rfl, ?_, hnodup, hperm, hordered⟩)
      rintro (h | h | h)
      · exact hknown h
      · exact h hcount
      · refine not_cyclic hs (fun id hid => ?_) h
        have hsub := hs.nodup.subperm fun id hid => mem_vertices.mp (hs.subset id hid)
        exact (hsub.perm_of_length_le (by rw [length_map]; exact hlength)).mem_iff.mpr hid

end search

/-- **The order of migrations is total and topological** for a non-empty list
exactly when no identifier occurs twice in it or it has another defect, for
which an error is returned. -/
theorem newDefinitions_reorders_iff {definitions : List Definition} (hne : definitions ≠ []) :
    Reorders definitions
      ↔ (definitions.map Definition.id).Nodup ∨ Malformed definitions := by
  rcases newDefinitions_cases hne with
    ⟨⟨e, he⟩, hmalformed⟩ | ⟨he, hformed, hnodup⟩ | ⟨ds, he, hformed, hnodup, hperm, hordered⟩
  · exact iff_of_true ⟨fun _ => ⟨e, he⟩, fun _ h => absurd hmalformed h⟩ (.inr hmalformed)
  · refine iff_of_false (fun h => ?_) (not_or.mpr ⟨hnodup, hformed⟩)
    obtain ⟨e, he'⟩ := h.1 (.inl hnodup)
    exact nomatch he.symm.trans he'
  · refine iff_of_true ⟨fun h => ?_, fun _ _ => ⟨ds, he, hperm, hordered⟩⟩ (.inl hnodup)
    exact (h.elim (fun h => h hnodup) hformed).elim

/-- Three migrations given in another order. -/
theorem newDefinitions_reorders_chain :
    Reorders [{ id := 3, parents := [2] }, { id := 1 }, { id := 2, parents := [1] }] :=
  (newDefinitions_reorders_iff (cons_ne_nil _ _)).mpr (.inl (by decide))

/-- **An identifier that occurs twice makes `NewDefinitions` panic.** -/
theorem newDefinitions_duplicate :
    newDefinitions [{ id := 1 }, { id := 2, parents := [1] }, { id := 2, parents := [1] }]
        = .panic
      ∧ ¬Reorders [{ id := 1 }, { id := 2, parents := [1] }, { id := 2, parents := [1] }] := by
  have hpanic : newDefinitions
      [{ id := 1 }, { id := 2, parents := [1] }, { id := 2, parents := [1] }] = .panic := rfl
  refine ⟨hpanic, fun h => ?_⟩
  obtain ⟨e, he⟩ := h.1 (.inl (by decide))
  exact nomatch hpanic.symm.trans he

end Migration
