import CodeScout.MigrationOrder

/-!
# Migration graphs

A `Graph` is what `NewDefinitions` returns (`exists_graph`): definitions
with distinct identifiers, every one of them after its parents. The position
of a definition in the list grows along the parent relation, so the relation
has no cycle.

The plans of the package walk over the graph from several definitions at
once. `traverse_spec` says once what such a walk finds: the definitions that
can be reached, in the order of the list.
-/

namespace Migration

open Relation List

/-- **A migration graph in topological order.** -/
structure Graph where
  definitions : List Definition
  nodup : (definitions.map Definition.id).Nodup
  ordered : Ordered definitions

/-- What the package stores of a graph. -/
def Graph.toDefinitions (g : Graph) : Definitions :=
  newDefinitionsUnchecked g.definitions

/-- There is exactly one definition without parents. -/
def Graph.SingleRooted (g : Graph) : Prop :=
  g.definitions.countP (fun d => d.parents.length = 0) = 1

/-- **`NewDefinitions` returns graphs with one root.** -/
theorem exists_graph {definitions : List Definition} (hne : definitions ≠ []) {ds : Definitions}
    (h : newDefinitions definitions = .ok ds) :
    ∃ g : Graph, ds = g.toDefinitions ∧ g.SingleRooted ∧ g.definitions.Perm definitions := by
  rcases newDefinitions_cases hne with
    ⟨⟨e, he⟩, -⟩ | ⟨he, -⟩ | ⟨ds', he, hformed, hnodup, hperm, hordered⟩
  · exact nomatch he.symm.trans h
  · exact nomatch he.symm.trans h
  obtain rfl := Outcome.ok.inj (he.symm.trans h)
  refine ⟨⟨ds'.definitions, (hperm.map _).nodup_iff.mpr hnodup, hordered⟩, ?_, ?_, hperm⟩
  · -- the map is built from the list
    obtain ⟨reordered, -, he⟩ := Outcome.bind_eq_ok.mp he
    obtain rfl := Outcome.ok.inj he
    rfl
  · show ds'.definitions.countP _ = 1
    rw [hperm.countP_eq]
    exact not_not.mp fun hcount => hformed (.inr (.inl hcount))

/-- A root, two migrations on top of it, one that joins them, and two that
branch off again. -/
def diamond : Graph where
  definitions := [{ id := 1 }, { id := 2, parents := [1] }, { id := 3, parents := [1] },
    { id := 4, parents := [2, 3] }, { id := 5, parents := [4] }, { id := 6, parents := [4] }]
  nodup := by decide
  ordered := by decide

namespace Graph

variable (g : Graph)

/-- The identifiers of the definitions. -/
def ids : List ℤ := g.definitions.map Definition.id

/-- The parent relation. -/
abbrev IsParent : ℤ → ℤ → Prop := Parent g.definitions

variable {g}

variable {d : Definition}

theorem mem_ids (hd : d ∈ g.definitions) : d.id ∈ g.ids :=
  mem_map_of_mem hd

theorem eq_of_id_eq {d d' : Definition} (hd : d ∈ g.definitions) (hd' : d' ∈ g.definitions)
    (h : d.id = d'.id) : d = d' :=
  inj_on_of_nodup_map g.nodup hd hd' h

variable {child parent : ℤ}

theorem isParent_iff (hd : d ∈ g.definitions) :
    g.IsParent parent d.id ↔ parent ∈ d.parents := by
  constructor
  · rintro ⟨d', hd', hid, hparent⟩
    rw [← eq_of_id_eq hd' hd hid]
    exact hparent
  · exact fun hparent => ⟨d, hd, rfl, hparent⟩

theorem getByID_eq (hd : d ∈ g.definitions) :
    g.toDefinitions.getByID d.id = some d :=
  (lookup_stash g.nodup).mpr ⟨hd, rfl⟩

theorem exists_getByID {id : ℤ} (h : id ∈ g.ids) :
    ∃ d ∈ g.definitions, d.id = id ∧ g.toDefinitions.getByID id = some d := by
  obtain ⟨d, hd, rfl⟩ := mem_map.mp h
  exact ⟨d, hd, rfl, getByID_eq hd⟩

theorem IsParent.child_mem (h : g.IsParent parent child) : child ∈ g.ids := by
  obtain ⟨d, hd, rfl, -⟩ := h
  exact mem_ids hd

theorem IsParent.mem_front (h : g.IsParent parent child)
    {front back : List Definition} (hsplit : g.definitions = front ++ d :: back)
    (hd : d.id = child) : parent ∈ front.map Definition.id := by
  have hmem : d ∈ g.definitions := hsplit ▸ mem_append_right _ mem_cons_self
  subst hd
  exact g.ordered front d back hsplit parent ((isParent_iff hmem).mp h)

theorem IsParent.parent_mem (h : g.IsParent parent child) :
    parent ∈ g.ids := by
  obtain ⟨d, hd, hid⟩ := mem_map.mp (IsParent.child_mem h)
  obtain ⟨front, back, hsplit⟩ := append_of_mem hd
  unfold ids
  rw [hsplit, map_append]
  exact mem_append_left _ (IsParent.mem_front h hsplit hid)

/-- The place of a definition in the order. -/
def position (g : Graph) (id : ℤ) : ℕ := g.ids.idxOf id

theorem position_eq {front back : List Definition}
    (hsplit : g.definitions = front ++ d :: back) : g.position d.id = front.length := by
  have hnodup := g.nodup
  rw [hsplit, map_append, map_cons, nodup_append] at hnodup
  unfold position ids
  rw [hsplit, map_append, map_cons, idxOf_append_of_notMem, idxOf_cons_self,
    Nat.add_zero, length_map]
  exact fun hmem => hnodup.2.2 _ hmem _ mem_cons_self rfl

/-- **Positions grow along the parent relation.** -/
theorem IsParent.position_lt (h : g.IsParent parent child) :
    g.position parent < g.position child := by
  obtain ⟨d, hd, rfl⟩ := mem_map.mp (IsParent.child_mem h)
  obtain ⟨front, back, hsplit⟩ := append_of_mem hd
  have hmem := IsParent.mem_front h hsplit rfl
  rw [position_eq hsplit, ← length_map Definition.id]
  unfold position ids
  rw [hsplit, map_append, idxOf_append_of_mem hmem]
  exact idxOf_lt_length_of_mem hmem

theorem position_lt_of_transGen {id id' : ℤ} (h : TransGen g.IsParent id id') :
    g.position id < g.position id' := by
  induction h with
  | single hparent => exact IsParent.position_lt hparent
  | tail _ hparent ih => exact ih.trans (IsParent.position_lt hparent)

/-- **There is no cycle.** -/
theorem not_transGen_self (id : ℤ) : ¬TransGen g.IsParent id id := fun h =>
  Nat.lt_irrefl _ (position_lt_of_transGen h)

/-! ## Traversals -/

/-- Where a traversal goes on from an identifier. -/
def nextOf (g : Graph) (next : Definition → List ℤ) (id : ℤ) : List ℤ :=
  ((g.toDefinitions.getByID id).map next).getD []

theorem nextOf_eq (next : Definition → List ℤ) (hd : d ∈ g.definitions) :
    g.nextOf next d.id = next d := by
  unfold nextOf
  rw [getByID_eq hd]
  rfl

section traverse

variable {next : Definition → List ℤ}

/-- **The loop over a frontier** visits it, and collects where to go on from
what is new. -/
theorem traverseFrontier_spec (next : Definition → List ℤ) (frontier : List TraverseNode) :
    ∀ (visited : Finset ℤ) (newFrontier : List TraverseNode),
      (∀ n ∈ frontier, n.id ∈ g.ids) →
      ∃ visited' added,
        traverseFrontier g.toDefinitions next frontier visited newFrontier
            = .ok (visited', newFrontier ++ added)
          ∧ (∀ id, id ∈ visited' ↔ id ∈ visited ∨ id ∈ frontier.map TraverseNode.id)
          ∧ ∀ id, id ∈ added.map TraverseNode.id
            ↔ ∃ v ∈ visited', v ∉ visited ∧ id ∈ g.nextOf next v := by
  induction frontier with
  | nil =>
    intro visited newFrontier _
    refine ⟨visited, [], by rw [append_nil]; rfl, fun id => ?_, fun id => ?_⟩
    · exact (or_iff_left not_mem_nil).symm
    · exact iff_of_false not_mem_nil fun ⟨v, hv, hnot, _⟩ => hnot hv
  | cons n frontier ih =>
    intro visited newFrontier hknown
    rw [forall_mem_cons] at hknown
    rw [traverseFrontier]
    by_cases hn : n.id ∈ visited
    · rw [if_pos hn]
      obtain ⟨visited', added, heq, hvisited, hadded⟩ := ih visited newFrontier hknown.2
      refine ⟨visited', added, heq, fun id => ?_, hadded⟩
      rw [hvisited, map_cons, mem_cons]
      constructor
      · exact fun h => h.imp_right .inr
      · rintro (h | rfl | h)
        exacts [.inl h, .inl hn, .inr h]
    · rw [if_neg hn]
      obtain ⟨d, hd, hid, hget⟩ := exists_getByID hknown.1
      rw [hget]
      obtain ⟨visited', added, heq, hvisited, hadded⟩ := ih (insert n.id visited)
        (newFrontier ++ (next d).map fun id => ⟨id, some n.id⟩) hknown.2
      refine ⟨visited', (next d).map (fun id => ⟨id, some n.id⟩) ++ added,
        by rw [← append_assoc]; exact heq, fun id => ?_, fun id => ?_⟩
      · rw [hvisited, Finset.mem_insert, map_cons, mem_cons, or_assoc, or_left_comm]
      · rw [List.map_append, List.mem_append, hadded, List.map_map]
        show id ∈ (next d).map (fun id => id) ∨ _ ↔ _
        rw [map_id', ← nextOf_eq next hd, hid]
        have hself : n.id ∈ visited' := (hvisited n.id).mpr (.inl (Finset.mem_insert_self _ _))
        constructor
        · rintro (h | ⟨v, hv, hnot, h⟩)
          · exact ⟨n.id, hself, hn, h⟩
          · exact ⟨v, hv, fun hmem => hnot (Finset.mem_insert_of_mem hmem), h⟩
        · rintro ⟨v, hv, hnot, h⟩
          by_cases hvn : v = n.id
          · exact .inl (hvn ▸ h)
          · exact .inr ⟨v, hv, fun hmem => (Finset.mem_insert.mp hmem).elim hvn hnot, h⟩

variable (g next) in
/-- What the loop reaches: what is visited, and all that can be reached from the
frontier. -/
structure ReachesAll (frontier : List TraverseNode) (visited reached : Finset ℤ) : Prop where
  subset : visited ⊆ reached
  mem : ∀ n ∈ frontier, n.id ∈ reached
  closed : ∀ v ∈ reached, ∀ id ∈ g.nextOf next v, id ∈ reached
  origin : ∀ id ∈ reached, id ∈ visited ∨ ∃ n ∈ frontier,
    ReflTransGen (fun v id => id ∈ g.nextOf next v) n.id id

/-- **The loop over frontiers.** What is visited stays closed up to the
frontier, and a frontier that adds nothing is the last but one. -/
theorem traverseFrontiers_spec
    (hnext : ∀ id ∈ g.ids, ∀ id' ∈ g.nextOf next id, id' ∈ g.ids) (fuel : ℕ) :
    ∀ (frontier : List TraverseNode) (visited : Finset ℤ),
      (∀ n ∈ frontier, n.id ∈ g.ids) → (∀ id ∈ visited, id ∈ g.ids) →
      (∀ v ∈ visited, ∀ id ∈ g.nextOf next v, id ∈ visited
        ∨ id ∈ frontier.map TraverseNode.id) →
      (frontier ≠ [] → g.ids.length + 2 ≤ fuel + visited.card) → 1 ≤ fuel →
      ∃ reached, traverseFrontiers g.toDefinitions next fuel frontier visited = .ok reached
        ∧ g.ReachesAll next frontier visited reached := by
  induction fuel with
  | zero => exact fun _ _ _ _ _ _ hfuel => absurd hfuel (by decide)
  | succ fuel ih =>
    intro frontier visited hknown hsub hclosed hfuel _
    rw [traverseFrontiers]
    by_cases hempty : frontier = []
    · subst hempty
      refine ⟨visited, rfl, subset_rfl, fun n hn => absurd hn not_mem_nil, ?_, fun _ => .inl⟩
      exact fun v hv id hid => (hclosed v hv id hid).resolve_right not_mem_nil
    rw [if_pos (length_pos_iff.mpr hempty)]
    obtain ⟨visited', added, heq, hvisited, hadded⟩ :=
      traverseFrontier_spec next frontier visited [] hknown
    rw [heq, Outcome.ok_bind, nil_append]
    have hsubset : visited ⊆ visited' := fun id hid => (hvisited id).mpr (.inl hid)
    have hsub' : ∀ id ∈ visited', id ∈ g.ids := by
      intro id hid
      rcases (hvisited id).mp hid with h | h
      · exact hsub id h
      · obtain ⟨n, hn, rfl⟩ := mem_map.mp h
        exact hknown n hn
    have hclosed' : ∀ v ∈ visited', ∀ id ∈ g.nextOf next v, id ∈ visited'
        ∨ id ∈ added.map TraverseNode.id := by
      intro v hv id hid
      by_cases hold : v ∈ visited
      · exact .inl ((hvisited id).mpr (hclosed v hold id hid))
      · exact .inr ((hadded id).mpr ⟨v, hv, hold, hid⟩)
    have hknown' : ∀ n ∈ added, n.id ∈ g.ids := by
      intro n hn
      obtain ⟨v, hv, -, hid⟩ := (hadded n.id).mp (mem_map_of_mem hn)
      exact hnext v (hsub' v hv) n.id hid
    have hcard : visited.card ≤ g.ids.length :=
      (Finset.card_le_card fun id hid => mem_toFinset.mpr (hsub id hid)).trans
        (toFinset_card_le g.ids)
    have hfuel := hfuel hempty
    -- the rest of the loop visits what can be reached from what was added
    obtain ⟨reached, hreached, hrest⟩ := ih added visited' hknown' hsub' hclosed' (fun hne => by
      obtain ⟨n, hn⟩ := exists_mem_of_ne_nil added hne
      obtain ⟨v, hv, hnot, -⟩ := (hadded n.id).mp (mem_map_of_mem hn)
      have hlt := Finset.card_lt_card (Finset.ssubset_iff_of_subset hsubset |>.mpr ⟨v, hv, hnot⟩)
      omega) (by omega)
    have hfrontier : ∀ id ∈ visited', id ∈ visited ∨ ∃ n ∈ frontier, n.id = id := fun id hid =>
      ((hvisited id).mp hid).imp_right mem_map.mp
    refine ⟨reached, hreached, hsubset.trans hrest.subset, fun n hn => ?_, hrest.closed,
      fun id hid => ?_⟩
    · exact hrest.subset ((hvisited n.id).mpr (.inr (mem_map_of_mem hn)))
    · rcases hrest.origin id hid with h | ⟨n, hn, hpath⟩
      · refine (hfrontier id h).imp_right ?_
        rintro ⟨n, hn, rfl⟩
        exact ⟨n, hn, .refl⟩
      · obtain ⟨v, hv, hnot, hedge⟩ := (hadded n.id).mp (mem_map_of_mem hn)
        obtain ⟨n', hn', rfl⟩ := (hfrontier v hv).resolve_left hnot
        exact .inr ⟨n', hn', hpath.head hedge⟩

/-- **A traversal finds what can be reached** from the targets. -/
theorem traverse_spec
    (hnext : ∀ id ∈ g.ids, ∀ id' ∈ g.nextOf next id, id' ∈ g.ids) {targetIDs : List ℤ}
    (htargets : ∀ id ∈ targetIDs, id ∈ g.ids) :
    ∃ reached : Finset ℤ,
      g.toDefinitions.traverse next targetIDs
          = .ok (g.definitions.filter fun d => d.id ∈ reached)
        ∧ ∀ id, id ∈ reached ↔ ∃ target ∈ targetIDs,
          ReflTransGen (fun v id => id ∈ g.nextOf next v) target id := by
  have hlength : g.ids.length = g.definitions.length := length_map _
  obtain ⟨reached, heq, -, hfrontier, hclosed, hfrom⟩ := traverseFrontiers_spec hnext
    (g.definitions.length + 2) (targetIDs.map fun id => ⟨id, none⟩) ∅
    (forall_mem_map.mpr htargets) (fun id hid => absurd hid (Finset.notMem_empty id))
    (fun v hv => absurd hv (Finset.notMem_empty v)) (fun _ => by rw [hlength]; omega) (by omega)
  refine ⟨reached, ?_, fun id => ⟨fun hid => ?_, ?_⟩⟩
  · unfold Definitions.traverse
    rw [show g.toDefinitions.definitions = g.definitions from rfl, heq]
    rfl
  · obtain ⟨n, hn, hpath⟩ := (hfrom id hid).resolve_left (Finset.notMem_empty id)
    obtain ⟨target, htarget, rfl⟩ := mem_map.mp hn
    exact ⟨target, htarget, hpath⟩
  · rintro ⟨target, htarget, hpath⟩
    induction hpath with
    | refl => exact hfrontier ⟨target, none⟩ (mem_map_of_mem htarget)
    | tail _ hedge ih => exact hclosed _ ih _ hedge

end traverse

end Graph

end Migration
