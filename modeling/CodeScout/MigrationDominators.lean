import CodeScout.MigrationGraph
import CodeScout.Util.Dominators

/-!
# The dominator of the leaves

`LeafDominator` finds the migration up to which a graph can be squashed into
one: every path from the root to a leaf passes through it, and it is the
nearest such migration. The dominators of all definitions are computed in
one pass over the list, as an intersection over the parents. The list of the
dominators of a definition starts at the definition itself and each entry is
dominated by the entries after it (`DominatorList`); so the first one of the
common dominators is dominated by all others (`leafDominator_nearest`).
-/

namespace Migration

open Dominators List

/-! ## Intersections -/

theorem mem_intersect {a : List ℤ} (bs : List (List ℤ)) {x : ℤ} :
    x ∈ intersect a bs ↔ x ∈ a ∧ ∀ b ∈ bs, x ∈ b := by
  unfold intersect
  induction bs generalizing a with
  | nil => exact (and_iff_left fun b hb => absurd hb not_mem_nil).symm
  | cons b bs ih =>
    rw [foldl_cons, ih, mem_filter, contains_iff_mem, forall_mem_cons, and_assoc]

theorem intersect_sublist (a : List ℤ) (bs : List (List ℤ)) : (intersect a bs).Sublist a := by
  unfold intersect
  induction bs generalizing a with
  | nil => exact .refl a
  | cons b bs ih => exact (ih _).trans filter_sublist

namespace Graph

variable (g : Graph)

/-! ## The dominators of a definition -/

/-- A definition without parents. -/
def IsRoot (id : ℤ) : Prop := ∃ d ∈ g.definitions, d.id = id ∧ d.parents = []

/-- **Every path from a root to the second definition passes through the
first.** -/
def Dominates (id id' : ℤ) : Prop := Dominators.Dominates g.IsRoot g.IsParent id id'

/-- **What is stored for a definition**: its dominators, nearest first. -/
structure DominatorList (id : ℤ) (dominators : List ℤ) : Prop where
  mem : ∀ x, x ∈ dominators ↔ g.Dominates x id
  pairwise : dominators.Pairwise fun x y => g.Dominates y x
  known : ∀ x ∈ dominators, x ∈ g.ids

variable {g}

variable {d : Definition}

theorem not_isRoot (hd : d ∈ g.definitions) (hparents : d.parents ≠ []) :
    ¬g.IsRoot d.id := by
  rintro ⟨d', hd', hid, hnil⟩
  exact hparents (eq_of_id_eq hd' hd hid ▸ hnil)

theorem dominates_iff_of_mem (hd : d ∈ g.definitions) {x : ℤ} :
    g.Dominates x d.id
      ↔ x = d.id ∨ d.parents ≠ [] ∧ ∀ parent ∈ d.parents, g.Dominates x parent := by
  by_cases hparents : d.parents = []
  · rw [or_iff_left fun h => h.1 hparents]
    refine dominates_root ⟨d, hd, rfl, hparents⟩ fun parent hparent => ?_
    rw [isParent_iff hd, hparents] at hparent
    exact absurd hparent not_mem_nil
  · rw [and_iff_right hparents]
    refine (dominates_iff (not_isRoot hd hparents)).trans (or_congr_right ?_)
    exact forall_congr' fun parent => imp_congr_left (isParent_iff hd)

theorem dominatorList_cons (hd : d ∈ g.definitions) {parent : ℤ}
    {parents : List ℤ} (hparents : d.parents = parent :: parents) (lists : ℤ → List ℤ)
    (h : ∀ parent ∈ d.parents, g.DominatorList parent (lists parent)) :
    g.DominatorList d.id ([d.id] ++ intersect (lists parent) (parents.map lists)) := by
  have hmem : ∀ x, x ∈ intersect (lists parent) (parents.map lists)
      ↔ ∀ parent ∈ d.parents, g.Dominates x parent := by
    intro x
    rw [mem_intersect, forall_mem_map, hparents, forall_mem_cons]
    rw [hparents, forall_mem_cons] at h
    refine and_congr (h.1.mem x) (forall₂_congr fun parent hparent => (h.2 parent hparent).mem x)
  have hdominates : ∀ x, x ∈ [d.id] ++ intersect (lists parent) (parents.map lists)
      ↔ g.Dominates x d.id := by
    intro x
    rw [mem_append, mem_singleton, hmem, dominates_iff_of_mem hd,
      and_iff_right (hparents ▸ cons_ne_nil _ _)]
  have hfirst := h parent (hparents ▸ mem_cons_self)
  refine ⟨hdominates, ?_, ?_⟩
  · -- every entry dominates the definition, and the others come from one parent
    rw [singleton_append, pairwise_cons]
    refine ⟨fun y hy => (hdominates y).mp (mem_append_right _ hy), ?_⟩
    exact hfirst.pairwise.sublist (intersect_sublist _ _)
  · rw [singleton_append, forall_mem_cons]
    exact ⟨mem_ids hd, fun x hx => hfirst.known x ((intersect_sublist _ _).subset hx)⟩

theorem addDominators_eq (dominators : GoMap ℤ (List ℤ)) (d : Definition) :
    ∃ list, addDominators dominators d = dominators.insert d.id list
      ∧ (d.parents = [] → list = [d.id])
      ∧ ∀ parent parents, d.parents = parent :: parents →
        list = [d.id] ++ intersect ((dominators.lookup parent).getD [])
          (parents.map fun parent => (dominators.lookup parent).getD []) := by
  unfold addDominators
  cases hparents : d.parents with
  | nil => exact ⟨_, rfl, fun _ => rfl, fun _ _ h => nomatch h⟩
  | cons parent parents =>
    refine ⟨_, rfl, fun h => absurd h (cons_ne_nil _ _), fun _ _ h => ?_⟩
    obtain ⟨rfl, rfl⟩ := cons.inj h
    rfl

/-- **The pass over the definitions.** The induction is on the definitions
before the current one, which have their dominators. -/
theorem dominators_prefix (front : List Definition) :
    ∀ back, g.definitions = front ++ back → ∀ d ∈ front,
      g.DominatorList d.id (((front.foldl addDominators ∅).lookup d.id).getD []) := by
  induction front using reverseRecOn with
  | nil => exact fun _ _ d hd => absurd hd not_mem_nil
  | append_singleton front last ih =>
    intro back hsplit
    rw [append_assoc, singleton_append] at hsplit
    have hprevious := ih (last :: back) hsplit
    have hlast : last ∈ g.definitions := hsplit ▸ mem_append_right _ mem_cons_self
    obtain ⟨list, heq, hnil, hcons⟩ := addDominators_eq (front.foldl addDominators ∅) last
    rw [foldl_append, foldl_cons, foldl_nil, heq]
    have hlist : g.DominatorList last.id list := by
      cases hparents : last.parents with
      | nil =>
        rw [hnil hparents]
        refine ⟨fun x => ?_, pairwise_singleton _ _, forall_mem_singleton.mpr (mem_ids hlast)⟩
        rw [mem_singleton, dominates_iff_of_mem hlast, or_iff_left fun h => h.1 hparents]
      | cons parent parents =>
        rw [hcons parent parents hparents]
        refine dominatorList_cons hlast hparents
          (fun parent => ((front.foldl addDominators ∅).lookup parent).getD [])
          fun parent hparent => ?_
        obtain ⟨d, hd, rfl⟩ := mem_map.mp (g.ordered front last back hsplit parent hparent)
        exact hprevious d hd
    have hnot : ∀ d ∈ front, d.id ≠ last.id := by
      intro d hd hid
      have hnodup := g.nodup
      rw [hsplit, map_append, nodup_append] at hnodup
      exact hnodup.2.2 _ (mem_map_of_mem hd) _ mem_cons_self hid
    rw [forall_mem_append, forall_mem_singleton, AList.lookup_insert]
    refine ⟨fun d hd => ?_, hlist⟩
    rw [AList.lookup_insert_ne (hnot d hd)]
    exact hprevious d hd

/-- **`dominators` computes the dominators.** -/
theorem dominators_spec {id : ℤ} (hid : id ∈ g.ids) :
    g.DominatorList id ((g.toDefinitions.dominators.lookup id).getD []) := by
  obtain ⟨d, hd, rfl⟩ := mem_map.mp hid
  exact dominators_prefix g.definitions [] (append_nil _).symm d hd

/-! ## The leaves -/

/-- A definition without children, or one of the extra ones. -/
def Terminal (g : Graph) (extraIDs : List ℤ) (id : ℤ) : Prop :=
  (id ∈ g.ids ∧ ∀ child, ¬g.IsParent id child) ∨ id ∈ extraIDs

theorem mem_leaves :
    d ∈ g.toDefinitions.leaves ↔ d ∈ g.definitions ∧ ∀ child, ¬g.IsParent d.id child := by
  unfold Definitions.leaves
  rw [mem_filter, decide_eq_true_eq, length_eq_zero_iff, eq_nil_iff_forall_not_mem]
  exact and_congr_right' (forall_congr' fun child => not_congr mem_childrenOf)

theorem mem_terminals {extraIDs : List ℤ} {id : ℤ} :
    id ∈ g.toDefinitions.leaves.map Definition.id ++ extraIDs ↔ g.Terminal extraIDs id := by
  rw [mem_append, Terminal, mem_map]
  refine or_congr_left ⟨?_, ?_⟩
  · rintro ⟨d, hd, rfl⟩
    exact ⟨mem_ids (mem_leaves.mp hd).1, (mem_leaves.mp hd).2⟩
  · rintro ⟨hid, hleaf⟩
    obtain ⟨d, hd, rfl⟩ := mem_map.mp hid
    exact ⟨d, mem_leaves.mpr ⟨hd, hleaf⟩, rfl⟩

theorem leaves_ne_nil (h : g.definitions ≠ []) : g.toDefinitions.leaves ≠ [] := by
  have hsplit := (dropLast_append_getLast h).symm
  refine ne_nil_of_mem (a := g.definitions.getLast h) (mem_leaves.mpr
    ⟨getLast_mem h, fun child hchild => ?_⟩)
  have hlt := IsParent.position_lt hchild
  rw [position_eq hsplit] at hlt
  have hle : g.position child < g.ids.length :=
    idxOf_lt_length_of_mem (IsParent.child_mem hchild)
  rw [ids, length_map] at hle
  rw [length_dropLast] at hlt
  omega

theorem SingleRooted.exists_root (h : g.SingleRooted) :
    ∃ root ∈ g.definitions, ∀ id, g.IsRoot id → id = root.id := by
  rcases root_cases g.definitions with ⟨-, hcount⟩ | ⟨d, hd, -, -, huniq⟩
  · exact absurd h hcount
  · refine ⟨d, hd, ?_⟩
    rintro - ⟨d', hd', rfl, hparents⟩
    exact huniq d' hd' (by rw [hparents]; rfl)

end Graph

/-- **`LeafDominator` returns the nearest common dominator** of the leaves and
the extra definitions: every path to one of them passes through it, and it is
dominated by every other definition with that property. -/
theorem leafDominator_nearest {g : Graph} (hroot : g.SingleRooted) {extraIDs : List ℤ}
    (hextra : ∀ id ∈ extraIDs, id ∈ g.ids) :
    ∃ d ∈ g.definitions, g.toDefinitions.leafDominator extraIDs = some d
      ∧ (∀ id, g.Terminal extraIDs id → g.Dominates d.id id)
      ∧ ∀ d' ∈ g.definitions, (∀ id, g.Terminal extraIDs id → g.Dominates d'.id id) →
        g.Dominates d'.id d.id := by
  obtain ⟨root, hmem, huniq⟩ := hroot.exists_root
  -- the lists of the terminal definitions
  have hspec : ∀ id ∈ g.toDefinitions.leaves.map Definition.id ++ extraIDs,
      g.DominatorList id ((g.toDefinitions.dominators.lookup id).getD []) := by
    intro id hid
    rcases Graph.mem_terminals.mp hid with ⟨hid, -⟩ | hid
    · exact Graph.dominators_spec hid
    · exact Graph.dominators_spec (hextra id hid)
  have hne : g.toDefinitions.leaves.map Definition.id ++ extraIDs ≠ [] :=
    append_ne_nil_of_left_ne_nil
      (map_eq_nil_iff.not.mpr (Graph.leaves_ne_nil (ne_nil_of_mem hmem))) _
  obtain ⟨first, rest, hcons⟩ := exists_cons_of_ne_nil hne
  rw [hcons] at hspec
  have hcommon : ∀ x, x ∈ intersect ((g.toDefinitions.dominators.lookup first).getD [])
      (rest.map fun id => (g.toDefinitions.dominators.lookup id).getD [])
      ↔ ∀ id, g.Terminal extraIDs id → g.Dominates x id := by
    intro x
    rw [mem_intersect, forall_mem_map]
    have hterminal : ∀ id, g.Terminal extraIDs id ↔ id ∈ first :: rest := fun id => by
      rw [← hcons, Graph.mem_terminals]
    simp only [hterminal]
    rw [forall_mem_cons]
    rw [forall_mem_cons] at hspec
    exact and_congr (hspec.1.mem x) (forall₂_congr fun id hid => (hspec.2 id hid).mem x)
  have hfirst := hspec first mem_cons_self
  have hsublist := intersect_sublist ((g.toDefinitions.dominators.lookup first).getD [])
    (rest.map fun id => (g.toDefinitions.dominators.lookup id).getD [])
  have hnonempty : intersect ((g.toDefinitions.dominators.lookup first).getD [])
      (rest.map fun id => (g.toDefinitions.dominators.lookup id).getD []) ≠ [] :=
    ne_nil_of_mem ((hcommon root.id).mpr fun id _ => dominates_of_unique huniq id)
  obtain ⟨nearest, others, hsame⟩ := exists_cons_of_ne_nil hnonempty
  rw [hsame] at hcommon hsublist
  obtain ⟨d, hd, rfl, hget⟩ := Graph.exists_getByID
    (hfirst.known nearest (hsublist.subset mem_cons_self))
  refine ⟨d, hd, ?_, (hcommon d.id).mp mem_cons_self, fun d' hd' hall => ?_⟩
  · unfold Definitions.leafDominator
    rw [hcons, map_cons]
    dsimp only
    rw [hsame]
    exact hget
  · rcases mem_cons.mp ((hcommon d'.id).mpr hall) with heq | hlater
    · rw [heq]
      exact dominates_refl _
    · exact rel_of_pairwise_cons (hfirst.pairwise.sublist hsublist) hlater

/-- Of two branches, the nearest common dominator is where they start. -/
theorem leafDominator_diamond :
    ∃ d ∈ diamond.definitions, diamond.toDefinitions.leafDominator [2] = some d ∧ d.id = 1
      ∧ ∀ id, diamond.Terminal [2] id → diamond.Dominates d.id id := by
  have hroot : diamond.SingleRooted := by
    unfold Graph.SingleRooted
    decide
  obtain ⟨d, hd, heq, hdominates, -⟩ := leafDominator_nearest hroot
    (forall_mem_singleton.mpr (by decide : (2 : ℤ) ∈ diamond.ids))
  refine ⟨d, hd, heq, ?_, hdominates⟩
  have hvalue : diamond.toDefinitions.leafDominator [2] = some { id := 1 } := by decide
  rw [Option.some.inj (heq.symm.trans hvalue)]

end Migration
