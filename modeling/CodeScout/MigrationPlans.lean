import CodeScout.MigrationGraph

/-!
# Plans to migrate up and down

`Up` and `Down` turn a set of targets into the migrations to run, one after
the other. A plan to go up has the ancestors of the targets that are not
applied, and can be run in order (`up_plan`). A plan to go down has the
applied descendants of the targets without the targets themselves; so if one
target is above another one, it stays while what is below it goes, and the
schema is left with a migration whose parents are gone. Plans to go down are
safe exactly when that does not happen (`down_safe_iff`).

A revert is a plan to go down to the parents of the last migration. The
parents are targets, and one of them may be above another one; the plan
undoes the last migration alone exactly when nothing else lies between a
parent and it (`revert_undoes_iff`).
-/

namespace Migration

open Relation List

namespace Graph

variable {g : Graph}

/-! ## Orders of definitions -/

theorem pairwise_position :
    g.definitions.Pairwise fun d d' => g.position d.id < g.position d'.id := by
  rw [pairwise_iff_getElem]
  intro i j hi hj hlt
  have hposition : ∀ (k : ℕ) (hk : k < g.definitions.length),
      g.position (g.definitions[k]).id = k := by
    intro k hk
    have hsplit : g.definitions = g.definitions.take k ++ g.definitions[k]
        :: g.definitions.drop (k + 1) := by
      rw [getElem_cons_drop, take_append_drop]
    rw [position_eq hsplit, length_take, Nat.min_eq_left (Nat.le_of_lt hk)]
  rw [hposition i hi, hposition j hj]
  exact hlt

theorem nextOf_eq_nil {next : Definition → List ℤ} {id : ℤ} (hid : id ∉ g.ids) :
    g.nextOf next id = [] := by
  have hnone : g.toDefinitions.getByID id = none := by
    rw [← Option.not_isSome_iff_eq_none]
    exact fun h => hid (lookup_stash_isSome.mp h)
  rw [nextOf, hnone]
  rfl

theorem isParent_of_nextOf_parents {id id' : ℤ} :
    id' ∈ g.nextOf Definition.parents id ↔ g.IsParent id' id := by
  by_cases hid : id ∈ g.ids
  · obtain ⟨d, hd, rfl⟩ := mem_map.mp hid
    rw [nextOf_eq _ hd, isParent_iff hd]
  · rw [nextOf_eq_nil hid]
    exact iff_of_false not_mem_nil fun h => hid (IsParent.child_mem h)

theorem isParent_of_nextOf_children {id id' : ℤ} :
    id' ∈ g.nextOf (fun d => childrenOf g.definitions d.id) id ↔ g.IsParent id id' := by
  by_cases hid : id ∈ g.ids
  · obtain ⟨d, hd, rfl⟩ := mem_map.mp hid
    rw [nextOf_eq _ hd, mem_childrenOf]
  · rw [nextOf_eq_nil hid]
    exact iff_of_false not_mem_nil fun h => hid (IsParent.parent_mem h)

end Graph

/-- Where a list is sorted, what comes before an element is in front of it. -/
theorem mem_front_of_pairwise {α : Type} {lt : α → α → Prop} (hasymm : ∀ a b, lt a b → ¬lt b a)
    {l front back : List α} {a b : α} (h : l.Pairwise lt) (hsplit : l = front ++ a :: back)
    (hb : b ∈ l) (hlt : lt b a) : b ∈ front := by
  subst hsplit
  rw [mem_append, mem_cons] at hb
  rcases hb with hfront | rfl | hback
  · exact hfront
  · exact absurd hlt (hasymm _ _ hlt)
  · have hpairwise := (pairwise_append.mp h).2.1
    exact absurd (rel_of_pairwise_cons hpairwise hback) (hasymm _ _ hlt)

/-! ## Going up -/

/-- The definitions of a plan to go up: those that are not applied and of
which a target is a descendant, in the order of the graph. -/
theorem up_eq {g : Graph} (appliedIDs : List ℤ) {targetIDs : List ℤ}
    (htargets : ∀ id ∈ targetIDs, id ∈ g.ids) :
    ∃ plan, g.toDefinitions.up appliedIDs targetIDs = .ok plan
      ∧ plan.Sublist g.definitions
      ∧ ∀ d, d ∈ plan ↔ d ∈ g.definitions ∧ d.id ∉ appliedIDs
        ∧ ∃ target ∈ targetIDs, ReflTransGen g.IsParent d.id target := by
  have hnext : ∀ id ∈ g.ids, ∀ id' ∈ g.nextOf Definition.parents id, id' ∈ g.ids :=
    fun id _ id' h => Graph.IsParent.parent_mem (Graph.isParent_of_nextOf_parents.mp h)
  obtain ⟨reached, heq, hreached⟩ := Graph.traverse_spec hnext htargets
  have hancestor : ∀ id, id ∈ reached
      ↔ ∃ target ∈ targetIDs, ReflTransGen g.IsParent id target := by
    intro id
    rw [hreached]
    simp only [Graph.isParent_of_nextOf_parents]
    refine exists_congr fun target => and_congr_right' ?_
    exact reflTransGen_swap
  refine ⟨(g.definitions.filter fun d => d.id ∈ reached).filter fun d =>
    !appliedIDs.contains d.id, ?_, filter_sublist.trans filter_sublist, fun d => ?_⟩
  · unfold Definitions.up
    rw [heq]
    rfl
  · rw [mem_filter, mem_filter, decide_eq_true_eq, hancestor, Bool.not_eq_true',
      ← Bool.not_eq_true, contains_iff_mem, and_assoc, and_comm (a := ∃ _, _)]

/-- The parents of what is in a plan to go up are applied or come before it. -/
theorem parent_applied_or_before {g : Graph} {appliedIDs targetIDs : List ℤ}
    {plan : List Definition} (hsublist : plan.Sublist g.definitions)
    (hmem : ∀ d, d ∈ plan ↔ d ∈ g.definitions ∧ d.id ∉ appliedIDs
      ∧ ∃ target ∈ targetIDs, ReflTransGen g.IsParent d.id target)
    {front back : List Definition} {d : Definition} (hsplit : plan = front ++ d :: back)
    {parent : ℤ} (hparent : parent ∈ d.parents) :
    parent ∈ appliedIDs ∨ parent ∈ front.map Definition.id := by
  have hd := (hmem d).mp (hsplit ▸ mem_append_right _ mem_cons_self)
  have hisParent : g.IsParent parent d.id := (Graph.isParent_iff hd.1).mpr hparent
  by_cases happlied : parent ∈ appliedIDs
  · exact .inl happlied
  · -- the parent is in the plan, and before the definition in the order of the graph
    obtain ⟨p, hp, rfl⟩ := mem_map.mp (Graph.IsParent.parent_mem hisParent)
    obtain ⟨target, htarget, hpath⟩ := hd.2.2
    have hplan := (hmem p).mpr ⟨hp, happlied, target, htarget, hpath.head hisParent⟩
    refine .inr (mem_map_of_mem (mem_front_of_pairwise (fun _ _ => Nat.lt_asymm)
      (Graph.pairwise_position.sublist hsublist) hsplit hplan ?_))
    exact Graph.IsParent.position_lt hisParent

/-- **Plans to go up are complete, minimal and can be run in order.** They
have exactly the definitions that are not applied and of which a target is a
descendant, each of them once, and the parents of each are applied or come
before it. -/
theorem up_plan {g : Graph} (appliedIDs : List ℤ) {targetIDs : List ℤ}
    (htargets : ∀ id ∈ targetIDs, id ∈ g.ids) :
    ∃ plan, g.toDefinitions.up appliedIDs targetIDs = .ok plan
      ∧ (plan.map Definition.id).Nodup
      ∧ (∀ d, d ∈ plan ↔ d ∈ g.definitions ∧ d.id ∉ appliedIDs
        ∧ ∃ target ∈ targetIDs, ReflTransGen g.IsParent d.id target)
      ∧ ∀ front d back, plan = front ++ d :: back → ∀ parent ∈ d.parents,
        parent ∈ appliedIDs ∨ parent ∈ front.map Definition.id := by
  obtain ⟨plan, heq, hsublist, hmem⟩ := up_eq appliedIDs htargets
  exact ⟨plan, heq, g.nodup.sublist (hsublist.map _), hmem, fun _ _ _ hsplit _ hparent =>
    parent_applied_or_before hsublist hmem hsplit hparent⟩

/-- To one branch of a diamond with the root applied. -/
theorem up_plan_diamond :
    ∃ plan, diamond.toDefinitions.up [1] [4] = .ok plan ∧ plan.map Definition.id = [2, 3, 4]
      ∧ (plan.map Definition.id).Nodup := by
  obtain ⟨plan, heq, hnodup, -⟩ := up_plan [1]
    (forall_mem_singleton.mpr (by decide : (4 : ℤ) ∈ diamond.ids))
  refine ⟨plan, heq, ?_, hnodup⟩
  have hvalue : diamond.toDefinitions.up [1] [4] = .ok [{ id := 2, parents := [1] },
    { id := 3, parents := [1] }, { id := 4, parents := [2, 3] }] := by decide
  rw [Outcome.ok.inj (heq.symm.trans hvalue)]
  rfl

/-! ## Going down -/

/-- The parents of what is applied are applied. -/
def Graph.AncestorClosed (g : Graph) (appliedIDs : List ℤ) : Prop :=
  ∀ id ∈ appliedIDs, ∀ parent, g.IsParent parent id → parent ∈ appliedIDs

theorem Graph.ancestorClosed_iff {g : Graph} {appliedIDs : List ℤ} :
    g.AncestorClosed appliedIDs ↔ ∀ d ∈ g.definitions, d.id ∈ appliedIDs →
      ∀ parent ∈ d.parents, parent ∈ appliedIDs := by
  constructor
  · exact fun h d hd hid parent hparent => h d.id hid parent ((isParent_iff hd).mpr hparent)
  · rintro h id hid parent ⟨d, hd, rfl, hparent⟩
    exact h d hd hid parent hparent

instance (g : Graph) (appliedIDs : List ℤ) : Decidable (g.AncestorClosed appliedIDs) :=
  decidable_of_iff _ Graph.ancestorClosed_iff.symm

/-- What is applied after some definitions are undone, one after the other. -/
def afterUndo (appliedIDs : List ℤ) (undone : List Definition) : List ℤ :=
  undone.foldl (fun appliedIDs d => appliedIDs.filter (· ≠ d.id)) appliedIDs

theorem mem_afterUndo {undone : List Definition} :
    ∀ {appliedIDs : List ℤ} {id : ℤ},
      id ∈ afterUndo appliedIDs undone ↔ id ∈ appliedIDs ∧ id ∉ undone.map Definition.id := by
  induction undone with
  | nil => exact (and_iff_left not_mem_nil).symm
  | cons d undone ih =>
    intro appliedIDs id
    show id ∈ afterUndo (appliedIDs.filter (· ≠ d.id)) undone ↔ _
    rw [ih, mem_filter, decide_eq_true_eq, map_cons, mem_cons, not_or, and_assoc]

/-- **Plans to go down.** They have the applied definitions that are
descendants of a target but no targets, each of them once and after its
descendants. -/
theorem down_plan {g : Graph} (appliedIDs : List ℤ) {targetIDs : List ℤ}
    (htargets : ∀ id ∈ targetIDs, id ∈ g.ids) :
    ∃ plan, g.toDefinitions.down appliedIDs targetIDs = .ok plan
      ∧ plan.Pairwise (fun d d' => g.position d'.id < g.position d.id)
      ∧ ∀ d, d ∈ plan ↔ d ∈ g.definitions ∧ d.id ∈ appliedIDs ∧ d.id ∉ targetIDs
        ∧ ∃ target ∈ targetIDs, ReflTransGen g.IsParent target d.id := by
  have hnext : ∀ id ∈ g.ids, ∀ id' ∈ g.nextOf (fun d => childrenOf g.definitions d.id) id,
      id' ∈ g.ids :=
    fun id _ id' h => Graph.IsParent.child_mem (Graph.isParent_of_nextOf_children.mp h)
  obtain ⟨reached, heq, hreached⟩ := Graph.traverse_spec hnext htargets
  simp only [Graph.isParent_of_nextOf_children] at hreached
  refine ⟨((g.definitions.filter fun d => d.id ∈ reached).filter fun d =>
    !targetIDs.contains d.id && appliedIDs.contains d.id).reverse, ?_, ?_, fun d => ?_⟩
  · unfold Definitions.down
    rw [show g.toDefinitions.definitions = g.definitions from rfl, heq]
    rfl
  · rw [pairwise_reverse]
    exact Graph.pairwise_position.sublist (filter_sublist.trans filter_sublist)
  · rw [mem_reverse, mem_filter, mem_filter, decide_eq_true_eq, hreached,
      Bool.and_eq_true, Bool.not_eq_true', ← Bool.not_eq_true, contains_iff_mem,
      contains_iff_mem]
    tauto

theorem nodup_of_down_plan {g : Graph} {plan : List Definition}
    (h : plan.Pairwise fun d d' => g.position d'.id < g.position d.id) :
    (plan.map Definition.id).Nodup := by
  refine pairwise_map.mpr (h.imp fun {d d'} hlt heq => ?_)
  rw [heq] at hlt
  exact Nat.lt_irrefl _ hlt

/-- **A plan to go down that keeps the schema consistent**: only what is
applied is undone, the parents of what is applied are applied after every
step, and at the end no proper descendant of a target is applied. -/
def SafeDown (g : Graph) (appliedIDs targetIDs : List ℤ) : Prop :=
  ∃ plan, g.toDefinitions.down appliedIDs targetIDs = .ok plan
    ∧ (∀ front d back, plan = front ++ d :: back → d.id ∈ afterUndo appliedIDs front)
    ∧ (∀ front back, plan = front ++ back → g.AncestorClosed (afterUndo appliedIDs front))
    ∧ ∀ target ∈ targetIDs, ∀ id ∈ afterUndo appliedIDs plan, ¬TransGen g.IsParent target id

/-- **Plans to go down are safe exactly when no applied target is a proper
descendant of another target.** -/
theorem down_safe_iff {g : Graph} {appliedIDs targetIDs : List ℤ}
    (hclosed : g.AncestorClosed appliedIDs) (htargets : ∀ id ∈ targetIDs, id ∈ g.ids) :
    SafeDown g appliedIDs targetIDs
      ↔ ∀ target ∈ targetIDs, ∀ target' ∈ targetIDs, target' ∈ appliedIDs →
        ¬TransGen g.IsParent target target' := by
  obtain ⟨plan, heq, hsorted, hmem⟩ := down_plan appliedIDs htargets
  constructor
  · rintro ⟨plan', heq', -, -, hend⟩ target htarget target' htarget' happlied
    obtain rfl := Outcome.ok.inj (heq'.symm.trans heq)
    refine hend target htarget target' (mem_afterUndo.mpr ⟨happlied, fun hundone => ?_⟩)
    obtain ⟨d, hd, rfl⟩ := mem_map.mp hundone
    exact ((hmem d).mp hd).2.2.1 htarget'
  · intro hnested
    -- an applied proper descendant of a target is in the plan
    have hplan : ∀ id ∈ appliedIDs, ∀ target ∈ targetIDs, TransGen g.IsParent target id →
        ∃ d ∈ plan, d.id = id := by
      intro id happlied target htarget hpath
      obtain ⟨parent, -, hparent⟩ := TransGen.tail'_iff.mp hpath
      obtain ⟨d, hd, rfl⟩ := mem_map.mp (Graph.IsParent.child_mem hparent)
      exact ⟨d, (hmem d).mpr ⟨hd, happlied, fun h => hnested target htarget d.id h happlied hpath,
        target, htarget, hpath.to_reflTransGen⟩, rfl⟩
    refine ⟨plan, heq, fun front d back hsplit => ?_, fun front back hsplit => ?_, ?_⟩
    · have hd := (hmem d).mp (hsplit ▸ mem_append_right _ mem_cons_self)
      refine mem_afterUndo.mpr ⟨hd.2.1, fun hundone => ?_⟩
      have hnodup := nodup_of_down_plan hsorted
      rw [hsplit, map_append, nodup_append] at hnodup
      exact hnodup.2.2 _ hundone _ mem_cons_self rfl
    · intro id hid parent hparent
      rw [mem_afterUndo] at hid ⊢
      refine ⟨hclosed id hid.1 parent hparent, fun hundone => hid.2 ?_⟩
      -- the parent was undone, so its child was undone before it
      obtain ⟨p, hp, rfl⟩ := mem_map.mp hundone
      have hpPlan := (hmem p).mp (hsplit ▸ mem_append_left _ hp)
      obtain ⟨target, htarget, hpath⟩ := hpPlan.2.2.2
      obtain ⟨d, hd, rfl⟩ := hplan id hid.1 target htarget (.tail' hpath hparent)
      obtain ⟨front₁, front₂, rfl⟩ := append_of_mem hp
      rw [append_assoc, cons_append] at hsplit
      have hfront := mem_front_of_pairwise (fun _ _ => Nat.lt_asymm) hsorted hsplit hd
        (Graph.IsParent.position_lt hparent)
      exact mem_map_of_mem (mem_append_left _ hfront)
    · intro target htarget id hid hpath
      rw [mem_afterUndo] at hid
      obtain ⟨d, hd, rfl⟩ := hplan id hid.1 target htarget hpath
      exact hid.2 (mem_map_of_mem hd)

/-- The two branches of a diamond, with one target. -/
theorem down_safe_diamond : SafeDown diamond [1, 2, 3, 4, 5, 6] [4] := by
  refine (down_safe_iff (by decide) (forall_mem_singleton.mpr (by decide))).mpr ?_
  rintro target htarget target' htarget' -
  rw [mem_singleton.mp htarget, mem_singleton.mp htarget']
  exact Graph.not_transGen_self 4

/-- **A target above another target stays**, and what is between them goes:
with the targets 1 and 4 of a diamond, both parents of 4 are undone. -/
theorem down_nested_targets :
    diamond.toDefinitions.down [1, 2, 3, 4] [1, 4]
        = .ok [{ id := 3, parents := [1] }, { id := 2, parents := [1] }]
      ∧ diamond.AncestorClosed [1, 2, 3, 4] ∧ ¬diamond.AncestorClosed [1, 4]
      ∧ ¬SafeDown diamond [1, 2, 3, 4] [1, 4] := by
  have hplan : diamond.toDefinitions.down [1, 2, 3, 4] [1, 4]
      = .ok [{ id := 3, parents := [1] }, { id := 2, parents := [1] }] := by decide
  have hparent : diamond.IsParent 2 4 := ⟨{ id := 4, parents := [2, 3] }, by decide, rfl, by decide⟩
  have hparent' : diamond.IsParent 1 2 := ⟨{ id := 2, parents := [1] }, by decide, rfl, by decide⟩
  refine ⟨hplan, by decide, by decide, ?_⟩
  rintro ⟨plan, heq, -, -, hend⟩
  obtain rfl := Outcome.ok.inj (heq.symm.trans hplan)
  exact hend 1 (by decide) 4 (by decide) (.tail (.single hparent') hparent)

/-! ## Reverting the last migration -/

/-- The direction of an operation. -/
inductive MigrationOperationType
  | targetedUp
  | targetedDown
  | upgrade
  | revert
deriving DecidableEq

/-- An operation on a schema. -/
structure MigrationOperation where
  schemaName : GoString
  type : MigrationOperationType
  targetVersions : List ℤ
deriving DecidableEq

/-- One iteration of the loop of `desugarRevert`: the parents of an applied
version have one applied child more. -/
def countChildren (ds : Definitions) (counts : GoMap ℤ ℕ) (version : ℤ) : GoMap ℤ ℕ :=
  match ds.getByID version with
  | none => counts
  | some definition =>
    let counts := definition.parents.foldl (fun counts parent =>
      counts.insert parent ((counts.lookup parent).getD 0 + 1)) counts
    counts.insert definition.id ((counts.lookup definition.id).getD 0 + 0)

/-- The applied versions without applied children. -/
def appliedLeaves (order : RangeOrder) (ds : Definitions) (appliedVersions : List ℤ) : List ℤ :=
  let counts := appliedVersions.foldl (countChildren ds) ∅
  ((order.range [] (GoMap.toPairs counts)).filter fun entry => entry.2 = 0).map Prod.fst

/-- **`desugarRevert`.** -/
def desugarRevert (order : RangeOrder) (ds : Definitions) (appliedVersions : List ℤ)
    (operation : MigrationOperation) : Result MigrationOperation :=
  match appliedLeaves order ds appliedVersions with
  | [] => .error (lit "nothing to revert")
  | [version] =>
    match ds.getByID version with
    | none => .error (lit "unknown version " ++ formatInt version)
    | some definition =>
      .ok { schemaName := operation.schemaName, type := .targetedDown,
            targetVersions := definition.parents }
  | leafVersions =>
    .error (lit "ambiguous revert - candidates include "
      ++ (lit ", ").intercalate (leafVersions.map formatInt))

/-- What the counts say about a version. -/
structure Counted (g : Graph) (done : List ℤ) (counts : GoMap ℤ ℕ) : Prop where
  zero : ∀ v, counts.lookup v = some 0
    ↔ (v ∈ done ∧ v ∈ g.ids) ∧ ∀ child ∈ done, ¬g.IsParent v child
  pos : ∀ v, (∃ n, counts.lookup v = some (n + 1)) ↔ ∃ child ∈ done, g.IsParent v child

theorem countParents_spec (parents : List ℤ) :
    ∀ (counts : GoMap ℤ ℕ) (v : ℤ),
      ((parents.foldl (fun counts parent =>
          counts.insert parent ((counts.lookup parent).getD 0 + 1)) counts).lookup v = some 0
        ↔ counts.lookup v = some 0 ∧ v ∉ parents)
      ∧ ((∃ n, (parents.foldl (fun counts parent =>
          counts.insert parent ((counts.lookup parent).getD 0 + 1)) counts).lookup v = some (n + 1))
        ↔ (∃ n, counts.lookup v = some (n + 1)) ∨ v ∈ parents) := by
  induction parents with
  | nil =>
    exact fun counts v =>
      ⟨(and_iff_left not_mem_nil).symm, (or_iff_left not_mem_nil).symm⟩
  | cons parent parents ih =>
    intro counts v
    rw [foldl_cons, (ih _ v).1, (ih _ v).2, mem_cons]
    by_cases hv : v = parent
    · subst hv
      rw [AList.lookup_insert]
      exact ⟨iff_of_false (fun h => nomatch h.1) fun h => h.2 (.inl rfl),
        iff_of_true (.inl ⟨_, rfl⟩) (.inr (.inl rfl))⟩
    · rw [AList.lookup_insert_ne hv, or_iff_right hv]
      exact ⟨Iff.rfl, Iff.rfl⟩

theorem counted_countChildren {g : Graph} {done : List ℤ} {counts : GoMap ℤ ℕ}
    (h : Counted g done counts) (version : ℤ) :
    Counted g (done ++ [version]) (countChildren g.toDefinitions counts version) := by
  unfold countChildren
  cases hget : g.toDefinitions.getByID version with
  | none =>
    have hversion : version ∉ g.ids := fun hid => by
      obtain ⟨d, -, -, hsome⟩ := Graph.exists_getByID hid
      exact nomatch hget.symm.trans hsome
    have hparent : ∀ v, ¬g.IsParent v version := fun v hv =>
      hversion (Graph.IsParent.child_mem hv)
    refine ⟨fun v => (h.zero v).trans ?_, fun v => (h.pos v).trans ?_⟩
    · rw [forall_mem_append, forall_mem_singleton, and_iff_left (hparent v),
        mem_append, mem_singleton]
      refine and_congr_left fun _ => ⟨fun hv => ⟨.inl hv.1, hv.2⟩, fun hv => ⟨?_, hv.2⟩⟩
      exact hv.1.resolve_right fun heq => hversion (heq ▸ hv.2)
    · simp only [mem_append, mem_singleton, or_and_right, exists_or, exists_eq_left,
        hparent v, or_false]
  | some d =>
    obtain ⟨hd, rfl⟩ := (lookup_stash g.nodup).mp hget
    have hcounts := countParents_spec d.parents counts
    -- what is stored for the version itself is what was counted
    have hgetD : ∀ o : Option ℕ, (o.getD 0 + 0 = 0 ↔ ¬∃ n, o = some (n + 1))
        ∧ ((∃ n, o.getD 0 + 0 = n + 1) ↔ ∃ n, o = some (n + 1)) := by
      intro o
      rcases o with _ | _ | n <;> simp
    have hpos : ∀ v, ((∃ n, counts.lookup v = some (n + 1)) ∨ v ∈ d.parents)
        ↔ ∃ child ∈ done ++ [d.id], g.IsParent v child := by
      intro v
      rw [h.pos v, ← Graph.isParent_iff hd]
      simp only [mem_append, mem_singleton, or_and_right, exists_or, exists_eq_left]
    dsimp only
    refine ⟨fun v => ?_, fun v => ?_⟩ <;> by_cases hv : v = d.id
    · subst hv
      rw [AList.lookup_insert, Option.some.injEq, (hgetD _).1, (hcounts d.id).2, hpos]
      push Not
      exact (and_iff_right ⟨mem_append_right _ mem_cons_self, Graph.mem_ids hd⟩).symm
    · rw [AList.lookup_insert_ne hv, (hcounts v).1, h.zero v, ← Graph.isParent_iff hd,
        forall_mem_append, forall_mem_singleton, mem_append, mem_singleton,
        or_iff_left hv, and_assoc]
    · subst hv
      rw [AList.lookup_insert, ← hpos, ← (hcounts d.id).2]
      exact (exists_congr fun n => by rw [Option.some.injEq]).trans (hgetD _).2
    · rw [AList.lookup_insert_ne hv, (hcounts v).2, hpos]

/-- An applied version without applied children. -/
def Graph.IsAppliedLeaf (g : Graph) (appliedVersions : List ℤ) (version : ℤ) : Prop :=
  (version ∈ appliedVersions ∧ version ∈ g.ids)
    ∧ ∀ child ∈ appliedVersions, ¬g.IsParent version child

theorem counted_foldl {g : Graph} (appliedVersions : List ℤ) :
    Counted g appliedVersions (appliedVersions.foldl (countChildren g.toDefinitions) ∅) := by
  induction appliedVersions using reverseRecOn with
  | nil =>
    refine ⟨fun v => iff_of_false nofun fun h => absurd h.1.1 not_mem_nil, fun v => ?_⟩
    exact iff_of_false (fun ⟨n, h⟩ => nomatch h) fun ⟨child, hchild, _⟩ =>
      absurd hchild not_mem_nil
  | append_singleton versions version ih =>
    rw [foldl_append, foldl_cons, foldl_nil]
    exact counted_countChildren ih version

theorem mem_appliedLeaves (order : RangeOrder) {g : Graph} {appliedVersions : List ℤ} {v : ℤ} :
    v ∈ appliedLeaves order g.toDefinitions appliedVersions
      ↔ g.IsAppliedLeaf appliedVersions v := by
  unfold appliedLeaves
  rw [mem_map]
  refine Iff.trans ?_ ((counted_foldl appliedVersions).zero v)
  constructor
  · rintro ⟨⟨v, n⟩, hmem, rfl⟩
    rw [mem_filter, RangeOrder.mem_range, decide_eq_true_eq, GoMap.mem_toPairs] at hmem
    exact hmem.2 ▸ hmem.1
  · intro hzero
    refine ⟨(v, 0), ?_, rfl⟩
    rw [mem_filter, RangeOrder.mem_range, decide_eq_true_eq, GoMap.mem_toPairs]
    exact ⟨hzero, rfl⟩

theorem nodup_appliedLeaves (order : RangeOrder) (ds : Definitions) (appliedVersions : List ℤ) :
    (appliedLeaves order ds appliedVersions).Nodup := by
  unfold appliedLeaves
  refine List.Nodup.sublist (filter_sublist.map _) ?_
  exact ((order.range_perm _ _).map _).nodup_iff.mpr (GoMap.nodup_toPairs _)

theorem eq_singleton_of_nodup {α : Type} {l : List α} {a : α} (hnodup : l.Nodup)
    (h : ∀ b, b ∈ l ↔ b = a) : l = [a] := by
  rw [← perm_singleton, perm_ext_iff_of_nodup hnodup (nodup_singleton a)]
  exact fun b => (h b).trans mem_singleton.symm

section revert

variable {g : Graph} {appliedVersions : List ℤ} {leaf : Definition}

/-- **A revert goes down to the parents of the only leaf.** -/
theorem desugarRevert_eq (order : RangeOrder) (hleaf : leaf ∈ g.definitions)
    (huniq : ∀ v, g.IsAppliedLeaf appliedVersions v ↔ v = leaf.id)
    (operation : MigrationOperation) :
    desugarRevert order g.toDefinitions appliedVersions operation
      = .ok ⟨operation.schemaName, .targetedDown, leaf.parents⟩ := by
  have hleaves : appliedLeaves order g.toDefinitions appliedVersions = [leaf.id] :=
    eq_singleton_of_nodup (nodup_appliedLeaves _ _ _) fun v =>
      (mem_appliedLeaves order).trans (huniq v)
  unfold desugarRevert
  rw [hleaves]
  dsimp only
  rw [Graph.getByID_eq hleaf]

/-- **Everything that is applied is below the only leaf.** The induction goes
up the graph, as long as there is an applied child. -/
theorem reflTransGen_leaf (huniq : ∀ v, g.IsAppliedLeaf appliedVersions v ↔ v = leaf.id) (n : ℕ) :
    ∀ id ∈ appliedVersions, id ∈ g.ids → g.ids.length - g.position id = n →
      ReflTransGen g.IsParent id leaf.id := by
  induction n using Nat.strong_induction_on with
  | _ n ih =>
    intro id happlied hid hn
    by_cases hleaf : g.IsAppliedLeaf appliedVersions id
    · rw [(huniq id).mp hleaf]
    · have hchild : ∃ child ∈ appliedVersions, g.IsParent id child := by
        by_contra hnone
        exact hleaf ⟨⟨happlied, hid⟩, fun child hchild hparent => hnone ⟨child, hchild, hparent⟩⟩
      obtain ⟨child, hchild, hparent⟩ := hchild
      have hlt := Graph.IsParent.position_lt hparent
      have hlength : g.position child < g.ids.length :=
        idxOf_lt_length_of_mem (Graph.IsParent.child_mem hparent)
      exact (ih _ (by omega) child hchild (Graph.IsParent.child_mem hparent) rfl).head hparent

theorem mem_of_transGen (hclosed : g.AncestorClosed appliedVersions) {id id' : ℤ}
    (h : TransGen g.IsParent id id') (happlied : id' ∈ appliedVersions) : id ∈ appliedVersions := by
  induction h with
  | single hparent => exact hclosed _ happlied _ hparent
  | tail _ hparent ih => exact ih (hclosed _ happlied _ hparent)

end revert

/-- **A revert undoes exactly the last migration** if and only if the last
migration has parents, and every definition between one of them and it is one
of them too. -/
theorem revert_undoes_iff (order : RangeOrder) {g : Graph} {appliedVersions : List ℤ}
    (hclosed : g.AncestorClosed appliedVersions) {leaf : Definition} (hleaf : leaf ∈ g.definitions)
    (huniq : ∀ v, g.IsAppliedLeaf appliedVersions v ↔ v = leaf.id)
    (operation : MigrationOperation) :
    (∃ down, desugarRevert order g.toDefinitions appliedVersions operation = .ok down
        ∧ down.type = .targetedDown
        ∧ g.toDefinitions.down appliedVersions down.targetVersions = .ok [leaf])
      ↔ leaf.parents ≠ [] ∧ ∀ parent ∈ leaf.parents, ∀ id, TransGen g.IsParent parent id →
        TransGen g.IsParent id leaf.id → id ∈ leaf.parents := by
  have hparent : ∀ parent ∈ leaf.parents, g.IsParent parent leaf.id := fun parent h =>
    (Graph.isParent_iff hleaf).mpr h
  obtain ⟨plan, heq, hsorted, hmem⟩ := down_plan appliedVersions fun parent h =>
    Graph.IsParent.parent_mem (hparent parent h)
  have hleafApplied := ((huniq leaf.id).mpr rfl).1.1
  rw [desugarRevert_eq order hleaf huniq operation]
  constructor
  · rintro ⟨down, hdown, -, hplan⟩
    obtain rfl := Outcome.ok.inj hdown
    obtain rfl := Outcome.ok.inj (hplan.symm.trans heq)
    obtain ⟨-, -, hnot, parent, hparent, -⟩ := (hmem leaf).mp mem_cons_self
    refine ⟨ne_nil_of_mem hparent, fun parent hparent id hbelow habove => ?_⟩
    -- another definition between them would be in the plan
    by_contra hid
    have happlied := mem_of_transGen hclosed habove hleafApplied
    obtain ⟨child, hchild, -⟩ := TransGen.head'_iff.mp habove
    obtain ⟨d, hd, rfl⟩ := mem_map.mp (Graph.IsParent.parent_mem hchild)
    have hplan := (hmem d).mpr ⟨hd, happlied, hid, parent, hparent, hbelow.to_reflTransGen⟩
    rw [mem_singleton.mp hplan] at habove
    exact Graph.not_transGen_self _ habove
  · rintro ⟨hne, hbetween⟩
    refine ⟨_, rfl, rfl, ?_⟩
    have hsingle : plan = [leaf] := by
      refine eq_singleton_of_nodup (nodup_of_down_plan hsorted).of_map fun d => ?_
      rw [hmem d]
      constructor
      · rintro ⟨hd, happlied, hnot, parent, hparent', hpath⟩
        by_contra hd'
        have hlast := reflTransGen_leaf huniq _ d.id happlied (Graph.mem_ids hd) rfl
        have hid : d.id ≠ leaf.id := fun h => hd' (Graph.eq_of_id_eq hd hleaf h)
        rcases reflTransGen_iff_eq_or_transGen.mp hpath with h | hbelow
        · exact hnot (h ▸ hparent')
        rcases reflTransGen_iff_eq_or_transGen.mp hlast with h | habove
        · exact hid h.symm
        · exact hnot (hbetween parent hparent' d.id hbelow habove)
      · rintro rfl
        obtain ⟨parent, hmemParent⟩ := exists_mem_of_ne_nil _ hne
        refine ⟨hleaf, hleafApplied, fun h => ?_, parent, hmemParent,
          .single (hparent _ hmemParent)⟩
        exact Graph.not_transGen_self _ (.single (hparent _ h))
    rw [heq, hsingle]

/-- The last migration of a diamond: there is nothing between its parents and
it. -/
theorem revert_diamond :
    ∃ down, desugarRevert .byEntries diamond.toDefinitions [1, 2, 3, 4]
          ⟨lit "frontend", .revert, []⟩ = .ok down
        ∧ down.type = .targetedDown
        ∧ diamond.toDefinitions.down [1, 2, 3, 4] down.targetVersions
          = .ok [{ id := 4, parents := [2, 3] }] := by
  have hleaves : appliedLeaves .byEntries diamond.toDefinitions [1, 2, 3, 4] = [4] := by decide
  have huniq : ∀ v, diamond.IsAppliedLeaf [1, 2, 3, 4] v ↔ v = 4 := fun v => by
    rw [← mem_appliedLeaves .byEntries, hleaves, mem_singleton]
  have hbetween : ∀ parent ∈ ([2, 3] : List ℤ), ∀ id ∈ diamond.ids,
      diamond.position parent < diamond.position id → diamond.position id < diamond.position 4 →
      id ∈ ([2, 3] : List ℤ) := by decide
  refine (revert_undoes_iff .byEntries (by decide) (by decide) huniq _).mpr
    ⟨cons_ne_nil _ _, fun parent hparent id hbelow habove => ?_⟩
  obtain ⟨child, hchild, -⟩ := TransGen.head'_iff.mp habove
  exact hbetween parent hparent id (Graph.IsParent.parent_mem hchild)
    (Graph.position_lt_of_transGen hbelow) (Graph.position_lt_of_transGen habove)

/-- A chain whose last migration names the first one as a parent as well. -/
def shortcut : Graph where
  definitions := [{ id := 1 }, { id := 2, parents := [1] }, { id := 3, parents := [2] },
    { id := 4, parents := [1, 3] }]
  nodup := by decide
  ordered := by decide

/-- **A revert may undo more than the last migration, or nothing.** With a
shortcut to an indirect ancestor, a migration in the middle of the chain is
undone as well; and the root has no parents to go down to. -/
theorem revert_shortcut :
    shortcut.AncestorClosed [1, 2, 3, 4]
      ∧ (∀ v, shortcut.IsAppliedLeaf [1, 2, 3, 4] v ↔ v = 4)
      ∧ desugarRevert .byEntries shortcut.toDefinitions [1, 2, 3, 4]
          ⟨lit "frontend", .revert, []⟩ = .ok ⟨lit "frontend", .targetedDown, [1, 3]⟩
      ∧ shortcut.toDefinitions.down [1, 2, 3, 4] [1, 3]
          = .ok [{ id := 4, parents := [1, 3] }, { id := 2, parents := [1] }]
      ∧ (∀ v, shortcut.IsAppliedLeaf [1] v ↔ v = 1)
      ∧ desugarRevert .byEntries shortcut.toDefinitions [1] ⟨lit "frontend", .revert, []⟩
          = .ok ⟨lit "frontend", .targetedDown, []⟩
      ∧ shortcut.toDefinitions.down [1] [] = .ok [] := by
  have hleaves : appliedLeaves .byEntries shortcut.toDefinitions [1, 2, 3, 4] = [4] := by decide
  have hroot : appliedLeaves .byEntries shortcut.toDefinitions [1] = [1] := by decide
  refine ⟨by decide, fun v => ?_, by decide, by decide, fun v => ?_, by decide, by decide⟩
  · rw [← mem_appliedLeaves .byEntries, hleaves, mem_singleton]
  · rw [← mem_appliedLeaves .byEntries, hroot, mem_singleton]

end Migration
