import Mathlib
import CodeScout.Util.DepthFirst
import CodeScout.Util.GoSlice
import CodeScout.Util.GoStrconv

/-!
# Migration definitions

The migrations of a database schema form a graph: a migration names its
parents, the migrations it builds on. `Definitions` holds them in an order
in which every migration comes after its parents (`Ordered`), which
`reorderDefinitions` finds by a depth-first search over the children.

This module has the functions of the package and what they read from the
list of definitions; the other modules prove what follows for the order, the
dominators, and the plans to go up and down.
-/

namespace Migration

open List

/-- The result of a function that may return an error, given by its text. -/
abbrev Result := Outcome GoString

/-! ## Definitions -/

/-- A migration. -/
structure Definition where
  id : ℤ := 0
  parents : List ℤ := []
  isCreateIndexConcurrently : Bool := false
deriving DecidableEq

/-- **The migrations of a schema**, in order and by their identifier. -/
structure Definitions where
  definitions : List Definition
  definitionsMap : GoMap ℤ Definition

/-- The definitions by their identifier. -/
def stash (definitions : List Definition) : GoMap ℤ Definition :=
  definitions.foldl (fun m d => m.insert d.id d) ∅

/-- **`newDefinitions`**, which does not check its argument. -/
def newDefinitionsUnchecked (definitions : List Definition) : Definitions :=
  ⟨definitions, stash definitions⟩

/-- **`Definitions.GetByID`.** -/
def Definitions.getByID (ds : Definitions) (id : ℤ) : Option Definition :=
  ds.definitionsMap.lookup id

/-- **`children`**: the children of each definition. -/
def children (definitions : List Definition) : GoMap ℤ (List ℤ) :=
  definitions.foldl (fun childMap d =>
    d.parents.foldl (fun childMap parent =>
      childMap.insert parent ((childMap.lookup parent).getD [] ++ [d.id])) childMap) ∅

/-- The children of a definition. -/
def childrenOf (definitions : List Definition) (id : ℤ) : List ℤ :=
  ((children definitions).lookup id).getD []

/-- **`Definitions.Leaves`**: the definitions without children. -/
def Definitions.leaves (ds : Definitions) : List Definition :=
  ds.definitions.filter fun d => (childrenOf ds.definitions d.id).length = 0

/-! ## Errors -/

/-- The text of an `instructionalError`. -/
def instructionalError (cls description instructions : GoString) : GoString :=
  cls ++ lit ": " ++ description ++ lit "\n\n" ++ instructions ++ lit "\n"

/-- **`unknownMigrationError`.** -/
def unknownMigrationError (id : ℤ) : Option ℤ → GoString
  | none => lit "unknown migration " ++ formatInt id
  | some source =>
    lit "unknown migration " ++ formatInt id ++ lit " referenced from migration "
      ++ formatInt source

/-! ## Reordering -/

/-- **`root`**: the one definition without parents. -/
def root (definitions : List Definition) : Result ℤ :=
  match (definitions.filter fun d => d.parents.length = 0).map Definition.id with
  | [] =>
    .error (instructionalError (lit "no roots") (lit "every migration declares a parent")
      (lit "There is no migration defined in this schema that does not declare a parent. "
        ++ lit "This indicates either a migration dependency cycle or a reference to a parent "
        ++ lit "migration that no longer exists."))
  | [root] => .ok root
  | roots =>
    .error (instructionalError (lit "multiple roots")
      (lit "expected exactly one migration to have no parent but found "
        ++ formatInt roots.length ++ lit " ([" ++ (lit " ").intercalate (roots.map formatInt)
        ++ lit "])")
      (lit "There are multiple migrations defined in this schema that do not declare a parent. "
        ++ lit "This indicates a new migration that did not correctly attach itself to an "
        ++ lit "existing migration. This may also indicate the presence of a duplicate squashed "
        ++ lit "migration."))

/-- What the search of `findDefinitionOrder` returns at a definition whose
descendants are being visited, given the path to it. -/
def reportCycle {α : Type} (id : ℤ) (parents : List ℤ) : Result α :=
  match parents.dropWhile fun parent => parent ≠ id with
  | [] => .panic
  | first :: rest =>
    .error (instructionalError (lit "migration dependency cycle")
      (lit "migrations " ++ formatInt (rest.getLastD first) ++ lit " and " ++ formatInt id
        ++ lit " declare each other as dependencies")
      (lit "Break one of the links in the following cycle:\n"
        ++ (lit " -> ").intercalate ((first :: rest ++ [id]).map formatInt)))

/-- The children of a definition as `findDefinitionOrder` sorts them. -/
def sortedChildren (definitions : List Definition) (id : ℤ) : List ℤ :=
  (childrenOf definitions id).insertionSort (· ≥ ·)

/-- The function `dfs` of `findDefinitionOrder`. A path has no definition
twice, so it is not deeper than there are definitions. -/
def dfs (definitions : List Definition) (id : ℤ) (s : DepthFirst.State ℤ) :
    Result (DepthFirst.State ℤ) :=
  DepthFirst.visit (sortedChildren definitions) reportCycle (definitions.length + 1) id [] s

/-- The search from each definition that was not visited. -/
def visitUnvisited (definitions : List Definition) (s : DepthFirst.State ℤ) :
    Result (DepthFirst.State ℤ) :=
  (definitions.map Definition.id).foldlM
    (fun s id => if (s.marks.lookup id).isNone then dfs definitions id s else .ok s) s

/-- **`findDefinitionOrder`.** -/
def findDefinitionOrder (definitions : List Definition) : Result (List ℤ) := do
  let root ← root definitions
  let s ← dfs definitions root {}
  if s.order.length < definitions.length then
    let _ ← visitUnvisited definitions s
    .panic
  else
    .ok s.order

/-- The loop that fills in the definitions in the opposite of the order,
after the first `i` of it. -/
def fillBackwards (m : GoMap ℤ Definition) : ℕ → List ℤ → List Definition →
    Result (List Definition)
  | _, [], definitions => .ok definitions
  | i, id :: order, definitions =>
    if i < definitions.length then do
      let definitions ← GoSlice.store definitions (definitions.length - 1 - i)
        ((m.lookup id).getD {})
      fillBackwards m (i + 1) order definitions
    else .panic

/-- A parent that is not defined, with the definition that names it. -/
def unknownParent (definitions : List Definition) : Option (ℤ × ℤ) :=
  definitions.findSome? fun d =>
    (d.parents.find? fun parent => ((stash definitions).lookup parent).isNone).map fun parent =>
      (parent, d.id)

/-- **`reorderDefinitions`**: the definitions in the new order. -/
def reorderDefinitions (definitions : List Definition) : Result (List Definition) :=
  if definitions.length = 0 then .ok definitions
  else
    match unknownParent definitions with
    | some (parent, id) => .error (unknownMigrationError parent (some id))
    | none => do
      let order ← findDefinitionOrder definitions
      fillBackwards (stash definitions) 0 order definitions

/-- **`NewDefinitions`.** -/
def newDefinitions (definitions : List Definition) : Result Definitions := do
  let definitions ← (reorderDefinitions definitions).mapError (lit "reorderDefinitions: " ++ ·)
  .ok (newDefinitionsUnchecked definitions)

/-! ## Dominators -/

/-- **`intersect`.** -/
def intersect (a : List ℤ) (bs : List (List ℤ)) : List ℤ :=
  bs.foldl (fun intersection b => intersection.filter b.contains) a

/-- One iteration of `dominators`. -/
def addDominators (dominators : GoMap ℤ (List ℤ)) (d : Definition) : GoMap ℤ (List ℤ) :=
  match d.parents with
  | [] => dominators.insert d.id [d.id]
  | parent :: parents =>
    dominators.insert d.id ([d.id] ++ intersect ((dominators.lookup parent).getD [])
      (parents.map fun parent => (dominators.lookup parent).getD []))

/-- **`Definitions.dominators`.** -/
def Definitions.dominators (ds : Definitions) : GoMap ℤ (List ℤ) :=
  ds.definitions.foldl addDominators ∅

/-- **`Definitions.LeafDominator`.** -/
def Definitions.leafDominator (ds : Definitions) (extraIDs : List ℤ) : Option Definition :=
  let ids := (ds.leaves.map Definition.id ++ extraIDs).map fun id =>
    (ds.dominators.lookup id).getD []
  match ids with
  | [] => none
  | a :: bs =>
    match intersect a bs with
    | [] => none
    | id :: _ => ds.getByID id

/-! ## Plans -/

/-- A definition to visit, and the one it was reached from. -/
structure TraverseNode where
  id : ℤ
  parent : Option ℤ := none

section traverse

variable (ds : Definitions) (next : Definition → List ℤ)

/-- The loop of `traverse` over a frontier. -/
def traverseFrontier : List TraverseNode → Finset ℤ → List TraverseNode →
    Result (Finset ℤ × List TraverseNode)
  | [], visited, newFrontier => .ok (visited, newFrontier)
  | n :: frontier, visited, newFrontier =>
    if n.id ∈ visited then traverseFrontier frontier visited newFrontier
    else
      match ds.getByID n.id with
      | none => .error (unknownMigrationError n.id n.parent)
      | some definition =>
        traverseFrontier frontier (insert n.id visited)
          (newFrontier ++ (next definition).map fun id => ⟨id, some n.id⟩)

/-- The loop of `traverse` over frontiers. -/
def traverseFrontiers : ℕ → List TraverseNode → Finset ℤ → Result (Finset ℤ)
  | 0, _, _ => .outOfFuel
  | fuel + 1, frontier, visited =>
    if frontier.length > 0 then do
      let (visited, frontier) ← traverseFrontier ds next frontier visited []
      traverseFrontiers fuel frontier visited
    else .ok visited

/-- **`Definitions.traverse`**: the definitions that are reached from the
targets. Every frontier but the last two has a definition that was not
visited before. -/
def Definitions.traverse (targetIDs : List ℤ) : Result (List Definition) := do
  let visited ← traverseFrontiers ds next (ds.definitions.length + 2)
    (targetIDs.map fun id => ⟨id, none⟩) ∅
  .ok (ds.definitions.filter fun d => d.id ∈ visited)

end traverse

/-- **`Definitions.Up`.** -/
def Definitions.up (ds : Definitions) (appliedIDs targetIDs : List ℤ) :
    Result (List Definition) := do
  let definitions ← ds.traverse Definition.parents targetIDs
  .ok (definitions.filter fun d => !appliedIDs.contains d.id)

/-- **`Definitions.Down`.** -/
def Definitions.down (ds : Definitions) (appliedIDs targetIDs : List ℤ) :
    Result (List Definition) := do
  let definitions ← ds.traverse (fun d => childrenOf ds.definitions d.id) targetIDs
  .ok (definitions.filter fun d =>
    !targetIDs.contains d.id && appliedIDs.contains d.id).reverse

/-! ## Lookups -/

/-- The parent relation on identifiers. -/
def Parent (definitions : List Definition) (parent child : ℤ) : Prop :=
  ∃ d ∈ definitions, d.id = child ∧ parent ∈ d.parents

variable {d : Definition}

theorem mem_insert_children {parent child : ℤ} (parents : List ℤ) :
    ∀ childMap : GoMap ℤ (List ℤ),
      child ∈ ((parents.foldl (fun childMap parent =>
          childMap.insert parent ((childMap.lookup parent).getD [] ++ [d.id])) childMap).lookup
            parent).getD []
        ↔ child ∈ (childMap.lookup parent).getD [] ∨ d.id = child ∧ parent ∈ parents := by
  induction parents with
  | nil => exact fun childMap => (or_iff_left fun h => absurd h.2 not_mem_nil).symm
  | cons first parents ih =>
    intro childMap
    rw [foldl_cons, ih, mem_cons, and_or_left, ← or_assoc]
    refine or_congr_left ?_
    by_cases h : parent = first
    · subst h
      rw [AList.lookup_insert, Option.getD_some, mem_append, mem_singleton,
        and_iff_left rfl, eq_comm (a := child)]
    · rw [AList.lookup_insert_ne h, or_iff_left fun h' => h h'.2]

variable {definitions : List Definition}

/-- **The children of a definition** are the definitions that name it. -/
theorem mem_childrenOf {parent child : ℤ} :
    child ∈ childrenOf definitions parent ↔ Parent definitions parent child := by
  unfold childrenOf children Parent
  induction definitions using reverseRecOn with
  | nil => exact iff_of_false not_mem_nil fun h => absurd h.choose_spec.1 not_mem_nil
  | append_singleton definitions d ih =>
    rw [foldl_append, foldl_cons, foldl_nil, mem_insert_children, ih]
    simp only [mem_append, mem_singleton, or_and_right, exists_or, exists_eq_left]

theorem stash_append (definitions : List Definition) (d : Definition) :
    stash (definitions ++ [d]) = (stash definitions).insert d.id d :=
  foldl_append

theorem lookup_stash_isSome {id : ℤ} :
    ((stash definitions).lookup id).isSome ↔ id ∈ definitions.map Definition.id := by
  induction definitions using reverseRecOn with
  | nil => exact iff_of_false Bool.noConfusion not_mem_nil
  | append_singleton definitions d ih =>
    rw [stash_append, map_append, mem_append, map_singleton, mem_singleton]
    by_cases h : id = d.id
    · rw [h, AList.lookup_insert]
      exact iff_of_true rfl (.inr rfl)
    · rw [AList.lookup_insert_ne h, ih, or_iff_left h]

theorem mem_of_lookup_stash {id : ℤ}
    (h : (stash definitions).lookup id = some d) : d ∈ definitions ∧ d.id = id := by
  induction definitions using reverseRecOn with
  | nil => exact nomatch h
  | append_singleton definitions last ih =>
    rw [stash_append] at h
    by_cases hid : id = last.id
    · rw [hid, AList.lookup_insert] at h
      obtain rfl := Option.some.inj h
      exact ⟨mem_append_right _ mem_cons_self, hid.symm⟩
    · rw [AList.lookup_insert_ne hid] at h
      exact ⟨mem_append_left _ (ih h).1, (ih h).2⟩

/-- **Distinct identifiers** are looked up in the list. -/
theorem lookup_stash (h : (definitions.map Definition.id).Nodup) {id : ℤ} :
    (stash definitions).lookup id = some d ↔ d ∈ definitions ∧ d.id = id := by
  refine ⟨mem_of_lookup_stash, ?_⟩
  rintro ⟨hd, rfl⟩
  obtain ⟨d', hd'⟩ := Option.isSome_iff_exists.mp (lookup_stash_isSome.mpr (mem_map_of_mem hd))
  obtain ⟨hmem, hid⟩ := mem_of_lookup_stash hd'
  rw [hd', inj_on_of_nodup_map h hmem hd hid]

end Migration
