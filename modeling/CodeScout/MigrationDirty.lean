import CodeScout.MigrationPlans
import Mathlib

/-!
# Ignoring a single dirty migration log

A runner refuses to work on a schema with failed migrations, or with pending
ones that nobody works on. Two options make exceptions, so that a migration
that failed or was interrupted can be run again without editing the log: a
failed, or pending, migration is ignored if it is the only one **and** the
next one to be applied.

The check of the second part reads the first definition of the plan in each
iteration of a loop over the definitions, so that it asks whether the first
definition was applied and not which one is the next. For pending migrations
the check is missing, and a pending migration that is ignored takes the failed
ones with it. `validateSchemaState_exact_iff` says for which logs this makes
no difference.
-/

namespace Migration

open List

/-! ## The model -/

/-- What the log says about the versions. -/
structure SchemaVersion where
  appliedVersions : List ℤ
  pendingVersions : List ℤ
  failedVersions : List ℤ

/-- The definitions of a plan, by what the log says about them. -/
structure DefinitionsByState where
  applied : List Definition
  pending : List Definition
  failed : List Definition

/-- **`groupByState`.** -/
def groupByState (schemaVersion : SchemaVersion) (definitions : List Definition) :
    DefinitionsByState where
  applied := definitions.filter fun d => schemaVersion.appliedVersions.contains d.id
  pending := definitions.filter fun d => schemaVersion.pendingVersions.contains d.id
  failed := definitions.filter fun d => schemaVersion.failedVersions.contains d.id

/-- What the system tables say about an index that exists; the phase is that
of a creation in progress. -/
structure IndexStatus where
  isValid : Bool
  phase : Option GoString

/-- The options `IgnoreSingleDirtyLog` and `IgnoreSinglePendingLog`. -/
structure IgnoreLogs where
  singleDirtyLog : Bool
  singlePendingLog : Bool

/-- The errors of `validateSchemaState`. -/
inductive ValidateError
  | dirtySchema (definitions : List Definition)
  | indexStatus (definition : Definition) (err : GoString)
deriving DecidableEq

/-- The answers of the store about the indexes of definitions. -/
abbrev IndexStatuses := ℤ → Except GoString (Option IndexStatus)

/-- Whether the index of a definition is being created. Other definitions are
not asked for. -/
def isBeingCreated (indexStatus : IndexStatuses) (d : Definition) : Except ValidateError Bool :=
  if d.isCreateIndexConcurrently then
    match indexStatus d.id with
    | .error err => .error (.indexStatus d err)
    | .ok status => .ok (status.any fun status => status.phase.isSome)
  else .ok false

/-- **`partitionPendingMigrations`**: the definitions whose index is being
created, and the others. -/
def queryPendingMigrations (indexStatus : IndexStatuses) :
    List Definition → Except ValidateError (List Definition × List Definition)
  | [] => .ok ([], [])
  | d :: definitions =>
    (isBeingCreated indexStatus d).bind fun active =>
      (queryPendingMigrations indexStatus definitions).bind fun (pending, failed) =>
        .ok (if active then (d :: pending, failed) else (pending, d :: failed))

/-- The loop that looks for the migration that failed. It reads
`definitions[0]` where it is about to look at a definition. -/
def findsFailed (definitions : List Definition) (byState : DefinitionsByState) : Bool :=
  definitions.any fun d =>
    !((definitions.head?.any fun first =>
        (byState.applied.map Definition.id).contains first.id))
      && byState.failed.head?.any fun failed => failed.id == d.id

/-- **`validateSchemaState`**, with the options to ignore a log. The result is
whether to try again. -/
def IgnoreLogs.validateSchemaState (ignore : IgnoreLogs) (indexStatus : IndexStatuses)
    (definitions : List Definition) (byState : DefinitionsByState) : Except ValidateError Bool :=
  if ignore.singleDirtyLog && byState.failed.length = 1 && findsFailed definitions byState then
    .ok false
  else if ignore.singlePendingLog && byState.pending.length = 1 then .ok false
  else if byState.failed.length > 0 then .error (.dirtySchema byState.failed)
  else if byState.pending.length > 0 then
    (queryPendingMigrations indexStatus byState.pending).bind
      fun (pendingDefinitions, failedDefinitions) =>
        if failedDefinitions.length > 0 then .error (.dirtySchema failedDefinitions)
        else .ok (pendingDefinitions.length > 0)
  else .ok false

/-! ## What the options are for -/

section Exact

variable (indexStatus : IndexStatuses) (schemaVersion : SchemaVersion)
  (definitions : List Definition)

/-- The next definition to be applied. -/
def nextDefinition : Option Definition :=
  definitions.find? fun d => !schemaVersion.appliedVersions.contains d.id

/-- The definitions are the next one, and no other. -/
def OnlyNext (l : List Definition) : Prop :=
  ∃ d, l = [d] ∧ nextDefinition schemaVersion definitions = some d

instance (l : List Definition) : Decidable (OnlyNext schemaVersion definitions l) :=
  match l with
  | [] => isFalse (by simp [OnlyNext])
  | [d] => decidable_of_iff (nextDefinition schemaVersion definitions = some d)
      (by simp [OnlyNext])
  | _ :: _ :: _ => isFalse (by simp [OnlyNext])

/-- The first definition was applied. -/
def FirstApplied : Prop :=
  ∃ d, definitions.head? = some d ∧ d.id ∈ schemaVersion.appliedVersions

/-- Some of the definitions have no index that is being created. -/
def SomeDead (l : List Definition) : Prop :=
  ∃ d ∈ l, isBeingCreated indexStatus d ≠ .ok true

instance (l : List Definition) : Decidable (SomeDead indexStatus l) :=
  inferInstanceAs (Decidable (∃ d ∈ l, _))

/-- The definitions that failed, and those that are pending. -/
def failedDefinitions : List Definition := (groupByState schemaVersion definitions).failed

def pendingDefinitions : List Definition := (groupByState schemaVersion definitions).pending

/-- **The options are exact**: an error is reported iff there are failed
migrations – unless the option for them is set and it is only the next one – or
dead pending ones, unless the option for them is set and only the next one is
pending. -/
def Exact (ignore : IgnoreLogs) : Prop :=
  (∃ err, ignore.validateSchemaState indexStatus definitions
      (groupByState schemaVersion definitions) = .error err)
    ↔ (failedDefinitions schemaVersion definitions ≠ []
        ∧ ¬ (ignore.singleDirtyLog
          ∧ OnlyNext schemaVersion definitions (failedDefinitions schemaVersion definitions)))
      ∨ (SomeDead indexStatus (pendingDefinitions schemaVersion definitions)
        ∧ ¬ (ignore.singlePendingLog
          ∧ OnlyNext schemaVersion definitions (pendingDefinitions schemaVersion definitions)))

/-- **The logs for which the options are exact.** -/
def WellIgnored (ignore : IgnoreLogs) : Prop :=
  if ignore.singlePendingLog ∧ (pendingDefinitions schemaVersion definitions).length = 1 then
    (failedDefinitions schemaVersion definitions = [] ∨ ignore.singleDirtyLog
        ∧ OnlyNext schemaVersion definitions (failedDefinitions schemaVersion definitions))
      ∧ (SomeDead indexStatus (pendingDefinitions schemaVersion definitions) →
        OnlyNext schemaVersion definitions (pendingDefinitions schemaVersion definitions))
  else
    ignore.singleDirtyLog → (failedDefinitions schemaVersion definitions).length = 1 →
      (SomeDead indexStatus (pendingDefinitions schemaVersion definitions)
          ∧ FirstApplied schemaVersion definitions)
        ∨ (¬ SomeDead indexStatus (pendingDefinitions schemaVersion definitions)
          ∧ (FirstApplied schemaVersion definitions
            ↔ ¬ OnlyNext schemaVersion definitions (failedDefinitions schemaVersion definitions)))

variable {indexStatus schemaVersion definitions}

/-- The pending migrations are partitioned without an error and without a dead
one iff the index of each is being created. -/
theorem queryPendingMigrations_eq_ok {l : List Definition} :
    (∃ pending, queryPendingMigrations indexStatus l = .ok (pending, []))
      ↔ ¬ SomeDead indexStatus l := by
  unfold SomeDead
  push Not
  induction l with
  | nil => exact ⟨fun _ d hd => absurd hd not_mem_nil, fun _ => ⟨[], rfl⟩⟩
  | cons d l ih =>
    rw [forall_mem_cons, ← ih, queryPendingMigrations]
    cases isBeingCreated indexStatus d with
    | error err => simp [Except.bind]
    | ok active =>
      cases queryPendingMigrations indexStatus l with
      | error err => simp [Except.bind]
      | ok parts =>
        cases active with
        | false => simp [Except.bind]
        | true => simp [Except.bind, Prod.ext_iff]

/-- The loop finds the migration that failed iff the first definition was not
applied. -/
theorem findsFailed_iff (h : (failedDefinitions schemaVersion definitions).length = 1) :
    findsFailed definitions (groupByState schemaVersion definitions) = true
      ↔ ¬ FirstApplied schemaVersion definitions := by
  obtain ⟨failed, hfailed⟩ := length_eq_one_iff.mp h
  have hmem : failed ∈ definitions :=
    (mem_filter.mp (hfailed ▸ mem_singleton_self failed :
      failed ∈ failedDefinitions schemaVersion definitions)).1
  obtain ⟨first, rest, rfl⟩ := exists_cons_of_ne_nil (ne_nil_of_mem hmem)
  have happlied : ((groupByState schemaVersion (first :: rest)).applied.map Definition.id).contains
      first.id = true ↔ first.id ∈ schemaVersion.appliedVersions := by
    rw [contains_iff_mem, mem_map]
    constructor
    · rintro ⟨d, hd, heq⟩
      exact heq ▸ contains_iff_mem.mp (mem_filter.mp hd).2
    · intro hid
      exact ⟨first, mem_filter.mpr ⟨mem_cons_self, contains_iff_mem.mpr hid⟩, rfl⟩
  have hfirst : FirstApplied schemaVersion (first :: rest)
      ↔ first.id ∈ schemaVersion.appliedVersions := by
    simp [FirstApplied]
  unfold failedDefinitions at hfailed
  rw [findsFailed, any_eq_true, hfirst, ← happlied, hfailed]
  simp only [head?_cons, Option.any_some, Bool.and_eq_true, beq_iff_eq, Bool.not_eq_true',
    Bool.not_eq_true]
  constructor
  · rintro ⟨d, -, hnot, -⟩
    exact hnot
  · intro hnot
    exact ⟨failed, hmem, hnot, rfl⟩

/-- **When the check reports an error.** -/
theorem validateSchemaState_error_iff {ignore : IgnoreLogs} :
    (∃ err, ignore.validateSchemaState indexStatus definitions
        (groupByState schemaVersion definitions) = .error err)
      ↔ ¬ (ignore.singleDirtyLog = true ∧ (failedDefinitions schemaVersion definitions).length = 1
          ∧ ¬ FirstApplied schemaVersion definitions)
        ∧ ¬ (ignore.singlePendingLog = true
          ∧ (pendingDefinitions schemaVersion definitions).length = 1)
        ∧ (failedDefinitions schemaVersion definitions ≠ []
          ∨ SomeDead indexStatus (pendingDefinitions schemaVersion definitions)) := by
  have hfinds : (ignore.singleDirtyLog && decide ((groupByState schemaVersion
        definitions).failed.length = 1)
      && findsFailed definitions (groupByState schemaVersion definitions)) = true
      ↔ ignore.singleDirtyLog = true ∧ (failedDefinitions schemaVersion definitions).length = 1
        ∧ ¬ FirstApplied schemaVersion definitions := by
    rw [Bool.and_eq_true, Bool.and_eq_true, decide_eq_true_iff, and_assoc]
    exact and_congr_right fun _ => and_congr_right fun h => findsFailed_iff h
  have hsingle : (ignore.singlePendingLog && decide ((groupByState schemaVersion
        definitions).pending.length = 1)) = true
      ↔ ignore.singlePendingLog = true
        ∧ (pendingDefinitions schemaVersion definitions).length = 1 := by
    rw [Bool.and_eq_true, decide_eq_true_iff]
    exact Iff.rfl
  rw [← hfinds, ← hsingle]
  unfold IgnoreLogs.validateSchemaState
  split_ifs with hdirty hpending hfailed hsome
  · simp [hdirty]
  · simp [hpending]
  · refine iff_of_true ⟨_, rfl⟩ ⟨hdirty, hpending, .inl ?_⟩
    exact length_pos_iff.mp hfailed
  · have hnil : failedDefinitions schemaVersion definitions = [] :=
      eq_nil_of_length_eq_zero (Nat.eq_zero_of_not_pos hfailed)
    rw [and_iff_right hdirty, and_iff_right hpending, or_iff_right (not_not.mpr hnil),
      ← not_iff_not, ← queryPendingMigrations_eq_ok, pendingDefinitions]
    cases queryPendingMigrations indexStatus (groupByState schemaVersion definitions).pending with
    | error err => simp [Except.bind]
    | ok parts =>
      obtain ⟨pending, failed⟩ := parts
      cases failed with
      | nil => simp [Except.bind]
      | cons d failed => simp [Except.bind]
  · have hnil : failedDefinitions schemaVersion definitions = [] :=
      eq_nil_of_length_eq_zero (Nat.eq_zero_of_not_pos hfailed)
    have hnone : pendingDefinitions schemaVersion definitions = [] :=
      eq_nil_of_length_eq_zero (Nat.eq_zero_of_not_pos hsome)
    simp [hnil, hnone, SomeDead]

theorem OnlyNext.length_eq {l : List Definition} (h : OnlyNext schemaVersion definitions l) :
    l.length = 1 := by
  obtain ⟨d, rfl, -⟩ := h
  rfl

/-- **The options are exact iff** a single pending migration that is ignored is
the next one or not dead, and hides no failed migrations; and otherwise a
single failed migration is found by the loop iff it is the next one and no
pending migration is dead. -/
theorem validateSchemaState_exact_iff (indexStatus : IndexStatuses)
    (schemaVersion : SchemaVersion) (definitions : List Definition) (ignore : IgnoreLogs) :
    Exact indexStatus schemaVersion definitions ignore
      ↔ WellIgnored indexStatus schemaVersion definitions ignore := by
  have hone : (failedDefinitions schemaVersion definitions).length = 1 →
      failedDefinitions schemaVersion definitions ≠ [] := fun h hnil => by simp [hnil] at h
  have hfailed : OnlyNext schemaVersion definitions
      (failedDefinitions schemaVersion definitions) → _ := OnlyNext.length_eq
  have hpending : OnlyNext schemaVersion definitions
      (pendingDefinitions schemaVersion definitions) → _ := OnlyNext.length_eq
  rw [Exact, validateSchemaState_error_iff, WellIgnored]
  split_ifs with hignored
  · refine (iff_false_left fun h => h.2.1 hignored).trans ?_
    rw [not_or, not_and_not_right, not_and_not_right, and_iff_right hignored.1,
      ← or_iff_not_imp_left]
  · -- a pending migration is not ignored, so that only failed ones may be
    have hnext : ¬ (ignore.singlePendingLog = true
        ∧ OnlyNext schemaVersion definitions (pendingDefinitions schemaVersion definitions)) :=
      fun h => hignored ⟨h.1, hpending h.2⟩
    rw [and_iff_right hignored, and_iff_left hnext]
    by_cases hdirty : ignore.singleDirtyLog = true
        ∧ (failedDefinitions schemaVersion definitions).length = 1
    · rw [← and_assoc, and_iff_right hdirty, not_not, and_iff_left (.inl (hone hdirty.2)),
        and_iff_right (hone hdirty.2), and_iff_right hdirty.1, imp_iff_right hdirty.1,
        imp_iff_right hdirty.2]
      by_cases hdead : SomeDead indexStatus (pendingDefinitions schemaVersion definitions)
      · simp only [hdead, or_true, iff_true, true_and, not_true_eq_false, false_and, or_false]
      · simp only [hdead, or_false, false_and, not_false_eq_true, true_and, false_or]
    · have hnot : ¬ (ignore.singleDirtyLog = true ∧ OnlyNext schemaVersion definitions
          (failedDefinitions schemaVersion definitions)) :=
        fun h => hdirty ⟨h.1, hfailed h.2⟩
      rw [and_iff_right fun h => hdirty ⟨h.1, h.2.1⟩, and_iff_left hnot]
      exact iff_of_true Iff.rfl fun h hlength => absurd ⟨h, hlength⟩ hdirty

end Exact

/-- A plan of three migrations. -/
def threeDefinitions : List Definition := [⟨1, [], false⟩, ⟨2, [1], false⟩, ⟨3, [2], false⟩]

/-- **The options are not exact**, for a store without indexes. -/
theorem validateSchemaState_not_exact :
    -- a failed migration that is not the next one is ignored
    ¬ Exact (fun _ => .ok none) ⟨[], [], [3]⟩ threeDefinitions ⟨true, false⟩
      -- a failed migration that is the next one is not ignored
      ∧ ¬ Exact (fun _ => .ok none) ⟨[1], [], [2]⟩ threeDefinitions ⟨true, false⟩
      -- a pending migration that is not the next one is ignored
      ∧ ¬ Exact (fun _ => .ok none) ⟨[], [3], []⟩ threeDefinitions ⟨false, true⟩
      -- failed migrations are ignored with a pending one
      ∧ ¬ Exact (fun _ => .ok none) ⟨[], [1], [2, 3]⟩ threeDefinitions ⟨false, true⟩ := by
  refine ⟨fun h => ?_, fun h => ?_, fun h => ?_, fun h => ?_⟩
  · obtain ⟨err, herr⟩ := h.mpr (by decide +kernel)
    exact absurd herr nofun
  · exact absurd (h.mp ⟨_, rfl⟩) (by decide +kernel)
  · obtain ⟨err, herr⟩ := h.mpr (by decide +kernel)
    exact absurd herr nofun
  · obtain ⟨err, herr⟩ := h.mpr (by decide +kernel)
    exact absurd herr nofun

end Migration
