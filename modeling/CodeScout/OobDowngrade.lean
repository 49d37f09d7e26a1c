import CodeScout.OobUpgrade
import Mathlib

/-!
# Interrupts of downgrades

A downgrade has to undo every migration that is introduced on the way, before
it goes below its introduction. A migration without a deprecation can be
undone at any later version, so that its interval has no upper end. The source
gives it one, the version after the *target* of the downgrade: for a migration
that is introduced later than that the interval is empty, and the covering set
panics. `scheduleDowngrade_serves_iff` says that the interrupts are sound
unless this happens.
-/

namespace Oobmigration

open List

/-- The migration is introduced at `target` or later, and before `source`. -/
def YamlMigration.IntroducedWithin (m : YamlMigration) (source target : Version) : Prop :=
  compareVersions target m.introduced ≠ .after ∧ compareVersions m.introduced source = .before

/-- **Sound interrupts of a downgrade.** -/
structure ServesDowngrade (source target : Version) (migrations : List YamlMigration)
    (interrupts : List MigrationInterrupt) : Prop where
  decreasing : interrupts.Pairwise fun a b => compareVersions a.version b.version = .after
  occurs : ∀ m ∈ migrations, m.IntroducedWithin source target →
    ∃! interrupt, interrupt ∈ interrupts ∧ m.id ∈ interrupt.migrationIDs
  served : ∀ m ∈ migrations, m.IntroducedWithin source target →
    ∀ interrupt ∈ interrupts, m.id ∈ interrupt.migrationIDs →
      compareVersions m.introduced interrupt.version ≠ .after ∧
      ∀ d, m.deprecated = .ok (some d) → compareVersions interrupt.version d ≠ .after
  only : ∀ interrupt ∈ interrupts, ∀ id ∈ interrupt.migrationIDs,
    ∃ m ∈ migrations, m.id = id ∧ m.IntroducedWithin source target

/-! ## The intervals of a downgrade -/

/-- The end that a downgrade assumes for a migration. -/
def assumedDeprecated (target : Version) (deprecated : Option Version) : Version :=
  deprecated.getD ⟨target.next.major, target.next.minor, false⟩

theorem downgradeIntervals_eq_ok {source target : Version} {migrations : List YamlMigration}
    (h : ∀ m ∈ migrations, m.WellFormed) :
    ∃ intervals, downgradeIntervals source target migrations = .ok intervals ∧
      (∀ i, i ∈ intervals ↔ ∃ m ∈ migrations, m.IntroducedWithin source target ∧
        ∃ deprecated, m.deprecated = .ok deprecated ∧
          i = ⟨m.id, m.introduced, assumedDeprecated target deprecated⟩) ∧
      (intervals.map MigrationInterval.id).Sublist (migrations.map YamlMigration.id) := by
  induction migrations with
  | nil => exact ⟨[], rfl, by simp, .slnil⟩
  | cons m migrations ih =>
    obtain ⟨⟨deprecated, hdeprecated, -⟩, h⟩ := forall_mem_cons.mp h
    obtain ⟨intervals, hintervals, hmem, hsublist⟩ := ih h
    have hrest : ∀ i, (∃ m' ∈ m :: migrations, m'.IntroducedWithin source target ∧
          ∃ deprecated, m'.deprecated = .ok deprecated ∧
            i = ⟨m'.id, m'.introduced, assumedDeprecated target deprecated⟩) ↔
        (m.IntroducedWithin source target ∧
          i = ⟨m.id, m.introduced, assumedDeprecated target deprecated⟩) ∨
          i ∈ intervals := fun i => by
      rw [hmem, exists_mem_cons_iff]
      simp [hdeprecated]
    simp only [hrest, downgradeIntervals, hdeprecated, Outcome.ok_bind, hintervals]
    by_cases hwithin : m.IntroducedWithin source target
    · refine ⟨⟨m.id, m.introduced, assumedDeprecated target deprecated⟩ :: intervals,
        if_pos hwithin, fun i => ?_, hsublist.cons_cons _⟩
      simp [hwithin]
    · refine ⟨intervals, if_neg hwithin, fun i => ?_, hsublist.cons _⟩
      simp [hwithin]

/-! ## The chosen versions -/

/-- A point is not before the end of a migration. -/
def missesDowngrade (p : Version) (interval : MigrationInterval) : Bool :=
  compareVersions interval.deprecated p != .after

theorem downgradePoints_cons (points : List Version) (i : MigrationInterval)
    (intervals : List MigrationInterval) :
    downgradePoints points (i :: intervals)
      = if points.getLast?.all fun p => missesDowngrade p i then
          downgradePoints (points ++ [i.introduced]) intervals
        else downgradePoints points intervals :=
  rfl

theorem downgradePoints_eq {points : List Version} {intervals : List MigrationInterval} :
    downgradePoints points intervals = points ++
      (Stabbing.greedy missesDowngrade MigrationInterval.introduced points.getLast?
        intervals).map MigrationInterval.introduced := by
  induction intervals generalizing points with
  | nil => exact (append_nil points).symm
  | cons i intervals ih =>
    rw [Stabbing.greedy, downgradePoints_cons]
    split_ifs with hmiss
    · rw [ih, getLast?_concat, append_assoc]
      rfl
    · exact ih

/-- The intervals by decreasing introduction. -/
def byIntroduced (sorter : SliceSort) (intervals : List MigrationInterval) :
    List MigrationInterval :=
  sorter.sort (fun i j => compareVersions j.introduced i.introduced == .before) intervals

/-- The chosen versions. -/
def downgradeCuts (sorter : SliceSort) (intervals : List MigrationInterval) : List Version :=
  downgradePoints [] (byIntroduced sorter intervals)

section Cuts

variable {sorter : SliceSort} {intervals : List MigrationInterval}

theorem exists_of_mem_downgradeCuts {v : Version} (h : v ∈ downgradeCuts sorter intervals) :
    ∃ i ∈ intervals, i.introduced = v := by
  rw [downgradeCuts, downgradePoints_eq, nil_append] at h
  obtain ⟨i, hi, rfl⟩ := mem_map.mp h
  exact ⟨i, SliceSort.mem_sort.mp (Stabbing.greedy_subset hi), rfl⟩

theorem isSome_assigned_downgradeCuts {i : MigrationInterval} (hi : i ∈ intervals)
    (hle : i.introduced.key ≤ i.deprecated.key) :
    (assigned (downgradeCuts sorter intervals) i).isSome = true := by
  have hsorted : (byIntroduced sorter intervals).Pairwise fun i j =>
      j.introduced.key ≤ i.introduced.key :=
    sorter.pairwise_of_key (fun i => OrderDual.toDual i.introduced.key)
      (fun i j => by rw [beq_iff_eq, compareVersions_eq_before]; exact Iff.rfl) intervals
  obtain ⟨_, hnone, -⟩ | ⟨j, hj, hbefore, hserves⟩ : (∃ p ∈ none, missesDowngrade p i = false) ∨
        ∃ j ∈ Stabbing.greedy missesDowngrade MigrationInterval.introduced none
            (byIntroduced sorter intervals), i.introduced.key ≤ j.introduced.key ∧
          (j = i ∨ missesDowngrade j.introduced i = false) :=
    Stabbing.exists_mem_greedy (fun i => le_refl i.introduced.key) hsorted
      (SliceSort.mem_sort.mpr hi)
  · cases hnone
  · rw [isSome_assigned, downgradeCuts, downgradePoints_eq]
    refine ⟨j.introduced, mem_map_of_mem hj, hbefore, ?_⟩
    obtain rfl | hserves := hserves
    · exact hle
    · rw [missesDowngrade, bne_eq_false_iff_eq, compareVersions_eq_after] at hserves
      exact hserves.le

end Cuts

/-! ## The schedule -/

section Schedule

variable (sorter : SliceSort) (order : RangeOrder) {source target : Version}
  {migrations : List YamlMigration} {intervals : List MigrationInterval}

theorem scheduleDowngrade_of_nonempty
    (hintervals : downgradeIntervals source target migrations = .ok intervals)
    (hdev : ∀ i ∈ intervals, i.introduced.dev = false)
    (hle : ∀ i ∈ intervals, i.introduced.key ≤ i.deprecated.key) :
    ∃ interrupts, scheduleDowngrade sorter order source target migrations = .ok interrupts ∧
      interrupts.Pairwise (fun a b => compareVersions a.version b.version = .after) ∧
      CoveringSet (downgradeCuts sorter intervals) intervals interrupts := by
  have hperm : (byIntroduced sorter intervals).Perm intervals := sorter.sort_perm _ intervals
  obtain ⟨interrupts, hresult, hcovering⟩ : ∃ interrupts,
      makeCoveringSet order (byIntroduced sorter intervals) (downgradeCuts sorter intervals)
        = .ok interrupts ∧ CoveringSet _ (byIntroduced sorter intervals) interrupts :=
    makeCoveringSet_of_isSome order fun i hi =>
      isSome_assigned_downgradeCuts (hperm.mem_iff.mp hi) (hle i (hperm.mem_iff.mp hi))
  refine ⟨sorter.sort (fun a b => compareVersions b.version a.version == .before) interrupts,
    ?_, ?_, hcovering.perm hperm (sorter.sort_perm _ _)⟩
  · unfold downgradeCuts byIntroduced at hresult
    simp only [scheduleDowngrade, hintervals, Outcome.ok_bind, hresult]
    rfl
  · have hdev' : ∀ v ∈ downgradeCuts sorter intervals, v.dev = false := by
      intro v hv
      obtain ⟨i, hi, rfl⟩ := exists_of_mem_downgradeCuts hv
      exact hdev i hi
    have hsorted : (sorter.sort (fun a b => compareVersions b.version a.version == .before)
        interrupts).Pairwise fun a b => b.version.key < a.version.key :=
      sorter.pairwise_lt_of_key (fun a : MigrationInterrupt => OrderDual.toDual a.version.key)
        (fun a b => by rw [beq_iff_eq, compareVersions_eq_before]; exact Iff.rfl)
        (hcovering.nodup_keys hdev')
    exact hsorted.imp fun hlt => compareVersions_eq_after.mpr hlt

theorem scheduleDowngrade_of_empty
    (hintervals : downgradeIntervals source target migrations = .ok intervals)
    (h : ∃ i ∈ intervals, i.deprecated.key < i.introduced.key) :
    scheduleDowngrade sorter order source target migrations = .panic := by
  obtain ⟨i, hi, hlt⟩ := h
  have hnone : assigned (downgradeCuts sorter intervals) i = none := by
    cases hassigned : assigned (downgradeCuts sorter intervals) i with
    | none => rfl
    | some v =>
      obtain ⟨-, hlow, hhigh⟩ := assigned_eq_some hassigned
      exact absurd hlt (not_lt.mpr (hlow.trans hhigh))
  have hpanic : makeCoveringSet order (byIntroduced sorter intervals)
      (downgradeCuts sorter intervals) = .panic :=
    makeCoveringSet_of_isNone order ⟨i, SliceSort.mem_sort.mpr hi, hnone⟩
  unfold downgradeCuts byIntroduced at hpanic
  simp only [scheduleDowngrade, hintervals, Outcome.ok_bind, hpanic]
  rfl

end Schedule

/-- **When the interrupts of a downgrade are sound.** For well-formed
migrations with distinct ids, `scheduleDowngrade` returns sound interrupts if
and only if no migration of the downgrade without a deprecation is introduced
after the version that follows the target. -/
theorem scheduleDowngrade_serves_iff (sorter : SliceSort) (order : RangeOrder)
    (source target : Version) (migrations : List YamlMigration)
    (hids : (migrations.map YamlMigration.id).Nodup)
    (hformed : ∀ m ∈ migrations, m.WellFormed) :
    (∃ interrupts, scheduleDowngrade sorter order source target migrations = .ok interrupts ∧
        ServesDowngrade source target migrations interrupts)
      ↔ ∀ m ∈ migrations, m.IntroducedWithin source target → m.deprecated = .ok none →
          compareVersions m.introduced target.next ≠ .after := by
  obtain ⟨intervals, hintervals, hmem, hsublist⟩ :=
    @downgradeIntervals_eq_ok source target migrations hformed
  have hnodup := hids.sublist hsublist
  constructor
  · rintro ⟨interrupts, hresult, -⟩ m hm hwithin hdeprecated hafter
    have hpanic := scheduleDowngrade_of_empty sorter order hintervals
      ⟨_, (hmem _).mpr ⟨m, hm, hwithin, none, hdeprecated, rfl⟩, compareVersions_eq_after.mp hafter⟩
    rw [hresult] at hpanic
    cases hpanic
  · intro hnext
    have hle : ∀ i ∈ intervals, i.introduced.key ≤ i.deprecated.key := by
      intro i hi
      obtain ⟨m, hm, hwithin, deprecated, hdeprecated, rfl⟩ := (hmem i).mp hi
      obtain ⟨deprecated', hdeprecated', hlt⟩ := hformed m hm
      rw [hdeprecated] at hdeprecated'
      cases hdeprecated'
      cases deprecated with
      | none => exact not_lt.mp (mt compareVersions_eq_after.mpr (hnext m hm hwithin hdeprecated))
      | some d => exact (compareVersions_eq_before.mp (hlt d rfl)).le
    have hdev : ∀ i ∈ intervals, i.introduced.dev = false := by
      intro i hi
      obtain ⟨m, -, -, -, -, rfl⟩ := (hmem i).mp hi
      rfl
    obtain ⟨interrupts, hresult, hdecreasing, hcovering⟩ :=
      scheduleDowngrade_of_nonempty sorter order hintervals hdev hle
    refine ⟨interrupts, hresult, hdecreasing, fun m hm hwithin => ?_,
      fun m hm hwithin interrupt hinterrupt hid => ?_, fun interrupt hinterrupt id hid => ?_⟩
    · obtain ⟨deprecated, hdeprecated, -⟩ := hformed m hm
      exact hcovering.existsUnique hnodup
        ((hmem _).mpr ⟨m, hm, hwithin, deprecated, hdeprecated, rfl⟩)
    · obtain ⟨deprecated, hdeprecated, -⟩ := hformed m hm
      have hmem' := (hmem _).mpr ⟨m, hm, hwithin, deprecated, hdeprecated, rfl⟩
      have hassigned := hcovering.assigned_eq hnodup hmem' hinterrupt hid
      obtain ⟨-, hlow, hhigh⟩ := assigned_eq_some hassigned
      refine ⟨mt compareVersions_eq_after.mp (not_lt.mpr hlow), fun d hd => ?_⟩
      rw [hdeprecated] at hd
      cases hd
      exact mt compareVersions_eq_after.mp (not_lt.mpr hhigh)
    · obtain ⟨i, hi, rfl, -⟩ := hcovering.assigned interrupt hinterrupt id hid
      obtain ⟨m, hm, hwithin, -, -, rfl⟩ := (hmem i).mp hi
      exact ⟨m, hm, rfl, hwithin⟩

section Example

/-- A migration with a deprecation, and one without that is introduced right
after the target. -/
def openMigrations : List YamlMigration :=
  [⟨1, 3, 33, some 3, some 38⟩, ⟨2, 3, 31, none, none⟩]

/-- A downgrade from 3.40 to 3.30 undoes both. -/
theorem scheduleDowngrade_serves_open :
    ∃ interrupts, scheduleDowngrade .byInsertion .byEntries ⟨3, 40, false⟩ ⟨3, 30, false⟩
        openMigrations = .ok interrupts ∧
      ServesDowngrade ⟨3, 40, false⟩ ⟨3, 30, false⟩ openMigrations interrupts := by
  refine (scheduleDowngrade_serves_iff _ _ _ _ _ (by decide) ?_).mpr ?_
  · simp only [openMigrations, forall_mem_cons, not_mem_nil, false_implies, implies_true, and_true]
    exact ⟨⟨_, rfl, by decide⟩, ⟨_, rfl, by decide⟩⟩
  · simp only [openMigrations, forall_mem_cons, not_mem_nil, false_implies, implies_true, and_true]
    exact ⟨nofun, fun _ _ => by decide⟩

/-- **A downgrade that panics.** The migration is introduced in 3.35 and never
deprecated; its interval is assumed to end at 3.31. -/
theorem scheduleDowngrade_undeprecated :
    (∀ m ∈ [(⟨1, 3, 35, none, none⟩ : YamlMigration)], m.WellFormed) ∧
      scheduleDowngrade .byInsertion .byEntries ⟨3, 40, false⟩ ⟨3, 30, false⟩
        [⟨1, 3, 35, none, none⟩] = .panic := by
  refine ⟨?_, by decide +kernel⟩
  simp only [forall_mem_cons, not_mem_nil, false_implies, implies_true, and_true]
  exact ⟨_, rfl, by decide⟩

end Example

end Oobmigration
