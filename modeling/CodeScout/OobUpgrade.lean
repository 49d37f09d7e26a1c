import CodeScout.OobSchedule
import Mathlib

/-!
# Interrupts of upgrades

An upgrade has to serve every migration that is deprecated on the way, at a
version from its introduction on and before its deprecation. The greedy scan
gives the migrations with the earliest deprecation the version right before
it, and no smaller set of versions serves them all.

The covering set is made of closed intervals, however. If a version that was
chosen for one migration is the deprecation of another one, the other one is
assigned to it – the latest version in its closed interval – although an
earlier version was chosen for it. `scheduleUpgrade_serves_iff` says that this
is all that can go wrong, apart from versions that have no known predecessor.
Where a version is chosen is said there by the migrations alone: where more of
them have disjoint intervals than of those that are deprecated before. Left out
are migrations that are introduced in a version that `Previous` skips, such as
3.50 before 4.0.
-/

namespace Oobmigration

open List

/-- The version is skipped on the way back from `d` to the version before it. -/
def Version.Skips (d v : Version) : Prop :=
  d.previous.2 = true ∧ compareVersions d.previous.1 v = .before ∧ compareVersions v d = .before

namespace YamlMigration

/-- A migration that is deprecated, if at all, after its introduction. -/
def WellFormed (m : YamlMigration) : Prop :=
  ∃ deprecated, m.deprecated = .ok deprecated ∧
    ∀ d ∈ deprecated, compareVersions m.introduced d = .before

/-- The migration is deprecated at `d`, which is after `source` and not after
`target`. -/
def DeprecatedWithin (m : YamlMigration) (source target d : Version) : Prop :=
  m.deprecated = .ok (some d) ∧ compareVersions source d = .before ∧
    compareVersions d target ≠ .after

end YamlMigration

/-- A version at which a migration may finish before an upgrade goes on. -/
def ServedAt (introduced deprecated v : Version) : Prop :=
  compareVersions introduced v ≠ .after ∧ compareVersions v deprecated = .before

/-- **Sound and minimal interrupts.** -/
structure ServesUpgrade (source target : Version) (migrations : List YamlMigration)
    (interrupts : List MigrationInterrupt) : Prop where
  increasing : interrupts.Pairwise fun a b => compareVersions a.version b.version = .before
  occurs : ∀ m ∈ migrations, ∀ d, m.DeprecatedWithin source target d →
    ∃! interrupt, interrupt ∈ interrupts ∧ m.id ∈ interrupt.migrationIDs
  served : ∀ m ∈ migrations, ∀ d, m.DeprecatedWithin source target d →
    ∀ interrupt ∈ interrupts, m.id ∈ interrupt.migrationIDs →
      ServedAt m.introduced d interrupt.version
  only : ∀ interrupt ∈ interrupts, ∀ id ∈ interrupt.migrationIDs,
    ∃ m ∈ migrations, m.id = id ∧ ∃ d, m.DeprecatedWithin source target d
  minimal : ∀ versions : Finset Version,
    (∀ m ∈ migrations, ∀ d, m.DeprecatedWithin source target d →
      ∃ v ∈ versions, ServedAt m.introduced d v) →
    interrupts.length ≤ versions.card

/-- The interval of a migration that is deprecated on the way. -/
def IsUpgradeInterval (source target : Version) (migrations : List YamlMigration)
    (i : MigrationInterval) : Prop :=
  ∃ m ∈ migrations, ∃ d, m.DeprecatedWithin source target d ∧ i = ⟨m.id, m.introduced, d⟩

/-- **A further interrupt is needed** before `d`: of the migrations that are deprecated
at `d` or before, more have disjoint intervals than of those deprecated before `d`. -/
def NeedsInterrupt (source target : Version) (migrations : List YamlMigration)
    (d : Version) : Prop :=
  Stabbing.NeedsPoint (fun i : MigrationInterval => i.introduced.key) (fun i => i.deprecated.key)
    {i | IsUpgradeInterval source target migrations i} d.key

/-! ## The version before -/

section Previous

variable {d : Version}

theorem toInt_sub_one {a : Int64} (h : Int64.minValue < a) : (a - 1).toInt = a.toInt - 1 := by
  have hlow := Int64.lt_iff_toInt_lt.mp h
  rw [Int64.toInt_minValue] at hlow
  have hhigh := a.toInt_lt
  rw [Int64.toInt_sub]
  refine Int.bmod_eq_of_le ?_ ?_ <;> simp <;> omega

/-- The major number of a version whose predecessor is known does not wrap
around. -/
theorem toInt_major_sub_one {last : Int64} (h : lastMinor (d.major - 1) = some last) :
    (d.major - 1).toInt = d.major.toInt - 1 := by
  have hsucc := toInt_add_one (lastMinor_bounds h).1
  rw [show d.major - 1 + 1 = d.major from Int64.sub_add_cancel _ _] at hsucc
  omega

theorem previous_lt (hd : Int64.minValue < d.minor) (hok : d.previous.2 = true) :
    d.previous.1.key < d.key := by
  rw [key_lt_key]
  unfold Version.previous at hok ⊢
  split_ifs at hok ⊢ with hzero
  · obtain ⟨last, hlast⟩ := Option.isSome_iff_exists.mp hok
    left
    simp only [toInt_major_sub_one hlast]
    omega
  · right
    simp only [toInt_sub_one hd, true_and]
    omega

theorem dev_previous (v : Version) : v.previous.1.dev = false := by
  unfold Version.previous
  split_ifs <;> rfl

end Previous

/-! ## The intervals of an upgrade -/

theorem dev_deprecated {m : YamlMigration} {d : Version} (h : m.deprecated = .ok (some d)) :
    d.dev = false := by
  unfold YamlMigration.deprecated at h
  split at h
  · cases h
  · obtain ⟨minor, -, hd⟩ := Outcome.bind_eq_ok.mp h
    cases hd
    rfl

theorem upgradeIntervals_eq_ok {source target : Version} {migrations : List YamlMigration}
    (h : ∀ m ∈ migrations, m.WellFormed) :
    ∃ intervals, upgradeIntervals source target migrations = .ok intervals ∧
      (∀ i, i ∈ intervals ↔ IsUpgradeInterval source target migrations i) ∧
      (intervals.map MigrationInterval.id).Sublist (migrations.map YamlMigration.id) := by
  induction migrations with
  | nil => exact ⟨[], rfl, by simp [IsUpgradeInterval], .slnil⟩
  | cons m migrations ih =>
    obtain ⟨⟨deprecated, hdeprecated, -⟩, h⟩ := forall_mem_cons.mp h
    obtain ⟨intervals, hintervals, hmem, hsublist⟩ := ih h
    have hrest : ∀ i, IsUpgradeInterval source target (m :: migrations) i ↔
        (∃ d, m.DeprecatedWithin source target d ∧ i = ⟨m.id, m.introduced, d⟩) ∨
          i ∈ intervals := fun i => by
      rw [hmem, IsUpgradeInterval, exists_mem_cons_iff]
      rfl
    simp only [hrest, upgradeIntervals, hdeprecated, Outcome.ok_bind, hintervals]
    cases deprecated with
    | none =>
      refine ⟨intervals, rfl, fun i => ?_, hsublist.cons _⟩
      simp [YamlMigration.DeprecatedWithin, hdeprecated]
    | some d =>
      by_cases hwithin : compareVersions source d = .before ∧ compareVersions d target ≠ .after
      · refine ⟨⟨m.id, m.introduced, d⟩ :: intervals, if_pos hwithin, fun i => ?_,
          hsublist.cons_cons _⟩
        simp [YamlMigration.DeprecatedWithin, hdeprecated, hwithin]
      · refine ⟨intervals, if_neg hwithin, fun i => ?_, hsublist.cons _⟩
        simp [YamlMigration.DeprecatedWithin, hdeprecated, hwithin]

/-! ## The chosen versions -/

/-- The version chosen for a migration: the one before its deprecation. -/
def cutUpgrade (interval : MigrationInterval) : Version :=
  interval.deprecated.previous.1

/-- Intervals that are not empty, and no beginning of which is skipped before the end of
another one. -/
structure Spaced (intervals : List MigrationInterval) : Prop where
  lt : ∀ i ∈ intervals, i.introduced.key < i.deprecated.key
  cut_lt : ∀ i ∈ intervals, i.deprecated.previous.2 = true → (cutUpgrade i).key < i.deprecated.key
  le_cut : ∀ i ∈ intervals, i.deprecated.previous.2 = true → ∀ j ∈ intervals,
    j.introduced.key < i.deprecated.key → j.introduced.key ≤ (cutUpgrade i).key

theorem Spaced.perm {intervals intervals' : List MigrationInterval} (h : Spaced intervals)
    (hperm : intervals'.Perm intervals) : Spaced intervals' where
  lt i hi := h.lt i (hperm.mem_iff.mp hi)
  cut_lt i hi := h.cut_lt i (hperm.mem_iff.mp hi)
  le_cut i hi hok j hj := h.le_cut i (hperm.mem_iff.mp hi) hok j (hperm.mem_iff.mp hj)

/-- A point is before the introduction of a migration iff the deprecation for which it
was chosen is not after it. -/
theorem Spaced.before_iff {intervals : List MigrationInterval} (h : Spaced intervals)
    {i j : MigrationInterval} (hi : i ∈ intervals) (hok : i.deprecated.previous.2 = true)
    (hj : j ∈ intervals) : compareVersions (cutUpgrade i) j.introduced = .before ↔
      i.deprecated.key ≤ j.introduced.key := by
  rw [compareVersions_eq_before]
  constructor
  · intro hlt
    by_contra hbefore
    exact absurd (h.le_cut i hi hok j hj (not_le.mp hbefore)) (not_le.mpr hlt)
  · exact (h.cut_lt i hi hok).trans_le

variable {points : List Version}

/-- The scan of the source chooses the versions before the deprecations of disjoint
intervals, as long as these versions are known. -/
theorem upgradePoints_eq {all intervals : List MigrationInterval} (h : Spaced all)
    (hsubset : intervals ⊆ all) {last : Option MigrationInterval}
    (hlast : ∀ i ∈ last, i ∈ all ∧ i.deprecated.previous.2 = true)
    (hpoints : points.getLast? = last.map cutUpgrade) :
    let chosen := Stabbing.greedy (fun i j : MigrationInterval =>
      decide (i.deprecated.key ≤ j.introduced.key)) id last intervals
    ((∀ i ∈ chosen, i.deprecated.previous.2 = true) →
        upgradePoints points intervals = .ok (points ++ chosen.map cutUpgrade)) ∧
      ((∃ i ∈ chosen, i.deprecated.previous.2 ≠ true) →
        ∃ e, upgradePoints points intervals = .error e) := by
  induction intervals generalizing points last with
  | nil => exact ⟨fun _ => congrArg _ (append_nil points).symm, by simp [Stabbing.greedy]⟩
  | cons i intervals ih =>
    obtain ⟨hi, hsubset⟩ := cons_subset.mp hsubset
    have hmiss : (points.getLast?.all fun p => compareVersions p i.introduced == .before)
        = last.all fun j => decide (j.deprecated.key ≤ i.introduced.key) := by
      rw [hpoints]
      cases last with
      | none => rfl
      | some j =>
        obtain ⟨hj, hok⟩ := hlast j rfl
        rw [Option.map_some, Option.all_some, Option.all_some, Bool.eq_iff_iff, beq_iff_eq,
          decide_eq_true_iff]
        exact h.before_iff hj hok hi
    simp only [Stabbing.greedy]
    rw [upgradePoints, hmiss]
    by_cases hcut : (last.all fun j => decide (j.deprecated.key ≤ i.introduced.key)) = true
    · simp only [if_pos hcut, exists_mem_cons_iff, forall_mem_cons, map_cons]
      by_cases hok : i.deprecated.previous.2 = true
      · have hrest := @ih (points ++ [cutUpgrade i]) hsubset (some i)
          (by rintro _ ⟨⟩; exact ⟨hi, hok⟩) getLast?_concat
        refine ⟨fun hknown => ?_, fun hunknown => ?_⟩
        · have hresult := hrest.1 hknown.2
          rw [append_assoc] at hresult
          simpa [hok, cutUpgrade] using hresult
        · obtain ⟨e, he⟩ := hrest.2 (hunknown.resolve_left fun hne => hne hok)
          exact ⟨e, by simpa [hok, cutUpgrade] using he⟩
      · exact ⟨fun hknown => absurd hknown.1 hok, fun _ => ⟨_, if_neg hok⟩⟩
    · rw [if_neg hcut, if_neg hcut]
      exact ih hsubset hlast hpoints

/-- The migrations for which a version is chosen. -/
def cutIntervals (sorter : SliceSort) (intervals : List MigrationInterval) :
    List MigrationInterval :=
  Stabbing.disjoint (fun i => i.introduced.key) (fun i => i.deprecated.key)
    (sorter.sort (fun i j => compareVersions i.deprecated j.deprecated == .before) intervals)

theorem servedAt_iff {introduced deprecated v : Version} :
    ServedAt introduced deprecated v ↔ introduced.key ≤ v.key ∧ v.key < deprecated.key := by
  rw [ServedAt, ne_eq, compareVersions_eq_after, compareVersions_eq_before, not_lt]

section Cuts

variable {sorter : SliceSort} {intervals : List MigrationInterval} {i : MigrationInterval}

theorem mem_of_mem_cutIntervals (h : i ∈ cutIntervals sorter intervals) :
    i ∈ intervals :=
  SliceSort.mem_sort.mp (Stabbing.greedy_subset h)

theorem pairwise_deprecated (sorter : SliceSort) (intervals : List MigrationInterval) :
    (sorter.sort (fun i j => compareVersions i.deprecated j.deprecated == .before)
      intervals).Pairwise fun i j => i.deprecated.key ≤ j.deprecated.key :=
  sorter.pairwise_of_key (fun i => i.deprecated.key)
    (fun i j => by rw [beq_iff_eq, compareVersions_eq_before]) intervals

/-- A migration is assigned to the latest of the chosen versions in its closed
interval. -/
theorem le_assigned (hpoints : points.Pairwise fun v w => v.key < w.key)
    {v w : Version} (hv : assigned points i = some v) (hw : w ∈ points)
    (hlow : i.introduced.key ≤ w.key) (hhigh : w.key ≤ i.deprecated.key) : w.key ≤ v.key := by
  obtain ⟨hpv, before, after, hsplit, hnot⟩ := find?_eq_some_iff_append.mp hv
  have hmem : w ∈ before ++ v :: after := by
    rw [← hsplit]
    exact mem_reverse.mpr hw
  have hpw := pointIntersectsInterval_eq_true.mpr ⟨hlow, hhigh⟩
  obtain hbefore | hmem := mem_append.mp hmem
  · have := hnot w hbefore
    rw [hpw] at this
    cases this
  · obtain rfl | hafter := mem_cons.mp hmem
    · exact le_rfl
    · have hreverse := pairwise_reverse.mpr hpoints
      rw [hsplit] at hreverse
      exact (rel_of_pairwise_cons (pairwise_append.mp hreverse).2.1 hafter).le

variable (hspaced : Spaced intervals)

include hspaced

/-- Versions are chosen where interrupts are needed. -/
theorem needsPoint_iff_cutIntervals (e : ℤ ×ₗ ℤ) :
    Stabbing.NeedsPoint (fun i : MigrationInterval => i.introduced.key) (fun i => i.deprecated.key)
        {i | i ∈ intervals} e
      ↔ ∃ i ∈ cutIntervals sorter intervals, i.deprecated.key = e := by
  have hperm := sorter.sort_perm
    (fun i j : MigrationInterval => compareVersions i.deprecated j.deprecated == .before) intervals
  rw [cutIntervals, ← Stabbing.needsPoint_iff (hspaced.perm hperm).lt
    (pairwise_deprecated sorter intervals)]
  simp only [hperm.mem_iff]

theorem pairwise_cutIntervals :
    (cutIntervals sorter intervals).Pairwise fun i j =>
      i.deprecated.key ≤ j.introduced.key :=
  Stabbing.pairwise_disjoint (hspaced.perm (sorter.sort_perm _ _)).lt

/-- No smaller set of versions serves the migrations of an upgrade. -/
theorem length_cutIntervals_le {versions : Finset Version}
    (h : ∀ i ∈ intervals, ∃ v ∈ versions, ServedAt i.introduced i.deprecated v) :
    (cutIntervals sorter intervals).length ≤ versions.card := by
  have hkeys : ∀ i ∈ cutIntervals sorter intervals, ∃ p ∈ versions.image Version.key,
      i.introduced.key ≤ p ∧ p < i.deprecated.key := by
    intro i hi
    obtain ⟨v, hv, hserved⟩ := h i (mem_of_mem_cutIntervals hi)
    exact ⟨v.key, Finset.mem_image_of_mem _ hv, servedAt_iff.mp hserved⟩
  calc (cutIntervals sorter intervals).length ≤ (versions.image Version.key).card :=
        Stabbing.length_le_card_of_pairwise ((pairwise_cutIntervals hspaced).imp
          fun hij p q hp hq => hp.2.trans_le (hij.trans hq.1)) hkeys
    _ ≤ versions.card := Finset.card_image_le

variable (hknown : ∀ i ∈ cutIntervals sorter intervals, i.deprecated.previous.2 = true)

include hknown

theorem cutUpgrade_mem (hi : i ∈ cutIntervals sorter intervals) :
    i.introduced.key ≤ (cutUpgrade i).key ∧ (cutUpgrade i).key < i.deprecated.key :=
  have hmem := mem_of_mem_cutIntervals hi
  ⟨hspaced.le_cut i hmem (hknown i hi) i hmem (hspaced.lt i hmem),
    hspaced.cut_lt i hmem (hknown i hi)⟩

theorem exists_cut (hi : i ∈ intervals) :
    ∃ j ∈ cutIntervals sorter intervals,
      i.introduced.key ≤ (cutUpgrade j).key ∧ (cutUpgrade j).key < i.deprecated.key := by
  obtain ⟨j, hj, hle, hlt⟩ := Stabbing.exists_mem_disjoint
    (hspaced.perm (sorter.sort_perm _ _)).lt (pairwise_deprecated sorter intervals)
    (SliceSort.mem_sort.mpr hi)
  refine ⟨j, hj, ?_, (cutUpgrade_mem hspaced hknown hj).2.trans_le hle⟩
  exact hspaced.le_cut j (mem_of_mem_cutIntervals hj) (hknown j hj) i hi hlt

theorem pairwise_cuts :
    ((cutIntervals sorter intervals).map cutUpgrade).Pairwise fun v w => v.key < w.key := by
  rw [pairwise_map]
  refine (pairwise_cutIntervals hspaced).imp_of_mem fun {i j} hi hj hle => ?_
  have hcut := fun {k} => cutUpgrade_mem (i := k) hspaced hknown
  exact (hcut hi).2.trans_le (hle.trans (hcut hj).1)

end Cuts

/-! ## The schedule -/

section Schedule

variable {sorter : SliceSort} (order : RangeOrder) {source target : Version}
  {migrations : List YamlMigration} {intervals : List MigrationInterval}

theorem scheduleUpgrade_of_known
    (hintervals : upgradeIntervals source target migrations = .ok intervals)
    (hspaced : Spaced intervals)
    (hknown : ∀ i ∈ cutIntervals sorter intervals, i.deprecated.previous.2 = true) :
    ∃ interrupts, scheduleUpgrade sorter order source target migrations = .ok interrupts ∧
      interrupts.Pairwise (fun a b => compareVersions a.version b.version = .before) ∧
      CoveringSet ((cutIntervals sorter intervals).map cutUpgrade) intervals interrupts := by
  have hperm := sorter.sort_perm
    (fun i j : MigrationInterval => compareVersions i.deprecated j.deprecated == .before) intervals
  have hassigned : ∀ i ∈ sorter.sort
      (fun i j => compareVersions i.deprecated j.deprecated == .before) intervals,
      (assigned ((cutIntervals sorter intervals).map cutUpgrade) i).isSome = true := by
    intro i hi
    obtain ⟨j, hj, hlow, hhigh⟩ := exists_cut hspaced hknown (hperm.mem_iff.mp hi)
    exact isSome_assigned.mpr ⟨_, mem_map_of_mem hj, hlow, hhigh.le⟩
  obtain ⟨interrupts, hresult, hcovering⟩ := makeCoveringSet_of_isSome order hassigned
  refine ⟨sorter.sort (fun a b => compareVersions a.version b.version == .before) interrupts,
    ?_, ?_, hcovering.perm hperm (sorter.sort_perm _ _)⟩
  · have hpoints : upgradePoints [] (sorter.sort
        (fun i j => compareVersions i.deprecated j.deprecated == .before) intervals)
          = .ok ((cutIntervals sorter intervals).map cutUpgrade) :=
      (@upgradePoints_eq [] _ _ (hspaced.perm hperm) (List.Subset.refl _) none nofun rfl).1 hknown
    simp only [scheduleUpgrade, hintervals, Outcome.ok_bind, hpoints, hresult]
    rfl
  · have hdev : ∀ v ∈ (cutIntervals sorter intervals).map cutUpgrade, v.dev = false := by
      intro v hv
      obtain ⟨i, -, rfl⟩ := mem_map.mp hv
      exact dev_previous _
    exact (sorter.pairwise_lt_of_key (fun a : MigrationInterrupt => a.version.key)
      (fun a b => by rw [beq_iff_eq, compareVersions_eq_before]) (hcovering.nodup_keys hdev)).imp
      fun hlt => compareVersions_eq_before.mpr hlt

theorem scheduleUpgrade_of_unknown
    (hintervals : upgradeIntervals source target migrations = .ok intervals)
    (hspaced : Spaced intervals)
    (h : ∃ i ∈ cutIntervals sorter intervals, i.deprecated.previous.2 ≠ true) :
    ∃ e, scheduleUpgrade sorter order source target migrations = .error e := by
  obtain ⟨e, he⟩ : ∃ e, upgradePoints [] (sorter.sort
      (fun i j => compareVersions i.deprecated j.deprecated == .before) intervals) = .error e :=
    (@upgradePoints_eq [] _ _ (hspaced.perm (sorter.sort_perm _ _)) (List.Subset.refl _) none
      nofun rfl).2 h
  refine ⟨e, ?_⟩
  simp only [scheduleUpgrade, hintervals, Outcome.ok_bind, he]
  rfl

end Schedule

section Example

/-- Two migrations that overlap. -/
def overlappingMigrations : List YamlMigration :=
  [⟨1, 3, 1, some 3, some 50⟩, ⟨2, 3, 3, some 3, some 8⟩]

/-- A migration that ends with the release that introduces the next one. -/
def adjacentMigrations : List YamlMigration :=
  [⟨1, 3, 1, some 3, some 5⟩, ⟨2, 3, 5, some 3, some 6⟩]

end Example

end Oobmigration
