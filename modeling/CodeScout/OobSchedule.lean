import CodeScout.OobVersion
import CodeScout.Util.GoMap
import CodeScout.Util.GoSlice
import CodeScout.Util.GoSort
import CodeScout.Util.Stabbing
import Mathlib

/-!
# Interrupts of upgrades and downgrades

An out-of-band migration runs in the background of the releases from the one
that introduces it to the one before its deprecation. An upgrade over its
deprecation, or a downgrade over its introduction, has to be interrupted at a
release that still knows it. Both schedules scan the migrations in the
direction of travel and choose versions greedily; `makeCoveringSet` then
assigns each migration to the last of the chosen versions in its interval.

This module has the functions of the source and what `makeCoveringSet`
returns. It looks at *closed* intervals, also for upgrades.
-/

namespace Oobmigration

open List

/-- A migration as it is declared. -/
structure YamlMigration where
  id : ℤ
  introducedVersionMajor : Int64
  introducedVersionMinor : Int64
  deprecatedVersionMajor : Option Int64
  deprecatedVersionMinor : Option Int64

/-- The versions between which a migration can run. -/
structure MigrationInterval where
  id : ℤ
  introduced : Version
  deprecated : Version
  deriving DecidableEq

/-- A version at which migrations have to finish. -/
structure MigrationInterrupt where
  version : Version
  migrationIDs : List ℤ
  deriving DecidableEq

namespace YamlMigration

/-- The version that introduces a migration. -/
def introduced (m : YamlMigration) : Version :=
  ⟨m.introducedVersionMajor, m.introducedVersionMinor, false⟩

/-- The version that deprecates a migration, if there is one. Whether there is
one is decided by the major number alone, and reading the minor number panics
if it is not there. -/
def deprecated (m : YamlMigration) : Outcome GoString (Option Version) :=
  match m.deprecatedVersionMajor with
  | none => .ok none
  | some major => do
    let minor ← .ofOption m.deprecatedVersionMinor
    return some ⟨major, minor, false⟩

end YamlMigration

/-- `point` is in the closed interval. -/
def pointIntersectsInterval (lower upper point : Version) : Bool :=
  compareVersions point lower != .before && compareVersions upper point != .before

/-- The loop of `makeCoveringSet` over the intervals. -/
def assignPoints (points : List Version) :
    GoMap Version (List ℤ) → List MigrationInterval → Outcome GoString (GoMap Version (List ℤ))
  | coveringSet, [] => .ok coveringSet
  | coveringSet, interval :: intervals =>
    match points.find? (pointIntersectsInterval interval.introduced interval.deprecated) with
    | some point => assignPoints points (coveringSet.appendTo point interval.id) intervals
    | none => .panic -- unreachable: input interval not covered in output

/-- The migrations for each of the points. -/
def makeCoveringSet (order : RangeOrder) (intervals : List MigrationInterval)
    (points : List Version) : Outcome GoString (List MigrationInterrupt) := do
  -- the points are flipped, so that migrations run as late as possible
  let points ← GoSlice.swapEnds (points.length + 1) 0 (points.length - 1) points
  let coveringSet ← assignPoints points ∅ intervals
  return (order.range [] coveringSet.toPairs).map fun entry =>
    ⟨entry.1, entry.2.insertionSort (· ≤ ·)⟩

/-! ## Upgrades -/

/-- The intervals that end after `source` and not after `target`. -/
def upgradeIntervals (source target : Version) :
    List YamlMigration → Outcome GoString (List MigrationInterval)
  | [] => .ok []
  | m :: migrations => do
    match ← m.deprecated with
    | none => upgradeIntervals source target migrations
    | some deprecated =>
      let intervals ← upgradeIntervals source target migrations
      if compareVersions source deprecated = .before ∧ compareVersions deprecated target ≠ .after
      then return ⟨m.id, m.introduced, deprecated⟩ :: intervals
      else return intervals

/-- The loop that chooses the versions of an upgrade. -/
def upgradePoints : List Version → List MigrationInterval → Outcome GoString (List Version)
  | points, [] => .ok points
  | points, interval :: intervals =>
    if points.getLast?.all fun p => compareVersions p interval.introduced == .before then
      if interval.deprecated.previous.2 then
        upgradePoints (points ++ [interval.deprecated.previous.1]) intervals
      else
        .error (lit "cannot determine version prior to " ++ interval.deprecated.toString)
    else
      upgradePoints points intervals

/-- The interrupts of an upgrade. -/
def scheduleUpgrade (sorter : SliceSort) (order : RangeOrder) (source target : Version)
    (migrations : List YamlMigration) : Outcome GoString (List MigrationInterrupt) := do
  let intervals ← upgradeIntervals source target migrations
  let intervals := sorter.sort
    (fun i j => compareVersions i.deprecated j.deprecated == .before) intervals
  let points ← upgradePoints [] intervals
  let interrupts ← makeCoveringSet order intervals points
  return sorter.sort (fun i j => compareVersions i.version j.version == .before) interrupts

/-! ## Downgrades -/

/-- The intervals that begin at `target` or later and before `source`. A
migration that is not deprecated gets the version after `target`. -/
def downgradeIntervals (source target : Version) :
    List YamlMigration → Outcome GoString (List MigrationInterval)
  | [] => .ok []
  | m :: migrations => do
    let deprecated := (← m.deprecated).getD ⟨target.next.major, target.next.minor, false⟩
    let intervals ← downgradeIntervals source target migrations
    if compareVersions target m.introduced ≠ .after ∧
      compareVersions m.introduced source = .before
    then return ⟨m.id, m.introduced, deprecated⟩ :: intervals
    else return intervals

/-- The loop that chooses the versions of a downgrade. -/
def downgradePoints : List Version → List MigrationInterval → List Version
  | points, [] => points
  | points, interval :: intervals =>
    if points.getLast?.all fun p => compareVersions interval.deprecated p != .after then
      downgradePoints (points ++ [interval.introduced]) intervals
    else
      downgradePoints points intervals

/-- The interrupts of a downgrade. -/
def scheduleDowngrade (sorter : SliceSort) (order : RangeOrder) (source target : Version)
    (migrations : List YamlMigration) : Outcome GoString (List MigrationInterrupt) := do
  let intervals ← downgradeIntervals source target migrations
  let intervals := sorter.sort
    (fun i j => compareVersions j.introduced i.introduced == .before) intervals
  let points := downgradePoints [] intervals
  let interrupts ← makeCoveringSet order intervals points
  return sorter.sort (fun i j => compareVersions j.version i.version == .before) interrupts

/-! ## Covering sets -/

theorem pointIntersectsInterval_eq_true {lower upper point : Version} :
    pointIntersectsInterval lower upper point = true
      ↔ lower.key ≤ point.key ∧ point.key ≤ upper.key := by
  rw [pointIntersectsInterval, Bool.and_eq_true, bne_iff_ne, bne_iff_ne, ne_eq, ne_eq,
    compareVersions_eq_before, compareVersions_eq_before, not_lt, not_lt]

/-- The version that an interval is assigned to: the last of the chosen ones
that is in the interval. -/
def assigned (points : List Version) (interval : MigrationInterval) : Option Version :=
  points.reverse.find? (pointIntersectsInterval interval.introduced interval.deprecated)

variable {interval : MigrationInterval} {points : List Version}
  {intervals : List MigrationInterval}

theorem assigned_eq_some {v : Version} (h : assigned points interval = some v) :
    v ∈ points ∧ interval.introduced.key ≤ v.key ∧ v.key ≤ interval.deprecated.key := by
  refine ⟨mem_reverse.mp (mem_of_find?_eq_some h), ?_⟩
  exact pointIntersectsInterval_eq_true.mp (find?_some h)

theorem isSome_assigned :
    (assigned points interval).isSome = true ↔ ∃ v ∈ points,
      interval.introduced.key ≤ v.key ∧ v.key ≤ interval.deprecated.key := by
  simp only [assigned, find?_isSome, mem_reverse, pointIntersectsInterval_eq_true]

/-- What the map of a covering set says about the intervals seen so far. -/
structure Covers (points : List Version) (intervals : List MigrationInterval)
    (coveringSet : GoMap Version (List ℤ)) : Prop where
  ids : (coveringSet.toPairs.flatMap Prod.snd).Perm (intervals.map MigrationInterval.id)
  assigned : ∀ entry ∈ coveringSet.toPairs, ∀ id ∈ entry.2,
    ∃ interval ∈ intervals, interval.id = id ∧ assigned points interval = some entry.1
  points : ∀ entry ∈ coveringSet.toPairs, entry.1 ∈ points

variable {coveringSet : GoMap Version (List ℤ)}

theorem Covers.appendTo (h : Covers points intervals coveringSet) {v : Version}
    (hv : Oobmigration.assigned points interval = some v) :
    Covers points (intervals ++ [interval]) (coveringSet.appendTo v interval.id) := by
  -- what was assigned before stays assigned
  have hold : ∀ entry ∈ coveringSet.toPairs, ∀ id ∈ entry.2, ∃ interval' ∈ intervals ++ [interval],
      interval'.id = id ∧ Oobmigration.assigned points interval' = some entry.1 := by
    intro entry hentry id hid
    obtain ⟨interval', hmem, hassigned⟩ := h.assigned entry hentry id hid
    exact ⟨interval', mem_append_left _ hmem, hassigned⟩
  refine ⟨?_, fun ⟨w, l⟩ hentry id hid => ?_, fun ⟨w, l⟩ hentry => ?_⟩
  · rw [map_append]
    exact (coveringSet.flatMap_appendTo_perm v interval.id).trans (h.ids.append_right _)
  · obtain ⟨rfl, rfl⟩ | ⟨-, hentry⟩ := GoMap.mem_toPairs_appendTo.mp hentry
    · obtain hid | hid := mem_append.mp hid
      · cases hlookup : coveringSet.lookup w with
        | none => simp [hlookup] at hid
        | some l =>
          rw [hlookup] at hid
          exact hold (w, l) (GoMap.mem_toPairs.mpr hlookup) id hid
      · rw [mem_singleton] at hid
        exact ⟨interval, mem_append_right _ mem_cons_self, hid.symm, hv⟩
    · exact hold (w, l) hentry id hid
  · obtain ⟨rfl, -⟩ | ⟨-, hentry⟩ := GoMap.mem_toPairs_appendTo.mp hentry
    · exact (assigned_eq_some hv).1
    · exact h.points _ hentry

theorem assignPoints_of_isSome {done : List MigrationInterval} (h : Covers points done coveringSet)
    (hall : ∀ interval ∈ intervals, (assigned points interval).isSome = true) :
    ∃ result, assignPoints points.reverse coveringSet intervals = .ok result ∧
      Covers points (done ++ intervals) result := by
  induction intervals generalizing done coveringSet with
  | nil => exact ⟨coveringSet, rfl, by rwa [append_nil]⟩
  | cons interval intervals ih =>
    obtain ⟨hinterval, hall⟩ := forall_mem_cons.mp hall
    obtain ⟨v, hv⟩ := Option.isSome_iff_exists.mp hinterval
    obtain ⟨result, hresult, hcovers⟩ := ih (h.appendTo hv) hall
    refine ⟨result, ?_, by rwa [append_assoc] at hcovers⟩
    unfold assigned at hv
    rw [assignPoints, hv]
    exact hresult

theorem assignPoints_of_isNone
    (h : ∃ interval ∈ intervals, assigned points interval = none) :
    assignPoints points.reverse coveringSet intervals = .panic := by
  induction intervals generalizing coveringSet with
  | nil => simp at h
  | cons interval intervals ih =>
    cases hv : assigned points interval with
    | none =>
      unfold assigned at hv
      rw [assignPoints, hv]
    | some v =>
      have hrest : ∃ interval ∈ intervals, assigned points interval = none := by
        obtain ⟨interval', hmem, hnone⟩ := h
        obtain rfl | hmem := mem_cons.mp hmem
        · rw [hv] at hnone
          cases hnone
        · exact ⟨interval', hmem, hnone⟩
      unfold assigned at hv
      rw [assignPoints, hv]
      exact ih hrest

/-- **What a covering set is.** Every interval is assigned to exactly one
interrupt, at a chosen version, and there is one interrupt for each version. -/
structure CoveringSet (points : List Version) (intervals : List MigrationInterval)
    (interrupts : List MigrationInterrupt) : Prop where
  versions : (interrupts.map MigrationInterrupt.version).Nodup
  ids : (interrupts.flatMap MigrationInterrupt.migrationIDs).Perm
    (intervals.map MigrationInterval.id)
  assigned : ∀ interrupt ∈ interrupts, ∀ id ∈ interrupt.migrationIDs,
    ∃ interval ∈ intervals, interval.id = id ∧ assigned points interval = some interrupt.version
  points : ∀ interrupt ∈ interrupts, interrupt.version ∈ points

theorem swapEnds_eq_reverse (points : List Version) :
    (GoSlice.swapEnds (points.length + 1) 0 (points.length - 1) points
      : Outcome GoString (List Version)) = .ok points.reverse := by
  have h := GoSlice.swapEnds_eq (ε := GoString) (points.length + 1) [] points []
    (Nat.lt_succ_self _)
  simpa using h

/-- If every interval has a chosen version, the result is a covering set. -/
theorem makeCoveringSet_of_isSome (order : RangeOrder)
    (h : ∀ interval ∈ intervals, (assigned points interval).isSome = true) :
    ∃ interrupts, makeCoveringSet order intervals points = .ok interrupts ∧
      CoveringSet points intervals interrupts := by
  have hempty : Covers points [] ∅ := ⟨.refl _, nofun, nofun⟩
  obtain ⟨coveringSet, hresult, hids, hassigned, hpoints⟩ := assignPoints_of_isSome hempty h
  have hperm := order.range_perm [] coveringSet.toPairs
  refine ⟨_, by rw [makeCoveringSet, swapEnds_eq_reverse, Outcome.ok_bind, hresult]; rfl,
    ?_, ?_, ?_, ?_⟩
  · rw [map_map]
    exact (hperm.map Prod.fst).nodup_iff.mpr coveringSet.nodup_toPairs
  · rw [flatMap_map]
    refine List.Perm.trans ?_ ((hperm.flatMap_right Prod.snd).trans hids)
    exact List.Perm.flatMap_left _ fun entry _ => perm_insertionSort _ _
  · intro interrupt hinterrupt id hid
    obtain ⟨entry, hentry, rfl⟩ := mem_map.mp hinterrupt
    exact hassigned entry (hperm.mem_iff.mp hentry) id (mem_insertionSort _ |>.mp hid)
  · intro interrupt hinterrupt
    obtain ⟨entry, hentry, rfl⟩ := mem_map.mp hinterrupt
    exact hpoints entry (hperm.mem_iff.mp hentry)

/-- If some interval has no chosen version, there is a panic. -/
theorem makeCoveringSet_of_isNone (order : RangeOrder)
    (h : ∃ interval ∈ intervals, assigned points interval = none) :
    makeCoveringSet order intervals points = .panic := by
  rw [makeCoveringSet, swapEnds_eq_reverse, Outcome.ok_bind, assignPoints_of_isNone h]
  rfl

namespace CoveringSet

variable {interrupts : List MigrationInterrupt} (h : CoveringSet points intervals interrupts)

include h

/-- Neither the order of the intervals nor the one of the interrupts matters. -/
theorem perm {intervals' : List MigrationInterval}
    (hintervals : intervals.Perm intervals') {interrupts' : List MigrationInterrupt}
    (hinterrupts : interrupts'.Perm interrupts) : CoveringSet points intervals' interrupts' where
  versions := (hinterrupts.map _).nodup_iff.mpr h.versions
  ids := (hinterrupts.flatMap_right _).trans (h.ids.trans (hintervals.map _))
  assigned interrupt hmem id hid := by
    obtain ⟨i, hi, hassigned⟩ := h.assigned interrupt (hinterrupts.mem_iff.mp hmem) id hid
    exact ⟨i, hintervals.mem_iff.mp hi, hassigned⟩
  points interrupt hmem := h.points interrupt (hinterrupts.mem_iff.mp hmem)

/-- With distinct ids, an interrupt that an interval occurs in is at the
version that the interval is assigned to. -/
theorem assigned_eq (hids : (intervals.map MigrationInterval.id).Nodup)
    (hmem : interval ∈ intervals) {interrupt : MigrationInterrupt}
    (hinterrupt : interrupt ∈ interrupts) (hid : interval.id ∈ interrupt.migrationIDs) :
    Oobmigration.assigned points interval = some interrupt.version := by
  obtain ⟨interval', hmem', hid', hassigned⟩ := h.assigned interrupt hinterrupt _ hid
  rwa [inj_on_of_nodup_map hids hmem' hmem hid'] at hassigned

/-- Chosen versions without a development flag are told apart by their
numbers. -/
theorem nodup_keys (hdev : ∀ v ∈ points, v.dev = false) :
    (interrupts.map fun interrupt => interrupt.version.key).Nodup := by
  have hmap : (interrupts.map fun interrupt => interrupt.version.key)
      = (interrupts.map MigrationInterrupt.version).map Version.key := by
    rw [map_map]
    rfl
  rw [hmap]
  refine List.Nodup.map_on (fun v hv w hw heq => ?_) h.versions
  have hversion : ∀ v ∈ interrupts.map MigrationInterrupt.version, v.dev = false := by
    intro v hv
    obtain ⟨interrupt, hinterrupt, rfl⟩ := mem_map.mp hv
    exact hdev _ (h.points interrupt hinterrupt)
  exact eq_of_key_eq (hversion v hv) (hversion w hw) heq

theorem length_le : interrupts.length ≤ points.length := by
  rw [← length_map (f := MigrationInterrupt.version)]
  refine (subperm_of_subset h.versions fun v hv => ?_).length_le
  obtain ⟨interrupt, hinterrupt, rfl⟩ := mem_map.mp hv
  exact h.points interrupt hinterrupt

/-- With distinct ids, an interval occurs in exactly one interrupt, at the
version that it is assigned to. -/
theorem existsUnique (hids : (intervals.map MigrationInterval.id).Nodup)
    (hmem : interval ∈ intervals) :
    ∃! interrupt, interrupt ∈ interrupts ∧ interval.id ∈ interrupt.migrationIDs := by
  have hid := h.ids.mem_iff.mpr (mem_map_of_mem hmem)
  obtain ⟨interrupt, hinterrupt, hid⟩ := mem_flatMap.mp hid
  refine ⟨interrupt, ⟨hinterrupt, hid⟩, fun other ⟨hother, hid'⟩ => ?_⟩
  refine inj_on_of_nodup_map h.versions hother hinterrupt (Option.some.inj ?_)
  rw [← h.assigned_eq hids hmem hother hid', h.assigned_eq hids hmem hinterrupt hid]

end CoveringSet

end Oobmigration
