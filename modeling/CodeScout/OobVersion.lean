import CodeScout.Util.GoStrconv
import CodeScout.Util.Iterates
import Mathlib

/-!
# Versions of out-of-band migrations

The versions of a release are numbered by a major and a minor number. A table
knows, for some majors, the minor with which they ended; the release after
that one is the first of the next major.

`UpgradeRange` enumerates what lies between two versions by going from one
release to the next until it is past the target. It is only told that the
first version is before the second. For majors that the table does not know,
and for minors beyond the last one, the way to the next release does not lead
to the next major, so that the enumeration misses the target or does not end
at all. `upgradeRange_enumerates_iff` says for which pairs of versions it is
right.
-/

namespace Oobmigration

open List

/-- A version. The flag says that it was written with `+dev`; no comparison
looks at it. -/
structure Version where
  major : Int64
  minor : Int64
  dev : Bool := false
  deriving DecidableEq

namespace Version

/-- `%s` of a version. -/
def toString (v : Version) : GoString :=
  formatInt v.major.toInt ++ lit "." ++ formatInt v.minor.toInt

end Version

def lastMinorVersionInMajorRelease : List (Int64 × Int64) :=
  [(3, 43), (4, 5)]

/-- The last minor version of a major release, where it is known. -/
def lastMinor (major : Int64) : Option Int64 :=
  lastMinorVersionInMajorRelease.lookup major

/-- The release after this one. -/
def Version.next (v : Version) : Version :=
  if lastMinor v.major = some v.minor then ⟨v.major + 1, 0, false⟩
  else ⟨v.major, v.minor + 1, false⟩

/-- The release before this one, and whether there is one. -/
def Version.previous (v : Version) : Version × Bool :=
  if v.minor = 0 then
    (⟨v.major - 1, (lastMinor (v.major - 1)).getD 0, false⟩, (lastMinor (v.major - 1)).isSome)
  else
    (⟨v.major, v.minor - 1, false⟩, true)

inductive VersionOrder
  | before
  | equal
  | after
  deriving DecidableEq

/-- By the numbers; that a version is in development does not count. -/
def compareVersions (a b : Version) : VersionOrder :=
  if a.major < b.major then .before
  else if a.major > b.major then .after
  else if a.minor < b.minor then .before
  else if a.minor > b.minor then .after
  else .equal

/-- The versions from one to another. -/
def upgradeRange (fuel : ℕ) (source target : Version) : Outcome GoString (List Version) :=
  if compareVersions source target ≠ .before then
    .error (lit "invalid range (from=" ++ source.toString ++ lit " >= to=" ++ target.toString ++
      lit ")")
  else
    Outcome.iterates Version.next (fun v => compareVersions v target == .after) fuel source

/-! ## The order of the versions -/

/-- What a comparison looks at. -/
def Version.key (v : Version) : ℤ ×ₗ ℤ := toLex (v.major.toInt, v.minor.toInt)

variable {a b target v : Version}

theorem key_lt_key : a.key < b.key ↔ a.major.toInt < b.major.toInt ∨
      a.major.toInt = b.major.toInt ∧ a.minor.toInt < b.minor.toInt :=
  Prod.Lex.toLex_lt_toLex

open Int64

theorem key_eq_key : a.key = b.key ↔ a.major = b.major ∧ a.minor = b.minor := by
  rw [Version.key, Version.key, toLex_inj, Prod.mk.injEq, toInt_inj, toInt_inj]

theorem eq_of_key_eq (ha : a.dev = false) (hb : b.dev = false) (h : a.key = b.key) : a = b := by
  obtain ⟨hmajor, hminor⟩ := key_eq_key.mp h
  cases a
  cases b
  simp_all

theorem compareVersions_eq_before :
    compareVersions a b = .before ↔ a.key < b.key := by
  rw [key_lt_key]
  unfold compareVersions
  simp only [GT.gt, lt_iff_toInt_lt]
  split_ifs <;> simp <;> omega

theorem compareVersions_eq_after :
    compareVersions a b = .after ↔ b.key < a.key := by
  rw [key_lt_key]
  unfold compareVersions
  simp only [GT.gt, lt_iff_toInt_lt]
  split_ifs <;> simp <;> omega

/-! ## The next release -/

/-- The table only has minors that are not negative, and nothing at the end of
the range of an `int`. -/
theorem lastMinor_bounds {major minor : Int64} (h : lastMinor major = some minor) :
    major ≠ Int64.maxValue ∧ 0 ≤ minor.toInt ∧ minor ≠ Int64.maxValue := by
  obtain ⟨l₁, l₂, hsplit, -⟩ := lookup_eq_some_iff.mp h
  have hmem : (major, minor) ∈ lastMinorVersionInMajorRelease := by
    rw [hsplit]
    exact mem_append_right _ mem_cons_self
  simp only [lastMinorVersionInMajorRelease, mem_cons, Prod.mk.injEq, not_mem_nil, or_false] at hmem
  rcases hmem with ⟨rfl, rfl⟩ | ⟨rfl, rfl⟩ <;> decide

theorem toInt_add_one {a : Int64} (h : a ≠ Int64.maxValue) : (a + 1).toInt = a.toInt + 1 := by
  have hmax : a.toInt ≠ 2 ^ 63 - 1 := fun heq => h (toInt_inj.mp heq)
  have hlow := a.le_toInt
  have hhigh := a.toInt_lt
  rw [toInt_add]
  refine Int.bmod_eq_of_le ?_ ?_ <;> simp <;> omega

theorem ne_maxValue_of_lt {a b : Int64} (h : a.toInt < b.toInt) : a ≠ Int64.maxValue := by
  rintro rfl
  have hhigh := b.toInt_lt
  rw [toInt_maxValue] at h
  omega

/-- A step to the next release goes up unless the minor number wraps around. -/
theorem key_lt_next : v.key < v.next.key ↔
    lastMinor v.major = some v.minor ∨ v.minor ≠ Int64.maxValue := by
  rw [key_lt_key]
  unfold Version.next
  split_ifs with hlast
  · have hmajor := toInt_add_one (lastMinor_bounds hlast).1
    simp only [hlast, true_or, iff_true]
    omega
  · simp only [hlast, false_or, lt_irrefl, true_and]
    by_cases hwrap : v.minor = maxValue
    · rw [hwrap]
      decide
    · simp only [toInt_add_one hwrap, ne_eq, hwrap, not_false_iff, iff_true]
      omega

/-- **The target is on the way.** Within one major release, the way up must
not pass its last minor version. From one major to a later one, every major
that is left must have a last minor version, at or above the minor at which
it is entered, and the target must not be beyond the end of its own major. -/
def OnTheWay (source target : Version) : Prop :=
  target.minor ≠ Int64.maxValue ∧
    ((source.major = target.major ∧ source.minor < target.minor ∧
        ∀ last, lastMinor source.major = some last → source.minor ≤ last → target.minor ≤ last) ∨
      (source.major < target.major ∧
        (∃ last, lastMinor source.major = some last ∧ source.minor ≤ last) ∧
        (∀ major, source.major < major → major < target.major → (lastMinor major).isSome) ∧
        0 ≤ target.minor ∧ ∀ last, lastMinor target.major = some last → target.minor ≤ last))

theorem next_of_last (h : lastMinor v.major = some v.minor) :
    v.next = ⟨v.major + 1, 0, false⟩ :=
  if_pos h

theorem next_of_not_last (h : lastMinor v.major ≠ some v.minor) :
    v.next = ⟨v.major, v.minor + 1, false⟩ :=
  if_neg h

/-- From the last release of a major the way leads through the next major. -/
theorem onTheWay_iff_of_last (h : lastMinor v.major = some v.minor)
    (hmax : target.minor ≠ Int64.maxValue) :
    OnTheWay v target ↔ v.next.key = target.key ∨ OnTheWay v.next target := by
  obtain ⟨hmajor, hzero, -⟩ := lastMinor_bounds h
  have hsucc := toInt_add_one hmajor
  rw [next_of_last h, key_eq_key]
  simp only [OnTheWay, hmax, ne_eq, not_false_iff, true_and, lt_iff_toInt_lt, le_iff_toInt_le,
    ← toInt_inj, hsucc, toInt_zero]
  constructor
  · rintro (⟨-, hlt, hend⟩ | ⟨hlt, -, hmid, hpos, hend⟩)
    · have := hend v.minor h le_rfl
      omega
    · rcases eq_or_lt_of_le (show v.major.toInt + 1 ≤ target.major.toInt by omega) with heq | hlt'
      · rcases eq_or_lt_of_le hpos with hpos | hpos
        · exact .inl ⟨heq, hpos⟩
        · exact .inr (.inl ⟨heq, hpos, fun last hlast _ => hend last
            (toInt_inj.mp (hsucc.trans heq) ▸ hlast)⟩)
      · obtain ⟨last, hlast⟩ := Option.isSome_iff_exists.mp
          (hmid (v.major + 1) (by omega) (by omega))
        exact .inr (.inr ⟨hlt', ⟨last, hlast, (lastMinor_bounds hlast).2.1⟩,
          fun major hlow => hmid major (by omega), hpos, hend⟩)
  · rintro (⟨heq, hpos⟩ | ⟨heq, hpos, hend⟩ | ⟨hlt, hentry, hmid, hpos, hend⟩)
    · exact .inr ⟨by omega, ⟨v.minor, h, le_rfl⟩, fun major hlow hhigh => by omega, hpos.le,
        fun last hlast => by rw [← hpos]; exact (lastMinor_bounds hlast).2.1⟩
    · refine .inr ⟨by omega, ⟨v.minor, h, le_rfl⟩, fun major hlow hhigh => by omega, hpos.le,
        fun last hlast => hend last ?_ (lastMinor_bounds hlast).2.1⟩
      rw [toInt_inj.mp (hsucc.trans heq), hlast]
    · refine .inr ⟨by omega, ⟨v.minor, h, le_rfl⟩, fun major hlow hhigh => ?_, hpos, hend⟩
      rcases eq_or_lt_of_le (show v.major.toInt + 1 ≤ major.toInt by omega) with heq | hlt'
      · obtain ⟨last, hlast, -⟩ := hentry
        rw [← toInt_inj.mp (hsucc.trans heq), hlast]
        rfl
      · exact hmid major hlt' hhigh

/-- From any other release the way leads through the next minor. -/
theorem onTheWay_iff_of_not_last (h : lastMinor v.major ≠ some v.minor)
    (hmax : target.minor ≠ Int64.maxValue) :
    OnTheWay v target ↔ v.minor ≠ Int64.maxValue ∧
      (v.next.key = target.key ∨ OnTheWay v.next target) := by
  -- a last minor version that is not below this one is above it
  have hne : ∀ last, lastMinor v.major = some last → v.minor.toInt ≤ last.toInt →
      v.minor.toInt < last.toInt := fun last hlast hle => by
    refine lt_of_le_of_ne hle fun heq => h ?_
    rw [toInt_inj.mp heq, hlast]
  have hup : OnTheWay v target → v.minor ≠ maxValue := by
    rintro ⟨-, ⟨-, hlt, -⟩ | ⟨-, ⟨last, hlast, hle⟩, -⟩⟩
    · exact ne_maxValue_of_lt (lt_iff_toInt_lt.mp hlt)
    · exact ne_maxValue_of_lt (hne last hlast (le_iff_toInt_le.mp hle))
  by_cases hwrap : v.minor = maxValue
  · exact iff_of_false (fun hway => hup hway hwrap) fun hstep => hstep.1 hwrap
  have hsucc := toInt_add_one hwrap
  rw [next_of_not_last h, key_eq_key]
  simp only [OnTheWay, hmax, hwrap, ne_eq, not_false_iff, true_and, lt_iff_toInt_lt,
    le_iff_toInt_le, ← toInt_inj, hsucc]
  constructor
  · rintro (⟨heq, hlt, hend⟩ | ⟨hlt, ⟨last, hlast, hle⟩, hrest⟩)
    · rcases eq_or_lt_of_le (show v.minor.toInt + 1 ≤ target.minor.toInt by omega) with hm | hm
      · exact .inl ⟨heq, hm⟩
      · exact .inr (.inl ⟨heq, hm, fun last hlast hle => hend last hlast (by omega)⟩)
    · exact .inr (.inr ⟨hlt, ⟨last, hlast, hne last hlast hle⟩, hrest⟩)
  · rintro (⟨heq, hm⟩ | ⟨heq, hlt, hend⟩ | ⟨hlt, ⟨last, hlast, hle⟩, hrest⟩)
    · exact .inl ⟨heq, by omega, fun last hlast hle => by
        have := hne last hlast hle
        omega⟩
    · exact .inl ⟨heq, by omega, fun last hlast hle => hend last hlast (hne last hlast hle)⟩
    · exact .inr ⟨hlt, ⟨last, hlast, by omega⟩, hrest⟩

/-- **One step of the way.** The target is on the way if the next release is
above this one and is the target, or has the target on its way. -/
theorem onTheWay_iff_next (hmax : target.minor ≠ Int64.maxValue) :
    OnTheWay v target ↔ v.key < v.next.key ∧
      (v.next.key = target.key ∨ OnTheWay v.next target) := by
  rw [key_lt_next]
  by_cases h : lastMinor v.major = some v.minor
  · rw [onTheWay_iff_of_last h hmax]
    simp only [h, true_or, true_and]
  · rw [onTheWay_iff_of_not_last h hmax]
    simp only [h, false_or]

theorem key_lt_of_onTheWay (h : OnTheWay v target) :
    v.key < target.key := by
  rw [key_lt_key]
  obtain ⟨-, ⟨heq, hlt, -⟩ | ⟨hlt, -⟩⟩ := h
  · exact .inr ⟨by rw [heq], lt_iff_toInt_lt.mp hlt⟩
  · exact .inl (lt_iff_toInt_lt.mp hlt)

/-- How far it is to the target, at most: the majors that are left, and the
minors that are left in this one. -/
def distance (target v : Version) : ℕ ×ₗ ℕ :=
  toLex ((target.major.toInt + 1 - v.major.toInt).toNat,
    ((if v.major = target.major then target.minor else (lastMinor v.major).getD 0).toInt + 1 -
      v.minor.toInt).toNat)

/-- Every step up to the target, and the one from the target on, shortens the
way. -/
theorem distance_next_lt (hmax : target.minor ≠ Int64.maxValue)
    (h : v = target ∨ OnTheWay v target) : distance target v.next < distance target v := by
  rw [distance, distance, Prod.Lex.toLex_lt_toLex]
  by_cases hlast : lastMinor v.major = some v.minor
  · left
    have hsucc := toInt_add_one (lastMinor_bounds hlast).1
    have hle : v.major.toInt ≤ target.major.toInt := by
      rcases h with rfl | h
      · exact le_rfl
      · rcases key_lt_key.mp (key_lt_of_onTheWay h) with hlt | ⟨heq, -⟩
        · exact hlt.le
        · exact heq.le
    rw [next_of_last hlast]
    simp only [hsucc]
    omega
  · right
    rw [next_of_not_last hlast]
    refine ⟨rfl, ?_⟩
    simp only
    rcases h with rfl | h
    · rw [if_pos rfl, toInt_add_one hmax]
      omega
    · have hstep := ((onTheWay_iff_of_not_last hlast hmax).mp h).1
      rw [toInt_add_one hstep]
      obtain ⟨-, ⟨heq, hlt, -⟩ | ⟨hlt, ⟨last, hsome, hle⟩, -⟩⟩ := h
      · rw [lt_iff_toInt_lt] at hlt
        rw [if_pos heq]
        omega
      · rw [le_iff_toInt_le] at hle
        rw [lt_iff_toInt_lt] at hlt
        rw [if_neg (fun heq => by rw [heq] at hlt; omega), hsome]
        simp only [Option.getD_some]
        omega

/-! ## The enumeration -/

/-- What an enumeration from one version to another is. -/
structure Enumerates (source target : Version) (versions : List Version) : Prop where
  increasing : versions.Pairwise fun v w => compareVersions v w = .before
  head : versions.head? = some source
  last : versions.getLast? = some target
  next : versions.IsChain fun v w => w = v.next

theorem past_eq_false :
    (compareVersions v target == .after) = false ↔ v.key ≤ target.key := by
  rw [beq_eq_false_iff_ne, ne_eq, compareVersions_eq_after, not_lt]

theorem past_eq_true :
    (compareVersions v target == .after) = true ↔ target.key < v.key := by
  rw [beq_iff_eq, compareVersions_eq_after]

theorem dev_next (v : Version) : v.next.dev = false := by
  unfold Version.next
  split_ifs <;> rfl

/-- The invariant of the loop: the target is ahead, or was passed. -/
def Underway (target v : Version) : Prop :=
  v = target ∨ OnTheWay v target ∨ target.key < v.key

/-- Up to the target, the next version is above this one, and the loop is
still underway. -/
theorem Underway.step (hdev : target.dev = false)
    (hmax : target.minor ≠ Int64.maxValue) (h : Underway target v) (hle : v.key ≤ target.key) :
    Underway target v.next ∧ v.key < v.next.key ∧ distance target v.next < distance target v := by
  obtain rfl | hway | hpast := h
  · have hup : v.key < v.next.key := key_lt_next.mpr (.inr hmax)
    exact ⟨.inr (.inr hup), hup, distance_next_lt hmax (.inl rfl)⟩
  · obtain ⟨hup, hnext⟩ := (onTheWay_iff_next hmax).mp hway
    refine ⟨?_, hup, distance_next_lt hmax (.inr hway)⟩
    obtain heq | hway := hnext
    · exact .inl (eq_of_key_eq (dev_next v) hdev heq)
    · exact .inr (.inl hway)
  · exact absurd hpast (not_lt.mpr hle)

theorem enumerates_of_onTheWay {source target : Version} (hdev : target.dev = false)
    (h : OnTheWay source target) :
    ∃ versions, Outcome.Yields (upgradeRange · source target) versions ∧
      Enumerates source target versions := by
  have hsource := key_lt_of_onTheWay h
  have hstep : ∀ v, Underway target v → (compareVersions v target == .after) = false →
      Underway target v.next ∧ v.key < v.next.key ∧ distance target v.next < distance target v :=
    fun v hv hpast => hv.step hdev h.1 (past_eq_false.mp hpast)
  obtain ⟨versions, fuel, hfuel⟩ : ∃ versions, Outcome.Yields (upgradeRange · source target)
      versions := by
    simp only [upgradeRange, compareVersions_eq_before.mpr hsource, ne_eq, not_true, if_false]
    exact Outcome.yields_iterates (InvImage.wf (distance target) wellFounded_lt)
      (fun v hv hpast => ⟨(hstep v hv hpast).1, (hstep v hv hpast).2.2⟩) (.inr (.inl h))
  refine ⟨versions, ⟨fuel, hfuel⟩, ?_⟩
  simp only [upgradeRange, compareVersions_eq_before.mpr hsource, ne_eq, not_true, if_false]
    at hfuel
  have hall := Outcome.forall_mem_of_iterates (fun v hv hpast => (hstep v hv hpast).1) hfuel
    (.inr (.inl h))
  have hchain := Outcome.isChain_of_iterates hfuel
  have hhead := Outcome.head?_of_iterates hfuel (past_eq_false.mpr hsource.le)
  refine ⟨?_, hhead, ?_, hchain⟩
  · have hkeys : versions.IsChain fun v w => v.key < w.key := by
      refine hchain.imp_of_mem_imp fun v w hv _ hw => ?_
      rw [hw]
      exact (hstep v (hall v hv).1 (hall v hv).2).2.1
    have hkeys := (isChain_map Version.key).mpr hkeys
    exact (pairwise_map.mp hkeys.pairwise).imp fun hlt => compareVersions_eq_before.mpr hlt
  · obtain ⟨v, hlast⟩ : ∃ v, versions.getLast? = some v := by
      cases versions with
      | nil => cases hhead
      | cons v versions => exact ⟨_, getLast?_eq_some_getLast (cons_ne_nil _ _)⟩
    obtain ⟨hv, hpast⟩ := hall v (mem_of_getLast? hlast)
    obtain rfl | hway | hlt := hv
    · exact hlast
    · -- the version after one that has the target ahead is not past it
      have hnext := past_eq_true.mp (Outcome.past_next_of_iterates hfuel hlast)
      obtain heq | hway := ((onTheWay_iff_next h.1).mp hway).2
      · exact absurd hnext (not_lt.mpr heq.le)
      · exact absurd hnext (key_lt_of_onTheWay hway).not_gt
    · exact absurd hlt (not_lt.mpr (past_eq_false.mp hpast))

theorem onTheWay_of_chain (hmax : target.minor ≠ Int64.maxValue) {versions : List Version} :
    ∀ {source : Version}, (source :: versions).IsChain (fun v w => w = v.next) →
      (source :: versions).Pairwise (fun v w => compareVersions v w = .before) →
      (source :: versions).getLast? = some target →
      source = target ∨ target.dev = false ∧ OnTheWay source target := by
  induction versions with
  | nil => exact fun _ _ hlast => .inl (Option.some.inj hlast)
  | cons v versions ih =>
    intro source hchain hpairwise hlast
    right
    obtain ⟨hnext, hchain⟩ := isChain_cons_cons.mp hchain
    obtain ⟨hlt, hpairwise⟩ := pairwise_cons.mp hpairwise
    have hup := compareVersions_eq_before.mp (hlt v mem_cons_self)
    rw [getLast?_cons_cons] at hlast
    rw [onTheWay_iff_next hmax, ← hnext]
    obtain rfl | ⟨hdev, hway⟩ := ih hchain hpairwise hlast
    · exact ⟨hnext ▸ dev_next source, hup, .inl rfl⟩
    · exact ⟨hdev, hup, .inr hway⟩

/-- **When an upgrade range is right.** For versions with `source < target`,
`UpgradeRange` returns the strictly increasing list of the releases from one to
the other if and only if the target is a release on the way, not marked as a
development version. -/
theorem upgradeRange_enumerates_iff (source target : Version)
    (h : compareVersions source target = .before) :
    (∃ versions, Outcome.Yields (upgradeRange · source target) versions ∧
        Enumerates source target versions)
      ↔ target.dev = false ∧ OnTheWay source target := by
  have hlt := compareVersions_eq_before.mp h
  constructor
  · rintro ⟨versions, ⟨fuel, hfuel⟩, henum⟩
    simp only [upgradeRange, h, ne_eq, not_true, if_false] at hfuel
    have hpast := past_eq_true.mp (Outcome.past_next_of_iterates hfuel henum.last)
    have hmax : target.minor ≠ maxValue := by
      obtain hend | hmax := key_lt_next.mp hpast
      · exact (lastMinor_bounds hend).2.2
      · exact hmax
    cases versions with
    | nil => cases henum.head
    | cons v versions =>
      cases henum.head
      obtain rfl | hway := onTheWay_of_chain hmax henum.next henum.increasing henum.last
      · exact absurd hlt (lt_irrefl _)
      · exact hway
  · rintro ⟨hdev, hway⟩
    exact enumerates_of_onTheWay hdev hway

/-- From 3.42 to 4.1, over the end of a major release. -/
theorem upgradeRange_enumerates_major :
    ∃ versions, Outcome.Yields (upgradeRange · ⟨3, 42, false⟩ ⟨4, 1, false⟩) versions ∧
      Enumerates ⟨3, 42, false⟩ ⟨4, 1, false⟩ versions :=
  (upgradeRange_enumerates_iff _ _ (by decide)).mpr
    ⟨rfl, by decide, .inr ⟨by decide, ⟨43, rfl, by decide⟩, fun major hlow hhigh => by
      rw [lt_iff_toInt_lt] at hlow hhigh
      have hthree : (3 : Int64).toInt = 3 := rfl
      have hfour : (4 : Int64).toInt = 4 := rfl
      simp only at hlow hhigh
      omega, by decide, fun last hlast => by cases hlast; decide⟩⟩

/-- **A range that does not end.** The table does not know how the major
release 2 ended, so that the way from 2.5 never leaves it. -/
theorem upgradeRange_unknown_major :
    compareVersions ⟨2, 5, false⟩ ⟨3, 0, false⟩ = .before ∧
      ∀ fuel, upgradeRange fuel ⟨2, 5, false⟩ ⟨3, 0, false⟩ = .outOfFuel := by
  refine ⟨by decide, fun fuel => ?_⟩
  have hbefore : compareVersions ⟨2, 5, false⟩ ⟨3, 0, false⟩ = .before := by decide
  simp only [upgradeRange, hbefore, ne_eq, not_true, if_false]
  refine Outcome.iterates_eq_outOfFuel (P := fun v => v.major = 2) (fun v hv => ?_)
    (fun v hv => ?_) rfl fuel
  · rw [past_eq_false]
    refine (key_lt_key.mpr (.inl ?_)).le
    rw [hv]
    decide
  · rw [next_of_not_last, hv]
    rw [hv]
    exact nofun

end Oobmigration
