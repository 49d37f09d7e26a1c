import CodeScout.VisibleUploads
import CodeScout.Util.Nearest

/-!
# Visible uploads are the nearest ones

From a commit one sees the uploads of its ancestors, each at the length of
a path of parents. Of the uploads with one token, the visible one is the
least by length and identifier. The maps of the graph hold exactly these
(`Holds`), and so do the loops that build them, for the part of the graph
they have looked at.

A commit that stores nothing defines no upload and has at most one parent,
so what it sees is what its parent sees, one step farther away. Following
single parents up to a commit that stores its uploads therefore loses
nothing (`nearestAncestors_spec`, `traverseForCommit_spec`).
-/

namespace Commitgraph

open Gitdomain Nearest List

/-! ## Maps that hold the nearest uploads -/

/-- The distance and the identifier of an upload, compared in this order. -/
def UploadMeta.key (upload : UploadMeta) : ℕ ×ₗ ℤ :=
  toLex (upload.distance.toNat, upload.uploadID)

theorem replaces_iff (upload₁ upload₂ : UploadMeta) :
    replaces upload₁ upload₂ = true ↔ upload₁.key < upload₂.key := by
  unfold replaces UploadMeta.key
  rw [Prod.Lex.toLex_lt_toLex, Bool.or_eq_true, Bool.and_eq_true, decide_eq_true_iff,
    decide_eq_true_iff, decide_eq_true_iff, UInt32.lt_iff_toNat_lt, UInt32.toNat_inj]

variable {upload : UploadMeta} {distance : UInt32}

theorem UploadMeta.key_addDistance (h : upload.distance.toNat + distance.toNat < 2 ^ 32) :
    (upload.addDistance distance).key = farther distance.toNat upload.key := by
  unfold addDistance key farther
  rw [UInt32.toNat_add, Nat.mod_eq_of_lt h]
  rfl

/-- The identifiers of the uploads of a commit that have the token. -/
def definedUploads (view : CommitGraphView) (token : GoString) (commit : GoString) : Set ℤ :=
  {id | ∃ upload ∈ view.metaAt commit, upload.uploadID = id ∧ view.token upload = token}

/-- The uploads with the token that are seen from a commit. -/
def seenUploads (graph : GoMap GoString (List GoString)) (view : CommitGraphView)
    (commit token : GoString) : Set (ℕ ×ₗ ℤ) :=
  seen (parentsIn graph) (definedUploads view token) commit

/-- **A map holds the nearest uploads** of a family of sets, one for each
token. -/
structure Holds (view : CommitGraphView) (m : UploadsByToken)
    (sets : GoString → Set (ℕ ×ₗ ℤ)) : Prop where
  token_eq : ∀ token upload, m.lookup token = some upload → view.token upload = token
  picks : ∀ token, Picks (sets token) ((m.lookup token).map UploadMeta.key)

variable {m : UploadsByToken} {view : CommitGraphView}

theorem Holds.mono_sets
    {sets sets' : GoString → Set (ℕ ×ₗ ℤ)} (h : Holds view m sets) (heq : sets = sets') :
    Holds view m sets' :=
  heq ▸ h

variable {commit token : GoString} {sets : GoString → Set (ℕ ×ₗ ℤ)}

theorem Holds.key_mem (h : Holds view m sets)
    (hlookup : m.lookup token = some upload) :
    IsLeast (sets token) upload.key := by
  have hpicks := h.picks token
  rwa [hlookup] at hpicks

theorem Holds.nodup_tokens (h : Holds view m sets) :
    (m.values.map view.token).Nodup := by
  have hkeys : m.values.map view.token = m.keys := by
    rw [GoMap.values, AList.keys, keys, map_map]
    refine map_congr_left fun entry hentry => ?_
    exact h.token_eq entry.1 entry.2 (AList.mem_lookup_iff.mpr hentry)
  rw [hkeys]
  exact m.nodupKeys

theorem Holds.mem_values_iff (h : Holds view m sets) :
    upload ∈ m.values ∧ view.token upload = token ↔ m.lookup token = some upload := by
  rw [GoMap.mem_values]
  constructor
  · rintro ⟨⟨token', hlookup⟩, rfl⟩
    rw [h.token_eq token' upload hlookup]
    exact hlookup
  · exact fun hlookup => ⟨⟨token, hlookup⟩, h.token_eq token upload hlookup⟩

/-! ## The loops over uploads -/

/-- The upload kept for a token when another one comes. -/
def keepNearest (current : Option UploadMeta) (upload : UploadMeta) : Option UploadMeta :=
  match current with
  | none => some upload
  | some currentUpload => if replaces upload currentUpload then some upload else current

theorem keepNearest_key (current : Option UploadMeta) (upload : UploadMeta) :
    (keepNearest current upload).map UploadMeta.key
      = Option.merge min (current.map UploadMeta.key) (some upload.key) := by
  cases current with
  | none => rfl
  | some currentUpload =>
    show Option.map _ (if _ then _ else _) = some (min currentUpload.key upload.key)
    split
    · next h => rw [min_eq_right ((replaces_iff _ _).mp h).le, Option.map_some]
    · next h =>
      rw [min_eq_left (not_lt.mp fun hlt => h ((replaces_iff _ _).mpr hlt)), Option.map_some]

theorem addUpload_lookup (view : CommitGraphView) (distance : UInt32) (m : UploadsByToken)
    (upload : UploadMeta) (token : GoString) :
    (addUpload view distance m upload).lookup token
      = if token = view.token upload then keepNearest (m.lookup token) (upload.addDistance distance)
        else m.lookup token := by
  have hinsert : ∀ v : UploadMeta, (m.insert (view.token upload) v).lookup token
      = if token = view.token upload then some v else m.lookup token := by
    intro v
    split
    · next h => rw [h, AList.lookup_insert]
    · next h => rw [AList.lookup_insert_ne h]
  unfold addUpload keepNearest
  dsimp only
  split
  · next hnone =>
    rw [hinsert]
    split
    · next h => rw [h, hnone]
    · rfl
  · next currentUpload hsome =>
    split
    · next hreplaces =>
      rw [hinsert]
      split
      · next h =>
        rw [h, hsome]
        exact (if_pos hreplaces).symm
      · rfl
    · next hreplaces =>
      split
      · next h =>
        rw [h, hsome]
        exact (if_neg hreplaces).symm
      · rfl

/-- **The loop over the uploads of an ancestor** adds what the ancestor
sees. -/
theorem foldl_addUpload_holds {m visible : UploadsByToken}
    {sets sets' : GoString → Set (ℕ ×ₗ ℤ)} (h : Holds view m sets)
    (hvisible : Holds view visible sets')
    (hsmall : ∀ token, ∀ x ∈ sets' token, (ofLex x).1 + distance.toNat < 2 ^ 32)
    (order : RangeOrder) (loop : List ℕ) :
    Holds view ((order.range loop visible.values).foldl (addUpload view distance) m)
      fun token => sets token ∪ farther distance.toNat '' sets' token := by
  have hperm := order.range_perm loop visible.values
  have hnodup : ((order.range loop visible.values).map view.token).Nodup :=
    (hperm.map view.token).nodup_iff.mpr hvisible.nodup_tokens
  have hfind : ∀ token, (order.range loop visible.values).find?
      (fun upload => view.token upload = token) = visible.lookup token := by
    intro token
    refine Option.ext fun upload => ?_
    rw [find?_key_eq_some hnodup, hperm.mem_iff]
    exact hvisible.mem_values_iff
  have hlookup : ∀ token,
      ((order.range loop visible.values).foldl (addUpload view distance) m).lookup token
        = match visible.lookup token with
          | none => m.lookup token
          | some upload => keepNearest (m.lookup token) (upload.addDistance distance) := by
    intro token
    rw [lookup_foldl_of_nodup (fun current upload => keepNearest current
      (upload.addDistance distance)) (addUpload_lookup view distance) hnodup, hfind]
    cases visible.lookup token <;> rfl
  refine ⟨fun token upload hupload => ?_, fun token => ?_⟩
  · rw [hlookup] at hupload
    cases hv : visible.lookup token with
    | none =>
      rw [hv] at hupload
      exact h.token_eq token upload hupload
    | some other =>
      rw [hv] at hupload
      have hother : view.token (other.addDistance distance) = token :=
        hvisible.token_eq token other hv
      revert hupload
      unfold keepNearest
      cases hm : m.lookup token with
      | none =>
        rintro ⟨⟩
        exact hother
      | some current =>
        dsimp only
        split
        · rintro ⟨⟩
          exact hother
        · rintro ⟨⟩
          exact h.token_eq token _ hm
  · rw [hlookup]
    have hpicks := (h.picks token).union
      ((hvisible.picks token).image (monotone_farther distance.toNat))
    cases hv : visible.lookup token with
    | none =>
      rw [hv, Option.map_none, Option.map_none, Option.merge_none_right] at hpicks
      exact hpicks
    | some upload =>
      have hkey : (upload.addDistance distance).key = farther distance.toNat upload.key :=
        UploadMeta.key_addDistance (hsmall token _ (hvisible.key_mem hv).1)
      rw [hv, Option.map_some, Option.map_some, ← hkey, ← keepNearest_key] at hpicks
      exact hpicks

theorem holds_defined
    (hzero : ∀ upload ∈ view.metaAt commit, upload.distance = 0)
    (hnodup : ((view.metaAt commit).map view.token).Nodup) :
    Holds view ((view.metaAt commit).foldl
      (fun (m : UploadsByToken) upload => m.insert (view.token upload) upload) ∅)
      fun token => here (definedUploads view token) commit := by
  have hlookup : ∀ token, ((view.metaAt commit).foldl
      (fun (m : UploadsByToken) upload => m.insert (view.token upload) upload) ∅).lookup token
        = (view.metaAt commit).find? (fun upload => view.token upload = token) := by
    intro token
    rw [lookup_foldl_of_nodup (fun _ upload => some upload) ?_ hnodup]
    · cases (view.metaAt commit).find? (fun upload => view.token upload = token) <;> rfl
    · intro m upload token'
      split
      · next h => rw [h, AList.lookup_insert]
      · next h => rw [AList.lookup_insert_ne h]
  refine ⟨fun token upload h => ?_, fun token => ?_⟩
  · rw [hlookup] at h
    exact ((find?_key_eq_some hnodup).mp h).2
  · rw [hlookup]
    refine Picks.of_subsingleton fun x => ?_
    rw [Option.map_eq_some_iff]
    constructor
    · rintro ⟨id, ⟨upload, hmem, rfl, htoken⟩, rfl⟩
      refine ⟨upload, (find?_key_eq_some hnodup).mpr ⟨hmem, htoken⟩, ?_⟩
      rw [UploadMeta.key, hzero upload hmem]
      rfl
    · rintro ⟨upload, hfind, rfl⟩
      obtain ⟨hmem, htoken⟩ := (find?_key_eq_some hnodup).mp hfind
      refine ⟨upload.uploadID, ⟨upload, hmem, rfl, htoken⟩, ?_⟩
      rw [UploadMeta.key, hzero upload hmem]
      rfl

variable {graph : GoMap GoString (List GoString)}

/-- **The loop over the ancestors** adds what the ancestors see. -/
theorem addAncestors_holds
    {uploads : AncestorUploads} (order : RangeOrder) (loop : ℕ)
    (ancestors : List GoString) :
    ∀ {m : UploadsByToken} {sets : GoString → Set (ℕ ×ₗ ℤ)}, Holds view m sets →
      (∀ ancestor ∈ ancestors, ∃ visible, uploads.lookup ancestor = some visible
        ∧ Holds view visible (seenUploads graph view ancestor)) →
      (∀ ancestor ∈ ancestors, ∀ token, ∀ x ∈ seenUploads graph view ancestor token,
        (ofLex x).1 + distance.toNat < 2 ^ 32) →
      Holds view (addAncestors order loop view uploads distance m ancestors) fun token =>
        sets token ∪ seenFrom (parentsIn graph) (definedUploads view token) ancestors
          distance.toNat := by
  induction ancestors with
  | nil =>
    intro m sets h _ _
    refine h.mono_sets (funext fun token => ?_)
    rw [seenFrom_nil, Set.union_empty]
  | cons ancestor ancestors ih =>
    intro m sets h hstored hsmall
    rw [forall_mem_cons] at hstored hsmall
    obtain ⟨visible, hlookup, hvisible⟩ := hstored.1
    rw [addAncestors, hlookup]
    refine (ih (foldl_addUpload_holds h hvisible hsmall.1 order _) hstored.2
      hsmall.2).mono_sets (funext fun token => ?_)
    rw [seenFrom_cons, Set.union_assoc]
    rfl

/-! ## Select commits -/

theorem parentsIn_insert (graph : GoMap GoString (List GoString)) (c c' : GoString)
    (parents : List GoString) :
    parentsIn (graph.insert c parents) c' = if c' = c then parents else parentsIn graph c' := by
  unfold parentsIn
  split
  · next h => rw [h, AList.lookup_insert, Option.getD_some]
  · next h => rw [AList.lookup_insert_ne h]

theorem mem_parentsIn {c p : GoString} :
    p ∈ parentsIn graph c ↔ ∃ parents, graph.lookup c = some parents ∧ p ∈ parents := by
  unfold parentsIn
  cases graph.lookup c with
  | none => exact iff_of_false not_mem_nil fun ⟨_, h, _⟩ => nomatch h
  | some parents =>
    constructor
    · exact fun h => ⟨parents, rfl, h⟩
    · rintro ⟨_, ⟨⟩, h⟩
      exact h

theorem mem_addChild (child : GoString) (parents : List GoString) :
    ∀ {reverse : GoMap GoString (List GoString)} {c p : GoString},
      c ∈ parentsIn (addChild reverse (child, parents)) p
        ↔ c ∈ parentsIn reverse p ∨ (c = child ∧ p ∈ parents) := by
  unfold addChild
  induction parents with
  | nil =>
    intro reverse c p
    rw [foldl_nil]
    simp only [not_mem_nil, and_false, or_false]
  | cons parent parents ih =>
    intro reverse c p
    rw [foldl_cons, ih, parentsIn_insert]
    by_cases h : p = parent
    · subst h
      simp only [if_true, mem_append, mem_singleton, mem_cons_self, and_true]
      tauto
    · simp only [h, if_false, mem_cons, false_or]

theorem mem_foldl_addChild (entries : List (GoString × List GoString)) :
    ∀ {reverse : GoMap GoString (List GoString)} {c p : GoString},
      c ∈ parentsIn (entries.foldl addChild reverse) p
        ↔ c ∈ parentsIn reverse p ∨ ∃ parents, (c, parents) ∈ entries ∧ p ∈ parents := by
  induction entries with
  | nil =>
    intro reverse c p
    simp only [foldl_nil, not_mem_nil, false_and, exists_false, or_false]
  | cons entry entries ih =>
    intro reverse c p
    rw [foldl_cons, ih, mem_addChild, or_assoc]
    refine or_congr Iff.rfl ?_
    constructor
    · rintro (⟨rfl, hp⟩ | ⟨parents, hmem, hp⟩)
      · exact ⟨entry.2, mem_cons_self, hp⟩
      · exact ⟨parents, mem_cons_of_mem _ hmem, hp⟩
    · rintro ⟨parents, hmem, hp⟩
      rcases mem_cons.mp hmem with rfl | hmem
      · exact .inl ⟨rfl, hp⟩
      · exact .inr ⟨parents, hmem, hp⟩

/-- **The reversed graph** has the edges of the graph. -/
theorem mem_reverseGraph (order : RangeOrder) {child p : GoString} :
    child ∈ parentsIn (reverseGraph order graph) p ↔ p ∈ parentsIn graph child := by
  have hempty : ∀ (children : List GoString) (reverse : GoMap GoString (List GoString)),
      (∀ c, parentsIn reverse c = []) → ∀ c,
        parentsIn (children.foldl (fun reverse child => reverse.insert child []) reverse) c
          = [] := by
    intro children
    induction children with
    | nil => exact fun reverse h c => h c
    | cons child children ih =>
      refine fun reverse h => ih _ fun c => ?_
      rw [parentsIn_insert, h, ite_self]
  unfold reverseGraph
  dsimp only
  rw [mem_foldl_addChild, hempty _ ∅ (fun _ => rfl), mem_parentsIn]
  simp only [not_mem_nil, false_or, RangeOrder.mem_range, GoMap.mem_toPairs]

/-- A commit that stores its uploads. -/
def Selected (graph : GoMap GoString (List GoString)) (view : CommitGraphView)
    (commit : GoString) : Prop :=
  commit ∈ view.metas ∨ 1 < (parentsIn graph commit).length
    ∨ ∃ child, commit ∈ parentsIn graph child ∧ 1 < (parentsIn graph child).length

theorem isSkipped_iff (order : RangeOrder) :
    isSkipped graph (reverseGraph order graph) view commit = true
      ↔ ¬ Selected graph view commit := by
  unfold isSkipped dedicatedChildren Selected
  rw [Bool.and_eq_true, decide_eq_true_iff, all_eq_true]
  simp only [mem_reverseGraph, decide_eq_true_iff, not_or, not_exists, not_and, not_lt,
    and_assoc]

/-- A commit that stores nothing defines no upload. -/
theorem definedUploads_of_not_selected (h : ¬ Selected graph view commit)
    (token : GoString) : definedUploads view token commit = ∅ := by
  have hnone : view.metaAt commit = [] := by
    rw [CommitGraphView.metaAt, AList.lookup_eq_none.mpr fun hmem => h (.inl hmem)]
    rfl
  refine Set.eq_empty_iff_forall_notMem.mpr fun id hid => ?_
  obtain ⟨upload, hmem, -⟩ := hid
  rw [hnone] at hmem
  exact not_mem_nil hmem

/-- … and has at most one parent. -/
theorem length_parentsIn_of_not_selected
    (h : ¬ Selected graph view commit) :
    (parentsIn graph commit).length ≤ 1 :=
  not_lt.mp fun hlt => h (.inr (.inl hlt))

/-! ## The search for ancestors that store uploads -/

section Search

variable {g : CommitGraph} {done : List GoString}
  {uploads : AncestorUploads}

/-- What holds when the commits `done` were populated: the select ones among
them store the nearest uploads. -/
structure Populated (g : CommitGraph) (view : CommitGraphView) (done : List GoString)
    (uploads : AncestorUploads) : Prop where
  mem_iff : ∀ c, c ∈ uploads ↔ c ∈ done ∧ Selected g.graph view c
  holds : ∀ c visible, uploads.lookup c = some visible →
    Holds view visible (seenUploads g.graph view c)

/-- What holds in the search for the ancestors of a commit: they were
populated, are `k` steps away, and store uploads if there are several. -/
structure Searching (g : CommitGraph) (done : List GoString) (uploads : AncestorUploads)
    (commit : GoString) (ancestors : List GoString) (k : ℕ) : Prop where
  mem_done : ∀ a ∈ ancestors, a ∈ done
  stored : 1 < ancestors.length → ∀ a ∈ ancestors, a ∈ uploads
  walk : ∀ a ∈ ancestors, Walk (parentsIn g.graph) commit a k

/-- **A step of the search** goes on to the parents of a commit that stores
nothing, and sees the same uploads from there. -/
theorem Searching.step (hpop : Populated g view done uploads)
    (hclosed : ∀ c ∈ done, ∀ p ∈ parentsIn g.graph c, p ∈ done) {commit a : GoString} {k : ℕ}
    (h : Searching g done uploads commit [a] k) (ha : a ∉ uploads) :
    Searching g done uploads commit (parentsIn g.graph a) (k + 1)
      ∧ ∀ token, seenFrom (parentsIn g.graph) (definedUploads view token) [a] k
        = seenFrom (parentsIn g.graph) (definedUploads view token) (parentsIn g.graph a)
          (k + 1) := by
  have hdone := h.mem_done a (mem_singleton_self a)
  have hsel : ¬ Selected g.graph view a := fun hsel => ha ((hpop.mem_iff a).mpr ⟨hdone, hsel⟩)
  refine ⟨⟨hclosed a hdone, fun hlt => ?_, fun p hp => ?_⟩, fun token => ?_⟩
  · exact absurd hlt (not_lt.mpr (length_parentsIn_of_not_selected hsel))
  · have hwalk := (h.walk a (mem_singleton_self a)).trans (.single hp)
    rwa [Nat.add_comm] at hwalk
  · exact seenFrom_singleton_of_unlabelled (definedUploads_of_not_selected hsel token) k

theorem uint32_ofNat_succ (k : ℕ) : UInt32.ofNat k + 1 = UInt32.ofNat (k + 1) :=
  (UInt32.ofNat_add k 1).symm

/-- **The search returns** ancestors that store uploads, and sees the same
uploads from there. The fuel covers the commits before the ancestors. -/
theorem nearestAncestors_spec (hg : g.Topological) (hpop : Populated g view done uploads)
    (hclosed : ∀ c ∈ done, ∀ p ∈ parentsIn g.graph c, p ∈ done) (fuel : ℕ) :
    ∀ {ancestors : List GoString} {k : ℕ}, Searching g done uploads commit ancestors k →
      (∀ a ∈ ancestors, g.order.idxOf a + 1 < fuel) → 0 < fuel →
      ∃ ancestors' k', nearestAncestors g.graph uploads fuel ancestors (.ofNat k)
          = some (ancestors', .ofNat k')
        ∧ Searching g done uploads commit ancestors' k' ∧ (∀ a ∈ ancestors', a ∈ uploads)
        ∧ ∀ token, seenFrom (parentsIn g.graph) (definedUploads view token) ancestors k
          = seenFrom (parentsIn g.graph) (definedUploads view token) ancestors' k' := by
  induction fuel with
  | zero => exact fun _ _ hfuel => absurd hfuel (Nat.lt_irrefl 0)
  | succ fuel ih =>
    intro ancestors k h hrank _
    match ancestors with
    | [] => exact ⟨[], k, rfl, h, fun a ha => absurd ha not_mem_nil, fun _ => rfl⟩
    | [a] =>
      by_cases ha : a ∈ uploads
      · refine ⟨[a], k, if_pos ha, h, fun a' ha' => ?_, fun _ => rfl⟩
        rw [mem_singleton.mp ha']
        exact ha
      · obtain ⟨hnext, hseen⟩ := h.step hpop hclosed ha
        have hra := hrank a (mem_singleton_self a)
        obtain ⟨ancestors', k', hrun, hsearch, hstored, hseen'⟩ := ih hnext (fun p hp => by
          have := hg.idxOf_lt hp
          omega) (by omega)
        refine ⟨ancestors', k', ?_, hsearch, hstored, fun token =>
          (hseen token).trans (hseen' token)⟩
        rw [← hrun, ← uint32_ofNat_succ]
        exact if_neg ha
    | a :: a' :: rest =>
      refine ⟨a :: a' :: rest, k, rfl, h, h.stored ?_, fun _ => rfl⟩
      exact Nat.succ_lt_succ (Nat.succ_pos _)

/-- What a commit stores: the nearest of the uploads it defines and of those
its ancestors see. -/
theorem populateUploadsForCommit_holds (hpop : Populated g view done uploads)
    (hsmall : ∀ c d n, Walk (parentsIn g.graph) c d n → n < 2 ^ 32)
    (hzero : ∀ upload ∈ view.metaAt commit, upload.distance = 0)
    (hnodup : ((view.metaAt commit).map view.token).Nodup) {ancestors : List GoString} {k : ℕ}
    (hsearch : Searching g done uploads commit ancestors k)
    (hstored : ∀ a ∈ ancestors, a ∈ uploads)
    (hseen : ∀ token,
      seenFrom (parentsIn g.graph) (definedUploads view token) (parentsIn g.graph commit) 1
        = seenFrom (parentsIn g.graph) (definedUploads view token) ancestors k)
    (order : RangeOrder) (loop : ℕ) :
    Holds view (populateUploadsForCommit order loop uploads ancestors (.ofNat k) view commit)
      (seenUploads g.graph view commit) := by
  have hk : ∀ a ∈ ancestors, (UInt32.ofNat k).toNat = k := fun a ha =>
    UInt32.toNat_ofNat_of_lt' (hsmall commit a k (hsearch.walk a ha))
  have hvisible : ∀ a ∈ ancestors, ∃ visible, uploads.lookup a = some visible
      ∧ Holds view visible (seenUploads g.graph view a) := by
    intro a ha
    obtain ⟨visible, hlookup⟩ :=
      Option.isSome_iff_exists.mp (AList.lookup_isSome.mpr (hstored a ha))
    exact ⟨visible, hlookup, hpop.holds a visible hlookup⟩
  have hdist : ∀ a ∈ ancestors, ∀ token, ∀ x ∈ seenUploads g.graph view a token,
      (ofLex x).1 + (UInt32.ofNat k).toNat < 2 ^ 32 := by
    rintro a ha token x ⟨w, hw, -⟩
    rw [hk a ha]
    exact hsmall commit w _ ((hsearch.walk a ha).trans hw)
  refine (addAncestors_holds order loop ancestors (holds_defined hzero hnodup) hvisible
    hdist).mono_sets (funext fun token => ?_)
  rw [seenUploads, seen_eq, hseen]
  match ancestors with
  | [] => rw [seenFrom_nil, seenFrom_nil]
  | a :: _ => rw [hk a mem_cons_self]

/-- **The run of `populateUploadsByTraversal`** over commits in topological
order. -/
theorem populate_spec (hg : g.Topological)
    (hsmall : ∀ c d n, Walk (parentsIn g.graph) c d n → n < 2 ^ 32)
    (hzero : ∀ c, ∀ upload ∈ view.metaAt c, upload.distance = 0)
    (hnodup : ∀ c, ((view.metaAt c).map view.token).Nodup) (order : RangeOrder) {fuel : ℕ}
    (hfuel : g.order.length ≤ fuel) (commits : List GoString) :
    ∀ {done : List GoString} {uploads : AncestorUploads} (loop : ℕ),
      g.order = done ++ commits → Populated g view done uploads →
      ∃ uploads', populate order fuel g.graph (reverseGraph order g.graph) view loop commits
          uploads = some uploads'
        ∧ Populated g view g.order uploads' := by
  induction commits with
  | nil =>
    intro done uploads loop hsplit hpop
    rw [append_nil] at hsplit
    exact ⟨uploads, rfl, hsplit ▸ hpop⟩
  | cons commit commits ih =>
    intro done uploads loop hsplit hpop
    have hsplit' : g.order = (done ++ [commit]) ++ commits := by
      rw [hsplit, append_assoc, singleton_append]
    rw [populate]
    by_cases hskip : isSkipped g.graph (reverseGraph order g.graph) view commit = true
    · rw [if_pos hskip]
      refine ih (loop + 1) hsplit' ⟨fun c => ?_, hpop.holds⟩
      rw [hpop.mem_iff, mem_append, mem_singleton, or_and_right]
      refine ⟨.inl, fun h => h.resolve_right ?_⟩
      rintro ⟨rfl, hsel⟩
      exact (isSkipped_iff order).mp hskip hsel
    · rw [if_neg hskip]
      have hsel : Selected g.graph view commit :=
        not_not.mp fun h => hskip ((isSkipped_iff order).mpr h)
      have hclosed : ∀ c ∈ done, ∀ p ∈ parentsIn g.graph c, p ∈ done := by
        intro c hc p hp
        obtain ⟨before, after, rfl⟩ := append_of_mem hc
        rw [append_assoc, cons_append] at hsplit
        exact mem_append_left _ (hg.parents_before hsplit hp)
      have hstart : Searching g done uploads commit (parentsIn g.graph commit) 1 := by
        refine ⟨fun p hp => hg.parents_before hsplit hp, fun hlt p hp => ?_,
          fun p hp => .single hp⟩
        exact (hpop.mem_iff p).mpr
          ⟨hg.parents_before hsplit hp, .inr (.inr ⟨commit, hp, hlt⟩)⟩
      have hmem : commit ∈ g.order := by
        rw [hsplit]
        exact mem_append_right _ mem_cons_self
      have hidx := idxOf_lt_length_iff.mpr hmem
      obtain ⟨ancestors, k, hrun, hsearch, hstored, hseen⟩ :=
        nearestAncestors_spec hg hpop hclosed fuel hstart (fun p hp => by
          have := hg.idxOf_lt hp
          omega) (by omega)
      rw [show (1 : UInt32) = .ofNat 1 from rfl, hrun]
      have hholds := populateUploadsForCommit_holds hpop hsmall (hzero commit) (hnodup commit)
        hsearch hstored hseen order loop
      refine ih (loop + 1) hsplit' ⟨fun c => ?_, fun c visible hlookup => ?_⟩
      · rw [AList.mem_insert, hpop.mem_iff, mem_append, mem_singleton]
        constructor
        · rintro (rfl | ⟨hc, hselc⟩)
          · exact ⟨.inr rfl, hsel⟩
          · exact ⟨.inl hc, hselc⟩
        · rintro ⟨hc | hc, hselc⟩
          · exact .inr ⟨hc, hselc⟩
          · exact .inl hc
      · by_cases hc : c = commit
        · subst hc
          rw [AList.lookup_insert] at hlookup
          cases hlookup
          exact hholds
        · rw [AList.lookup_insert_ne hc] at hlookup
          exact hpop.holds c visible hlookup

/-- **`traverseForCommit` returns** an ancestor that stores uploads, and sees
the same uploads from there; or nothing is seen at all. -/
theorem traverseForCommit_spec (hg : g.Topological) (hpop : Populated g view g.order uploads)
    {start : GoString} (fuel : ℕ) :
    ∀ {commit : GoString} {k : ℕ}, Searching g g.order uploads start [commit] k →
      g.order.idxOf commit < fuel →
      (∃ a k', traverseForCommit g.graph uploads fuel commit (.ofNat k)
          = some (a, .ofNat k', true) ∧ a ∈ uploads
        ∧ Walk (parentsIn g.graph) start a k'
        ∧ ∀ token, seenFrom (parentsIn g.graph) (definedUploads view token) [commit] k
          = seenFrom (parentsIn g.graph) (definedUploads view token) [a] k')
      ∨ (traverseForCommit g.graph uploads fuel commit (.ofNat k) = some ([], 0, false)
        ∧ ∀ token,
          seenFrom (parentsIn g.graph) (definedUploads view token) [commit] k = ∅) := by
  induction fuel with
  | zero => exact fun _ hfuel => absurd hfuel (Nat.not_lt_zero _)
  | succ fuel ih =>
    intro commit k h hfuel
    rw [traverseForCommit]
    by_cases hmem : commit ∈ uploads
    · rw [if_pos hmem]
      exact .inl ⟨commit, k, rfl, hmem, h.walk commit (mem_singleton_self commit),
        fun _ => rfl⟩
    · rw [if_neg hmem]
      have hsel : ¬ Selected g.graph view commit := fun hsel =>
        hmem ((hpop.mem_iff commit).mpr
          ⟨h.mem_done commit (mem_singleton_self commit), hsel⟩)
      have hlength := length_parentsIn_of_not_selected hsel
      obtain ⟨hnext, hseen⟩ := h.step hpop (fun c _ p hp => hg.parents_mem c p hp) hmem
      match hparents : parentsIn g.graph commit with
      | [] =>
        refine .inr ⟨rfl, fun token => ?_⟩
        rw [hseen, hparents, seenFrom_nil]
      | p :: rest =>
        have hp : p ∈ parentsIn g.graph commit := hparents ▸ mem_cons_self
        rw [hparents] at hnext hseen hlength
        cases length_eq_zero_iff.mp (Nat.le_zero.mp (Nat.le_of_succ_le_succ hlength))
        have hidx := hg.idxOf_lt hp
        simp only [hseen, uint32_ofNat_succ]
        exact ih hnext (by omega)

/-- **`traverseForUploads` returns** uploads and a distance that together are
the nearest uploads of the commit. -/
theorem traverseForUploads_spec (hg : g.Topological) (hpop : Populated g view g.order uploads)
    (hsmall : ∀ c d n, Walk (parentsIn g.graph) c d n → n < 2 ^ 32) {fuel : ℕ}
    (hfuel : g.order.length ≤ fuel) (hc : commit ∈ g.graph) :
    ∃ visible distance sets, traverseForUploads fuel g.graph uploads commit
        = some (visible, distance)
      ∧ Holds view visible sets
      ∧ (∀ token, ∀ x ∈ sets token, (ofLex x).1 + distance.toNat < 2 ^ 32)
      ∧ ∀ token, seenUploads g.graph view commit token
        = farther distance.toNat '' sets token := by
  have horder := (hg.mem_order commit).mpr hc
  have hstart : Searching g g.order uploads commit [commit] 0 := by
    refine ⟨fun a ha => ?_, fun hlt => absurd hlt (Nat.lt_irrefl 1), fun a ha => ?_⟩
    · rw [mem_singleton.mp ha]
      exact horder
    · rw [mem_singleton.mp ha]
      exact .refl commit
  have hzero : ∀ token, seenUploads g.graph view commit token
      = seenFrom (parentsIn g.graph) (definedUploads view token) [commit] 0 := by
    intro token
    rw [seenFrom_singleton]
    exact (Set.image_id _).symm
  have hidx := idxOf_lt_length_iff.mpr horder
  unfold traverseForUploads
  rcases traverseForCommit_spec hg hpop fuel hstart (by omega) with
    ⟨a, k, hrun, hmem, hwalk, hseen⟩ | ⟨hrun, hseen⟩
  · have hk : (UInt32.ofNat k).toNat = k := UInt32.toNat_ofNat_of_lt' (hsmall commit a k hwalk)
    obtain ⟨visible, hlookup⟩ := Option.isSome_iff_exists.mp (AList.lookup_isSome.mpr hmem)
    rw [show (0 : UInt32) = .ofNat 0 from rfl, hrun]
    refine ⟨visible, .ofNat k, seenUploads g.graph view a, ?_, hpop.holds a visible hlookup,
      ?_, fun token => ?_⟩
    · show some ((uploads.lookup a).getD ∅, UInt32.ofNat k) = _
      rw [hlookup]
      rfl
    · rintro token x ⟨w, hw, -⟩
      rw [hk]
      exact hsmall commit w _ (hwalk.trans hw)
    · rw [hzero, hseen, seenFrom_singleton, hk]
      rfl
  · have hnone : uploads.lookup [] = none :=
      AList.lookup_eq_none.mpr fun hmem => hg.named ((hpop.mem_iff []).mp hmem).1
    rw [show (0 : UInt32) = .ofNat 0 from rfl, hrun]
    refine ⟨∅, 0, fun _ => ∅, ?_, ⟨fun _ _ h => (nomatch h), fun _ => rfl⟩,
      fun _ _ h => absurd h (Set.notMem_empty _), fun token => ?_⟩
    · show some ((uploads.lookup []).getD ∅, (0 : UInt32)) = _
      rw [hnone]
      rfl
    · rw [hzero, hseen, Set.image_empty]

end Search

/-! ## The visible uploads -/

/-- The token occurs on the commit or on one of its ancestors. -/
def Occurs (graph : GoMap GoString (List GoString)) (view : CommitGraphView)
    (commit token : GoString) : Prop :=
  ∃ d n, Walk (parentsIn graph) commit d n ∧ ∃ upload ∈ view.metaAt d, view.token upload = token

/-- **The nearest upload of its token**: an upload with this identifier is
defined at the end of a path of this length, and every upload with the same
token at the end of some path is farther away, or as far and its identifier
is not less. -/
structure IsNearest (graph : GoMap GoString (List GoString)) (view : CommitGraphView)
    (commit : GoString) (upload : UploadMeta) : Prop where
  defined : ∃ d, Walk (parentsIn graph) commit d upload.distance.toNat
    ∧ ∃ upload' ∈ view.metaAt d, upload'.uploadID = upload.uploadID
  least : ∀ d n, Walk (parentsIn graph) commit d n → ∀ upload' ∈ view.metaAt d,
    view.token upload' = view.token upload →
    upload.distance.toNat < n
      ∨ (upload.distance.toNat = n ∧ upload.uploadID ≤ upload'.uploadID)

theorem isNearest_of_isLeast
    (h : IsLeast (seenUploads graph view commit (view.token upload)) upload.key) :
    IsNearest graph view commit upload := by
  obtain ⟨⟨d, hwalk, upload', hmem, hid, -⟩, hleast⟩ := h
  refine ⟨⟨d, hwalk, upload', hmem, hid⟩, fun d' n hwalk' other hother htoken => ?_⟩
  have hle : upload.key ≤ toLex (n, other.uploadID) :=
    hleast (mem_seen.mpr ⟨d', hwalk', other, hother, rfl, htoken⟩)
  exact Prod.Lex.toLex_le_toLex.mp hle

theorem occurs_iff :
    Occurs graph view commit token ↔ (seenUploads graph view commit token).Nonempty := by
  constructor
  · rintro ⟨d, n, hwalk, upload, hmem, htoken⟩
    exact ⟨toLex (n, upload.uploadID), mem_seen.mpr ⟨d, hwalk, upload, hmem, rfl, htoken⟩⟩
  · rintro ⟨x, d, hwalk, upload, hmem, -, htoken⟩
    exact ⟨d, _, hwalk, upload, hmem, htoken⟩

/-- **The adjusted uploads** have different tokens, and are the least of the
sets that lie farther away. -/
theorem adjustVisibleUploads_spec {visible : UploadsByToken}
    (h : Holds view visible sets)
    (hsmall : ∀ token, ∀ x ∈ sets token, (ofLex x).1 + distance.toNat < 2 ^ 32)
    (order : RangeOrder) :
    ((adjustVisibleUploads order visible distance).map view.token).Nodup
      ∧ (∀ upload ∈ adjustVisibleUploads order visible distance,
        IsLeast (farther distance.toNat '' sets (view.token upload)) upload.key)
      ∧ ∀ token, (sets token).Nonempty →
        ∃ upload ∈ adjustVisibleUploads order visible distance, view.token upload = token := by
  have hperm := order.range_perm [3] visible.values
  refine ⟨?_, fun upload hupload => ?_, fun token hne => ?_⟩
  · rw [adjustVisibleUploads, map_map]
    exact (hperm.map view.token).nodup_iff.mpr h.nodup_tokens
  · obtain ⟨upload', hmem, rfl⟩ := mem_map.mp hupload
    have hlookup := h.mem_values_iff.mp ⟨hperm.mem_iff.mp hmem, rfl⟩
    have hleast := h.key_mem hlookup
    rw [UploadMeta.key_addDistance (hsmall _ _ hleast.1)]
    exact (monotone_farther _).map_isLeast hleast
  · have hpicks := h.picks token
    cases hlookup : visible.lookup token with
    | none =>
      rw [hlookup] at hpicks
      exact absurd hpicks hne.ne_empty
    | some upload =>
      obtain ⟨hmem, htoken⟩ := h.mem_values_iff.mpr hlookup
      exact ⟨upload.addDistance distance, mem_map_of_mem (hperm.mem_iff.mpr hmem), htoken⟩

/-- **Visible uploads are the nearest ones.** For the log of a history, with
at most one upload for each commit and token, building the graph and looking
up a commit return; the uploads found have different tokens, which are those
that occur on the commit or its ancestors; and each is the nearest one, with
the length of the shortest path as its distance. -/
theorem uploadsVisibleAtCommit_nearest (order order' : RangeOrder) (lines : List GoString)
    (view : CommitGraphView) (fuel : ℕ) (hlines : IsHistory (lines.filterMap logEntry))
    (hnodup : ∀ c, ((view.metaAt c).map view.token).Nodup)
    (hzero : ∀ c, ∀ upload ∈ view.metaAt c, upload.distance = 0)
    (hsmall : ∀ c d n, Walk (parentsIn (parseCommitGraph lines).graph) c d n → n < 2 ^ 32)
    (hfuel : (parseCommitGraph lines).order.length ≤ fuel) :
    ∃ g, newGraph order fuel (parseCommitGraph lines) view = some g
      ∧ ∀ c ∈ (parseCommitGraph lines).graph, ∃ uploads,
        g.uploadsVisibleAtCommit order' fuel c = some uploads
        ∧ (uploads.map view.token).Nodup
        ∧ (∀ token, (∃ upload ∈ uploads, view.token upload = token)
          ↔ Occurs (parseCommitGraph lines).graph view c token)
        ∧ ∀ upload ∈ uploads, IsNearest (parseCommitGraph lines).graph view c upload := by
  have hg := parseCommitGraph_topological hlines
  generalize parseCommitGraph lines = cg at hg hsmall hfuel ⊢
  have hempty : Populated cg view [] ∅ :=
    ⟨fun c => iff_of_false (AList.notMem_empty c) fun h => absurd h.1 not_mem_nil,
      fun c visible h => nomatch h⟩
  obtain ⟨uploads, hrun, hpop⟩ :=
    populate_spec hg hsmall hzero hnodup order hfuel cg.order 0 rfl hempty
  refine ⟨⟨view, cg.graph, _, uploads⟩, congrArg (Option.map _) hrun, fun c hc => ?_⟩
  obtain ⟨visible, distance, sets, htrav, hholds, hdist, hseen⟩ :=
    traverseForUploads_spec hg hpop hsmall hfuel hc
  obtain ⟨htokens, hleast, hall⟩ := adjustVisibleUploads_spec hholds hdist order'
  refine ⟨_, congrArg (Option.map _) htrav, htokens, fun token => ?_, fun upload hmem => ?_⟩
  · rw [occurs_iff, hseen, Set.image_nonempty]
    constructor
    · rintro ⟨upload, hmem, rfl⟩
      exact Set.image_nonempty.mp ⟨_, (hleast upload hmem).1⟩
    · exact hall token
  · refine isNearest_of_isLeast ?_
    rw [hseen]
    exact hleast upload hmem

theorem walk_length_le {g : CommitGraph} (hg : g.Topological) {c d : GoString} {n : ℕ}
    (h : Walk (parentsIn g.graph) c d n) : n ≤ g.order.length := by
  have hidx : n + g.order.idxOf d ≤ g.order.idxOf c := by
    induction h with
    | refl c => exact Nat.zero_add _ |>.le
    | step hp _ ih =>
      have := hg.idxOf_lt hp
      omega
  have hlength := g.order.idxOf_le_length (a := c)
  omega

theorem forall_metaAt (p : List UploadMeta → Prop) (hnil : p [])
    (h : ∀ uploads ∈ view.metas.values, p uploads) (c : GoString) : p (view.metaAt c) := by
  unfold CommitGraphView.metaAt
  cases hlookup : view.metas.lookup c with
  | none => exact hnil
  | some uploads => exact h uploads (GoMap.mem_values.mpr ⟨c, hlookup⟩)

/-- A merge `d` of `b` and `c`, which are children of `a`. -/
def diamondLog : List GoString :=
  [lit "d b c", lit "c a", lit "", lit "b a ", lit "a"]

/-- Uploads with one token on `a`, `b` and `c`, and one with another token
on `a`. -/
def diamondView : CommitGraphView :=
  ((((({} : CommitGraphView).add ⟨1, 0⟩ (lit "a") (lit "go")).add ⟨2, 0⟩ (lit "a") (lit "ts")).add
    ⟨4, 0⟩ (lit "b") (lit "go")).add ⟨3, 0⟩ (lit "c") (lit "go"))

/-- The merge sees the upload of `c` rather than that of `b`, which has a
greater identifier, and two steps away the one of `a` with the other
token. -/
theorem uploadsVisibleAtCommit_diamond :
    ∃ g uploads, newGraph .byEntries 4 (parseCommitGraph diamondLog) diamondView = some g
      ∧ g.uploadsVisibleAtCommit .byEntries 4 (lit "d") = some uploads
      ∧ uploads.Perm [⟨3, 1⟩, ⟨2, 2⟩]
      ∧ ∀ upload ∈ uploads,
        IsNearest (parseCommitGraph diamondLog).graph diamondView (lit "d") upload := by
  have hhistory : IsHistory (diamondLog.filterMap logEntry) := by decide +kernel
  have hlength : (parseCommitGraph diamondLog).order.length = 4 := by decide +kernel
  obtain ⟨g, hg, hvisible⟩ := uploadsVisibleAtCommit_nearest .byEntries .byEntries diamondLog
    diamondView 4 hhistory
    (forall_metaAt (fun l => (l.map diamondView.token).Nodup) nodup_nil (by decide +kernel))
    (forall_metaAt (fun l => ∀ upload ∈ l, upload.distance = 0)
      (fun _ h => absurd h not_mem_nil) (by decide +kernel))
    (fun c d n hwalk => by
      have := walk_length_le (parseCommitGraph_topological hhistory) hwalk
      omega)
    hlength.le
  obtain ⟨uploads, huploads, -, -, hnearest⟩ := hvisible (lit "d") (by decide +kernel)
  have heval : ((newGraph .byEntries 4 (parseCommitGraph diamondLog) diamondView).bind
      fun g => g.uploadsVisibleAtCommit .byEntries 4 (lit "d")).any
        (fun uploads => decide (uploads.Perm [⟨3, 1⟩, ⟨2, 2⟩])) = true := by decide +kernel
  rw [hg, Option.bind_some, huploads, Option.any_some, decide_eq_true_iff] at heval
  exact ⟨g, uploads, hg, huploads, heval, hnearest⟩

end Commitgraph
