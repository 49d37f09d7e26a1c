import CodeScout.NearestUploads

/-!
# The compressed stream of a commit graph

The visible uploads of all commits are written to the database from a stream
of envelopes. A commit that stores uploads, or sees a single one, is sent
with the list of them. Every other commit is sent with a link only: the
ancestor that stores its uploads, and the distance to it. A reader follows
the link, once, and adds the distance.

Nothing is lost (`stream_lossless`): the ancestor of a link is sent with its
uploads, and what a reader reconstructs for a commit is what
`UploadsVisibleAtCommit` returns for it.
-/

namespace Commitgraph

open Gitdomain List

/-! ## Envelopes -/

/-- `VisibilityRelationship`. -/
structure VisibilityRelationship where
  commit : GoString
  uploads : List UploadMeta
deriving DecidableEq, Repr

/-- `LinkRelationship`. -/
structure LinkRelationship where
  commit : GoString
  ancestorCommit : GoString
  distance : UInt32
deriving DecidableEq, Repr

/-- `Envelope`; a pointer that is not set is `none`. -/
structure Envelope where
  uploads : Option VisibilityRelationship := none
  links : Option LinkRelationship := none
deriving DecidableEq, Repr

namespace Graph

/-- An iteration of the loop of `Stream`: what is sent for a commit. -/
def envelopesFor (order : RangeOrder) (fuel : ℕ) (g : Graph) (commit : GoString) :
    Option (List Envelope) :=
  match traverseForCommit g.graph g.ancestorUploads fuel commit 0 with
  | none => none
  | some (_, _, false) => some []
  | some (ancestorCommit, ancestorDistance, true) =>
    let ancestorVisibleUploads := (g.ancestorUploads.lookup ancestorCommit).getD ∅
    if ancestorDistance = 0 ∨ ancestorVisibleUploads.entries.length = 1 then
      let uploads := adjustVisibleUploads order ancestorVisibleUploads ancestorDistance
      some [{ uploads := some ⟨commit, uploads⟩ }]
    else if 1 < ancestorVisibleUploads.entries.length then
      some [{ links := some ⟨commit, ancestorCommit, ancestorDistance⟩ }]
    else some []

/-- The loop of `Stream`; each iteration has its own order of map entries. -/
def streamFrom (orders : ℕ → RangeOrder) (fuel : ℕ) (g : Graph) :
    ℕ → List GoString → Option (List Envelope)
  | _, [] => some []
  | loop, commit :: commits => do
    let sent ← g.envelopesFor (orders loop) fuel commit
    let rest ← g.streamFrom orders fuel (loop + 1) commits
    return sent ++ rest

/-- **`Graph.Stream`**: the values of the channel. -/
def stream (orders : ℕ → RangeOrder) (fuel : ℕ) (g : Graph) : Option (List Envelope) :=
  g.streamFrom orders fuel 0 g.commits

end Graph

/-! ## Reading the stream -/

/-- The commits that an envelope is about. -/
def Envelope.commits (e : Envelope) : List GoString :=
  (e.uploads.map VisibilityRelationship.commit).toList
    ++ (e.links.map LinkRelationship.commit).toList

/-- **What a reader of the stream reconstructs for a commit**: the uploads it
was sent with, or those of the ancestor it was linked to, with the distance
added. -/
inductive Reconstructs (envelopes : List Envelope) (commit : GoString) :
    List UploadMeta → Prop
  | uploads (uploads : List UploadMeta) (h : { uploads := some ⟨commit, uploads⟩ } ∈ envelopes) :
    Reconstructs envelopes commit uploads
  | link (ancestorCommit : GoString) (distance : UInt32) (uploads : List UploadMeta)
    (h : { links := some ⟨commit, ancestorCommit, distance⟩ } ∈ envelopes)
    (h' : { uploads := some ⟨ancestorCommit, uploads⟩ } ∈ envelopes) :
    Reconstructs envelopes commit (uploads.map (·.addDistance distance))

/-! ## Running with enough fuel -/

section Run

variable {cg : CommitGraph} {uploads : AncestorUploads}

/-- The search for ancestors ends, whatever is stored. -/
theorem exists_nearestAncestors (hg : cg.Topological) (uploads : AncestorUploads) (fuel : ℕ) :
    ∀ {ancestors : List GoString} (distance : UInt32),
      (∀ a ∈ ancestors, cg.order.idxOf a + 1 < fuel) → 0 < fuel →
      ∃ result, nearestAncestors cg.graph uploads fuel ancestors distance = some result := by
  induction fuel with
  | zero => exact fun _ _ hfuel => absurd hfuel (Nat.lt_irrefl 0)
  | succ fuel ih =>
    intro ancestors distance hrank _
    match ancestors with
    | [] => exact ⟨_, rfl⟩
    | [a] =>
      rw [nearestAncestors]
      split
      · exact ⟨_, rfl⟩
      · have ha := hrank a (mem_singleton_self a)
        refine ih _ (fun p hp => ?_) (by omega)
        have := hg.idxOf_lt hp
        omega
    | _ :: _ :: _ => exact ⟨_, rfl⟩

/-- Populating the graph ends, and only commits store uploads. -/
theorem exists_populate (hg : cg.Topological) (order : RangeOrder) (view : CommitGraphView)
    {reverse : GoMap GoString (List GoString)} {fuel : ℕ} (hfuel : cg.order.length ≤ fuel)
    (commits : List GoString) (hmem : ∀ c ∈ commits, c ∈ cg.order) :
    ∀ (loop : ℕ) (uploads : AncestorUploads), (∀ c ∈ uploads, c ∈ cg.order) →
      ∃ uploads', populate order fuel cg.graph reverse view loop commits uploads = some uploads'
        ∧ ∀ c ∈ uploads', c ∈ cg.order := by
  induction commits with
  | nil => exact fun _ uploads h => ⟨uploads, rfl, h⟩
  | cons commit commits ih =>
    intro loop uploads h
    rw [forall_mem_cons] at hmem
    rw [populate]
    split
    · exact ih hmem.2 _ _ h
    · have hidx := idxOf_lt_length_iff.mpr hmem.1
      have hrank : ∀ p ∈ parentsIn cg.graph commit, cg.order.idxOf p + 1 < fuel := by
        intro p hp
        have := hg.idxOf_lt hp
        omega
      obtain ⟨⟨ancestors, distance⟩, hrun⟩ :=
        exists_nearestAncestors hg uploads fuel 1 hrank (Nat.zero_lt_of_lt (hidx.trans_le hfuel))
      rw [hrun]
      refine ih hmem.2 _ _ fun c hc => ?_
      rcases (AList.mem_insert _).mp hc with rfl | hc
      · exact hmem.1
      · exact h c hc

/-- **`traverseForCommit` returns** a commit that stores uploads, or finds
none. -/
theorem traverseForCommit_cases (hg : cg.Topological) (uploads : AncestorUploads) (fuel : ℕ) :
    ∀ {commit : GoString} (distance : UInt32), cg.order.idxOf commit < fuel →
      (∃ a d, traverseForCommit cg.graph uploads fuel commit distance = some (a, d, true)
        ∧ a ∈ uploads)
      ∨ traverseForCommit cg.graph uploads fuel commit distance = some ([], 0, false) := by
  induction fuel with
  | zero => exact fun _ hfuel => absurd hfuel (Nat.not_lt_zero _)
  | succ fuel ih =>
    intro commit distance hfuel
    rw [traverseForCommit]
    split
    · next hmem => exact .inl ⟨commit, distance, rfl, hmem⟩
    · cases hparents : parentsIn cg.graph commit with
      | nil => exact .inr rfl
      | cons p rest =>
        have := hg.idxOf_lt (hparents ▸ mem_cons_self : p ∈ parentsIn cg.graph commit)
        exact ih _ (by omega)

theorem traverseForCommit_stored {graph : GoMap GoString (List GoString)} {commit : GoString}
    (h : commit ∈ uploads) {fuel : ℕ} (hfuel : 0 < fuel) :
    traverseForCommit graph uploads fuel commit 0 = some (commit, 0, true) := by
  obtain ⟨fuel, rfl⟩ := Nat.exists_eq_succ_of_ne_zero hfuel.ne'
  rw [traverseForCommit, if_pos h]

end Run

/-! ## Adjusted uploads -/

theorem UploadMeta.addDistance_addDistance (upload : UploadMeta) (d d' : UInt32) :
    (upload.addDistance d).addDistance d' = upload.addDistance (d + d') := by
  rw [addDistance, addDistance, addDistance, UInt32.add_assoc]

theorem adjustVisibleUploads_perm (order order' : RangeOrder) (visible : UploadsByToken)
    (distance : UInt32) :
    (adjustVisibleUploads order visible distance).Perm
      (adjustVisibleUploads order' visible distance) :=
  ((order.range_perm [3] visible.values).trans (order'.range_perm [3] visible.values).symm).map _

theorem adjustVisibleUploads_map (order order' : RangeOrder) (visible : UploadsByToken)
    (distance : UInt32) :
    ((adjustVisibleUploads order visible 0).map (·.addDistance distance)).Perm
      (adjustVisibleUploads order' visible distance) := by
  have hadd : ∀ upload : UploadMeta,
      (upload.addDistance 0).addDistance distance = upload.addDistance distance := by
    intro upload
    rw [UploadMeta.addDistance_addDistance, UInt32.zero_add]
  rw [adjustVisibleUploads, map_map, Function.comp_def]
  simp only [hadd]
  exact adjustVisibleUploads_perm order order' visible distance

theorem adjustVisibleUploads_eq_nil (order : RangeOrder) {visible : UploadsByToken}
    (h : visible.entries.length = 0) (distance : UInt32) :
    adjustVisibleUploads order visible distance = [] := by
  refine map_eq_nil_iff.mpr (List.Perm.eq_nil ?_)
  have hvalues : visible.values = [] :=
    map_eq_nil_iff.mpr (length_eq_zero_iff.mp h)
  rw [hvalues]
  exact order.range_perm [3] []

/-! ## What is sent for a commit -/

variable {c commit : GoString}

theorem uploadsVisibleAtCommit_stored {g : Graph}
    (h : commit ∈ g.ancestorUploads) {fuel : ℕ} (hfuel : 0 < fuel) (order : RangeOrder) :
    g.uploadsVisibleAtCommit order fuel commit = some (adjustVisibleUploads order
      ((g.ancestorUploads.lookup commit).getD ∅) 0) := by
  rw [Graph.uploadsVisibleAtCommit, traverseForUploads, traverseForCommit_stored h hfuel]
  rfl

section Sent

variable {cg : CommitGraph} {g : Graph} {fuel : ℕ}

/-- **A commit that stores uploads is sent with them.** -/
theorem envelopesFor_stored (h : commit ∈ g.ancestorUploads)
    (hfuel : 0 < fuel) (order : RangeOrder) :
    g.envelopesFor order fuel commit = some [{ uploads := some ⟨commit,
      adjustVisibleUploads order ((g.ancestorUploads.lookup commit).getD ∅) 0⟩ }] := by
  rw [Graph.envelopesFor, traverseForCommit_stored h hfuel]
  exact if_pos (.inl rfl)

/-- What may be sent for a commit, given the uploads that it sees. -/
inductive Sent (g : Graph) (commit : GoString) (visible : List UploadMeta) :
    List Envelope → Prop
  | uploads (uploads : List UploadMeta) (h : uploads.Perm visible) :
    Sent g commit visible [{ uploads := some ⟨commit, uploads⟩ }]
  | link (ancestor : GoString) (distance : UInt32) (hstored : ancestor ∈ g.ancestorUploads)
    (h : ∀ order, ((adjustVisibleUploads order ((g.ancestorUploads.lookup ancestor).getD ∅)
      0).map (·.addDistance distance)).Perm visible) :
    Sent g commit visible [{ links := some ⟨commit, ancestor, distance⟩ }]
  | nothing (h : visible = []) : Sent g commit visible []

/-- **What is sent for a commit** depends on the ancestor that stores its
uploads. -/
theorem envelopesFor_sent (hg : cg.Topological) (hgraph : g.graph = cg.graph)
    (hstored : ∀ c ∈ g.ancestorUploads, c ∈ cg.order) (hfuel : cg.order.length ≤ fuel)
    (hc : commit ∈ cg.order) (order' : RangeOrder) :
    ∃ visible, g.uploadsVisibleAtCommit order' fuel commit = some visible
      ∧ ∀ order, ∃ sent, g.envelopesFor order fuel commit = some sent
        ∧ Sent g commit visible sent := by
  have hidx := idxOf_lt_length_iff.mpr hc
  rw [Graph.uploadsVisibleAtCommit, traverseForUploads, hgraph]
  rcases traverseForCommit_cases hg g.ancestorUploads fuel 0 (hidx.trans_le hfuel) with
    ⟨a, d, hrun, ha⟩ | hrun
  · rw [hrun]
    refine ⟨_, rfl, fun order => ?_⟩
    rw [Graph.envelopesFor, hgraph, hrun]
    dsimp only
    generalize hvisible : (g.ancestorUploads.lookup a).getD ∅ = visible
    split_ifs with hone hmany
    · exact ⟨_, rfl, .uploads _ (adjustVisibleUploads_perm order order' visible d)⟩
    · refine ⟨_, rfl, .link a d ha fun order => ?_⟩
      rw [hvisible]
      exact adjustVisibleUploads_map order order' visible d
    · refine ⟨_, rfl, .nothing (adjustVisibleUploads_eq_nil order' ?_ d)⟩
      rw [not_or] at hone
      omega
  · have hnone : g.ancestorUploads.lookup [] = none :=
      AList.lookup_eq_none.mpr fun hmem => hg.named (hstored [] hmem)
    rw [hrun]
    refine ⟨_, rfl, fun order => ⟨[], ?_, .nothing ?_⟩⟩
    · rw [Graph.envelopesFor, hgraph, hrun]
    · dsimp only
      rw [hnone]
      exact adjustVisibleUploads_eq_nil order' rfl 0

theorem Sent.commits {visible : List UploadMeta} {sent : List Envelope}
    (h : Sent g commit visible sent) : (sent.flatMap Envelope.commits).Sublist [commit] := by
  cases h with
  | uploads => exact .refl _
  | link => exact .refl _
  | nothing => exact nil_sublist _

end Sent

/-! ## The stream -/

/-- What is sent for a commit, with the uploads that the commit sees. -/
def SentFor (g : Graph) (order : RangeOrder) (fuel : ℕ) (commit : GoString)
    (sent : List Envelope) : Prop :=
  ∃ visible, g.uploadsVisibleAtCommit order fuel commit = some visible
    ∧ Sent g commit visible sent

/-- **The envelopes of some commits**: each is sent for a commit, and each
commit has sent what an iteration sends. -/
structure Streamed (g : Graph) (order : RangeOrder) (fuel : ℕ) (commits : List GoString)
    (envelopes : List Envelope) : Prop where
  sublist : (envelopes.flatMap Envelope.commits).Sublist commits
  source : ∀ e ∈ envelopes, ∃ c ∈ commits, ∃ sent, SentFor g order fuel c sent ∧ e ∈ sent
  sent : ∀ c ∈ commits, ∃ order' sent, g.envelopesFor order' fuel c = some sent
    ∧ SentFor g order fuel c sent ∧ sent ⊆ envelopes

/-- **The run of `Stream`**, given what each iteration sends. -/
theorem streamFrom_spec {g : Graph} {order : RangeOrder} {fuel : ℕ} (orders : ℕ → RangeOrder)
    {commits : List GoString}
    (h : ∀ c ∈ commits, ∀ order', ∃ sent, g.envelopesFor order' fuel c = some sent
      ∧ SentFor g order fuel c sent) :
    ∀ loop, ∃ envelopes, g.streamFrom orders fuel loop commits = some envelopes
      ∧ Streamed g order fuel commits envelopes := by
  induction commits with
  | nil =>
    exact fun loop => ⟨[], rfl, .refl [], fun e he => absurd he not_mem_nil,
      fun c hc => absurd hc not_mem_nil⟩
  | cons commit commits ih =>
    intro loop
    rw [forall_mem_cons] at h
    obtain ⟨sent, hsent, hspec⟩ := h.1 (orders loop)
    obtain ⟨rest, hrest, hstreamed⟩ := ih h.2 (loop + 1)
    refine ⟨sent ++ rest, ?_, ?_, fun e he => ?_, forall_mem_cons.mpr ⟨?_, fun c hc => ?_⟩⟩
    · rw [Graph.streamFrom, hsent, hrest]
      rfl
    · obtain ⟨visible, -, hcommit⟩ := hspec
      rw [flatMap_append]
      exact hcommit.commits.append hstreamed.sublist
    · rcases mem_append.mp he with he | he
      · exact ⟨commit, mem_cons_self, sent, hspec, he⟩
      · obtain ⟨c, hc, sent', hsent'⟩ := hstreamed.source e he
        exact ⟨c, mem_cons_of_mem _ hc, sent', hsent'⟩
    · exact ⟨orders loop, sent, hsent, hspec, subset_append_left _ _⟩
    · obtain ⟨order', sent', hsent', hspec', hsubset⟩ := hstreamed.sent c hc
      exact ⟨order', sent', hsent', hspec', List.Subset.trans hsubset (subset_append_right _ _)⟩

namespace Streamed

variable {g : Graph} {order : RangeOrder} {fuel : ℕ} {commits : List GoString}
  {envelopes : List Envelope}

theorem uploads_perm (h : Streamed g order fuel commits envelopes)
    {uploads : List UploadMeta} (hmem : { uploads := some ⟨c, uploads⟩ } ∈ envelopes) :
    ∃ visible, g.uploadsVisibleAtCommit order fuel c = some visible ∧ uploads.Perm visible := by
  obtain ⟨_, -, sent, ⟨visible, hvisible, hspec⟩, hmem⟩ := h.source _ hmem
  cases hspec with
  | uploads uploads hperm =>
    cases mem_singleton.mp hmem
    exact ⟨visible, hvisible, hperm⟩
  | link => cases mem_singleton.mp hmem
  | nothing => exact absurd hmem not_mem_nil

theorem link_perm (h : Streamed g order fuel commits envelopes) {c a : GoString} {d : UInt32}
    (hmem : { links := some ⟨c, a, d⟩ } ∈ envelopes) :
    ∃ visible, g.uploadsVisibleAtCommit order fuel c = some visible ∧ a ∈ g.ancestorUploads
      ∧ ((adjustVisibleUploads order ((g.ancestorUploads.lookup a).getD ∅) 0).map
        (·.addDistance d)).Perm visible := by
  obtain ⟨_, -, sent, ⟨visible, hvisible, hspec⟩, hmem⟩ := h.source _ hmem
  cases hspec with
  | uploads => cases mem_singleton.mp hmem
  | link ancestor distance ha hperm =>
    cases mem_singleton.mp hmem
    exact ⟨visible, hvisible, ha, hperm order⟩
  | nothing => exact absurd hmem not_mem_nil

theorem exists_uploads (h : Streamed g order fuel commits envelopes) (hfuel : 0 < fuel)
    {a : GoString} (ha : a ∈ g.ancestorUploads) (hmem : a ∈ commits) :
    ∃ uploads, { uploads := some ⟨a, uploads⟩ } ∈ envelopes := by
  obtain ⟨order', sent, hsent, -, hsubset⟩ := h.sent a hmem
  rw [envelopesFor_stored ha hfuel] at hsent
  cases hsent
  exact ⟨_, hsubset mem_cons_self⟩

/-- **What a reader reconstructs is what the commit sees.** -/
theorem reconstructs_perm (h : Streamed g order fuel commits envelopes) (hfuel : 0 < fuel)
    {uploads visible : List UploadMeta}
    (hvisible : g.uploadsVisibleAtCommit order fuel c = some visible)
    (hread : Reconstructs envelopes c uploads) : uploads.Perm visible := by
  cases hread with
  | uploads uploads hmem =>
    obtain ⟨visible', hvisible', hperm⟩ := h.uploads_perm hmem
    cases hvisible.symm.trans hvisible'
    exact hperm
  | link a d uploads hlink huploads =>
    obtain ⟨visible', hvisible', ha, hperm⟩ := h.link_perm hlink
    obtain ⟨stored, hstored, hperm'⟩ := h.uploads_perm huploads
    rw [uploadsVisibleAtCommit_stored ha hfuel] at hstored
    cases hstored
    cases hvisible.symm.trans hvisible'
    exact (hperm'.map _).trans hperm

/-- **A commit that sees uploads can be reconstructed.** -/
theorem exists_reconstructs (h : Streamed g order fuel commits envelopes) (hfuel : 0 < fuel)
    (hstored : ∀ a ∈ g.ancestorUploads, a ∈ commits) (hc : c ∈ commits)
    {visible : List UploadMeta}
    (hvisible : g.uploadsVisibleAtCommit order fuel c = some visible) (hne : visible ≠ []) :
    ∃ uploads, Reconstructs envelopes c uploads := by
  obtain ⟨order', sent, -, ⟨visible', hvisible', hspec⟩, hsubset⟩ := h.sent c hc
  cases hvisible.symm.trans hvisible'
  cases hspec with
  | uploads uploads => exact ⟨uploads, .uploads uploads (hsubset mem_cons_self)⟩
  | link a d ha =>
    obtain ⟨uploads, huploads⟩ := h.exists_uploads hfuel ha (hstored a ha)
    exact ⟨_, .link a d uploads (hsubset mem_cons_self) huploads⟩
  | nothing hnil => exact absurd hnil hne

end Streamed

theorem Reconstructs.exists_envelope {envelopes : List Envelope}
    {uploads : List UploadMeta} (h : Reconstructs envelopes c uploads) :
    ∃ e ∈ envelopes, c ∈ e.commits := by
  cases h with
  | uploads uploads hmem => exact ⟨_, hmem, mem_cons_self⟩
  | link a d uploads hmem => exact ⟨_, hmem, mem_cons_self⟩

/-- **The stream loses nothing.** For a commit graph in topological order and
any uploads, building the graph and streaming it return. There is at most
one envelope for each commit, and the ancestor of every link has an envelope
with uploads. What a reader reconstructs for a commit are the uploads that
`UploadsVisibleAtCommit` returns for it. A commit that sees uploads can be
reconstructed, and one without an envelope sees none. -/
theorem stream_lossless {cg : CommitGraph} (hg : cg.Topological) (view : CommitGraphView)
    (order order' : RangeOrder) (orders : ℕ → RangeOrder) {fuel : ℕ}
    (hfuel : cg.order.length ≤ fuel) :
    ∃ g envelopes, newGraph order fuel cg view = some g
      ∧ g.stream orders fuel = some envelopes
      ∧ (envelopes.flatMap Envelope.commits).Nodup
      ∧ (∀ e ∈ envelopes, ∀ link, e.links = some link →
        ∃ uploads, { uploads := some ⟨link.ancestorCommit, uploads⟩ } ∈ envelopes)
      ∧ ∀ c ∈ cg.graph, ∃ visible, g.uploadsVisibleAtCommit order' fuel c = some visible
        ∧ (∀ uploads, Reconstructs envelopes c uploads → uploads.Perm visible)
        ∧ (visible ≠ [] → ∃ uploads, Reconstructs envelopes c uploads)
        ∧ ((∀ e ∈ envelopes, c ∉ e.commits) → visible = []) := by
  obtain ⟨stored, hrun, hstored⟩ := exists_populate hg order view hfuel cg.order
    (fun _ => id) 0 ∅ (fun c hc => absurd hc (AList.notMem_empty c))
  obtain ⟨g, hgraph, hcommits, rfl, hnew⟩ : ∃ g : Graph, g.graph = cg.graph
      ∧ g.commits.Perm cg.order ∧ g.ancestorUploads = stored
      ∧ newGraph order fuel cg view = some g :=
    ⟨⟨view, cg.graph, _, stored⟩, rfl, perm_insertionSort _ _, rfl,
      congrArg (Option.map _) hrun⟩
  have hpos : ∀ c ∈ cg.order, 0 < fuel := fun c hc =>
    (length_pos_of_mem hc).trans_le hfuel
  have hstored' : ∀ a ∈ g.ancestorUploads, a ∈ g.commits :=
    fun a ha => hcommits.mem_iff.mpr (hstored a ha)
  have hsent : ∀ c ∈ g.commits, ∀ order, ∃ sent, g.envelopesFor order fuel c = some sent
      ∧ SentFor g order' fuel c sent := by
    intro c hc order
    obtain ⟨visible, hvisible, hsends⟩ :=
      envelopesFor_sent hg hgraph hstored hfuel (hcommits.mem_iff.mp hc) order'
    obtain ⟨sent, hsent, hspec⟩ := hsends order
    exact ⟨sent, hsent, visible, hvisible, hspec⟩
  obtain ⟨envelopes, hstream, hstreamed⟩ := streamFrom_spec orders hsent 0
  refine ⟨g, envelopes, hnew, hstream, ?_, fun e he link hlink => ?_, fun c hc => ?_⟩
  · exact hstreamed.sublist.nodup (hcommits.nodup_iff.mpr hg.nodup)
  · obtain ⟨c, -, sent, ⟨visible, -, hspec⟩, hmem⟩ := hstreamed.source e he
    cases hspec with
    | uploads =>
      rw [mem_singleton.mp hmem] at hlink
      cases hlink
    | link a d ha =>
      rw [mem_singleton.mp hmem] at hlink
      cases hlink
      exact hstreamed.exists_uploads (hpos a (hstored a ha)) ha (hstored' a ha)
    | nothing => exact absurd hmem not_mem_nil
  · have horder := (hg.mem_order c).mpr hc
    have hpos := hpos c horder
    obtain ⟨visible, hvisible, -⟩ := envelopesFor_sent hg hgraph hstored hfuel horder order'
    have hread : visible ≠ [] → ∃ uploads, Reconstructs envelopes c uploads :=
      hstreamed.exists_reconstructs hpos hstored' (hcommits.mem_iff.mpr horder) hvisible
    refine ⟨visible, hvisible, fun uploads => hstreamed.reconstructs_perm hpos hvisible, hread,
      fun hnone => not_not.mp fun hne => ?_⟩
    obtain ⟨uploads, huploads⟩ := hread hne
    obtain ⟨e, he, hmem⟩ := huploads.exists_envelope
    exact hnone e he hmem

/-- Commits `c` and `b` after `a`, one after the other. -/
def chainLog : List GoString :=
  [lit "c b", lit "b a", lit "a"]

/-- Uploads with two tokens on `a`. -/
def chainView : CommitGraphView :=
  (({} : CommitGraphView).add ⟨1, 0⟩ (lit "a") (lit "go")).add ⟨2, 0⟩ (lit "a") (lit "ts")

/-- The last commit of the chain is sent with a link to the first one, two
steps away. -/
theorem stream_lossless_chain :
    ∃ g envelopes, newGraph .byEntries 3 (parseCommitGraph chainLog) chainView = some g
      ∧ g.stream (fun _ => .byEntries) 3 = some envelopes
      ∧ { links := some ⟨lit "c", lit "a", 2⟩ } ∈ envelopes
      ∧ ∃ visible, g.uploadsVisibleAtCommit .byEntries 3 (lit "c") = some visible
        ∧ ∀ uploads, Reconstructs envelopes (lit "c") uploads → uploads.Perm visible := by
  have hhistory : IsHistory (chainLog.filterMap logEntry) := by decide +kernel
  have hlength : (parseCommitGraph chainLog).order.length = 3 := by decide +kernel
  obtain ⟨g, envelopes, hnew, hstream, -, -, hread⟩ :=
    stream_lossless (parseCommitGraph_topological hhistory) chainView .byEntries .byEntries
      (fun _ => .byEntries) hlength.le
  have heval : ((newGraph .byEntries 3 (parseCommitGraph chainLog) chainView).bind fun g =>
      g.stream (fun _ => .byEntries) 3).any
        (·.contains { links := some ⟨lit "c", lit "a", 2⟩ }) = true := by decide +kernel
  rw [hnew, Option.bind_some, hstream, Option.any_some, contains_iff_mem] at heval
  obtain ⟨visible, hvisible, hperm, -⟩ := hread (lit "c") (by decide +kernel)
  exact ⟨g, envelopes, hnew, hstream, heval, visible, hvisible, hperm⟩

end Commitgraph
