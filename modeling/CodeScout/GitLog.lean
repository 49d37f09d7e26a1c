import CodeScout.Util.GoMap
import CodeScout.Util.GoUnicode

/-!
# Commit graphs from git logs

`ParseCommitGraph` reads the output of `git log`, one line for each commit
with the names of the commit and of its parents, children before parents.
It returns the parents of each commit and an order of all commits. A log may
be cut off: a parent that has no line of its own is a commit without
parents.

For the log of a history, in which no commit has two lines or comes after
its parents, the order is topological (`parseCommitGraph_topological`).
-/

namespace Gitdomain

open List

/-- `CommitGraph`. -/
structure CommitGraph where
  graph : GoMap GoString (List GoString)
  order : List GoString

/-- The value `graph[commit]`: nil for a commit that is not in the graph. -/
def parentsIn (graph : GoMap GoString (List GoString)) (commit : GoString) : List GoString :=
  (graph.lookup commit).getD []

/-! ## The parser -/

/-- The commit and the parents on a line of the log. Blank lines have
none. -/
def logEntry (line : GoString) : Option (GoString × List GoString) :=
  let line := trimSpace line
  if line = [] then none
  else match line.splitOn 32 with
    | [] => none
    | commit :: parents => some (commit, parents)

/-- The variables of `ParseCommitGraph`; `unlisted` are the parents that had
no line when they were first seen. -/
structure ParseState where
  graph : GoMap GoString (List GoString) := ∅
  order : List GoString := []
  unlisted : List GoString := []

/-- An iteration of the inner loop of `ParseCommitGraph`. -/
def addParent (st : ParseState) (part : GoString) : ParseState :=
  if part ∈ st.graph then st
  else { st with graph := st.graph.insert part [], unlisted := st.unlisted ++ [part] }

/-- The effect of a line that is not blank. -/
def addEntry (st : ParseState) (entry : GoString × List GoString) : ParseState :=
  entry.2.foldl addParent
    { st with graph := st.graph.insert entry.1 entry.2, order := st.order ++ [entry.1] }

/-- An iteration of the outer loop of `ParseCommitGraph`. -/
def addLine (st : ParseState) (line : GoString) : ParseState :=
  match logEntry line with
  | none => st
  | some entry => addEntry st entry

/-- **`ParseCommitGraph`.** The lines are processed backwards. -/
def parseCommitGraph (lines : List GoString) : CommitGraph :=
  let st := lines.reverse.foldl addLine {}
  ⟨st.graph, st.unlisted ++ st.order⟩

/-! ## Histories -/

/-- The entries of the log of a history: commits have names, no commit is
listed twice, and a commit is listed before its parents. -/
structure IsHistory (entries : List (GoString × List GoString)) : Prop where
  named : ∀ entry ∈ entries, [] ∉ entry.1 :: entry.2
  irrefl : ∀ entry ∈ entries, entry.1 ∉ entry.2
  ordered : entries.Pairwise fun entry entry' => entry.1 ≠ entry'.1 ∧ entry.1 ∉ entry'.2

instance (entries : List (GoString × List GoString)) : Decidable (IsHistory entries) :=
  decidable_of_iff ((∀ entry ∈ entries, [] ∉ entry.1 :: entry.2)
      ∧ (∀ entry ∈ entries, entry.1 ∉ entry.2)
      ∧ entries.Pairwise fun entry entry' => entry.1 ≠ entry'.1 ∧ entry.1 ∉ entry'.2)
    ⟨fun h => ⟨h.1, h.2.1, h.2.2⟩, fun h => ⟨h.named, h.irrefl, h.ordered⟩⟩

/-- A graph with a list of all its commits, parents before children. -/
structure CommitGraph.Topological (g : CommitGraph) : Prop where
  nodup : g.order.Nodup
  mem_order : ∀ c, c ∈ g.order ↔ c ∈ g.graph
  parents_mem : ∀ c, ∀ p ∈ parentsIn g.graph c, p ∈ g.order
  irrefl : ∀ c, c ∉ parentsIn g.graph c
  ordered : g.order.Pairwise fun c c' => c' ∉ parentsIn g.graph c
  named : [] ∉ g.order

/-- **Parents come before children.** -/
theorem CommitGraph.Topological.parents_before {g : CommitGraph} (h : g.Topological)
    {done rest : List GoString} {c : GoString} (hsplit : g.order = done ++ c :: rest)
    {p : GoString} (hp : p ∈ parentsIn g.graph c) : p ∈ done := by
  have hmem := h.parents_mem c p hp
  have hordered := h.ordered
  rw [hsplit, mem_append, mem_cons] at hmem
  rw [hsplit, pairwise_append, pairwise_cons] at hordered
  rcases hmem with hdone | rfl | hrest
  · exact hdone
  · exact absurd hp (h.irrefl p)
  · exact absurd hp (hordered.2.1.1 p hrest)

theorem CommitGraph.Topological.idxOf_lt {g : CommitGraph} (h : g.Topological)
    {c p : GoString} (hp : p ∈ parentsIn g.graph c) : g.order.idxOf p < g.order.idxOf c := by
  have hc : c ∈ g.order := by
    rw [h.mem_order, ← AList.lookup_isSome]
    unfold parentsIn at hp
    cases hlookup : g.graph.lookup c with
    | none =>
      rw [hlookup] at hp
      exact absurd hp not_mem_nil
    | some _ => rfl
  obtain ⟨done, rest, hsplit⟩ := append_of_mem hc
  have hnodup := h.nodup
  rw [hsplit, nodup_append] at hnodup
  have hidx : g.order.idxOf c = done.length := by
    rw [hsplit, idxOf_append_of_notMem fun hmem =>
      hnodup.2.2 c hmem c mem_cons_self rfl, idxOf_cons_self, Nat.add_zero]
  have hpdone := h.parents_before hsplit hp
  rw [hidx, hsplit, idxOf_append_of_mem hpdone]
  exact idxOf_lt_length_iff.mpr hpdone

/-! ## The parser on histories -/

/-- What holds of the variables between the iterations of both loops. -/
structure ParseState.Consistent (st : ParseState) : Prop where
  nodup : (st.unlisted ++ st.order).Nodup
  mem_graph : ∀ c, c ∈ st.graph ↔ c ∈ st.unlisted ++ st.order
  unlisted : ∀ c ∈ st.unlisted, st.graph.lookup c = some []

/-- A state that differs from another one by unlisted parents only. -/
structure ParseState.Extends (st st' : ParseState) (parents : List GoString) : Prop where
  order : st'.order = st.order
  lookup : ∀ c ∈ st.graph, st'.graph.lookup c = st.graph.lookup c
  parents_mem : ∀ p ∈ parents, p ∈ st'.graph
  mem_of_mem : ∀ c ∈ st'.graph, c ∈ st.graph ∨ c ∈ parents

variable {st : ParseState}

theorem addParent_spec (h : st.Consistent) (part : GoString) :
    (addParent st part).Consistent ∧ st.Extends (addParent st part) [part] := by
  unfold addParent
  split
  · next hmem =>
    refine ⟨h, rfl, fun _ _ => rfl, fun p hp => ?_, fun c hc => .inl hc⟩
    rw [mem_singleton.mp hp]
    exact hmem
  · next hmem =>
    have hfresh : part ∉ st.unlisted ++ st.order := fun hpart => hmem ((h.mem_graph part).mpr hpart)
    have hlookup : ∀ c ∈ st.graph, (st.graph.insert part []).lookup c = st.graph.lookup c := by
      intro c hc
      refine AList.lookup_insert_ne ?_
      rintro rfl
      exact hmem hc
    refine ⟨⟨?_, fun c => ?_, fun c hc => ?_⟩, rfl, hlookup, fun p hp => ?_, fun c hc => ?_⟩
    · show (st.unlisted ++ [part] ++ st.order).Nodup
      have hperm : (st.unlisted ++ [part] ++ st.order).Perm
          (part :: (st.unlisted ++ st.order)) := by
        rw [append_assoc]
        exact perm_middle
      exact hperm.nodup_iff.mpr (nodup_cons.mpr ⟨hfresh, h.nodup⟩)
    · rw [AList.mem_insert, h.mem_graph]
      simp only [mem_append, mem_singleton]
      tauto
    · rcases mem_append.mp hc with hc | hc
      · exact (hlookup c ((h.mem_graph c).mpr (mem_append_left _ hc))).trans (h.unlisted c hc)
      · rw [mem_singleton.mp hc]
        exact AList.lookup_insert _
    · rw [mem_singleton.mp hp]
      exact (AList.mem_insert _).mpr (.inl rfl)
    · rcases (AList.mem_insert _).mp hc with rfl | hc
      · exact .inr (mem_singleton_self c)
      · exact .inl hc

theorem foldl_addParent_spec (h : st.Consistent) (parents : List GoString) :
    (parents.foldl addParent st).Consistent
      ∧ st.Extends (parents.foldl addParent st) parents := by
  induction parents generalizing st with
  | nil =>
    exact ⟨h, rfl, fun _ _ => rfl, fun p hp => absurd hp not_mem_nil, fun c hc => .inl hc⟩
  | cons part parents ih =>
    obtain ⟨hpart, horder, hlookup, hparents, hmem⟩ := addParent_spec h part
    obtain ⟨hrest, horder', hlookup', hparents', hmem'⟩ := ih hpart
    have hkeep : ∀ c ∈ st.graph, c ∈ (addParent st part).graph := by
      intro c hc
      rw [← AList.lookup_isSome, hlookup c hc, AList.lookup_isSome]
      exact hc
    have hkeep' : ∀ c ∈ (addParent st part).graph,
        c ∈ (parents.foldl addParent (addParent st part)).graph := by
      intro c hc
      rw [← AList.lookup_isSome, hlookup' c hc, AList.lookup_isSome]
      exact hc
    refine ⟨hrest, horder'.trans horder,
      fun c hc => (hlookup' c (hkeep c hc)).trans (hlookup c hc), ?_, fun c hc => ?_⟩
    · rw [forall_mem_cons]
      exact ⟨hkeep' part (hparents part (mem_singleton_self part)), hparents'⟩
    · rcases hmem' c hc with hc | hc
      · rcases hmem c hc with hc | hc
        · exact .inl hc
        · exact .inr (mem_cons.mpr (.inl (mem_singleton.mp hc)))
      · exact .inr (mem_cons_of_mem _ hc)

/-- What the entries that were processed have left in the variables. -/
structure ParseState.Parsed (st : ParseState) (done : List (GoString × List GoString)) : Prop
    extends st.Consistent where
  order_eq : st.order = done.map Prod.fst
  listed : ∀ entry ∈ done, st.graph.lookup entry.1 = some entry.2
  parents_mem : ∀ entry ∈ done, ∀ p ∈ entry.2, p ∈ st.graph
  mem_of_mem : ∀ c ∈ st.graph, ∃ entry ∈ done, c ∈ entry.1 :: entry.2

variable {done : List (GoString × List GoString)}

/-- **The step of the outer loop**, for a commit that was not seen before. -/
theorem addEntry_spec (h : st.Parsed done) {entry : GoString × List GoString}
    (hfresh : ∀ entry' ∈ done, entry.1 ∉ entry'.1 :: entry'.2) :
    (addEntry st entry).Parsed (done ++ [entry]) := by
  have hnew : entry.1 ∉ st.graph := by
    intro hmem
    obtain ⟨entry', hentry', hc⟩ := h.mem_of_mem _ hmem
    exact hfresh entry' hentry' hc
  have hne : ∀ c ∈ st.graph, c ≠ entry.1 := by
    rintro c hc rfl
    exact hnew hc
  have hinserted : ParseState.Consistent
      { st with graph := st.graph.insert entry.1 entry.2, order := st.order ++ [entry.1] } := by
    refine ⟨?_, fun c => ?_, fun c hc => ?_⟩
    · show (st.unlisted ++ (st.order ++ [entry.1])).Nodup
      rw [← append_assoc]
      exact nodup_append_comm.mp
        (nodup_cons.mpr ⟨fun hmem => hnew ((h.mem_graph _).mpr hmem), h.nodup⟩)
    · rw [AList.mem_insert, h.mem_graph]
      simp only [mem_append, mem_singleton]
      tauto
    · have hmem := (h.mem_graph c).mpr (mem_append_left _ hc)
      exact (AList.lookup_insert_ne (hne c hmem)).trans (h.unlisted c hc)
  obtain ⟨hcons, horder, hlookup, hparents, hmem⟩ := foldl_addParent_spec hinserted entry.2
  have hkeep : ∀ c ∈ st.graph, (addEntry st entry).graph.lookup c = st.graph.lookup c := by
    intro c hc
    exact (hlookup c ((AList.mem_insert _).mpr (.inr hc))).trans (AList.lookup_insert_ne (hne c hc))
  have hmem_keep : ∀ c ∈ st.graph, c ∈ (addEntry st entry).graph := by
    intro c hc
    rw [← AList.lookup_isSome, hkeep c hc, AList.lookup_isSome]
    exact hc
  have hdone : ∀ entry' ∈ done, entry'.1 ∈ st.graph := by
    intro entry' hentry'
    rw [← AList.lookup_isSome, h.listed entry' hentry']
    rfl
  refine ⟨hcons, ?_, ?_, ?_, fun c hc => ?_⟩
  · rw [show (addEntry st entry).order = st.order ++ [entry.1] from horder, h.order_eq, map_append]
    rfl
  · rw [forall_mem_append, forall_mem_singleton]
    refine ⟨fun entry' hentry' => ?_, ?_⟩
    · rw [hkeep _ (hdone entry' hentry')]
      exact h.listed entry' hentry'
    · exact (hlookup _ ((AList.mem_insert _).mpr (.inl rfl))).trans (AList.lookup_insert _)
  · rw [forall_mem_append, forall_mem_singleton]
    exact ⟨fun entry' hentry' p hp => hmem_keep p (h.parents_mem entry' hentry' p hp), hparents⟩
  · rcases hmem c hc with hc | hc
    · rcases (AList.mem_insert _).mp hc with rfl | hc
      · exact ⟨entry, mem_append_right _ (mem_singleton_self entry), mem_cons_self⟩
      · obtain ⟨entry', hentry', hc⟩ := h.mem_of_mem c hc
        exact ⟨entry', mem_append_left _ hentry', hc⟩
    · exact ⟨entry, mem_append_right _ (mem_singleton_self entry), mem_cons_of_mem _ hc⟩

/-- **A run of the outer loop.** -/
theorem foldl_addEntry_spec (entries : List (GoString × List GoString)) :
    ∀ {st : ParseState} {done : List (GoString × List GoString)}, st.Parsed done →
      (∀ entry ∈ entries, ∀ entry' ∈ done, entry.1 ∉ entry'.1 :: entry'.2) →
      (entries.Pairwise fun entry' entry => entry.1 ∉ entry'.1 :: entry'.2) →
      (entries.foldl addEntry st).Parsed (done ++ entries) := by
  induction entries with
  | nil =>
    intro st done h _ _
    rw [append_nil]
    exact h
  | cons entry entries ih =>
    intro st done h hfresh hordered
    rw [forall_mem_cons] at hfresh
    rw [pairwise_cons] at hordered
    have hrest := ih (addEntry_spec h hfresh.1) (fun entry' hentry' => by
      rw [forall_mem_append, forall_mem_singleton]
      exact ⟨hfresh.2 entry' hentry', hordered.1 entry' hentry'⟩) hordered.2
    rwa [append_assoc] at hrest

theorem foldl_addLine (lines : List GoString) (st : ParseState) :
    lines.foldl addLine st = (lines.filterMap logEntry).foldl addEntry st := by
  rw [foldl_filterMap]
  refine congrArg (fun f => lines.foldl f st) ?_
  funext st line
  unfold addLine
  cases logEntry line <;> rfl

theorem ParseState.Parsed.parents_cases (h : st.Parsed done) (c : GoString) :
    parentsIn st.graph c = [] ∨ ∃ entry ∈ done, entry.1 = c ∧ parentsIn st.graph c = entry.2 := by
  unfold parentsIn
  cases hlookup : st.graph.lookup c with
  | none => exact .inl rfl
  | some parents =>
    have hmem : c ∈ st.graph := AList.lookup_isSome.mp (by rw [hlookup]; rfl)
    rcases mem_append.mp ((h.mem_graph c).mp hmem) with hc | hc
    · rw [h.unlisted c hc] at hlookup
      exact .inl (Option.some.inj hlookup).symm
    · rw [h.order_eq] at hc
      obtain ⟨entry, hentry, rfl⟩ := mem_map.mp hc
      rw [h.listed entry hentry] at hlookup
      exact .inr ⟨entry, hentry, rfl, (Option.some.inj hlookup).symm⟩

/-- The variables at the end of the outer loop are a topological order. -/
theorem ParseState.Parsed.topological (h : st.Parsed done)
    (hnamed : ∀ entry ∈ done, [] ∉ entry.1 :: entry.2)
    (hirrefl : ∀ entry ∈ done, entry.1 ∉ entry.2)
    (hordered : done.Pairwise fun entry' entry => entry.1 ∉ entry'.1 :: entry'.2) :
    (⟨st.graph, st.unlisted ++ st.order⟩ : CommitGraph).Topological := by
  have hunlisted : ∀ c ∈ st.unlisted, parentsIn st.graph c = [] := by
    intro c hc
    rw [parentsIn, h.unlisted c hc]
    rfl
  refine ⟨h.nodup, fun c => (h.mem_graph c).symm, fun c p hp => ?_, fun c hc => ?_, ?_, ?_⟩
  · rcases h.parents_cases c with hnil | ⟨entry, hentry, rfl, hparents⟩
    · rw [hnil] at hp
      exact absurd hp not_mem_nil
    · rw [hparents] at hp
      exact (h.mem_graph p).mp (h.parents_mem entry hentry p hp)
  · rcases h.parents_cases c with hnil | ⟨entry, hentry, rfl, hparents⟩
    · rw [hnil] at hc
      exact absurd hc not_mem_nil
    · rw [hparents] at hc
      exact hirrefl entry hentry hc
  · show (st.unlisted ++ st.order).Pairwise fun c c' => c' ∉ parentsIn st.graph c
    have hnone : ∀ c ∈ st.unlisted, ∀ c', c' ∉ parentsIn st.graph c := by
      intro c hc c'
      rw [hunlisted c hc]
      exact not_mem_nil
    refine pairwise_append.mpr ⟨?_, ?_, fun c hc c' _ => hnone c hc c'⟩
    · exact List.Pairwise.imp_of_mem (fun hc _ _ => hnone _ hc _)
        (pairwise_of_forall fun _ _ => trivial)
    · rw [h.order_eq, pairwise_map]
      refine hordered.imp_of_mem fun {entry' entry} hentry' _ hfresh hmem => hfresh ?_
      rw [parentsIn, h.listed entry' hentry'] at hmem
      exact mem_cons_of_mem _ hmem
  · intro hnil
    obtain ⟨entry, hentry, hmem⟩ := h.mem_of_mem [] ((h.mem_graph []).mpr hnil)
    exact hnamed entry hentry hmem

/-- **The parser on the log of a history** returns a topological order. -/
theorem parseCommitGraph_topological {lines : List GoString}
    (h : IsHistory (lines.filterMap logEntry)) : (parseCommitGraph lines).Topological := by
  have hempty : ParseState.Parsed {} [] :=
    ⟨⟨nodup_nil, fun c => iff_of_false (AList.notMem_empty c) not_mem_nil,
      fun c hc => absurd hc not_mem_nil⟩, rfl, fun e he => absurd he not_mem_nil,
      fun e he => absurd he not_mem_nil, fun c hc => absurd hc (AList.notMem_empty c)⟩
  have hentries : ∀ {entry}, entry ∈ lines.reverse.filterMap logEntry →
      entry ∈ lines.filterMap logEntry := by
    intro entry hentry
    rwa [filterMap_reverse, mem_reverse] at hentry
  have hordered : (lines.reverse.filterMap logEntry).Pairwise
      fun entry' entry => entry.1 ∉ entry'.1 :: entry'.2 := by
    rw [filterMap_reverse, pairwise_reverse]
    refine h.ordered.imp fun {entry entry'} hpair hmem => ?_
    rcases mem_cons.mp hmem with heq | hmem
    · exact hpair.1 heq
    · exact hpair.2 hmem
  have hparsed := foldl_addEntry_spec _ hempty
    (fun _ _ entry' hentry' => absurd hentry' not_mem_nil) hordered
  rw [nil_append, ← foldl_addLine] at hparsed
  exact hparsed.topological (fun entry hentry => h.named entry (hentries hentry))
    (fun entry hentry => h.irrefl entry (hentries hentry)) hordered

end Gitdomain
