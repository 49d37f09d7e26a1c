import CodeScout.Util.GoMap
import CodeScout.Util.GoStrconv
import CodeScout.Util.GoString
import Mathlib

/-!
# The persistent repository iterator

An iterator over repositories is kept in a row of the table `repo_iterator`,
and the repositories that failed in rows of `repo_iterator_errors`, each of
which names its iterator. `Load` reads both.

`Restart` sets the columns of the row back and deletes errors – by their own
id, where the id of the iterator is meant. The two ids come from different
sequences. So after a restart the iterator loads with the errors that it had,
except for one that happens to have the same id, and another iterator may have
lost an error. What must hold of the tables for a restart to be durable is in
`restart_durable_iff`.
-/

namespace RepoIterator

open List

/-! ## Tables -/

/-- An instant, counted from the zero value of `time.Time`. -/
abbrev Time := ℤ

/-- A row of `repo_iterator`. -/
structure IteratorRow where
  id : ℕ
  createdAt : Time
  startedAt : Option Time
  completedAt : Option Time
  runtimeDuration : ℤ
  percentComplete : ℚ
  totalCount : ℕ
  successCount : ℕ
  repos : List ℤ
  repoCursor : ℕ
  totalCount_eq : totalCount = repos.length

/-- A row of `repo_iterator_errors`. -/
structure ErrorRow where
  id : ℕ
  repoIteratorId : ℕ
  repoId : ℤ
  errorMessage : List GoString
  failureCount : ℕ

/-- The tables, with their keys. -/
structure Store where
  iterators : List IteratorRow
  errors : List ErrorRow
  iterators_nodup : (iterators.map IteratorRow.id).Nodup
  errors_nodup : (errors.map ErrorRow.id).Nodup
  errors_fk : ∀ row ∈ errors, row.repoIteratorId ∈ iterators.map IteratorRow.id

namespace Store

/-- `SELECT … FROM repo_iterator WHERE repo_iterator.Id = …`. -/
def iterator? (s : Store) (id : ℕ) : Option IteratorRow :=
  s.iterators.find? fun row => row.id = id

theorem map_id_update {f : IteratorRow → IteratorRow} (hf : ∀ row, (f row).id = row.id) (id : ℕ)
    (rows : List IteratorRow) :
    (rows.map fun row => if row.id = id then f row else row).map IteratorRow.id =
      rows.map IteratorRow.id := by
  rw [map_map]
  refine map_congr_left fun row _ => ?_
  rw [Function.comp_apply, apply_ite IteratorRow.id, hf, ite_self]

/-- `UPDATE repo_iterator … WHERE id = …`. -/
def updateIterator (s : Store) (id : ℕ) (f : IteratorRow → IteratorRow)
    (hf : ∀ row, (f row).id = row.id) : Store :=
  { s with
    iterators := s.iterators.map fun row => if row.id = id then f row else row
    iterators_nodup := by rw [map_id_update hf]; exact s.iterators_nodup
    errors_fk := by rw [map_id_update hf]; exact s.errors_fk }

theorem iterator?_updateIterator (s : Store) (id : ℕ) {f : IteratorRow → IteratorRow}
    (hf : ∀ row, (f row).id = row.id) (id' : ℕ) :
    (s.updateIterator id f hf).iterator? id' =
      if id' = id then (s.iterator? id').map f else s.iterator? id' := by
  have hid : ∀ row : IteratorRow, (if row.id = id then f row else row).id = row.id := by
    intro row
    rw [apply_ite IteratorRow.id, hf, ite_self]
  have hsame : ((fun row : IteratorRow => decide (row.id = id')) ∘ fun row =>
      if row.id = id then f row else row) = fun row => decide (row.id = id') := by
    funext row
    rw [Function.comp_apply, hid]
  show (s.iterators.map fun row => if row.id = id then f row else row).find? _ = _
  rw [iterator?, find?_map, hsame]
  cases hfind : s.iterators.find? fun row => row.id = id' with
  | none => split_ifs <;> rfl
  | some row =>
    have hrow : row.id = id' := by simpa using find?_some hfind
    rw [Option.map_some, hrow]
    split_ifs <;> rfl

/-- `DELETE FROM repo_iterator_errors WHERE id = …`. -/
def deleteError (s : Store) (id : ℕ) : Store :=
  { s with
    errors := s.errors.filter fun row => row.id ≠ id
    errors_nodup := s.errors_nodup.sublist (List.filter_sublist.map _)
    errors_fk := fun row hrow => s.errors_fk row (List.mem_of_mem_filter hrow) }

end Store

/-! ## The iterator -/

/-- The error of a repository. -/
structure IterationError where
  id : ℕ
  repoId : ℤ
  failureCount : ℕ
  errorMessages : List GoString
  deriving DecidableEq

/-- Errors by repository. -/
abbrev ErrorMap := GoMap ℤ IterationError

/-- An iterator in memory. -/
structure PersistentRepoIterator where
  id : ℕ
  createdAt : Time
  startedAt : Time
  completedAt : Time
  runtimeDuration : ℤ
  percentComplete : ℚ
  totalCount : ℕ
  successCount : ℕ
  repos : List ℤ
  cursor : ℕ
  errors : ErrorMap
  terminalErrors : ErrorMap
  retryRepos : List ℤ
  retryCursor : ℕ

/-- An error as it is loaded from its row. -/
def ErrorRow.toError (row : ErrorRow) : IterationError :=
  ⟨row.id, row.repoId, row.failureCount, row.errorMessage⟩

/-- The errors of an iterator, by repository. -/
def Store.errorsOf (s : Store) (id : ℕ) : List (ℤ × IterationError) :=
  (s.errors.filter fun row => row.repoIteratorId = id).map fun row => (row.repoId, row.toError)

/-- `loadRepoIteratorErrors` -/
def loadRepoIteratorErrors (s : Store) (id : ℕ) : ErrorMap := GoMap.assign ∅ (s.errorsOf id)

/-- An iterator as it is loaded from its row. -/
def IteratorRow.toIterator (row : IteratorRow) (errors : ErrorMap) : PersistentRepoIterator where
  id := row.id
  createdAt := row.createdAt
  startedAt := row.startedAt.getD 0
  completedAt := row.completedAt.getD 0
  runtimeDuration := row.runtimeDuration
  percentComplete := row.percentComplete
  totalCount := row.totalCount
  successCount := row.successCount
  repos := row.repos
  cursor := row.repoCursor
  errors := errors
  terminalErrors := ∅
  retryRepos := []
  retryCursor := 0

/-- The iterator as it is stored, with its errors. -/
def load (s : Store) (id : ℕ) : Except GoString PersistentRepoIterator :=
  match s.iterator? id with
  | none => .error (lit "ScanRepoIterator: sql: no rows in result set")
  | some row =>
    if row.repoCursor > row.repos.length then
      .error (lit "invalid repo iterator state Id:" ++ formatNat row.id ++ lit " cursor:" ++
        formatNat row.repoCursor ++ lit " length:" ++ formatNat row.repos.length)
    else .ok (row.toIterator (loadRepoIteratorErrors s row.id))

/-- The columns that a restart sets. -/
def IteratorRow.restarted (row : IteratorRow) : IteratorRow :=
  { row with
    percentComplete := 0
    runtimeDuration := 0
    successCount := 0
    repoCursor := 0
    completedAt := none
    startedAt := none }

/-- The progress is reset, and errors are deleted. -/
def restart (p : PersistentRepoIterator) (s : Store) : PersistentRepoIterator × Store :=
  ({ p with
      completedAt := 0
      startedAt := 0
      percentComplete := 0
      retryCursor := 0
      retryRepos := []
      terminalErrors := ∅
      cursor := 0
      runtimeDuration := 0
      successCount := 0
      errors := ∅ },
    (s.updateIterator p.id IteratorRow.restarted fun _ => rfl).deleteError p.id)

/-! ## What a restart should do -/

/-- Two iterators in the same state: maps have no order. -/
structure PersistentRepoIterator.Same (p q : PersistentRepoIterator) : Prop where
  fields : { p with errors := ∅, terminalErrors := ∅ } =
    { q with errors := ∅, terminalErrors := ∅ }
  errors : ∀ repo, p.errors.lookup repo = q.errors.lookup repo
  terminalErrors : ∀ repo, p.terminalErrors.lookup repo = q.terminalErrors.lookup repo

/-- The same result of a load. -/
inductive SameLoad : Except GoString PersistentRepoIterator →
    Except GoString PersistentRepoIterator → Prop
  | error (message : GoString) : SameLoad (.error message) (.error message)
  | ok {p q : PersistentRepoIterator} (h : p.Same q) : SameLoad (.ok p) (.ok q)

/-- A freshly created iterator. -/
def fresh (id : ℕ) (createdAt : Time) (repos : List ℤ) : PersistentRepoIterator where
  id := id
  createdAt := createdAt
  startedAt := 0
  completedAt := 0
  runtimeDuration := 0
  percentComplete := 0
  totalCount := repos.length
  successCount := 0
  repos := repos
  cursor := 0
  errors := ∅
  terminalErrors := ∅
  retryRepos := []
  retryCursor := 0

/-- An error that the load of its iterator finds: the iterator can be loaded,
and no later row is about the same repository. -/
def Store.Visible (s : Store) (row : ErrorRow) : Prop :=
  (∃ itr, s.iterator? row.repoIteratorId = some itr ∧ itr.repoCursor ≤ itr.repos.length) ∧
    GoMap.lastValue (s.errorsOf row.repoIteratorId) row.repoId = some row.toError

/-! ## Loading after a restart -/

section

variable {s : Store} {p : PersistentRepoIterator}

theorem iterator?_restart (id : ℕ) :
    (restart p s).2.iterator? id =
      if id = p.id then (s.iterator? id).map IteratorRow.restarted else s.iterator? id :=
  s.iterator?_updateIterator p.id (f := IteratorRow.restarted) (fun _ => rfl) id

theorem errorsOf_restart (id : ℕ) :
    (restart p s).2.errorsOf id = ((s.errors.filter fun row => row.id ≠ p.id).filter fun row =>
      row.repoIteratorId = id).map fun row => (row.repoId, row.toError) :=
  rfl

theorem lookup_loadRepoIteratorErrors (s : Store) (id : ℕ) (repo : ℤ) :
    (loadRepoIteratorErrors s id).lookup repo = GoMap.lastValue (s.errorsOf id) repo := by
  rw [loadRepoIteratorErrors, GoMap.lookup_assign_empty]

/-- **What a deletion changes**: the errors that were found and are deleted. -/
theorem lastValue_filter_iff (rows : List ErrorRow) (id : ℕ) (repo : ℤ) :
    GoMap.lastValue ((rows.filter fun row => row.id ≠ id).map fun row =>
        (row.repoId, row.toError)) repo =
      GoMap.lastValue (rows.map fun row => (row.repoId, row.toError)) repo ↔
    ¬ ∃ row ∈ rows, row.id = id ∧ row.repoId = repo ∧
      GoMap.lastValue (rows.map fun row => (row.repoId, row.toError)) repo =
        some row.toError := by
  have hlast : ∀ l : List ErrorRow,
      GoMap.lastValue (l.map fun row => (row.repoId, row.toError)) repo =
        (l.reverse.find? fun row => row.repoId = repo).map ErrorRow.toError := by
    intro l
    rw [GoMap.lastValue, ← map_reverse, find?_map, Option.map_map]
    rfl
  rw [hlast, hlast, ← filter_reverse, find?_filter]
  constructor
  · rintro heq ⟨row, -, hid, -, hrow⟩
    -- what is found after the deletion has another id
    rw [hrow, Option.map_eq_some_iff] at heq
    obtain ⟨row', hfind, herror⟩ := heq
    have hne := find?_some hfind
    have hsame : row'.id = row.id := congrArg IterationError.id herror
    simp only [decide_eq_true_eq] at hne
    exact hne.1 (hsame.trans hid)
  · intro hnot
    congr 1
    cases hfind : rows.reverse.find? fun row => row.repoId = repo with
    | none =>
      rw [find?_eq_none] at hfind ⊢
      intro row hrow hboth
      exact hfind row hrow (of_decide_eq_true hboth).2
    | some row =>
      have hrepo : row.repoId = repo := by simpa using find?_some hfind
      have hid : row.id ≠ id := fun hid => hnot ⟨row,
        mem_reverse.mp (mem_of_find?_eq_some hfind), hid, hrepo, by rw [hfind]; rfl⟩
      obtain ⟨before, after, hsplit, hbefore⟩ := find?_eq_some_iff_append.mp hfind |>.2
      rw [find?_eq_some_iff_append]
      refine ⟨by simp [hid, hrepo], before, after, hsplit, fun row' hrow' => ?_⟩
      have hother := hbefore row' hrow'
      simp only [Bool.not_eq_true', decide_eq_false_iff_not] at hother
      simp [hother]

/-- The iterator itself is as new if no error of it is left. -/
theorem load_restart_self {row : IteratorRow} (hrow : s.iterator? p.id = some row) :
    (∃ itr, load (restart p s).2 p.id = .ok itr ∧
      itr.Same (fresh p.id row.createdAt row.repos)) ↔
    ∀ error ∈ s.errors, error.repoIteratorId = p.id → error.id = p.id := by
  have hid : row.id = p.id := by simpa using find?_some hrow
  have hload : load (restart p s).2 p.id =
      .ok (row.restarted.toIterator (loadRepoIteratorErrors (restart p s).2 p.id)) := by
    rw [load, iterator?_restart, if_pos rfl, hrow, ← hid]
    rfl
  have hempty : (∀ repo, GoMap.lastValue ((restart p s).2.errorsOf p.id) repo = none) ↔
      ∀ error ∈ s.errors, error.repoIteratorId = p.id → error.id = p.id := by
    simp only [GoMap.lastValue_eq_none_iff, errorsOf_restart, mem_map, mem_filter,
      decide_eq_true_eq]
    constructor
    · intro h error herror hiterator
      by_contra hne
      exact h error.repoId _ ⟨error, ⟨⟨herror, hne⟩, hiterator⟩, rfl⟩ rfl
    · rintro h repo - ⟨error, ⟨⟨herror, hne⟩, hiterator⟩, rfl⟩
      exact absurd (h error herror hiterator) hne
  rw [hload, ← hempty]
  constructor
  · rintro ⟨itr, hitr, hsame⟩ repo
    obtain rfl := Except.ok.inj hitr
    rw [← lookup_loadRepoIteratorErrors]
    exact hsame.errors repo
  · intro h
    refine ⟨_, rfl, ?_, fun repo => ?_, fun repo => rfl⟩
    · show PersistentRepoIterator.mk row.id _ _ _ _ _ row.totalCount _ _ _ _ _ _ _ = _
      rw [hid, row.totalCount_eq]
      rfl
    · exact (lookup_loadRepoIteratorErrors _ _ _).trans (h repo)

/-- Another iterator is as before if no error of it was found and deleted. -/
theorem load_restart_other {id : ℕ} (hid : id ≠ p.id) :
    SameLoad (load (restart p s).2 id) (load s id) ↔
    ∀ error ∈ s.errors, error.id = p.id → error.repoIteratorId = id → ¬ s.Visible error := by
  have herrors : (∀ repo, GoMap.lastValue ((restart p s).2.errorsOf id) repo =
      GoMap.lastValue (s.errorsOf id) repo) ↔
      ∀ error ∈ s.errors, error.id = p.id → error.repoIteratorId = id →
        GoMap.lastValue (s.errorsOf id) error.repoId ≠ some error.toError := by
    rw [errorsOf_restart, filter_comm]
    simp only [Store.errorsOf, lastValue_filter_iff, not_exists, not_and, mem_filter,
      decide_eq_true_eq]
    exact ⟨fun h error herror hdeleted hiterator hfound =>
        h _ error ⟨herror, hiterator⟩ hdeleted rfl hfound,
      fun h repo error herror hdeleted hrepo => hrepo ▸ h error herror.1 hdeleted herror.2⟩
  unfold load
  rw [iterator?_restart, if_neg hid]
  cases hrow : s.iterator? id with
  | none =>
    refine iff_of_true (.error _) fun error _ _ hiterator hvisible => ?_
    obtain ⟨⟨itr, hitr, -⟩, -⟩ := hvisible
    rw [hiterator, hrow] at hitr
    exact absurd hitr.symm (Option.some_ne_none itr)
  | some row =>
    have hid' : row.id = id := by simpa using find?_some hrow
    by_cases hcursor : row.repoCursor > row.repos.length
    · simp only [if_pos hcursor]
      refine iff_of_true (.error _) fun error _ _ hiterator hvisible => ?_
      obtain ⟨⟨itr, hitr, hle⟩, -⟩ := hvisible
      rw [hiterator, hrow] at hitr
      obtain rfl := Option.some.inj hitr
      exact absurd hcursor (not_lt.mpr hle)
    · simp only [if_neg hcursor]
      have hsame : SameLoad (.ok (row.toIterator (loadRepoIteratorErrors (restart p s).2 row.id)))
          (.ok (row.toIterator (loadRepoIteratorErrors s row.id))) ↔
          ∀ repo, GoMap.lastValue ((restart p s).2.errorsOf id) repo =
            GoMap.lastValue (s.errorsOf id) repo := by
        rw [hid']
        simp only [← lookup_loadRepoIteratorErrors]
        exact ⟨fun h => by cases h with | ok h => exact h.errors,
          fun h => .ok ⟨rfl, h, fun _ => rfl⟩⟩
      rw [hsame, herrors]
      refine forall₂_congr fun error _ => forall₂_congr fun _ hiterator => ?_
      rw [Store.Visible, hiterator, hrow]
      simp [not_lt.mp hcursor]

/-- **Restarting an iterator is durable** exactly if every error of it has its
id, and no error of another iterator that is found has. -/
theorem restart_durable_iff {row : IteratorRow} (hrow : s.iterator? p.id = some row) :
    ((∃ itr, load (restart p s).2 p.id = .ok itr ∧
        itr.Same (fresh p.id row.createdAt row.repos)) ∧
      ∀ id, id ≠ p.id → SameLoad (load (restart p s).2 id) (load s id)) ↔
    (∀ error ∈ s.errors, error.repoIteratorId = p.id → error.id = p.id) ∧
      ∀ error ∈ s.errors, error.id = p.id → error.repoIteratorId ≠ p.id →
        ¬ s.Visible error := by
  refine and_congr (load_restart_self hrow) ?_
  constructor
  · intro h error herror hdeleted hother
    exact (load_restart_other hother).mp (h _ hother) error herror hdeleted rfl
  · intro h id hid
    refine (load_restart_other hid).mpr fun error herror hdeleted hiterator => ?_
    exact h error herror hdeleted (hiterator ▸ hid)

end

/-- An iterator over two repositories, at its end. -/
def twoRepos (id : ℕ) : IteratorRow :=
  ⟨id, 1, some 2, none, 10, 1 / 2, 2, 1, [1, 5], 2, rfl⟩

/-- Two iterators and one error. -/
def oneError (errorId repoIteratorId : ℕ) (h : repoIteratorId ∈ [1, 2]) : Store :=
  { iterators := [twoRepos 1, twoRepos 2]
    errors := [⟨errorId, repoIteratorId, 5, [lit "timeout"], 1⟩]
    iterators_nodup := by decide
    errors_nodup := List.nodup_singleton _
    errors_fk := fun row hrow => by rw [List.mem_singleton.mp hrow]; exact h }

/-- The first iterator, as it is loaded. -/
def firstIterator : PersistentRepoIterator := (twoRepos 1).toIterator ∅

/-- The ids are the same. -/
def sameIds : Store := oneError 1 1 (by decide)

theorem restart_durable_sameIds :
    (∃ itr, load (restart firstIterator sameIds).2 1 = .ok itr ∧
      itr.Same (fresh 1 1 [1, 5])) ∧
    ∀ id, id ≠ 1 → SameLoad (load (restart firstIterator sameIds).2 id) (load sameIds id) := by
  refine (@restart_durable_iff sameIds firstIterator (twoRepos 1) rfl).mpr ⟨?_, ?_⟩
  · intro error herror _
    rw [mem_singleton.mp herror]
    rfl
  · intro error herror _ hother
    rw [mem_singleton.mp herror] at hother
    exact absurd rfl hother

/-- An error with another id. -/
def otherId : Store := oneError 7 1 (by decide)

/-- An error of the other iterator. -/
def otherIterator : Store := oneError 1 2 (by decide)

/-- **The error of the restarted iterator stays**, and an error of another
iterator is deleted. -/
theorem restart_otherIds :
    (load (restart firstIterator otherId).2 1).map (·.errors.lookup 5) =
      .ok (some ⟨7, 5, 1, [lit "timeout"]⟩) ∧
    (load otherIterator 2).map (·.errors.lookup 5) = .ok (some ⟨1, 5, 1, [lit "timeout"]⟩) ∧
    (load (restart firstIterator otherIterator).2 2).map (·.errors.lookup 5) = .ok none :=
  ⟨rfl, rfl, rfl⟩

end RepoIterator
