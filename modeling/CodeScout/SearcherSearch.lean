import CodeScout.SearcherGrep
import CodeScout.Util.Interleaving
import Mathlib

/-!
# Searching all files of an archive

`regexSearch` sends the files that a search selects to a stream with a limit.
If only paths are searched, or there is no pattern, the files are looked at one
after the other. Otherwise workers take the files by their index and search
them concurrently, until a file brings the stream to its limit.

Files that the path matcher rejects should never be sent. The workers skip
them, but the search of paths takes the path matcher for a part of the pattern,
and a negated search then sends what the path matcher rejects.
-/

namespace Searcher

open Interleaving List

/-! ## The limited stream -/

/-- The stream of a search, with what it has collected. `canceled` tells
whether the context of the search is canceled. -/
structure Stream where
  remaining : ℤ
  canceled : Bool
  limitHit : Bool
  collected : List FileMatch

/-- `newLimitedStreamCollector` -/
def newStream (limit : ℤ) : Stream := ⟨limit, false, false, []⟩

/-- `Remaining` -/
def Stream.remains (s : Stream) : ℕ := s.remaining.toNat

/-- `Send`, when nothing else runs. -/
def Stream.send (s : Stream) (fm : FileMatch) : Stream :=
  let count : ℤ := fm.matchCount
  let after := s.remaining - count
  let before := after + count
  if after > 0 then { s with remaining := after, collected := s.collected ++ [fm] }
  else if before ≤ 0 then { s with remaining := after }
  else if after = 0 then ⟨after, true, true, s.collected ++ [fm]⟩
  else ⟨after, true, true, s.collected ++ [fm.limit before.toNat]⟩

/-! ## The search -/

/-- What a search is given besides the files. -/
structure Search where
  rg : ReaderGrep
  toLower : GoString → GoString
  patternMatchesContent : Bool
  patternMatchesPaths : Bool
  isPatternNegated : Bool

namespace Search

variable (q : Search)

/-- Contents are searched if nothing else is. -/
def matchesContent : Bool :=
  if !q.patternMatchesContent && !q.patternMatchesPaths then true else q.patternMatchesContent

/-- Whether the files are looked at one after the other. -/
def fastPath : Bool :=
  q.rg.re.isNone || (q.patternMatchesPaths && !q.matchesContent)

/-- Whether the search of paths sends a file. -/
def pathMatch (f : SrcFile) : Bool :=
  (q.rg.matchPath.matchPath f.name && q.rg.matchString q.toLower f.name) == !q.isPatternNegated

/-- Files are matched by their paths, until the limit is hit. -/
def searchPaths (s : Stream) : List SrcFile → Stream
  | [] => s
  | f :: files =>
    if q.pathMatch f then
      if s.canceled then s else searchPaths (s.send ⟨f.name, [], false⟩) files
    else searchPaths s files

/-! ### Workers -/

/-- What the workers share. `contextCanceled` is set some time after the
context is canceled, and `next` is the index of the next file, one more than
`lastFileIdx`. -/
structure Shared where
  stream : Stream
  contextCanceled : Bool
  next : ℕ

/-- A worker before its next action, or the goroutine that waits for the
context. -/
inductive Process where
  /-- The condition of the loop. -/
  | check
  /-- Before the next index is taken. -/
  | claim
  | search (f : SrcFile)
  | send (fm : FileMatch)
  /-- The limit is reached and the context is to be canceled. -/
  | cancel (fm : FileMatch)
  /-- `limitHit` is to be set. -/
  | mark (fm : FileMatch)
  | callback (fm : FileMatch)
  | returned
  | watch
  | watched

/-- Whether a worker sends a file for which `Find` returned chunks or not. -/
def workerMatch (f : SrcFile) (found : Bool) : Bool :=
  (found || (q.patternMatchesPaths && q.rg.matchString q.toLower f.name)) == !q.isPatternNegated

/-- An action of a worker or of the goroutine that waits for the context. -/
def act (re : Regexp) (files : List SrcFile) (s : Shared) :
    Process → Option (Shared × Process)
  | .check => some (s, if s.contextCanceled then .returned else .claim)
  | .claim =>
    some ({ s with next := s.next + 1 },
      match files[s.next]? with
      | none => .returned
      | some f => if q.rg.matchPath.matchPath f.name then .search f else .check)
  | .search f =>
    let fm := q.rg.findZip re f s.stream.remains
    some (s, if q.workerMatch f (fm.chunkMatches.length > 0) then .send fm else .check)
  | .send fm =>
    let count : ℤ := fm.matchCount
    let after := s.stream.remaining - count
    let before := after + count
    some ({ s with stream := { s.stream with remaining := after } },
      if after > 0 then .callback fm
      else if before ≤ 0 then .check
      else if after = 0 then .cancel fm
      else .cancel (fm.limit before.toNat))
  | .cancel fm => some ({ s with stream := { s.stream with canceled := true } }, .mark fm)
  | .mark fm => some ({ s with stream := { s.stream with limitHit := true } }, .callback fm)
  | .callback fm =>
    some ({ s with stream := { s.stream with collected := s.stream.collected ++ [fm] } }, .check)
  | .returned => none
  | .watch =>
    if s.stream.canceled then some ({ s with contextCanceled := true }, .watched) else none
  | .watched => none

def numWorkers : ℕ := 8

/-- The workers and the goroutine that waits, before any of them runs. -/
def start (limit : ℤ) : Shared × List Process :=
  (⟨newStream limit, false, 0⟩, .watch :: List.replicate numWorkers .check)

/-- **The results of `regexSearchBatch`**, for some order of the workers. The
workers are waited for. -/
def Returns (files : List SrcFile) (limit : ℤ) (final : Stream) : Prop :=
  if q.fastPath then final = q.searchPaths (newStream limit) files
  else ∃ re ∈ q.rg.re, ∃ s ps, Reaches (q.act re files) (start limit) (s, ps) ∧
    Terminal (q.act re files) (s, ps) ∧ final = s.stream

/-- **The files that a search selects**: those the path matcher accepts where
that the pattern matches differs from the negation. -/
def selected (f : SrcFile) : Bool :=
  q.rg.matchPath.matchPath f.name &&
    (((q.matchesContent && q.rg.re.elim true fun re => re.matchString (q.rg.matchBuf f)) ||
      (q.patternMatchesPaths && q.rg.matchString q.toLower f.name)) != q.isPatternNegated)

/-! ## What is sent -/

/-- Whether `Find` returns chunks for a file. -/
def found (re : Regexp) (f : SrcFile) : Bool :=
  decide (q.rg.literalSubstring <:+: q.rg.matchBuf f) && re.matchString (q.rg.matchBuf f)

theorem decide_length_findZip (re : Regexp) (f : SrcFile) (limit : ℕ) :
    decide ((q.rg.findZip re f limit).chunkMatches.length > 0) = q.found re f := by
  unfold found
  rw [Bool.eq_iff_iff, decide_eq_true_iff, Bool.and_eq_true, decide_eq_true_iff, ← find_ne_nil]
  exact length_pos_iff

/-- Whether a worker that takes a file sends it. -/
def sends (re : Regexp) (f : SrcFile) : Bool :=
  q.rg.matchPath.matchPath f.name && q.workerMatch f (q.found re f)

/-! ### One after the other -/

theorem send_of_pos {s : Stream} {fm : FileMatch} (h : 0 < s.remaining - fm.matchCount) :
    s.send fm =
      { s with remaining := s.remaining - fm.matchCount, collected := s.collected ++ [fm] } :=
  if_pos h

theorem remaining_send (s : Stream) (fm : FileMatch) :
    (s.send fm).remaining = s.remaining - fm.matchCount := by
  unfold Stream.send
  dsimp only
  split_ifs <;> rfl

theorem remaining_searchPaths_le (s : Stream) (files : List SrcFile) :
    (q.searchPaths s files).remaining ≤ s.remaining := by
  fun_induction searchPaths q s files with
  | case1 => exact le_rfl
  | case2 => exact le_rfl
  | case3 s f files _ _ ih =>
    rw [remaining_send] at ih
    exact ih.trans (sub_le_self _ (Int.natCast_nonneg _))
  | case4 s f files _ ih => exact ih

/-- Every file the search of paths matches is collected, if the limit is not
reached. -/
theorem collected_searchPaths {s : Stream} {files : List SrcFile} (hs : s.canceled = false)
    (h : 0 < (q.searchPaths s files).remaining) :
    (q.searchPaths s files).collected.map (·.path) =
      s.collected.map (·.path) ++ (files.filter q.pathMatch).map (·.name) := by
  fun_induction searchPaths q s files with
  | case1 => exact (append_nil _).symm
  | case2 s f files _ hcanceled => exact absurd (hs.symm.trans hcanceled) Bool.false_ne_true
  | case3 s f files hmatch _ ih =>
    have hpos := h.trans_le (q.remaining_searchPaths_le _ _)
    rw [remaining_send] at hpos
    have hsend := send_of_pos hpos
    rw [ih (by rw [hsend]; exact hs) h, hsend, filter_cons_of_pos hmatch]
    simp
  | case4 s f files hmatch ih => rw [ih hs h, filter_cons_of_neg hmatch]

theorem remaining_searchPaths {s : Stream} {files : List SrcFile}
    (hs : (files.length : ℤ) < s.remaining) : 0 < (q.searchPaths s files).remaining := by
  fun_induction searchPaths q s files with
  | case1 => exact hs
  | case2 s => exact (Int.natCast_nonneg _).trans_lt hs
  | case3 s f files hmatch _ ih =>
    apply ih
    rw [remaining_send]
    show (files.length : ℤ) < s.remaining - 1
    rw [length_cons, Nat.cast_succ] at hs
    exact lt_sub_iff_add_lt.2 hs
  | case4 s f files hmatch ih =>
    rw [length_cons, Nat.cast_succ] at hs
    exact ih ((lt_add_one _).trans hs)

/-! ### Workers -/

section Workers

variable (re : Regexp) (files : List SrcFile)

/-- The file that a worker still has to add to what is collected. -/
def pending : Process → List GoString
  | .search f => if q.workerMatch f (q.found re f) then [f.name] else []
  | .send fm | .callback fm => [fm.path]
  | _ => []

/-- What a process is not doing as long as the limit is not reached: it does not
cancel the search, and a worker returns only when all files are taken. -/
def Quiet (next : ℕ) : Process → Prop
  | .cancel _ | .mark _ | .watched => False
  | .returned => files.length ≤ next
  | _ => True

/-- **As long as the limit is not reached**, what is collected and what the
workers are still to add are the files to be sent among those that are taken. -/
structure Unlimited (s : Shared) (ps : List Process) : Prop where
  perm : (s.stream.collected.map (·.path) ++ ps.flatMap (q.pending re)).Perm
    (((files.take s.next).filter (q.sends re)).map (·.name))
  not_canceled : s.stream.canceled = false
  not_contextCanceled : s.contextCanceled = false
  quiet : ∀ p ∈ ps, Quiet files s.next p

variable {re files}

variable {p p' : Process}

theorem Quiet.mono {next next' : ℕ} (hle : next ≤ next') (h : Quiet files next p) :
    Quiet files next' p := by
  cases p with
  | returned => exact Nat.le_trans h hle
  | _ => exact h

variable {s s' : Shared}

theorem Unlimited.of_perm {ps ps' : List Process} (hperm : ps.Perm ps')
    (h : q.Unlimited re files s ps) : q.Unlimited re files s ps' :=
  ⟨(((hperm.flatMap_right _).append_left _).symm).trans h.perm, h.not_canceled,
    h.not_contextCanceled, fun p hp => h.quiet p (hperm.mem_iff.2 hp)⟩

variable {ps rest : List Process}

/-- An action that takes no file and leaves what it has to add where it was. -/
theorem Unlimited.move (h : q.Unlimited re files s (p :: rest))
    (hcanceled : s'.stream.canceled = s.stream.canceled)
    (hcontext : s'.contextCanceled = s.contextCanceled) (hnext : s'.next = s.next)
    (hcollected : s'.stream.collected.map (·.path) ++ q.pending re p' =
      s.stream.collected.map (·.path) ++ q.pending re p)
    (hquiet : Quiet files s.next p') : q.Unlimited re files s' (p' :: rest) where
  perm := by
    have hperm := h.perm
    rw [flatMap_cons, ← append_assoc] at hperm ⊢
    rwa [hcollected, hnext]
  not_canceled := hcanceled.trans h.not_canceled
  not_contextCanceled := hcontext.trans h.not_contextCanceled
  quiet := by
    rw [hnext]
    exact forall_mem_cons.2 ⟨hquiet, (forall_mem_cons.1 h.quiet).2⟩

/-- A worker takes the next file. -/
theorem Unlimited.claim (h : q.Unlimited re files s (.claim :: rest))
    (hact : q.act re files s .claim = some (s', p')) : q.Unlimited re files s' (p' :: rest) := by
  cases hact
  have hrest := (forall_mem_cons.1 h.quiet).2
  have hperm := h.perm
  rw [flatMap_cons] at hperm
  change (_ ++ ([] ++ _)).Perm _ at hperm
  rw [nil_append] at hperm
  refine ⟨?_, h.not_canceled, h.not_contextCanceled, forall_mem_cons.2
    ⟨?_, fun p hp => (hrest p hp).mono (Nat.le_succ _)⟩⟩
  · dsimp only
    cases hf : files[s.next]? with
    | none =>
      have hlength := getElem?_eq_none_iff.1 hf
      rw [take_of_length_le (Nat.le_succ_of_le hlength), ← take_of_length_le hlength]
      exact hperm
    | some f =>
      rw [take_add_one, hf, filter_append, map_append, flatMap_cons]
      refine (perm_append_comm_assoc _ _ _).trans
        ((perm_append_comm).trans (List.Perm.append hperm (List.Perm.of_eq ?_)))
      dsimp only [Option.toList]
      -- the worker has the file to add that the list of taken files has more
      by_cases hpath : q.rg.matchPath.matchPath f.name
      · rw [if_pos hpath]
        show (if q.workerMatch f (q.found re f) then [f.name] else []) = _
        unfold sends
        by_cases hworker : q.workerMatch f (q.found re f) <;> simp [hpath, hworker]
      · rw [if_neg hpath]
        unfold sends
        simp [hpath, pending]
  · dsimp only
    cases hf : files[s.next]? with
    | none => exact Nat.le_succ_of_le (getElem?_eq_none_iff.1 hf)
    | some f =>
      dsimp only
      split_ifs <;> trivial

/-- **The step of a process.** -/
theorem Unlimited.act (hact : q.act re files s p = some (s', p'))
    (h : 0 < s.stream.remaining → q.Unlimited re files s (p :: rest))
    (hpos : 0 < s'.stream.remaining) : q.Unlimited re files s' (p' :: rest) := by
  cases p with
  | check =>
    cases hact
    have hs := h hpos
    refine hs.move q rfl rfl rfl ?_ ?_ <;> simp [hs.not_contextCanceled, pending, Quiet]
  | claim =>
    have hs := hact
    cases hs
    exact (h hpos).claim q hact
  | search f =>
    cases hact
    refine (h hpos).move q rfl rfl rfl ?_ ?_ <;> rw [decide_length_findZip]
    · by_cases hworker : q.workerMatch f (q.found re f)
      · rw [if_pos hworker]
        simp [pending, hworker, ReaderGrep.findZip]
      · simp [pending, hworker]
    · split_ifs <;> trivial
  | send fm =>
    cases hact
    have hafter : 0 < s.stream.remaining - fm.matchCount := hpos
    have hbefore : 0 < s.stream.remaining :=
      hafter.trans_le (sub_le_self _ (Int.natCast_nonneg _))
    refine (h hbefore).move q rfl rfl rfl ?_ ?_ <;> rw [if_pos hafter]
    · rfl
    · trivial
  | cancel fm =>
    cases hact
    exact absurd ((h hpos).quiet _ mem_cons_self) id
  | mark fm =>
    cases hact
    exact absurd ((h hpos).quiet _ mem_cons_self) id
  | callback fm =>
    cases hact
    refine (h hpos).move q rfl rfl rfl ?_ trivial
    simp [pending]
  | returned => cases hact
  | watch =>
    by_cases hcanceled : s.stream.canceled
    · simp only [Search.act, if_pos hcanceled] at hact
      cases hact
      exact absurd ((h hpos).not_canceled.symm.trans hcanceled) Bool.false_ne_true
    · simp only [Search.act, if_neg hcanceled] at hact
      cases hact
  | watched => cases hact

/-- A worker, and not the goroutine that waits for the context. -/
def isWorker : Process → Bool
  | .watch | .watched => false
  | _ => true

theorem isWorker_act (h : q.act re files s p = some (s', p')) :
    isWorker p' = isWorker p := by
  cases p with
  | claim =>
    cases h
    cases files[s.next]? with
    | none => rfl
    | some f =>
      dsimp only
      split_ifs <;> rfl
  | watch =>
    simp only [Search.act] at h
    split_ifs at h
    cases h
    rfl
  | returned | watched => cases h
  | cancel fm | mark fm | callback fm =>
    cases h
    rfl
  | check | search f | send fm =>
    cases h
    split_ifs <;> rfl

/-- In the end there is a worker that has returned. -/
theorem exists_returned {limit : ℤ} (hreach : Reaches (q.act re files) (start limit) (s, ps))
    (hterm : Terminal (q.act re files) (s, ps)) : Process.returned ∈ ps := by
  have hany : ps.any isWorker = true :=
    Reaches.invariant (q.act re files) (fun _ ps => ps.any isWorker = true)
      (fun hperm h => hperm.any_eq.symm.trans h)
      (fun hact h => by rwa [any_cons, q.isWorker_act hact, ← any_cons]) hreach rfl
  obtain ⟨p, hp, hworker⟩ := any_eq_true.1 hany
  have hnone := (terminal_iff _).1 hterm p hp
  cases p with
  | returned => exact hp
  | watch | watched => cases hworker
  | _ => cases hnone

/-- **What a search of contents collects**, if the limit is not reached. -/
theorem collected_of_reaches {limit : ℤ} (hreach : Reaches (q.act re files) (start limit) (s, ps))
    (hterm : Terminal (q.act re files) (s, ps)) (hpos : 0 < s.stream.remaining) :
    (s.stream.collected.map (·.path)).Perm ((files.filter (q.sends re)).map (·.name)) := by
  have hstart : q.Unlimited re files (start limit).1 (start limit).2 :=
    ⟨List.Perm.refl _, rfl, rfl, by simp [start, Quiet]⟩
  have hinv : q.Unlimited re files s ps := Reaches.invariant (q.act re files)
    (fun s ps => 0 < s.stream.remaining → q.Unlimited re files s ps)
    (fun hperm h hpos => (h hpos).of_perm q hperm) (fun hact h => Unlimited.act q hact h)
    hreach (fun _ => hstart) hpos
  have hdone : files.length ≤ s.next := hinv.quiet _ (q.exists_returned hreach hterm)
  have hpending : ps.flatMap (q.pending re) = [] := by
    rw [flatMap_eq_nil_iff]
    intro p hp
    have hnone := (terminal_iff _).1 hterm p hp
    cases p with
    | returned | watch | watched => rfl
    | _ => cases hnone
  have hperm := hinv.perm
  rwa [hpending, append_nil, take_of_length_le hdone] at hperm

/-! ### Runs end -/

/-- How many actions a process takes, apart from those for further files. -/
def weight : Process → ℕ
  | .search _ => 7
  | .send _ => 6
  | .cancel _ => 5
  | .mark _ => 4
  | .callback _ => 3
  | .check => 2
  | .claim | .watch => 1
  | .returned | .watched => 0

theorem weight_act (h : q.act re files s p = some (s', p')) :
    7 * (files.length - s'.next) + weight p' < 7 * (files.length - s.next) + weight p := by
  cases p with
  | claim =>
    cases h
    dsimp only
    cases hf : files[s.next]? with
    | none =>
      have hlength := getElem?_eq_none_iff.1 hf
      rw [Nat.sub_eq_zero_of_le hlength, Nat.sub_eq_zero_of_le (Nat.le_succ_of_le hlength)]
      exact Nat.lt_add_of_pos_right Nat.one_pos
    | some f =>
      obtain ⟨hlt, -⟩ := List.getElem?_eq_some_iff.1 hf
      have hle : weight (if q.rg.matchPath.matchPath f.name then .search f else .check) ≤ 7 := by
        split_ifs <;> simp [weight]
      show _ + _ < _ + 1
      dsimp only
      omega
  | watch =>
    simp only [Search.act] at h
    split_ifs at h
    cases h
    exact Nat.lt_succ_self _
  | returned | watched => cases h
  | cancel fm | mark fm | callback fm =>
    cases h
    exact Nat.lt_succ_self _
  | check | search f | send fm =>
    cases h
    refine Nat.add_lt_add_left ?_ _
    split_ifs <;> simp [weight]

theorem wellFounded_act (re : Regexp) (files : List SrcFile) :
    WellFounded fun c' c => Step (q.act re files) c c' :=
  @wellFounded_step Shared Process (q.act re files) (fun s => 7 * (files.length - s.next)) weight
    q.weight_act

/-! ### Limits that are not reached -/

/-- How many matches a process may still take from those remaining. -/
def cost : Process → ℕ
  | .search f => f.content.length + 1
  | .send fm => fm.matchCount
  | _ => 0

/-- The matches remaining are more than the files and the workers can take. -/
def Affordable (files : List SrcFile) (s : Shared) (ps : List Process) : Prop :=
  (((files.drop s.next).map fun f => f.content.length + 1).sum + (ps.map cost).sum : ℕ) <
    s.stream.remaining

theorem Affordable.act
    (hact : q.act re files s p = some (s', p')) (h : Affordable files s (p :: rest)) :
    Affordable files s' (p' :: rest) := by
  unfold Affordable at h ⊢
  rw [map_cons, sum_cons] at h ⊢
  cases p with
  | claim =>
    cases hact
    refine lt_of_le_of_lt (Nat.cast_le.2 ?_) h
    dsimp only
    cases hf : files[s.next]? with
    | none =>
      rw [drop_eq_nil_of_le (getElem?_eq_none_iff.1 hf),
        drop_eq_nil_of_le (Nat.le_succ_of_le (getElem?_eq_none_iff.1 hf))]
      exact le_rfl
    | some f =>
      obtain ⟨hlt, rfl⟩ := List.getElem?_eq_some_iff.1 hf
      rw [drop_eq_getElem_cons hlt, map_cons, sum_cons]
      have hle : cost (if q.rg.matchPath.matchPath files[s.next].name
          then .search files[s.next] else .check) ≤ files[s.next].content.length + 1 := by
        split_ifs
        · exact le_rfl
        · exact Nat.zero_le _
      dsimp only at hle ⊢
      show _ ≤ _ + (0 + _)
      omega
  | search f =>
    cases hact
    refine lt_of_le_of_lt (Nat.cast_le.2 ?_) h
    refine Nat.add_le_add_left (Nat.add_le_add_right ?_ _) _
    split_ifs
    · exact matchCount_findZip_le _ _ _ _
    · exact Nat.zero_le _
  | send fm =>
    cases hact
    dsimp only
    rw [if_pos]
    · show ((_ + (0 + _) : ℕ) : ℤ) < _ - _
      simp only [cost, Nat.cast_add] at h ⊢
      omega
    · simp only [cost, Nat.cast_add] at h
      omega
  | watch =>
    simp only [Search.act] at hact
    split_ifs at hact
    cases hact
    exact h
  | returned | watched => cases hact
  | check =>
    cases hact
    split_ifs <;> exact h
  | _ =>
    cases hact
    exact h

end Workers

/-- **Every search returns.** -/
theorem exists_returns (files : List SrcFile) (limit : ℤ) :
    ∃ final, q.Returns files limit final := by
  unfold Returns
  by_cases hfast : q.fastPath
  · simp only [if_pos hfast]
    exact ⟨_, rfl⟩
  · simp only [if_neg hfast]
    obtain ⟨re, hre⟩ : ∃ re, q.rg.re = some re := by
      rw [← Option.ne_none_iff_exists']
      intro hnone
      exact hfast (by simp [fastPath, hnone])
    obtain ⟨⟨s, ps⟩, hreach, hterm⟩ :=
      exists_terminal_of_wellFounded _ (q.wellFounded_act re files) (start limit)
    exact ⟨s.stream, re, hre, s, ps, hreach, hterm, rfl⟩

/-- There is a limit that no run reaches. -/
theorem exists_limit (files : List SrcFile) :
    ∃ limit, ∀ final, q.Returns files limit final → 0 < final.remaining := by
  refine ⟨((files.map fun f => f.content.length + 1).sum : ℕ) + 1, fun final hfinal => ?_⟩
  unfold Returns at hfinal
  by_cases hfast : q.fastPath
  · rw [if_pos hfast] at hfinal
    rw [hfinal]
    refine q.remaining_searchPaths ?_
    show (files.length : ℤ) < _ + 1
    have hlength : files.length ≤ (files.map fun f => f.content.length + 1).sum := by
      have hle := length_le_sum_of_one_le (files.map fun f => f.content.length + 1)
        (forall_mem_map.2 fun f _ => Nat.le_add_left 1 _)
      rwa [length_map] at hle
    exact Int.lt_add_one_of_le (Int.ofNat_le.2 hlength)
  · rw [if_neg hfast] at hfinal
    obtain ⟨re, -, s, ps, hreach, -, rfl⟩ := hfinal
    have haffordable : Affordable files s ps :=
      Reaches.invariant (q.act re files) (Affordable files)
      (fun hperm h => by
        unfold Affordable at h ⊢
        rwa [(hperm.map cost).sum_eq] at h)
      (fun hact h => Affordable.act q hact h) hreach (by
        show ((_ + 0 : ℕ) : ℤ) < _ + 1
        exact lt_add_one _)
    exact (Int.natCast_nonneg _).trans_lt haffordable

/-! ## Searches that are exact -/

/-- Two filters of a list that keep as much, one of them no more than the
other, are the same. -/
theorem eq_of_perm_filter {α β : Type} {g : α → β} {p p' : α → Bool} {l : List α}
    (h : ∀ a ∈ l, p a = true → p' a = true)
    (hperm : ((l.filter p).map g).Perm ((l.filter p').map g)) : ∀ a ∈ l, p a = p' a := by
  have hlength : (l.filter p).length = (l.filter p').length := by
    simpa only [length_map] using hperm.length_eq
  have hfilter : (l.filter p').filter p = l.filter p := by
    rw [filter_filter]
    refine filter_congr fun a ha => ?_
    cases hp : p a with
    | false => rfl
    | true => rw [h a ha hp, Bool.and_self]
  have hself := filter_eq_self.1
    (filter_sublist.eq_of_length (hfilter ▸ hlength : ((l.filter p').filter p).length = _))
  intro a ha
  cases hp' : p' a with
  | true => exact hself a (mem_filter.2 ⟨ha, hp'⟩)
  | false => exact Bool.eq_false_iff.2 fun hp => Bool.false_ne_true (hp' ▸ h a ha hp)

/-- Whether a search sends a file. -/
def sent (f : SrcFile) : Bool :=
  if q.fastPath then q.pathMatch f else q.rg.re.elim false fun re => q.sends re f

/-- **What a search collects**, if the limit is not reached. -/
theorem collected_of_returns {files : List SrcFile} {limit : ℤ} {final : Stream}
    (h : q.Returns files limit final) (hpos : 0 < final.remaining) :
    (final.collected.map (·.path)).Perm ((files.filter q.sent).map (·.name)) := by
  unfold Returns at h
  by_cases hfast : q.fastPath
  · rw [if_pos hfast] at h
    subst h
    rw [q.collected_searchPaths rfl hpos]
    have hsent : q.sent = q.pathMatch := funext fun f => if_pos hfast
    rw [hsent]
    exact List.Perm.refl _
  · rw [if_neg hfast] at h
    obtain ⟨re, hre, s, ps, hreach, hterm, rfl⟩ := h
    have hsent : q.sent = q.sends re := by
      funext f
      rw [sent, if_neg hfast, show q.rg.re = some re from hre]
      rfl
    rw [hsent]
    exact q.collected_of_reaches hreach hterm hpos

/-- **The searches that are exact.** A search of paths is not negated, or the
path matcher accepts all files; and a search of contents finds the literal in
every file that the pattern matches, unless the path is matched too. -/
def Exact (files : List SrcFile) : Prop :=
  if q.fastPath then
    q.isPatternNegated = true → ∀ f ∈ files, q.rg.matchPath.matchPath f.name = true
  else
    ∀ re ∈ q.rg.re, ∀ f ∈ files, q.rg.matchPath.matchPath f.name = true →
      re.matchString (q.rg.matchBuf f) = true → q.rg.literalSubstring <:+: q.rg.matchBuf f ∨
        (q.patternMatchesPaths = true ∧ q.rg.matchString q.toLower f.name = true)

/-- If files are looked at one after the other, only the path is matched. -/
theorem selected_of_fastPath (hfast : q.fastPath = true) (f : SrcFile) :
    q.selected f = (q.rg.matchPath.matchPath f.name &&
      (q.rg.matchString q.toLower f.name != q.isPatternNegated)) := by
  unfold selected ReaderGrep.matchString
  unfold fastPath at hfast
  cases hre : q.rg.re with
  | none =>
    have hsome : (q.matchesContent || q.patternMatchesPaths) = true := by
      unfold matchesContent
      cases q.patternMatchesContent <;> cases q.patternMatchesPaths <;> rfl
    simp only [Option.elim_none, Bool.and_true, hsome]
  | some re =>
    rw [hre, Option.isNone_some, Bool.false_or, Bool.and_eq_true, Bool.not_eq_true'] at hfast
    rw [hfast.1, hfast.2, Bool.false_and, Bool.false_or, Bool.true_and]

theorem matchesContent_of_not_fastPath (hfast : ¬ q.fastPath = true) :
    q.matchesContent = true := by
  unfold fastPath matchesContent at hfast
  unfold matchesContent
  revert hfast
  cases q.patternMatchesContent <;> cases q.patternMatchesPaths <;> simp

/-- A negated search sends too many files, and one that is not negated too
few. -/
theorem sent_comparable (f : SrcFile) :
    (q.isPatternNegated = false → q.sent f = true → q.selected f = true) ∧
      (q.isPatternNegated = true → q.selected f = true → q.sent f = true) := by
  unfold sent
  by_cases hfast : q.fastPath
  · rw [if_pos hfast, q.selected_of_fastPath hfast]
    unfold pathMatch
    cases q.isPatternNegated <;> cases q.rg.matchPath.matchPath f.name <;> simp
  · rw [if_neg hfast]
    unfold selected
    rw [q.matchesContent_of_not_fastPath hfast, Bool.true_and]
    cases hre : q.rg.re with
    | none => exact absurd (by simp [fastPath, hre]) hfast
    | some re =>
      unfold sends workerMatch found
      simp only [Option.elim_some]
      cases q.isPatternNegated <;> cases q.rg.matchPath.matchPath f.name <;>
        cases re.matchString (q.rg.matchBuf f) <;> simp

/-- **A search is exact if it sends the files it selects.** -/
theorem exact_iff (files : List SrcFile) :
    q.Exact files ↔ ∀ f ∈ files, q.sent f = q.selected f := by
  unfold Exact sent
  by_cases hfast : q.fastPath
  · simp only [if_pos hfast]
    have hfile : ∀ f, q.pathMatch f = q.selected f ↔
        (q.isPatternNegated = true → q.rg.matchPath.matchPath f.name = true) := by
      intro f
      rw [q.selected_of_fastPath hfast]
      unfold pathMatch
      cases q.isPatternNegated <;> cases q.rg.matchPath.matchPath f.name <;>
        cases q.rg.matchString q.toLower f.name <;> decide
    simp only [hfile]
    exact ⟨fun h f hf hneg => h hneg f hf, fun h hneg f hf => h f hf hneg⟩
  · simp only [if_neg hfast]
    cases hre : q.rg.re with
    | none => exact absurd (by simp [fastPath, hre]) hfast
    | some re =>
      have hfile : ∀ f, q.sends re f = q.selected f ↔
          (q.rg.matchPath.matchPath f.name = true → re.matchString (q.rg.matchBuf f) = true →
            q.rg.literalSubstring <:+: q.rg.matchBuf f ∨
              (q.patternMatchesPaths = true ∧ q.rg.matchString q.toLower f.name = true)) := by
        intro f
        unfold sends selected workerMatch found
        rw [q.matchesContent_of_not_fastPath hfast, hre, ← Bool.and_eq_true]
        simp only [Option.elim_some, Bool.true_and]
        generalize (q.patternMatchesPaths && q.rg.matchString q.toLower f.name) = path
        by_cases hoccurs : q.rg.literalSubstring <:+: q.rg.matchBuf f <;>
          simp only [hoccurs, decide_true, decide_false] <;>
          cases q.isPatternNegated <;> cases q.rg.matchPath.matchPath f.name <;>
            cases re.matchString (q.rg.matchBuf f) <;> cases path <;> decide
      simp only [Option.elim_some, hfile]
      exact ⟨fun h f hf => h re rfl f hf, fun h re' hre' f hf => Option.some.inj hre' ▸ h f hf⟩

end Search

open Search in
/-- **A search sends the files it selects, each once,** for every order of the
workers and whenever the limit is not reached, if and only if it is exact. All
its runs end. -/
theorem regexSearch_selects_iff (q : Search) (files : List SrcFile) :
    (∀ re, WellFounded fun c' c => Step (q.act re files) c c') ∧
      (∀ limit, ∃ final, q.Returns files limit final) ∧
      ((∀ limit final, q.Returns files limit final → 0 < final.remaining →
          (final.collected.map (·.path)).Perm ((files.filter q.selected).map (·.name))) ↔
        q.Exact files) := by
  refine ⟨fun re => q.wellFounded_act re files, q.exists_returns files, ?_⟩
  rw [exact_iff]
  constructor
  · intro h
    obtain ⟨limit, hlimit⟩ := q.exists_limit files
    obtain ⟨final, hfinal⟩ := q.exists_returns files limit
    have hpos := hlimit final hfinal
    have hperm := (q.collected_of_returns hfinal hpos).symm.trans (h limit final hfinal hpos)
    cases hneg : q.isPatternNegated with
    | false =>
      exact eq_of_perm_filter (fun f _ => (q.sent_comparable f).1 hneg) hperm
    | true =>
      exact fun f hf =>
        (eq_of_perm_filter (fun f _ => (q.sent_comparable f).2 hneg) hperm.symm f hf).symm
  · intro h limit final hfinal hpos
    rw [← filter_congr h]
    exact q.collected_of_returns hfinal hpos

/-- The pattern `^text`. -/
def anchored (text : GoString) : Regexp where
  matchString s := text.isPrefixOf s
  findAllIndex s n := if text.isPrefixOf s && decide (0 < n) then [(0, text.length)] else []
  findAllIndex_eq_nil := by
    intro s n hn
    rw [decide_eq_true hn, Bool.and_true]
    cases text.isPrefixOf s <;> simp
  length_findAllIndex := by
    intro s n
    split_ifs
    · exact Nat.le_add_left 1 _
    · exact Nat.zero_le _

/-- A negated search of paths for `^main`, not below `vendor`. -/
def outsideVendor : Search where
  rg := ⟨some (anchored (lit "main")), false, ⟨[], some (anchored (lit "vendor/"))⟩, []⟩
  toLower := id
  patternMatchesContent := false
  patternMatchesPaths := true
  isPatternNegated := true

/-- The search sends a file below `vendor`. -/
theorem outsideVendor_sends_vendored : ∃ final,
    outsideVendor.Returns [⟨lit "vendor/a.go", []⟩] 10 final ∧ 0 < final.remaining ∧
      final.collected = [⟨lit "vendor/a.go", [], false⟩] ∧
      [⟨lit "vendor/a.go", []⟩].filter outsideVendor.selected = [] :=
  ⟨outsideVendor.searchPaths (newStream 10) [⟨lit "vendor/a.go", []⟩], by
    rw [Search.Returns, if_pos (by decide +kernel)], by decide +kernel, by decide +kernel,
    by decide +kernel⟩

end Searcher
