import CodeScout.Util.GoMap
import CodeScout.Util.GoString
import Mathlib

/-!
# Index requests of Rockskip

A search for a commit that is not indexed asks for it with
`emitIndexRequest`. The call looks its key up in `repoCommitToDone` under a
mutex. When another call has asked for the commit before, it returns the
channel of that call. Otherwise it makes a channel, writes it to the map,
starts a goroutine that removes it again once the channel is closed, and
sends a request to the queue of the repository. The loop of the queue indexes
the commit and closes the channel.

The send does not block: on a full queue the call fails. The channel is in
the map already, and nobody closes it any more. The entry is an *orphan*, it
stays for ever (`Orphan.reaches`), and every later search for the commit
waits for it. `no_orphan_iff_fits` says when this cannot happen: the queues
must have a slot for every commit that is ever asked for.
-/

namespace Rockskip

open List

/-! ## Calls, queues and loops -/

/-- A commit of a repository. -/
structure RepoCommit where
  repo : GoString
  commit : GoString
  deriving DecidableEq

/-- The key of a commit in `repoCommitToDone`. -/
def RepoCommit.key (rc : RepoCommit) : GoString :=
  rc.repo ++ lit "@" ++ rc.commit

/-- The arguments of `NewService` that the queues depend on, and the hash function by
which repositories are spread over them. -/
structure Config where
  maxConcurrentlyIndexing : ℕ
  indexRequestsQueueSize : ℕ
  /-- `fnv1.HashString32` -/
  hashString32 : GoString → UInt32

/-- The queue of a repository. -/
def Config.route (cfg : Config) (repo : GoString) : ℕ :=
  (cfg.hashString32 repo).toNat % cfg.maxConcurrentlyIndexing

/-- The slots of a queue, and none for a queue that does not exist. -/
def Config.slots (cfg : Config) (ix : ℕ) : ℕ :=
  if ix < cfg.maxConcurrentlyIndexing then cfg.indexRequestsQueueSize else 0

/-- Where a call of `emitIndexRequest` is. A channel has the name of the call
that makes it. -/
inductive Phase (ι : Type)
  /-- The map is not read yet. -/
  | start
  /-- The call has written its channel to the map and is about to send. -/
  | emitting
  /-- The call has returned a channel. -/
  | returned (done : ι)
  /-- The call has returned an error, or the modulus by the number of queues
  has panicked. -/
  | failed
  deriving DecidableEq

/-- The state that calls, loops and clean-up goroutines share. -/
structure State (ι : Type) where
  repoCommitToDone : GoMap GoString ι
  call : ι → Phase ι
  indexRequestQueues : ℕ → List ι
  /-- The request that the loop of a queue works on. -/
  indexing : ℕ → Option ι
  closed : ι → Bool
  /-- The clean-up goroutine of a channel waits or is about to delete. -/
  cleaning : ι → Bool

/-- A service that has just been made. -/
def State.new (ι : Type) : State ι where
  repoCommitToDone := ∅
  call _ := .start
  indexRequestQueues _ := []
  indexing _ := none
  closed _ := false
  cleaning _ := false

/-- The atomic actions. -/
inductive Action (ι : Type)
  /-- A call holds the mutex: it finds a channel or writes its own. -/
  | lookup (i : ι)
  /-- A call sends its request to the buffer of a queue. -/
  | send (i : ι)
  /-- A call hands its request to a loop that waits at an empty queue. -/
  | handOff (i : ι)
  /-- A call takes the default branch. -/
  | fail (i : ι)
  /-- A loop receives the first request of its queue. -/
  | receive (ix : ℕ)
  /-- A loop has indexed its commit, with or without an error, and closes the
  channel. -/
  | finish (ix : ℕ)
  /-- The goroutine of a closed channel deletes the entry. -/
  | cleanUp (i : ι)

open Function

section

variable {ι : Type} (cfg : Config) (calls : ι → RepoCommit)

/-- The state after an action, `none` when the action cannot be taken. -/
def step [DecidableEq ι] (s : State ι) : Action ι → Option (State ι)
  | .lookup i =>
    if s.call i = .start then
      match s.repoCommitToDone.lookup (calls i).key with
      | some done => some { s with call := Function.update s.call i (.returned done) }
      | none =>
        some
          { s with
            repoCommitToDone := s.repoCommitToDone.insert (calls i).key i
            call := Function.update s.call i .emitting
            cleaning := Function.update s.cleaning i true }
    else none
  | .send i =>
    let ix := cfg.route (calls i).repo
    if s.call i = .emitting ∧ (s.indexRequestQueues ix).length < cfg.slots ix then
      some
        { s with
          indexRequestQueues :=
            Function.update s.indexRequestQueues ix (s.indexRequestQueues ix ++ [i])
          call := Function.update s.call i (.returned i) }
    else none
  | .handOff i =>
    let ix := cfg.route (calls i).repo
    -- a loop that has a request in its buffer does not wait
    if s.call i = .emitting ∧ ix < cfg.maxConcurrentlyIndexing ∧
        s.indexRequestQueues ix = [] ∧ s.indexing ix = none then
      some
        { s with
          indexing := Function.update s.indexing ix (some i)
          call := Function.update s.call i (.returned i) }
    else none
  | .fail i =>
    let ix := cfg.route (calls i).repo
    if s.call i = .emitting ∧ cfg.slots ix ≤ (s.indexRequestQueues ix).length then
      some { s with call := Function.update s.call i .failed }
    else none
  | .receive ix =>
    match s.indexing ix, s.indexRequestQueues ix with
    | none, i :: rest =>
      some
        { s with
          indexRequestQueues := Function.update s.indexRequestQueues ix rest
          indexing := Function.update s.indexing ix (some i) }
    | _, _ => none
  | .finish ix =>
    (s.indexing ix).map fun i =>
      { s with
        indexing := Function.update s.indexing ix none
        closed := Function.update s.closed i true }
  | .cleanUp i =>
    if s.cleaning i ∧ s.closed i then
      some
        { s with
          repoCommitToDone := s.repoCommitToDone.erase (calls i).key
          cleaning := Function.update s.cleaning i false }
    else none

/-- The second state follows the first by any interleaving of actions. -/
abbrev Reaches [DecidableEq ι] : State ι → State ι → Prop :=
  Relation.ReflTransGen fun s s' => ∃ a, step cfg calls s a = some s'

/-- A request is in a queue, at a loop, or inside the call that makes it. -/
def State.Owned (s : State ι) (i : ι) : Prop :=
  (∃ ix, i ∈ s.indexRequestQueues ix) ∨ (∃ ix, s.indexing ix = some i) ∨ s.call i = .emitting

/-- Every channel of the map that is not closed has its request somewhere. -/
def State.NoOrphan (s : State ι) : Prop :=
  ∀ k i, s.repoCommitToDone.lookup k = some i → s.closed i = false → s.Owned i

/-- No call has returned a channel that cannot be closed any more. -/
def State.NoLostWait [DecidableEq ι] (s : State ι) : Prop :=
  ∀ j i, s.call j = .returned i → ∃ s', Reaches cfg calls s s' ∧ s'.closed i = true

/-- There is a slot for every key: however many different keys the calls for
the repositories of one queue have, the queue can hold them all. -/
def Fits : Prop :=
  ∀ ix, ∀ keys : Finset GoString,
    (∀ k ∈ keys, ∃ i, cfg.route (calls i).repo = ix ∧ (calls i).key = k) →
    keys.card ≤ cfg.slots ix

/-! ## The invariant -/

/-- A request that has been sent to a queue and not been answered. -/
structure State.Pending (s : State ι) (ix : ℕ) (i : ι) : Prop where
  route : cfg.route (calls i).repo = ix
  returned : s.call i = .returned i
  cleaning : s.cleaning i = true
  opened : s.closed i = false

/-- What holds in every reachable state, whether calls fail or not. -/
structure State.Inv (s : State ι) : Prop where
  entry : ∀ {k i}, s.repoCommitToDone.lookup k = some i →
    (calls i).key = k ∧ s.cleaning i = true
  cleaning : ∀ {i}, s.cleaning i = true → s.repoCommitToDone.lookup (calls i).key = some i
  start : ∀ {i}, s.call i = .start → s.closed i = false
  emitting : ∀ {i}, s.call i = .emitting → s.cleaning i = true ∧ s.closed i = false
  queued : ∀ {ix i}, i ∈ s.indexRequestQueues ix → s.Pending cfg calls ix i
  nodup : ∀ ix, (s.indexRequestQueues ix).Nodup
  indexing : ∀ {ix i}, s.indexing ix = some i →
    s.Pending cfg calls ix i ∧ i ∉ s.indexRequestQueues ix
  held : ∀ {i}, s.cleaning i = true → s.closed i = true ∨ s.call i = .failed ∨ s.Owned i
  waited : ∀ {j i}, s.call j = .returned i → s.closed i = true ∨ s.cleaning i = true

theorem State.Inv.new : (State.new ι).Inv cfg calls := by
  constructor <;> simp [State.new]

variable {cfg calls} {s s' : State ι}

theorem State.Inv.key_injective (h : s.Inv cfg calls) {i j : ι} (hi : s.cleaning i = true)
    (hj : s.cleaning j = true) (hkey : (calls i).key = (calls j).key) : i = j := by
  have hlookup := h.cleaning hi
  rw [hkey, h.cleaning hj] at hlookup
  exact (Option.some.inj hlookup).symm

variable {i : ι}

/-- The request of a call that has failed is nowhere. -/
theorem State.Inv.not_owned (h : s.Inv cfg calls) (hfailed : s.call i = .failed) :
    ¬ s.Owned i := by
  rintro (⟨ix, hix⟩ | ⟨ix, hix⟩ | hemit)
  · rw [(h.queued hix).returned] at hfailed
    cases hfailed
  · rw [(h.indexing hix).1.returned] at hfailed
    cases hfailed
  · rw [hemit] at hfailed
    cases hfailed

theorem State.Inv.cleaning_of_owned (h : s.Inv cfg calls) (hi : s.Owned i) :
    s.cleaning i = true := by
  obtain ⟨ix, hi⟩ | ⟨ix, hi⟩ | hi := hi
  · exact (h.queued hi).cleaning
  · exact (h.indexing hi).1.cleaning
  · exact (h.emitting hi).1

variable [DecidableEq ι]

/-- What an action can do. -/
inductive Move (cfg : Config) (calls : ι → RepoCommit) (s : State ι) : State ι → Prop
  | join {i done : ι} (hstart : s.call i = .start)
      (hfound : s.repoCommitToDone.lookup (calls i).key = some done) :
      Move cfg calls s { s with call := Function.update s.call i (.returned done) }
  | create {i : ι} (hstart : s.call i = .start)
      (hnone : s.repoCommitToDone.lookup (calls i).key = none) :
      Move cfg calls s
        { s with
          repoCommitToDone := s.repoCommitToDone.insert (calls i).key i
          call := Function.update s.call i .emitting
          cleaning := Function.update s.cleaning i true }
  | send {i : ι} {ix : ℕ} (hix : cfg.route (calls i).repo = ix) (hemit : s.call i = .emitting)
      (hroom : (s.indexRequestQueues ix).length < cfg.slots ix) :
      Move cfg calls s
        { s with
          indexRequestQueues :=
            Function.update s.indexRequestQueues ix (s.indexRequestQueues ix ++ [i])
          call := Function.update s.call i (.returned i) }
  | handOff {i : ι} {ix : ℕ} (hix : cfg.route (calls i).repo = ix) (hemit : s.call i = .emitting)
      (hidle : s.indexing ix = none) (hempty : s.indexRequestQueues ix = []) :
      Move cfg calls s
        { s with
          indexing := Function.update s.indexing ix (some i)
          call := Function.update s.call i (.returned i) }
  | fail {i : ι} {ix : ℕ} (hix : cfg.route (calls i).repo = ix) (hemit : s.call i = .emitting)
      (hfull : cfg.slots ix ≤ (s.indexRequestQueues ix).length) :
      Move cfg calls s { s with call := Function.update s.call i .failed }
  | receive {i : ι} {ix : ℕ} {rest : List ι} (hidle : s.indexing ix = none)
      (hqueue : s.indexRequestQueues ix = i :: rest) :
      Move cfg calls s
        { s with
          indexRequestQueues := Function.update s.indexRequestQueues ix rest
          indexing := Function.update s.indexing ix (some i) }
  | finish {i : ι} {ix : ℕ} (hindexing : s.indexing ix = some i) :
      Move cfg calls s
        { s with
          indexing := Function.update s.indexing ix none
          closed := Function.update s.closed i true }
  | cleanUp {i : ι} (hcleaning : s.cleaning i = true) (hclosed : s.closed i = true) :
      Move cfg calls s
        { s with
          repoCommitToDone := s.repoCommitToDone.erase (calls i).key
          cleaning := Function.update s.cleaning i false }

theorem Move.of_step {a : Action ι} (hstep : step cfg calls s a = some s') :
    Move cfg calls s s' := by
  cases a with
  | lookup i =>
    simp only [step] at hstep
    split_ifs at hstep with hstart
    split at hstep
    case h_1 hfound => exact Option.some.inj hstep ▸ .join hstart hfound
    case h_2 hnone => exact Option.some.inj hstep ▸ .create hstart hnone
  | send i =>
    obtain ⟨hguard, rfl⟩ := Option.ite_some_none_eq_some.mp hstep
    exact .send rfl hguard.1 hguard.2
  | handOff i =>
    obtain ⟨hguard, rfl⟩ := Option.ite_some_none_eq_some.mp hstep
    exact .handOff rfl hguard.1 hguard.2.2.2 hguard.2.2.1
  | fail i =>
    obtain ⟨hguard, rfl⟩ := Option.ite_some_none_eq_some.mp hstep
    exact .fail rfl hguard.1 hguard.2
  | receive ix =>
    simp only [step] at hstep
    split at hstep
    case h_1 hidle hqueue => exact Option.some.inj hstep ▸ .receive hidle hqueue
    case h_2 => cases hstep
  | finish ix =>
    obtain ⟨i, hindexing, rfl⟩ := Option.map_eq_some_iff.mp hstep
    exact .finish hindexing
  | cleanUp i =>
    obtain ⟨hguard, rfl⟩ := Option.ite_some_none_eq_some.mp hstep
    exact .cleanUp hguard.1 hguard.2

theorem State.Inv.entry_move (h : s.Inv cfg calls) (hmove : Move cfg calls s s') {k : GoString}
    (hi : s'.repoCommitToDone.lookup k = some i) :
    (calls i).key = k ∧ s'.cleaning i = true := by
  cases hmove with
  | @create j hstart hnone =>
    by_cases hk : k = (calls j).key
    · subst hk
      rw [AList.lookup_insert] at hi
      obtain rfl := Option.some.inj hi
      exact ⟨rfl, update_self ..⟩
    · rw [AList.lookup_insert_ne hk] at hi
      grind [State.Inv]
  | @cleanUp j hcleaning hclosed =>
    by_cases hk : k = (calls j).key
    · rw [hk, AList.lookup_erase] at hi
      cases hi
    · rw [AList.lookup_erase_ne hk] at hi
      grind [State.Inv]
  | _ => exact h.entry hi

theorem State.Inv.cleaning_move (h : s.Inv cfg calls) (hmove : Move cfg calls s s')
    (hi : s'.cleaning i = true) : s'.repoCommitToDone.lookup (calls i).key = some i := by
  cases hmove with
  | @create j hstart hnone =>
    by_cases hij : i = j
    · subst hij
      exact AList.lookup_insert _
    · have hcleaning : s.cleaning i = true := by simpa [hij] using hi
      have hne : (calls i).key ≠ (calls j).key := by
        intro hkey
        rw [← hkey, h.cleaning hcleaning] at hnone
        cases hnone
      rw [AList.lookup_insert_ne hne]
      exact h.cleaning hcleaning
  | @cleanUp j hj hclosed =>
    have hij : i ≠ j := by
      rintro rfl
      simp at hi
    have hcleaning : s.cleaning i = true := by simpa [hij] using hi
    rw [AList.lookup_erase_ne fun hkey => hij (h.key_injective hcleaning hj hkey)]
    exact h.cleaning hcleaning
  | _ => exact h.cleaning hi

/-- Requests are handed on and never dropped, except by a call that fails. -/
theorem State.Inv.held_move (h : s.Inv cfg calls) (hmove : Move cfg calls s s')
    (hi : s'.cleaning i = true) : s'.closed i = true ∨ s'.call i = .failed ∨ s'.Owned i := by
  by_cases hnew : s.call i = .start ∧ s'.call i = .emitting
  · exact .inr (.inr (.inr (.inr hnew.2)))
  have hold : s.closed i = true ∨ s.call i = .failed ∨ s.Owned i := by
    refine h.held ?_
    cases hmove <;> grind
  rcases hold with hclosed | hfailed | ⟨ix, hix⟩ | ⟨ix, hix⟩ | hemit
  · left
    cases hmove <;> grind
  · right; left
    cases hmove <;> grind
  · -- a request leaves its queue for the loop only
    right; right
    cases hmove with
    | @receive j ix' rest hidle hqueue =>
      by_cases hmem : ix = ix' ∧ i = j
      · exact .inr (.inl ⟨ix', by simp [hmem.2]⟩)
      · exact .inl ⟨ix, by grind⟩
    | _ => exact .inl ⟨ix, by grind⟩
  · -- the loop closes the channel of its request
    cases hmove with
    | @finish j ix' hindexing =>
      by_cases hij : i = j
      · exact .inl (by simp [hij])
      · exact .inr (.inr (.inr (.inl ⟨ix, by grind⟩)))
    | _ => exact .inr (.inr (.inr (.inl ⟨ix, by grind⟩)))
  · right
    cases hmove with
    | @send j ix hix hj hroom =>
      by_cases hij : i = j
      · exact .inr (.inl ⟨ix, by simp [hij]⟩)
      · exact .inr (.inr (.inr (by grind)))
    | @handOff j ix hix hj hidle hempty =>
      by_cases hij : i = j
      · exact .inr (.inr (.inl ⟨ix, by simp [hij]⟩))
      · exact .inr (.inr (.inr (by grind)))
    | @fail j ix hix hj hfull =>
      by_cases hij : i = j
      · exact .inl (by simp [hij])
      · exact .inr (.inr (.inr (by grind)))
    | _ => exact .inr (.inr (.inr (by grind)))

variable {ix : ℕ}

/-- A pending request stays so until its channel is closed. -/
theorem State.Pending.move (hpending : s.Pending cfg calls ix i)
    (hmove : Move cfg calls s s') (hopen : s'.closed i = false) : s'.Pending cfg calls ix i := by
  obtain ⟨hroute, hreturned, hcleaning, -⟩ := hpending
  refine ⟨hroute, ?_, ?_, hopen⟩
  · cases hmove <;> grind
  · cases hmove <;> grind

theorem State.Inv.queued_move (h : s.Inv cfg calls) (hmove : Move cfg calls s s')
    (hi : i ∈ s'.indexRequestQueues ix) : s'.Pending cfg calls ix i := by
  by_cases hold : i ∈ s.indexRequestQueues ix
  · have hpending := h.queued hold
    refine hpending.move hmove ?_
    cases hmove with
    | @finish j ix' hindexing =>
      -- the request of a loop is in no queue
      have hij : i ≠ j := by
        rintro rfl
        have hix : ix = ix' := hpending.route.symm.trans (h.indexing hindexing).1.route
        exact (h.indexing hindexing).2 (hix ▸ hold)
      exact (update_of_ne hij _ _).trans hpending.opened
    | _ => exact hpending.opened
  · cases hmove with
    | @send j ix' hix hemit hroom =>
      obtain ⟨rfl, rfl⟩ : ix = ix' ∧ i = j := by grind
      exact ⟨hix, update_self .., (h.emitting hemit).1, (h.emitting hemit).2⟩
    | @receive j ix' rest hidle hqueue => grind
    | _ => exact absurd hi hold

theorem State.Inv.indexing_move (h : s.Inv cfg calls) (hmove : Move cfg calls s s')
    (hi : s'.indexing ix = some i) :
    s'.Pending cfg calls ix i ∧ i ∉ s'.indexRequestQueues ix := by
  by_cases hold : s.indexing ix = some i
  · obtain ⟨hpending, hmem⟩ := h.indexing hold
    refine ⟨hpending.move hmove ?_, ?_⟩
    · cases hmove with
      | @finish j ix' hindexing =>
        have hij : i ≠ j := by
          rintro rfl
          have hix : ix = ix' := hpending.route.symm.trans (h.indexing hindexing).1.route
          simp [hix] at hi
        exact (update_of_ne hij _ _).trans hpending.opened
      | _ => exact hpending.opened
    · cases hmove with
      | send hix hemit hroom => grind [State.Pending]
      | receive hidle hqueue => grind
      | _ => exact hmem
  · cases hmove with
    | @handOff j ix' hix hemit hidle hempty =>
      obtain ⟨rfl, rfl⟩ : ix = ix' ∧ i = j := by grind
      refine ⟨⟨hix, update_self .., (h.emitting hemit).1, (h.emitting hemit).2⟩, ?_⟩
      simp [hempty]
    | @receive j ix' rest hidle hqueue =>
      obtain ⟨rfl, rfl⟩ : ix = ix' ∧ i = j := by grind
      have hnodup := h.nodup ix
      rw [hqueue, nodup_cons] at hnodup
      refine ⟨(h.queued (hqueue ▸ mem_cons_self)).move (.receive hidle hqueue) ?_, ?_⟩
      · exact (h.queued (hqueue ▸ mem_cons_self)).opened
      · simpa using hnodup.1
    | @finish j ix' hindexing => grind
    | _ => exact absurd hi hold

/-- **Every action keeps the invariant.** -/
theorem State.Inv.move (h : s.Inv cfg calls) (hmove : Move cfg calls s s') :
    s'.Inv cfg calls where
  entry := h.entry_move hmove
  cleaning := h.cleaning_move hmove
  queued := h.queued_move hmove
  indexing := h.indexing_move hmove
  held := h.held_move hmove
  start := by cases hmove <;> grind [State.Inv, State.Pending]
  emitting := by cases hmove <;> grind [State.Inv, State.Pending]
  nodup := by cases hmove <;> grind [State.Inv, State.Pending]
  waited := by cases hmove <;> grind [State.Inv]

theorem State.Inv.reaches (hreach : Reaches cfg calls s s') (h : s.Inv cfg calls) :
    s'.Inv cfg calls := by
  induction hreach with
  | refl => exact h
  | tail _ hstep ih => exact ih.move (.of_step hstep.choose_spec)

/-! ## Orphans -/

/-- The channel of a call that has failed, still in the map. -/
structure State.Orphan (calls : ι → RepoCommit) (s : State ι) (i : ι) : Prop where
  failed : s.call i = .failed
  opened : s.closed i = false
  entry : s.repoCommitToDone.lookup (calls i).key = some i

omit [DecidableEq ι] in
theorem State.Orphan.not_noOrphan (horphan : s.Orphan calls i) (h : s.Inv cfg calls) :
    ¬ s.NoOrphan :=
  fun hno => h.not_owned horphan.failed (hno _ _ horphan.entry horphan.opened)

/-- No action closes the channel of an orphan or removes it from the map. -/
theorem State.Orphan.move (horphan : s.Orphan calls i) (h : s.Inv cfg calls)
    (hmove : Move cfg calls s s') : s'.Orphan calls i := by
  have hcleaning := (h.entry horphan.entry).2
  have howned := h.not_owned horphan.failed
  obtain ⟨hfailed, hopen, hentry⟩ := horphan
  cases hmove with
  | @create j hstart hnone =>
    -- the key of the orphan is taken
    have hne : (calls i).key ≠ (calls j).key := by
      intro hkey
      rw [hkey, hnone] at hentry
      cases hentry
    exact ⟨by grind, hopen, (AList.lookup_insert_ne hne).trans hentry⟩
  | @finish j ix hindexing =>
    have hne : i ≠ j := by
      rintro rfl
      exact howned (.inr (.inl ⟨ix, hindexing⟩))
    exact ⟨hfailed, (update_of_ne hne _ _).trans hopen, hentry⟩
  | @cleanUp j hj hclosed =>
    have hne : (calls i).key ≠ (calls j).key := by
      intro hkey
      obtain rfl := h.key_injective hcleaning hj hkey
      rw [hclosed] at hopen
      cases hopen
    exact ⟨hfailed, hopen, (AList.lookup_erase_ne hne).trans hentry⟩
  | _ => exact ⟨by grind, hopen, hentry⟩

/-- **An orphan stays for ever.** -/
theorem State.Orphan.reaches (horphan : s.Orphan calls i) (h : s.Inv cfg calls)
    (hreach : Reaches cfg calls s s') : s'.Orphan calls i := by
  suffices s'.Inv cfg calls ∧ s'.Orphan calls i from this.2
  induction hreach with
  | refl => exact ⟨h, horphan⟩
  | tail _ hstep ih =>
    have hmove := Move.of_step hstep.choose_spec
    exact ⟨ih.1.move hmove, ih.2.move ih.1 hmove⟩

/-! ## Enough slots -/

omit [DecidableEq ι] in
/-- With a slot for every key a call always finds one. -/
theorem Fits.length_lt (hfits : Fits cfg calls) (h : s.Inv cfg calls)
    (hemit : s.call i = .emitting) :
    (s.indexRequestQueues (cfg.route (calls i).repo)).length
      < cfg.slots (cfg.route (calls i).repo) := by
  let queue := s.indexRequestQueues (cfg.route (calls i).repo)
  have hmem : i ∉ queue := by
    intro hi
    rw [(h.queued hi).returned] at hemit
    cases hemit
  have hnodup : ((i :: queue).map fun j => (calls j).key).Nodup := by
    have hcleaning : ∀ j ∈ i :: queue, s.cleaning j = true :=
      forall_mem_cons.mpr ⟨(h.emitting hemit).1, fun j hj => (h.queued hj).cleaning⟩
    refine List.Nodup.map_on (fun j hj k hk => h.key_injective (hcleaning j hj) (hcleaning k hk))
      (nodup_cons.mpr ⟨hmem, h.nodup _⟩)
  have hcard := hfits (cfg.route (calls i).repo)
    ((i :: queue).map fun j => (calls j).key).toFinset fun k hk => by
      obtain ⟨j, hj, rfl⟩ := mem_map.mp (mem_toFinset.mp hk)
      refine ⟨j, ?_, rfl⟩
      rcases mem_cons.mp hj with rfl | hj
      · rfl
      · exact (h.queued hj).route
  rw [toFinset_card_of_nodup hnodup, length_map, length_cons] at hcard
  exact hcard

theorem Fits.not_failed (hfits : Fits cfg calls) (hreach : Reaches cfg calls (State.new ι) s)
    (i : ι) : s.call i ≠ .failed := by
  induction hreach with
  | refl => nofun
  | tail hreach hstep ih =>
    have h := State.Inv.reaches hreach (.new cfg calls)
    cases Move.of_step hstep.choose_spec with
    | fail hix hemit hfull => exact absurd (hix ▸ hfits.length_lt h hemit) hfull.not_gt
    | _ => grind

/-! Owned requests are answered: the loop of a queue can always go on. -/

variable (cfg calls)

theorem exists_closed_of_indexing (hi : s.indexing ix = some i) :
    ∃ s', Reaches cfg calls s s' ∧ s'.closed i = true :=
  ⟨_, .single ⟨.finish ix, by rw [step, hi]; rfl⟩, update_self ..⟩

/-- A loop can finish what it works on, and its queue stays as it is. -/
theorem exists_idle (s : State ι) (ix : ℕ) :
    ∃ s', Reaches cfg calls s s' ∧ s'.indexing ix = none ∧
      s'.indexRequestQueues = s.indexRequestQueues := by
  cases hindexing : s.indexing ix with
  | none => exact ⟨s, .refl, hindexing, rfl⟩
  | some i =>
    refine ⟨{ s with
      indexing := update s.indexing ix none
      closed := update s.closed i true }, .single ⟨.finish ix, ?_⟩, ?_, rfl⟩
    · rw [step, hindexing]
      rfl
    · exact update_self ..

theorem exists_received {rest : List ι} (hqueue : s.indexRequestQueues ix = i :: rest) :
    ∃ s', Reaches cfg calls s s' ∧ s'.indexing ix = some i ∧ s'.indexRequestQueues ix = rest := by
  obtain ⟨s₁, hreach, hidle, hqueues⟩ := exists_idle cfg calls s ix
  rw [← hqueues] at hqueue
  refine ⟨{ s₁ with
    indexRequestQueues := update s₁.indexRequestQueues ix rest
    indexing := update s₁.indexing ix (some i) },
    hreach.tail ⟨.receive ix, ?_⟩, update_self .., update_self ..⟩
  simp only [step, hidle, hqueue]

theorem exists_closed_of_queue {rest : List ι} :
    ∀ {pre : List ι} {s : State ι}, s.indexRequestQueues ix = pre ++ i :: rest →
      ∃ s', Reaches cfg calls s s' ∧ s'.closed i = true := by
  intro pre
  -- the loop receives the requests before this one first
  induction pre with
  | nil =>
    intro s hqueue
    obtain ⟨s₁, hreach, hindexing, -⟩ := exists_received cfg calls hqueue
    obtain ⟨s₂, hreach', hclosed⟩ := exists_closed_of_indexing cfg calls hindexing
    exact ⟨s₂, hreach.trans hreach', hclosed⟩
  | cons j pre ih =>
    intro s hqueue
    obtain ⟨s₁, hreach, -, hrest⟩ := exists_received cfg calls hqueue
    obtain ⟨s₂, hreach', hclosed⟩ := ih hrest
    exact ⟨s₂, hreach.trans hreach', hclosed⟩

variable {cfg calls}

theorem Fits.exists_closed_of_emitting (hfits : Fits cfg calls) (h : s.Inv cfg calls)
    (hemit : s.call i = .emitting) : ∃ s', Reaches cfg calls s s' ∧ s'.closed i = true := by
  obtain ⟨s₁, hstep, rest, hqueue⟩ : ∃ s₁, step cfg calls s (.send i) = some s₁ ∧ ∃ rest,
      s₁.indexRequestQueues (cfg.route (calls i).repo) = rest ++ i :: [] := by
    simp only [step, if_pos (And.intro hemit (hfits.length_lt h hemit))]
    exact ⟨_, rfl, _, update_self ..⟩
  obtain ⟨s₂, hreach, hclosed⟩ := exists_closed_of_queue cfg calls hqueue
  exact ⟨s₂, hreach.head ⟨_, hstep⟩, hclosed⟩

theorem Fits.noOrphan (hfits : Fits cfg calls) (hreach : Reaches cfg calls (State.new ι) s) :
    s.NoOrphan := by
  have h := State.Inv.reaches hreach (.new cfg calls)
  intro k i hentry hopen
  rcases h.held (h.entry hentry).2 with hclosed | hfailed | howned
  · rw [hclosed] at hopen
    cases hopen
  · exact absurd hfailed (hfits.not_failed hreach i)
  · exact howned

theorem Fits.noLostWait (hfits : Fits cfg calls) (hreach : Reaches cfg calls (State.new ι) s) :
    s.NoLostWait cfg calls := by
  have h := State.Inv.reaches hreach (.new cfg calls)
  intro j i hj
  by_cases hclosed : s.closed i = true
  · exact ⟨s, .refl, hclosed⟩
  have hcleaning : s.cleaning i = true := (h.waited hj).resolve_left hclosed
  rcases hfits.noOrphan hreach _ _ (h.cleaning hcleaning) (by simpa using hclosed) with
    ⟨ix, hix⟩ | ⟨ix, hix⟩ | hemit
  · obtain ⟨pre, rest, hqueue⟩ := append_of_mem hix
    exact exists_closed_of_queue cfg calls hqueue
  · exact exists_closed_of_indexing cfg calls hix
  · exact hfits.exists_closed_of_emitting h hemit

/-! ## Too few slots -/

/-- The first call for a key can write its channel to the map. -/
theorem exists_created (cfg : Config) (hstart : s.call i = .start)
    (hnone : s.repoCommitToDone.lookup (calls i).key = none) :
    ∃ s', step cfg calls s (.lookup i) = some s' ∧
      s'.repoCommitToDone = s.repoCommitToDone.insert (calls i).key i ∧
      s'.call = Function.update s.call i .emitting ∧
      s'.indexRequestQueues = s.indexRequestQueues ∧ s'.closed = s.closed := by
  simp only [step, if_pos hstart, hnone]
  exact ⟨_, rfl, rfl, rfl, rfl, rfl⟩

/-- Calls with different keys can fill a queue while its loop does nothing. -/
theorem exists_filled (l : List ι) (hroute : ∀ i ∈ l, cfg.route (calls i).repo = ix)
    (hkeys : (l.map fun i => (calls i).key).Nodup) (hlength : l.length ≤ cfg.slots ix) :
    ∃ s, Reaches cfg calls (State.new ι) s ∧ s.indexRequestQueues ix = l ∧
      (∀ i ∉ l, s.call i = .start) ∧
      ∀ k ∉ l.map fun i => (calls i).key, s.repoCommitToDone.lookup k = none := by
  induction l using reverseRecOn with
  | nil => exact ⟨State.new ι, .refl, rfl, fun _ _ => rfl, fun _ _ => rfl⟩
  | append_singleton l i ih =>
    simp only [map_append, map_cons, map_nil, nodup_append] at hkeys
    simp only [length_append, length_singleton] at hlength
    obtain ⟨s, hreach, hqueue, hstart, hnone⟩ := ih
      (fun j hj => hroute j (mem_append_left _ hj)) hkeys.1 (Nat.le_of_succ_le hlength)
    have hkey : (calls i).key ∉ l.map fun i => (calls i).key := fun hmem =>
      hkeys.2.2 _ hmem _ mem_cons_self rfl
    have hi : i ∉ l := fun hmem => hkey (mem_map_of_mem hmem)
    obtain ⟨s₁, hcreate, hmap, hcall, hqueues, -⟩ :=
      exists_created cfg (hstart i hi) (hnone _ hkey)
    have hix : cfg.route (calls i).repo = ix :=
      hroute i (mem_append_right _ mem_cons_self)
    have hsend : s₁.call i = .emitting ∧ (s₁.indexRequestQueues ix).length < cfg.slots ix := by
      rw [hcall, hqueues, hqueue]
      exact ⟨update_self .., hlength⟩
    refine ⟨{ s₁ with
      indexRequestQueues :=
        update s₁.indexRequestQueues ix (s₁.indexRequestQueues ix ++ [i])
      call := update s₁.call i (.returned i) },
      (hreach.tail ⟨_, hcreate⟩).tail ⟨.send i, ?_⟩, ?_, ?_, ?_⟩
    · simp only [step, hix, if_pos hsend]
    · simp [hqueues, hqueue]
    · intro j hj
      rw [mem_append, mem_singleton, not_or] at hj
      simp [hcall, hj.2, hstart j hj.1]
    · intro k hk
      rw [map_append, mem_append, map_singleton, mem_singleton, not_or] at hk
      show s₁.repoCommitToDone.lookup k = none
      rw [hmap, AList.lookup_insert_ne hk.2]
      exact hnone k hk.1

/-- One call more than slots can leave an orphan. -/
theorem exists_orphan {l : List ι} (hroute : ∀ j ∈ i :: l, cfg.route (calls j).repo = ix)
    (hkeys : ((i :: l).map fun j => (calls j).key).Nodup) (hlength : l.length = cfg.slots ix) :
    ∃ s, Reaches cfg calls (State.new ι) s ∧ s.Orphan calls i := by
  rw [map_cons, nodup_cons] at hkeys
  obtain ⟨s, hreach, hqueue, hstart, hnone⟩ := exists_filled l
    (fun j hj => hroute j (mem_cons_of_mem _ hj)) hkeys.2 hlength.le
  have hi : s.call i = .start := hstart i fun hmem => hkeys.1 (mem_map_of_mem hmem)
  obtain ⟨s₁, hcreate, hmap, hcall, hqueues, hclosed⟩ :=
    exists_created cfg hi (hnone _ hkeys.1)
  have hfail : s₁.call i = .emitting ∧ cfg.slots ix ≤ (s₁.indexRequestQueues ix).length := by
    rw [hcall, hqueues, hqueue]
    exact ⟨update_self .., hlength.ge⟩
  refine ⟨{ s₁ with call := update s₁.call i .failed },
    (hreach.tail ⟨_, hcreate⟩).tail ⟨.fail i, ?_⟩, update_self .., ?_, ?_⟩
  · simp only [step, hroute i mem_cons_self, if_pos hfail]
  · show s₁.closed i = false
    rw [hclosed]
    exact (State.Inv.reaches hreach (.new cfg calls)).start hi
  · show s₁.repoCommitToDone.lookup _ = some i
    rw [hmap]
    exact AList.lookup_insert _

/-- **No index request is orphaned exactly when there is a slot for every
key.** Then every channel of the map that is not closed has its request in a
queue, at a loop or inside the call that makes it, and every call that has
returned a channel can still see it closed. -/
theorem no_orphan_iff_fits (cfg : Config) (calls : ι → RepoCommit) :
    (∀ s, Reaches cfg calls (State.new ι) s → s.NoOrphan ∧ s.NoLostWait cfg calls)
      ↔ Fits cfg calls := by
  constructor
  · intro hno ix keys hkeys
    by_contra! hlt
    obtain ⟨keys', hsub, hcard⟩ := Finset.exists_subset_card_eq hlt
    have hrep : ∀ k ∈ keys', ∃ i, cfg.route (calls i).repo = ix ∧ (calls i).key = k :=
      fun k hk => hkeys k (hsub hk)
    -- one call for each key
    choose rep hroute hkey using hrep
    let l := keys'.attach.toList.map fun k => rep k.1 k.2
    have hlkeys : l.map (fun i => (calls i).key) = keys'.attach.toList.map Subtype.val := by
      rw [map_map]
      exact map_congr_left fun k _ => hkey k.1 k.2
    have hnodup : (l.map fun i => (calls i).key).Nodup := by
      rw [hlkeys]
      exact (Finset.nodup_toList _).map Subtype.val_injective
    have hlength : l.length = cfg.slots ix + 1 := by
      rw [length_map, Finset.length_toList, Finset.card_attach, hcard]
    have hlroute : ∀ i ∈ l, cfg.route (calls i).repo = ix := by
      intro i hi
      obtain ⟨k, -, rfl⟩ := mem_map.mp hi
      exact hroute k.1 k.2
    obtain ⟨i, l', hl⟩ := exists_cons_of_length_eq_add_one hlength
    rw [hl] at hnodup hlength hlroute
    obtain ⟨s, hreach, horphan⟩ := exists_orphan hlroute hnodup (Nat.succ.inj hlength)
    exact horphan.not_noOrphan (State.Inv.reaches hreach (.new cfg calls)) (hno s hreach).1
  · exact fun hfits s hreach => ⟨hfits.noOrphan hreach, hfits.noLostWait hreach⟩

theorem reaches_of_foldlM {actions : List (Action ι)} :
    ∀ {s s' : State ι}, actions.foldlM (step cfg calls) s = some s' → Reaches cfg calls s s' := by
  induction actions with
  | nil =>
    intro s s' hrun
    exact Option.some.inj hrun ▸ .refl
  | cons a actions ih =>
    intro s s' hrun
    obtain ⟨s₁, hstep, hrest⟩ := Option.bind_eq_some_iff.mp hrun
    exact (ih hrest).head ⟨a, hstep⟩

theorem key_of_returned (hreach : Reaches cfg calls (State.new ι) s) {j : ι}
    (hj : s.call j = .returned i) : (calls i).key = (calls j).key := by
  induction hreach with
  | refl => cases hj
  | @tail s s' hreach hstep ih =>
    obtain ⟨a, hstep⟩ := hstep
    have h := State.Inv.reaches hreach (.new cfg calls)
    cases Move.of_step hstep with
    | join hstart hfound => grind [State.Inv]
    | _ => grind

/-- **Every key is requested once.** However calls, loops and goroutines interleave, no
two requests that are still somewhere have one key, the commits of a repository are indexed
one at a time, and a call returns the channel of a request with its own key. -/
theorem requested_once (cfg : Config) (calls : ι → RepoCommit) (s : State ι)
    (hreach : Reaches cfg calls (State.new ι) s) :
    (∀ i j, s.Owned i → s.Owned j → (calls i).key = (calls j).key → i = j) ∧
      (∀ ix jx i j, s.indexing ix = some i → s.indexing jx = some j →
        (calls i).repo = (calls j).repo → ix = jx ∧ i = j) ∧
      ∀ i j, s.call j = .returned i → (calls i).key = (calls j).key := by
  have h := State.Inv.reaches hreach (.new cfg calls)
  refine ⟨fun i j hi hj => h.key_injective (h.cleaning_of_owned hi) (h.cleaning_of_owned hj),
    fun ix jx i j hi hj hrepo => ?_, fun i j => key_of_returned hreach⟩
  obtain rfl : ix = jx := by
    rw [← (h.indexing hi).1.route, ← (h.indexing hj).1.route, hrepo]
  exact ⟨rfl, Option.some.inj (hi.symm.trans hj)⟩

end

/-- The second search for a commit waits for the request of the first. -/
theorem requested_once_joined :
    let calls : Fin 2 → RepoCommit := fun _ => ⟨lit "r", lit "c"⟩
    ∃ s, Reaches ⟨1, 1, fun _ => 0⟩ calls (State.new (Fin 2)) s ∧ s.call 1 = .returned 0 ∧
      s.Owned 0 ∧ ∀ j, s.Owned j → 0 = j := by
  intro calls
  obtain ⟨s, hs, hcall, hemit⟩ : ∃ s, Reaches ⟨1, 1, fun _ => 0⟩ calls (State.new (Fin 2)) s ∧
      s.call 1 = .returned 0 ∧ s.call 0 = .emitting :=
    ⟨_, .tail (.single ⟨.lookup 0, rfl⟩) ⟨.lookup 1, rfl⟩, rfl, rfl⟩
  exact ⟨s, hs, hcall, .inr (.inr hemit),
    fun j hj => (requested_once _ calls s hs).1 0 j (.inr (.inr hemit)) hj rfl⟩

/-- One queue with one slot. The first search fills it, the second fails, and
the third, for the same commit as the second, waits for a channel that is
never closed. -/
theorem orphan_full_queue :
    let cfg : Config :=
      { maxConcurrentlyIndexing := 1, indexRequestsQueueSize := 1, hashString32 := fun _ => 0 }
    let calls : Fin 3 → RepoCommit := fun i => ⟨lit "r", if i = 0 then lit "c" else lit "d"⟩
    ∃ s, Reaches cfg calls (State.new (Fin 3)) s ∧ ¬ s.NoOrphan ∧ s.call 2 = .returned 1 ∧
      ∀ s', Reaches cfg calls s s' → s'.closed 1 = false := by
  intro cfg calls
  let actions : List (Action (Fin 3)) := [.lookup 0, .send 0, .lookup 1, .fail 1, .lookup 2]
  have hrun : (actions.foldlM (step cfg calls) (State.new (Fin 3))).map
      (fun s => (s.call 1, s.closed 1, s.repoCommitToDone.lookup (calls 1).key, s.call 2))
        = some (.failed, false, some 1, .returned 1) := by decide +kernel
  obtain ⟨s, hs, hfacts⟩ := Option.map_eq_some_iff.mp hrun
  simp only [Prod.mk.injEq] at hfacts
  have hreach := reaches_of_foldlM hs
  have hinv := State.Inv.reaches hreach (.new cfg calls)
  have horphan : s.Orphan calls 1 := ⟨hfacts.1, hfacts.2.1, hfacts.2.2.1⟩
  exact ⟨s, hreach, horphan.not_noOrphan hinv, hfacts.2.2.2,
    fun s' hreach' => (horphan.reaches hinv hreach').opened⟩

end Rockskip
