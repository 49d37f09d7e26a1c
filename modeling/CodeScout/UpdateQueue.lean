import Mathlib
import CodeScout.Util.GoHeap
import CodeScout.Util.GoMap
import CodeScout.Util.GoString
import CodeScout.Util.Machine

/-!
# The repository update queue

`updateQueue` is a priority queue of repositories: a heap of pointers to updates, each
of which knows its position in the heap, and a map from the repositories to the same
pointers. Updates are changed in place, through the map or at the root of the heap,
and then brought to their new position by `heap.Fix`.

What a queue says about a repository is `contents`. Each operation is specified by what
it does to the contents (`enqueue_eq`, `remove_eq`, `acquireNext_eq`), and keeps the map
and the positions in agreement with the heap, and the heap in order (`Valid`).
-/

namespace Repos

open List

/-! ## The queue -/

/-- `configuredRepo`. -/
structure ConfiguredRepo where
  id : Int32
  name : GoString
deriving DecidableEq, Inhabited

/-- A `repoUpdate` without its position. -/
structure Update where
  repo : ConfiguredRepo
  priority : ℤ
  seq : UInt64
  updating : Bool
deriving DecidableEq, Inhabited

/-- `repoUpdate`. -/
structure RepoUpdate extends Update where
  index : ℤ
deriving DecidableEq, Inhabited

/-- `updateQueue`, with the updates that its pointers point to. -/
structure UpdateQueue where
  items : ℕ → RepoUpdate
  /-- The number of updates that were allocated. -/
  allocated : ℕ
  heap : List ℕ
  index : GoMap Int32 ℕ
  seq : UInt64
  heap_lt : ∀ p ∈ heap, p < allocated

/-- The queue after `reset`. -/
def UpdateQueue.empty : UpdateQueue where
  items _ := default
  allocated := 0
  heap := []
  index := ∅
  seq := 0
  heap_lt _ hp := absurd hp List.not_mem_nil

/-- `Less` on updates. -/
def Update.less (a b : Update) : Bool :=
  if a.updating ≠ b.updating then b.updating
  else if a.priority ≠ b.priority then decide (a.priority > b.priority)
  else decide (a.seq < b.seq)

/-- The assignment `x.Index = index`. -/
def setIndex (items : ℕ → RepoUpdate) (x : Option ℕ) (index : ℤ) (p : ℕ) : RepoUpdate :=
  if x = some p then { toUpdate := (items p).toUpdate, index } else items p

/-- `Swap`. -/
def UpdateQueue.swap (q : UpdateQueue) (i j : ℕ) : UpdateQueue :=
  { q with
    heap := Heap.swapAt q.heap i j
    items := setIndex (setIndex q.items (Heap.swapAt q.heap i j)[i]? i)
      (Heap.swapAt q.heap i j)[j]? j
    heap_lt := fun p hp => q.heap_lt p ((Heap.swapAt_perm _ _ _).mem_iff.mp hp) }

/-- `Push` of a new update. -/
def UpdateQueue.push (q : UpdateQueue) (x : ConfiguredRepo × ℤ) : UpdateQueue where
  items p :=
    if p = q.allocated then
      { repo := x.1, priority := x.2, seq := q.seq + 1, updating := false, index := q.heap.length }
    else q.items p
  allocated := q.allocated + 1
  heap := q.heap ++ [q.allocated]
  index := q.index.insert x.1.id q.allocated
  seq := q.seq + 1
  heap_lt := by
    intro p hp
    rcases List.mem_append.mp hp with hp | hp
    · exact Nat.lt_succ_of_lt (q.heap_lt p hp)
    · rw [List.mem_singleton.mp hp]
      exact Nat.lt_succ_self _

/-- `Pop`. -/
def UpdateQueue.pop (q : UpdateQueue) : Option (RepoUpdate × UpdateQueue) :=
  q.heap.getLast?.map fun p =>
    (q.items p, { q with
      items := setIndex q.items (some p) (-1)
      heap := q.heap.dropLast
      index := q.index.erase (q.items p).repo.id
      heap_lt := fun p hp => q.heap_lt p (List.mem_of_mem_dropLast hp) })

/-- The methods of `updateQueue` that implement `heap.Interface`. -/
def queueHeap : Heap.Interface UpdateQueue (ConfiguredRepo × ℤ) RepoUpdate where
  len q := q.heap.length
  less q i j := (q.heap[i]?.bind fun a => q.heap[j]?.map fun b =>
    (q.items a).less (q.items b).toUpdate).getD false
  swap := UpdateQueue.swap
  push := UpdateQueue.push
  pop := UpdateQueue.pop

namespace UpdateQueue

/-- `heap.Fix`, which panics at a position outside of the heap. -/
def fix (q : UpdateQueue) (i : ℤ) : Option UpdateQueue :=
  if 0 ≤ i ∧ i < q.heap.length then some (queueHeap.fix q i.toNat) else none

/-- An update is changed in place. -/
def setUpdate (q : UpdateQueue) (p : ℕ) (u : Update) : UpdateQueue :=
  { q with
    items := fun p' =>
      if p' = p then { toUpdate := u, index := (q.items p).index } else q.items p' }

/-- `enqueue`. `none` is a panic. -/
def enqueue (q : UpdateQueue) (repo : ConfiguredRepo) (priority : ℤ) :
    Option (Bool × UpdateQueue) :=
  if repo.id = 0 then none
  else match q.index.lookup repo.id with
    | none => some (false, queueHeap.heapPush q (repo, priority))
    | some p =>
      let update := (q.items p).toUpdate
      if update.updating then some (false, q)
      else if priority ≤ update.priority then some (true, q.setUpdate p { update with repo })
      else do
        let q := { q with seq := q.seq + 1 }
        let q := q.setUpdate p { update with repo, priority, seq := q.seq }
        let q ← q.fix (q.items p).index
        return (true, q)

/-- `remove`. -/
def remove (q : UpdateQueue) (repo : ConfiguredRepo) (updating : Bool) :
    Option (Bool × UpdateQueue) :=
  if repo.id = 0 then none
  else match q.index.lookup repo.id with
    | none => some (false, q)
    | some p =>
      if (q.items p).updating = updating then
        if 0 ≤ (q.items p).index ∧ (q.items p).index < q.heap.length then do
          let (_, q) ← queueHeap.remove q (q.items p).index.toNat
          return (true, q)
        else none
      else some (false, q)

/-- `acquireNext`: the repository, or `none` in place of the result `false`. -/
def acquireNext (q : UpdateQueue) : Option (Option ConfiguredRepo × UpdateQueue) :=
  match q.heap with
  | [] => some (none, q)
  | p :: _ =>
    if (q.items p).updating then some (none, q)
    else do
      let q := q.setUpdate p { (q.items p).toUpdate with updating := true }
      let q ← q.fix (q.items p).index
      return (some (q.items p).repo, q)

end UpdateQueue

/-! ## The methods of the heap -/

theorem setIndex_toUpdate (items : ℕ → RepoUpdate) (x : Option ℕ) (i : ℤ) (p : ℕ) :
    (setIndex items x i p).toUpdate = (items p).toUpdate := by
  unfold setIndex
  split
  · rfl
  · rfl

theorem swap_toUpdate (q : UpdateQueue) (i j p : ℕ) :
    ((q.swap i j).items p).toUpdate = (q.items p).toUpdate :=
  (setIndex_toUpdate _ _ _ _).trans (setIndex_toUpdate _ _ _ _)

theorem Update.less_asymm {a b : Update} (h : a.less b = true) : b.less a = false := by
  unfold Update.less at *
  grind

theorem Update.less_trans {a b c : Update} (hab : a.less b = false) (hbc : b.less c = false) :
    a.less c = false := by
  unfold Update.less at *
  grind

/-- The order that the heap reads, on the updates at two positions. -/
theorem queueHeap_less {q : UpdateQueue} {i j a b : ℕ} (hi : q.heap[i]? = some a)
    (hj : q.heap[j]? = some b) :
    queueHeap.less q i j = (q.items a).less (q.items b).toUpdate := by
  simp [queueHeap, hi, hj]

theorem pop_eq_some {q q' : UpdateQueue} {x : RepoUpdate} (h : q.pop = some (x, q')) :
    ∃ p, q.heap = q'.heap ++ [p] ∧ q'.items = setIndex q.items (some p) (-1)
      ∧ q'.index = q.index.erase (q.items p).repo.id ∧ q'.seq = q.seq := by
  obtain ⟨p, hlast, hq'⟩ := Option.map_eq_some_iff.mp h
  obtain ⟨-, rfl⟩ := Prod.mk.inj hq'
  exact ⟨p, (dropLast_append_getLast? p hlast).symm, rfl, rfl, rfl⟩

theorem queueHeap_ordered : queueHeap.Ordered where
  len_swap q i j := (Heap.swapAt_perm _ _ _).length_eq
  less_swap {q i j a b} hi hj ha hb := by
    show ((Heap.swapAt q.heap i j)[a]?.bind fun x => (Heap.swapAt q.heap i j)[b]?.map fun y =>
      ((q.swap i j).items x).less ((q.swap i j).items y).toUpdate).getD false = _
    simp only [swap_toUpdate]
    rw [Heap.getElem?_swapAt hi hj ha, Heap.getElem?_swapAt hi hj hb]
    rfl
  len_push q x := length_append
  less_push {q x a b} ha hb := by
    have hold : ∀ {i}, i < q.heap.length → ∃ p, q.heap[i]? = some p
        ∧ (q.push x).heap[i]? = some p ∧ (q.push x).items p = q.items p := fun {i} hi =>
      ⟨q.heap[i], getElem?_eq_getElem hi, (getElem?_append_left hi).trans (getElem?_eq_getElem hi),
        if_neg (q.heap_lt _ (getElem_mem hi)).ne⟩
    obtain ⟨p, hp, hp', hitem⟩ := hold ha
    obtain ⟨p₂, hp₂, hp₂', hitem₂⟩ := hold hb
    rw [queueHeap_less hp hp₂]
    refine (queueHeap_less (q := q.push x) hp' hp₂').trans ?_
    rw [hitem, hitem₂]
  len_pop {q q' x} hpop := by
    obtain ⟨p, hheap, -⟩ := pop_eq_some hpop
    show q.heap.length = _
    rw [hheap]
    exact length_append
  less_pop {q q' x a b} hpop ha hb := by
    obtain ⟨p, hheap, hitems, -⟩ := pop_eq_some hpop
    have hleft : ∀ {i}, i < q'.heap.length → q.heap[i]? = q'.heap[i]? := fun hi => by
      rw [hheap, getElem?_append_left hi]
    show (q'.heap[a]?.bind fun x => q'.heap[b]?.map fun y =>
      (q'.items x).less (q'.items y).toUpdate).getD false = _
    simp only [hitems, setIndex_toUpdate]
    rw [← hleft ha, ← hleft hb]
    rfl
  asymm {q i j} hi hj := by
    rw [queueHeap_less (getElem?_eq_getElem hi) (getElem?_eq_getElem hj),
      queueHeap_less (getElem?_eq_getElem hj) (getElem?_eq_getElem hi)]
    exact Update.less_asymm
  trans {q i j k} hi hj hk := by
    rw [queueHeap_less (getElem?_eq_getElem hi) (getElem?_eq_getElem hj),
      queueHeap_less (getElem?_eq_getElem hj) (getElem?_eq_getElem hk),
      queueHeap_less (getElem?_eq_getElem hi) (getElem?_eq_getElem hk)]
    exact Update.less_trans

/-! ## Queues that agree with themselves -/

namespace UpdateQueue

/-- What a queue says about a repository. -/
def contents (q : UpdateQueue) (id : Int32) : Option Update :=
  (q.index.lookup id).map fun p => (q.items p).toUpdate

/-- The map and the positions agree with the heap. -/
structure Indexed (q : UpdateQueue) : Prop where
  position : ∀ (i p : ℕ), q.heap[i]? = some p → (q.items p).index = i
  lookup : ∀ id p, q.index.lookup id = some p ↔ p ∈ q.heap ∧ (q.items p).repo.id = id

/-- A queue that agrees with itself and whose heap is in order. -/
structure Valid (q : UpdateQueue) : Prop extends q.Indexed where
  isHeap : queueHeap.IsHeap q q.heap.length

/-- What the swaps of a heap operation keep. -/
structure Agrees (q₀ q : UpdateQueue) : Prop extends q.Indexed where
  toUpdate_eq : ∀ p, (q.items p).toUpdate = (q₀.items p).toUpdate
  index_eq : q.index = q₀.index

variable {q q₀ q' : UpdateQueue}

theorem Indexed.nodup (h : q.Indexed) : q.heap.Nodup := by
  refine nodup_iff_injective_getElem.mpr fun i j hij => ?_
  have hi := h.position i _ (getElem?_eq_getElem i.isLt)
  have hj := h.position j _ (getElem?_eq_getElem j.isLt)
  have hij' : q.heap[i.val] = q.heap[j.val] := hij
  rw [hij', hj] at hi
  exact Fin.ext (Int.ofNat_inj.mp hi.symm)

variable {i j p : ℕ}

theorem swap_indexed (h : q.Indexed) (hi : i < q.heap.length) (hj : j < q.heap.length) :
    (q.swap i j).Indexed := by
  have hperm : (q.swap i j).heap.Perm q.heap := Heap.swapAt_perm _ _ _
  constructor
  · intro k p hk
    have hlen := (List.getElem?_eq_some_iff.mp hk).1
    have hinj : ∀ l, (q.swap i j).heap[l]? = some p → l = k := fun l hl =>
      ((getElem?_inj hlen (hperm.nodup_iff.mpr h.nodup)).mp (hk.trans hl.symm)).symm
    rw [hperm.length_eq] at hlen
    -- the pointers at the two positions get their new positions, the others keep theirs
    show (setIndex (setIndex q.items (q.swap i j).heap[i]? i) (q.swap i j).heap[j]? j p).index = k
    by_cases hkj : (q.swap i j).heap[j]? = some p
    · rw [setIndex, if_pos hkj, hinj j hkj]
    · rw [setIndex, if_neg hkj]
      by_cases hki : (q.swap i j).heap[i]? = some p
      · rw [setIndex, if_pos hki, hinj i hki]
      · rw [setIndex, if_neg hki]
        have hnei : k ≠ i := fun hi' => hki (hi' ▸ hk)
        have hnej : k ≠ j := fun hj' => hkj (hj' ▸ hk)
        refine h.position k p ?_
        rw [← hk, ← Equiv.swap_apply_of_ne_of_ne hnei hnej]
        exact (Heap.getElem?_swapAt hi hj hlen).symm.trans
          (by rw [Equiv.swap_apply_of_ne_of_ne hnei hnej]; rfl)
  · intro id p
    rw [hperm.mem_iff, swap_toUpdate]
    exact h.lookup id p

theorem swap_agrees (h : Agrees q₀ q) (hi : i < q.heap.length)
    (hj : j < q.heap.length) : Agrees q₀ (q.swap i j) where
  toIndexed := swap_indexed h.toIndexed hi hj
  toUpdate_eq p := (swap_toUpdate q i j p).trans (h.toUpdate_eq p)
  index_eq := h.index_eq

theorem Agrees.contents_eq (h : Agrees q₀ q) : q.contents = q₀.contents := by
  funext id
  simp only [contents, h.index_eq, h.toUpdate_eq]

theorem keeps_agrees (q₀ : UpdateQueue) : queueHeap.Keeps (Agrees q₀) :=
  fun hi hj h => swap_agrees h hi hj

theorem Indexed.agrees (h : q.Indexed) : Agrees q q := ⟨h, fun _ => rfl, rfl⟩

/-- **`heap.Fix` at the stored position** of an update that may be in the wrong
place. -/
theorem fix_eq (h : q.Indexed) (hp : p ∈ q.heap)
    (hordered : ∀ i, q.heap[i]? = some p → queueHeap.OrderedExcept q q.heap.length i) :
    ∃ q', q.fix (q.items p).index = some q' ∧ q'.Valid ∧ Agrees q q' := by
  obtain ⟨i, hi, hget⟩ := mem_iff_getElem.mp hp
  have hget? : q.heap[i]? = some p := hget ▸ getElem?_eq_getElem hi
  have hkeeps := queueHeap.fix_keeps queueHeap_ordered.toLawful (keeps_agrees q) hi h.agrees
  have hheap := Heap.Interface.fix_isHeap queueHeap_ordered hi (hordered i hget?)
  refine ⟨queueHeap.fix q i, ?_, ⟨hkeeps.1.toIndexed, ?_⟩, hkeeps.1⟩
  · rw [fix, h.position i p hget?, if_pos ⟨Int.natCast_nonneg i, Int.ofNat_lt.mpr hi⟩,
      Int.toNat_natCast]
  · have hlen : (queueHeap.fix q i).heap.length = q.heap.length := hkeeps.2
    rw [hlen]
    exact hheap

/-! ## Changes in place -/

theorem setUpdate_items_self (q : UpdateQueue) (p : ℕ) (u : Update) :
    (q.setUpdate p u).items p = { toUpdate := u, index := (q.items p).index } :=
  if_pos rfl

theorem setUpdate_items_of_ne (q : UpdateQueue) {p p' : ℕ} (h : p' ≠ p) (u : Update) :
    (q.setUpdate p u).items p' = q.items p' :=
  if_neg h

theorem Indexed.contents_eq (h : q.Indexed) (hp : p ∈ q.heap) :
    q.contents (q.items p).repo.id = some (q.items p).toUpdate := by
  rw [contents, (h.lookup _ p).mpr ⟨hp, rfl⟩]
  rfl

variable {u : Update}

theorem setUpdate_indexed (h : q.Indexed) (hp : p ∈ q.heap)
    (hid : u.repo.id = (q.items p).repo.id) :
    (q.setUpdate p u).Indexed
      ∧ (q.setUpdate p u).contents = Function.update q.contents u.repo.id (some u) := by
  have hindex : ∀ p', ((q.setUpdate p u).items p').index = (q.items p').index := fun p' => by
    by_cases hp' : p' = p
    · rw [hp', setUpdate_items_self]
    · rw [setUpdate_items_of_ne q hp']
  have hrepo : ∀ p', ((q.setUpdate p u).items p').repo.id = (q.items p').repo.id := fun p' => by
    by_cases hp' : p' = p
    · rw [hp', setUpdate_items_self, hid]
    · rw [setUpdate_items_of_ne q hp']
  refine ⟨⟨fun i p' hi => ?_, fun id p' => ?_⟩, ?_⟩
  · rw [hindex]
    exact h.position i p' hi
  · rw [hrepo]
    exact h.lookup id p'
  · funext id
    show (q.index.lookup id).map (fun p' => ((q.setUpdate p u).items p').toUpdate) = _
    by_cases heq : id = u.repo.id
    · rw [heq, Function.update_self, hid, (h.lookup _ p).mpr ⟨hp, rfl⟩, Option.map_some,
        setUpdate_items_self]
    · rw [Function.update_of_ne heq, contents]
      refine Option.map_congr fun p' hp' => ?_
      have hne : p' ≠ p := fun hpp => heq (by rw [hid, ← hpp, ((h.lookup id p').mp hp').2])
      rw [setUpdate_items_of_ne q hne]

/-- Only the element that was changed may be in the wrong place. -/
theorem setUpdate_orderedExcept (h : q.Valid) (u : Update) (hi : q.heap[i]? = some p) :
    queueHeap.OrderedExcept (q.setUpdate p u) q.heap.length i := by
  have hilt := (List.getElem?_eq_some_iff.mp hi).1
  have hother : ∀ {k}, k < q.heap.length → k ≠ i → (q.setUpdate p u).items (q.heap.getD k 0)
      = q.items (q.heap.getD k 0) := fun {k} hk hki => by
    refine setUpdate_items_of_ne q (fun hp => hki ?_) u
    refine (List.getElem?_inj hk h.nodup).mp ?_
    rw [hi, ← hp, List.getD_eq_getElem?_getD, List.getElem?_eq_getElem hk]
    rfl
  have hless : ∀ {a b}, a < q.heap.length → b < q.heap.length → a ≠ i → b ≠ i →
      queueHeap.less (q.setUpdate p u) a b = queueHeap.less q a b := fun {a b} ha hb hai hbi => by
    have hget : ∀ {k}, k < q.heap.length → q.heap[k]? = some (q.heap.getD k 0) := fun hk => by
      rw [List.getD_eq_getElem?_getD, List.getElem?_eq_getElem hk]
      rfl
    rw [queueHeap_less (hget ha) (hget hb)]
    refine (queueHeap_less (q := q.setUpdate p u) (hget ha) (hget hb)).trans ?_
    rw [hother ha hai, hother hb hbi]
  have hexcept := h.isHeap.orderedExcept queueHeap_ordered le_rfl hilt
  constructor
  · intro k h0 hk hki hpk
    rw [hless hk ((Heap.Interface.parent_lt h0).trans hk) hki hpk]
    exact hexcept.off k h0 hk hki hpk
  · intro h0 k hk0 hk hpk
    have hki : k ≠ i := fun hki => (Heap.Interface.parent_lt hk0).ne (hpk.trans hki.symm)
    rw [hless hk ((Heap.Interface.parent_lt h0).trans hilt) hki (Heap.Interface.parent_lt h0).ne]
    exact hexcept.grand h0 k hk0 hk hpk

/-- **A change in place and `heap.Fix`.** -/
theorem setUpdate_fix (h : q.Valid) (hp : p ∈ q.heap) (hid : u.repo.id = (q.items p).repo.id) :
    ∃ q', (q.setUpdate p u).fix ((q.setUpdate p u).items p).index = some q' ∧ q'.Valid
      ∧ (q'.items p).toUpdate = u
      ∧ q'.contents = Function.update q.contents u.repo.id (some u) := by
  have hset := setUpdate_indexed h.toIndexed hp hid
  obtain ⟨q', hfix, hvalid, hagrees⟩ := fix_eq hset.1 hp fun i hi => setUpdate_orderedExcept h u hi
  refine ⟨q', hfix, hvalid, ?_, ?_⟩
  · rw [hagrees.toUpdate_eq, setUpdate_items_self]
  · rw [hagrees.contents_eq, hset.2]

/-- A change that the order does not read keeps the heap in order. -/
theorem setUpdate_isHeap (h : q.Valid)
    (hu : ∀ v, u.less v = (q.items p).less v ∧ v.less u = v.less (q.items p).toUpdate) :
    queueHeap.IsHeap (q.setUpdate p u) q.heap.length := by
  have hless : ∀ x y, ((q.setUpdate p u).items x).less ((q.setUpdate p u).items y).toUpdate
      = (q.items x).less (q.items y).toUpdate := fun x y => by
    by_cases hx : x = p
    · subst hx
      rw [setUpdate_items_self, (hu _).1]
      by_cases hy : y = x
      · rw [hy, setUpdate_items_self, (hu _).2]
      · rw [setUpdate_items_of_ne q hy]
    · rw [setUpdate_items_of_ne q hx]
      by_cases hy : y = p
      · rw [hy, setUpdate_items_self, (hu _).2]
      · rw [setUpdate_items_of_ne q hy]
  intro k h0 hk
  rw [← h.isHeap k h0 hk]
  show (q.heap[k]?.bind fun a => q.heap[Heap.parent k]?.map fun b =>
    ((q.setUpdate p u).items a).less ((q.setUpdate p u).items b).toUpdate).getD false = _
  simp only [hless]
  rfl

/-! ## The operations -/

/-- What `enqueue` makes of the update of a repository. -/
def enqueued (repo : ConfiguredRepo) (priority : ℤ) (seq : UInt64) : Option Update → Update
  | none => ⟨repo, priority, seq, false⟩
  | some u =>
    if u.updating then u
    else if priority ≤ u.priority then { u with repo }
    else { u with repo, priority, seq }

variable {repo : ConfiguredRepo}

theorem push_indexed (h : q.Indexed) (priority : ℤ) (hnone : q.index.lookup repo.id = none) :
    (q.push (repo, priority)).Indexed ∧ (q.push (repo, priority)).contents
      = Function.update q.contents repo.id (some ⟨repo, priority, q.seq + 1, false⟩) := by
  have hnew : (q.push (repo, priority)).items q.allocated
      = { repo, priority, seq := q.seq + 1, updating := false, index := q.heap.length } :=
    if_pos rfl
  have hold : ∀ {p}, p ∈ q.heap → (q.push (repo, priority)).items p = q.items p := fun hp =>
    if_neg (q.heap_lt _ hp).ne
  have hlookup : ∀ id, (q.push (repo, priority)).index.lookup id
      = if id = repo.id then some q.allocated else q.index.lookup id := fun id => by
    show (q.index.insert repo.id q.allocated).lookup id = _
    split
    case isTrue heq => rw [heq, AList.lookup_insert]
    case isFalse hne => rw [AList.lookup_insert_ne hne]
  refine ⟨⟨fun i p hi => ?_, fun id p => ?_⟩, ?_⟩
  · have hi' : (q.heap ++ [q.allocated])[i]? = some p := hi
    by_cases hlt : i < q.heap.length
    · rw [getElem?_append_left hlt] at hi'
      rw [hold (mem_of_getElem? hi')]
      exact h.position i p hi'
    · have hilen := (List.getElem?_eq_some_iff.mp hi').1
      rw [length_append, length_singleton] at hilen
      have hieq : i = q.heap.length := by omega
      rw [hieq, getElem?_concat_length] at hi'
      rw [← Option.some.inj hi', hnew, hieq]
  · rw [hlookup]
    show _ ↔ p ∈ q.heap ++ [q.allocated] ∧ _
    rw [mem_append, mem_singleton]
    by_cases heq : id = repo.id
    · rw [if_pos heq]
      constructor
      · intro hp
        rw [← Option.some.inj hp, hnew]
        exact ⟨.inr rfl, heq.symm⟩
      · rintro ⟨hp | hp, hid⟩
        · rw [hold hp] at hid
          have hsome := (h.lookup id p).mpr ⟨hp, hid⟩
          rw [heq, hnone] at hsome
          cases hsome
        · rw [hp]
    · rw [if_neg heq, h.lookup]
      constructor
      · rintro ⟨hp, hid⟩
        rw [hold hp]
        exact ⟨.inl hp, hid⟩
      · rintro ⟨hp | hp, hid⟩
        · rw [hold hp] at hid
          exact ⟨hp, hid⟩
        · rw [hp, hnew] at hid
          exact absurd hid.symm heq
  · funext id
    rw [contents, hlookup]
    by_cases heq : id = repo.id
    · rw [if_pos heq, heq, Function.update_self, Option.map_some, hnew]
    · rw [if_neg heq, Function.update_of_ne heq, contents]
      refine Option.map_congr fun p hp => ?_
      rw [hold ((h.lookup id p).mp hp).1]

/-- **What `enqueue` does.** -/
theorem enqueue_eq (h : q.Valid) (priority : ℤ) (hid : repo.id ≠ 0) :
    ∃ updated q', q.enqueue repo priority = some (updated, q') ∧ q'.Valid
      ∧ q'.contents = Function.update q.contents repo.id
          (some (enqueued repo priority (q.seq + 1) (q.contents repo.id))) := by
  rw [enqueue, if_neg hid, contents]
  cases hlookup : q.index.lookup repo.id with
  | none =>
    have hpush := push_indexed h.toIndexed priority hlookup
    have hkeeps := queueHeap.heapPush_keeps queueHeap_ordered.toLawful (keeps_agrees _)
      hpush.1.agrees
    have hheap := Heap.Interface.heapPush_isHeap queueHeap_ordered h.isHeap (repo, priority)
    refine ⟨false, _, rfl, ⟨hkeeps.1.toIndexed, ?_⟩, ?_⟩
    · have hlen : (queueHeap.heapPush q (repo, priority)).heap.length = q.heap.length + 1 :=
        hkeeps.2
      rw [hlen]
      exact hheap
    · rw [hkeeps.1.contents_eq, hpush.2]
      rfl
  | some p =>
    obtain ⟨hp, hrepo⟩ := (h.lookup _ p).mp hlookup
    have hself : q.contents repo.id = some (q.items p).toUpdate := hrepo ▸ h.contents_eq hp
    rw [Option.map_some]
    dsimp only
    by_cases hupdating : (q.items p).updating = true
    · rw [if_pos hupdating, enqueued, if_pos hupdating, ← hself, Function.update_eq_self]
      exact ⟨false, q, rfl, h, rfl⟩
    · rw [if_neg hupdating, enqueued, if_neg hupdating]
      by_cases hle : priority ≤ (q.items p).priority
      · have hset := setUpdate_indexed h.toIndexed hp
          (u := { (q.items p).toUpdate with repo }) hrepo.symm
        rw [if_pos hle, if_pos hle]
        refine ⟨true, _, rfl, ⟨hset.1, setUpdate_isHeap h fun v => ?_⟩, hset.2⟩
        exact ⟨rfl, rfl⟩
      · rw [if_neg hle, if_neg hle]
        have hvalid : ({ q with seq := q.seq + 1 } : UpdateQueue).Valid :=
          ⟨⟨h.position, h.lookup⟩, h.isHeap⟩
        obtain ⟨q', hfix, hvalid', -, hcontents⟩ := setUpdate_fix hvalid hp
          (u := { (q.items p).toUpdate with repo, priority, seq := q.seq + 1 }) hrepo.symm
        refine ⟨true, q', ?_, hvalid', hcontents⟩
        rw [hfix]
        rfl

/-- **What `acquireNext` does.** It hands out a repository that is not updating and
that no other such repository comes before, or all repositories are updating. -/
theorem acquireNext_eq (h : q.Valid) :
    (∃ q' u, q.acquireNext = some (some u.repo, q') ∧ q'.Valid
        ∧ q.contents u.repo.id = some u ∧ u.updating = false
        ∧ (∀ id v, q.contents id = some v → v.less u = false)
        ∧ q'.contents = Function.update q.contents u.repo.id (some { u with updating := true }))
      ∨ q.acquireNext = some (none, q) ∧ ∀ id v, q.contents id = some v → v.updating = true := by
  cases hheap : q.heap with
  | nil =>
    refine .inr ⟨by rw [acquireNext, hheap], fun id v hv => ?_⟩
    obtain ⟨p, hp, -⟩ := Option.map_eq_some_iff.mp hv
    have hmem := ((h.lookup id p).mp hp).1
    rw [hheap] at hmem
    cases hmem
  | cons p rest =>
    have hp : p ∈ q.heap := hheap ▸ mem_cons_self
    have hroot : ∀ id v, q.contents id = some v → v.less (q.items p).toUpdate = false := by
      intro id v hv
      obtain ⟨p', hp', rfl⟩ := Option.map_eq_some_iff.mp hv
      obtain ⟨i, hi, hget⟩ := mem_iff_getElem.mp ((h.lookup id p').mp hp').1
      have hless := h.isHeap.root queueHeap_ordered le_rfl i hi
      rw [queueHeap_less (hget ▸ getElem?_eq_getElem hi) (by rw [hheap]; rfl)] at hless
      exact hless
    by_cases hupdating : (q.items p).updating = true
    · refine .inr ⟨by rw [acquireNext, hheap]; exact if_pos hupdating, fun id v hv => ?_⟩
      have hless := hroot id v hv
      rw [Update.less, hupdating] at hless
      grind
    · obtain ⟨q', hfix, hvalid, hitem, hcontents⟩ := setUpdate_fix h hp
        (u := { (q.items p).toUpdate with updating := true }) rfl
      refine .inl ⟨q', (q.items p).toUpdate, ?_, hvalid, h.contents_eq hp,
        Bool.eq_false_of_not_eq_true hupdating, hroot, hcontents⟩
      rw [acquireNext, hheap]
      dsimp only
      rw [if_neg hupdating, hfix]
      simp only [Option.bind_eq_bind, Option.bind_some, hitem]
      rfl

theorem pop_indexed (h : q.Indexed) {x : RepoUpdate} (hpop : q.pop = some (x, q')) :
    ∃ p, q.heap = q'.heap ++ [p] ∧ q'.Indexed
      ∧ q'.contents = Function.update q.contents (q.items p).repo.id none := by
  obtain ⟨p, hheap, hitems, hindex, -⟩ := pop_eq_some hpop
  have hp : p ∈ q.heap := hheap ▸ mem_append_right _ mem_cons_self
  have hnodup := h.nodup
  rw [hheap] at hnodup
  have hne : ∀ {p'}, p' ∈ q'.heap → p' ≠ p := fun hp' heq =>
    (nodup_append.mp hnodup).2.2 _ hp' p mem_cons_self heq
  refine ⟨p, hheap, ⟨fun i p' hi => ?_, fun id p' => ?_⟩, ?_⟩
  · have hkept : q'.items p' = q.items p' := by
      rw [hitems, setIndex, if_neg fun heq =>
        hne (mem_of_getElem? hi) (Option.some.inj heq).symm]
    rw [hkept]
    refine h.position i p' ?_
    rw [hheap, List.getElem?_append_left (List.getElem?_eq_some_iff.mp hi).1, hi]
  · rw [hindex, hitems, setIndex_toUpdate]
    by_cases heq : id = (q.items p).repo.id
    · rw [heq, AList.lookup_erase]
      refine iff_of_false (by simp) fun ⟨hp', hid⟩ => hne hp' ?_
      -- one pointer for each repository
      have hlookup' := (h.lookup _ p').mpr ⟨hheap ▸ mem_append_left _ hp', hid⟩
      exact Option.some.inj (hlookup'.symm.trans ((h.lookup _ p).mpr ⟨hp, rfl⟩))
    · rw [AList.lookup_erase_ne heq, h.lookup]
      refine and_congr_left fun hid => ?_
      rw [hheap, mem_append, mem_singleton]
      refine or_iff_left fun hpp => heq ?_
      rw [← hpp, hid]
  · funext id
    simp only [contents, hindex, hitems, setIndex_toUpdate]
    by_cases heq : id = (q.items p).repo.id
    · rw [heq, AList.lookup_erase, Function.update_self]
      rfl
    · rw [AList.lookup_erase_ne heq, Function.update_of_ne heq]
      rfl

/-- **`heap.Remove` at the stored position** of an update. -/
theorem heapRemove_eq (h : q.Valid) (hi : q.heap[i]? = some p) :
    ∃ x q', queueHeap.remove q i = some (x, q') ∧ q'.Valid
      ∧ q'.contents = Function.update q.contents (q.items p).repo.id none := by
  have hilt := (List.getElem?_eq_some_iff.mp hi).1
  have hlast : q.heap.length - 1 < q.heap.length := by omega
  -- the update is at the last position when the others are brought in order
  have hkeeps : queueHeap.KeepsBelow (q.heap.length - 1) fun q₁ =>
      Agrees q q₁ ∧ q₁.heap.length = q.heap.length ∧ q₁.heap[q.heap.length - 1]? = some p := by
    intro q₁ a b hn ha hb hq₁
    have ha' : a < q₁.heap.length := hq₁.2.1 ▸ ha.trans hlast
    have hb' : b < q₁.heap.length := hq₁.2.1 ▸ hb.trans hlast
    refine ⟨swap_agrees hq₁.1 ha' hb', (Heap.swapAt_perm _ _ _).length_eq.trans hq₁.2.1, ?_⟩
    refine (Heap.getElem?_swapAt ha' hb' (hq₁.2.1 ▸ hlast)).trans ?_
    rw [Equiv.swap_apply_of_ne_of_ne ha.ne' hb.ne']
    exact hq₁.2.2
  obtain ⟨q₁, ⟨hagrees, hlen, hq₁⟩, -, hremove⟩ := queueHeap.remove_keeps
    queueHeap_ordered.toLawful hkeeps hilt (by
      split
      case isTrue heq =>
        have heq' : q.heap.length - 1 = i := heq
        exact ⟨h.agrees, rfl, heq' ▸ hi⟩
      case isFalse =>
        refine ⟨swap_agrees h.agrees hilt hlast, (Heap.swapAt_perm _ _ _).length_eq, ?_⟩
        refine (Heap.getElem?_swapAt hilt hlast hlast).trans ?_
        rw [Equiv.swap_apply_right]
        exact hi)
  obtain ⟨⟨x, q'⟩, hpop⟩ : ∃ y, q₁.pop = some y := by
    rw [pop, List.getLast?_eq_getElem?, hlen, hq₁]
    exact ⟨_, rfl⟩
  obtain ⟨p', hheap, hindexed, hcontents⟩ := pop_indexed hagrees.toIndexed hpop
  have hpp : p' = p := by
    have hlen' : q.heap.length = q'.heap.length + 1 := by
      rw [← hlen, hheap]
      exact List.length_append
    rw [hheap, hlen', Nat.add_sub_cancel, List.getElem?_concat_length] at hq₁
    exact Option.some.inj hq₁
  refine ⟨x, q', hremove.trans hpop, ⟨hindexed, ?_⟩, ?_⟩
  · exact Heap.Interface.remove_isHeap queueHeap_ordered h.isHeap hilt (hremove.trans hpop)
  · rw [hcontents, hagrees.contents_eq, hpp, hagrees.toUpdate_eq]

/-- **What `remove` does.** -/
theorem remove_eq (h : q.Valid) (updating : Bool) (hid : repo.id ≠ 0) :
    (∃ q' u, q.remove repo updating = some (true, q') ∧ q'.Valid
        ∧ q.contents repo.id = some u ∧ u.updating = updating
        ∧ q'.contents = Function.update q.contents repo.id none)
      ∨ q.remove repo updating = some (false, q)
        ∧ ∀ u, q.contents repo.id = some u → u.updating ≠ updating := by
  rw [remove, if_neg hid]
  cases hlookup : q.index.lookup repo.id with
  | none =>
    refine .inr ⟨rfl, fun u hu => ?_⟩
    rw [contents, hlookup] at hu
    cases hu
  | some p =>
    obtain ⟨hp, hrepo⟩ := (h.lookup _ p).mp hlookup
    have hself : q.contents repo.id = some (q.items p).toUpdate := hrepo ▸ h.contents_eq hp
    dsimp only
    by_cases hupdating : (q.items p).updating = updating
    · obtain ⟨i, hi, hget⟩ := mem_iff_getElem.mp hp
      have hget? : q.heap[i]? = some p := hget ▸ getElem?_eq_getElem hi
      obtain ⟨x, q', hremove, hvalid, hcontents⟩ := heapRemove_eq h hget?
      refine .inl ⟨q', _, ?_, hvalid, hself, hupdating, hrepo ▸ hcontents⟩
      rw [if_pos hupdating, h.position i p hget?,
        if_pos ⟨Int.natCast_nonneg i, Int.ofNat_lt.mpr hi⟩, Int.toNat_natCast, hremove]
      rfl
    · refine .inr ⟨if_neg hupdating, fun u hu => ?_⟩
      rw [← Option.some.inj (hself.symm.trans hu)]
      exact hupdating

theorem empty_valid : empty.Valid where
  position i p hi := by simp [empty] at hi
  lookup id p := by simp [empty]
  isHeap k _ hk := absurd hk (Nat.not_lt_zero k)

/-! ## Runs -/

/-- A call of the queue. -/
inductive Call where
  | enqueue (repo : ConfiguredRepo) (priority : ℤ)
  | remove (repo : ConfiguredRepo) (updating : Bool)
  | acquireNext
deriving DecidableEq

/-- What a call returns. -/
inductive Reply where
  | updated (updated : Bool)
  | removed (removed : Bool)
  | acquired (repo : Option ConfiguredRepo)
deriving DecidableEq

/-- A call and what it returns. `none` is a panic. -/
def call (q : UpdateQueue) : Call → Option (Reply × UpdateQueue)
  | .enqueue repo priority => (q.enqueue repo priority).map (Prod.map .updated id)
  | .remove repo updating => (q.remove repo updating).map (Prod.map .removed id)
  | .acquireNext => q.acquireNext.map (Prod.map .acquired id)

/-- The queue after a call with the given reply. -/
def step (q : UpdateQueue) (event : Call × Reply) : Option UpdateQueue := do
  let (reply, q) ← q.call event.1
  if reply = event.2 then some q else none

/-- A call panics only if its repository has no id. -/
def Call.Proper : Call → Prop
  | .enqueue repo _ => repo.id ≠ 0
  | .remove repo _ => repo.id ≠ 0
  | .acquireNext => True

theorem step_eq_some {event : Call × Reply} :
    q.step event = some q' ↔ q.call event.1 = some (event.2, q') := by
  unfold step
  cases hcall : q.call event.1 with
  | none => simp
  | some result =>
    obtain ⟨reply, q₁⟩ := result
    simp [and_comm]

theorem proper_of_call {c : Call} {result : Reply × UpdateQueue} (h : q.call c = some result) :
    c.Proper := by
  cases c with
  | acquireNext => trivial
  | enqueue repo priority =>
    intro h0
    rw [call, enqueue, if_pos h0] at h
    cases h
  | remove repo updating =>
    intro h0
    rw [call, remove, if_pos h0] at h
    cases h

/-- **What a call can do.** A repository that is updating stays so, unless it is
removed, and one that is handed out was not updating. -/
theorem call_eq (h : q.Valid) {c : Call} (hc : c.Proper) :
    ∃ reply q', q.call c = some (reply, q') ∧ q'.Valid
      ∧ (∀ id u, q.contents id = some u → u.updating = true →
        (∃ repo, c = .remove repo true ∧ reply = .removed true ∧ repo.id = id)
          ∨ q'.contents id = some u)
      ∧ ∀ repo, reply = .acquired (some repo) →
        ∃ u, u.repo = repo ∧ q.contents repo.id = some u ∧ u.updating = false
          ∧ q'.contents repo.id = some { u with updating := true } := by
  cases c with
  | enqueue repo priority =>
    obtain ⟨updated, q', hcall, hvalid, hcontents⟩ := enqueue_eq h priority hc
    refine ⟨.updated updated, q', by rw [call, hcall]; rfl, hvalid, fun id u hu hupdating => ?_,
      fun _ hreply => by cases hreply⟩
    right
    rw [hcontents]
    by_cases heq : id = repo.id
    · rw [heq] at hu ⊢
      rw [Function.update_self, hu, enqueued, if_pos hupdating]
    · rw [Function.update_of_ne heq, hu]
  | remove repo updating =>
    rcases remove_eq h updating hc with ⟨q', v, hcall, hvalid, hv, hupdating, hcontents⟩ | hsame
    · refine ⟨.removed true, q', by rw [call, hcall]; rfl, hvalid, fun id u hu hu' => ?_,
        fun _ hreply => by cases hreply⟩
      by_cases heq : id = repo.id
      · rw [heq, hv] at hu
        rw [← Option.some.inj hu, hupdating] at hu'
        exact .inl ⟨repo, by rw [hu'], rfl, heq.symm⟩
      · rw [hcontents, Function.update_of_ne heq]
        exact .inr hu
    · exact ⟨.removed false, q, by rw [call, hsame.1]; rfl, h, fun id u hu _ => .inr hu,
        fun _ hreply => by cases hreply⟩
  | acquireNext =>
    rcases acquireNext_eq h with ⟨q', v, hcall, hvalid, hv, hupdating, -, hcontents⟩ | hnone
    · refine ⟨.acquired (some v.repo), q', by rw [call, hcall]; rfl, hvalid, fun id u hu hu' => ?_,
        fun repo hreply => ?_⟩
      · right
        have hne : id ≠ v.repo.id := fun heq => by
          rw [heq, hv] at hu
          rw [← Option.some.inj hu, hupdating] at hu'
          cases hu'
        rw [hcontents, Function.update_of_ne hne, hu]
      · obtain rfl : v.repo = repo := Option.some.inj (Reply.acquired.inj hreply)
        exact ⟨v, rfl, hv, hupdating, by rw [hcontents, Function.update_self]⟩
    · exact ⟨.acquired none, q, by rw [call, hnone.1]; rfl, h, fun id u hu _ => .inr hu,
        fun _ hreply => by cases hreply⟩

theorem step_valid {event : Call × Reply} (hstep : q.step event = some q') (h : q.Valid) :
    q'.Valid := by
  have hcall := step_eq_some.mp hstep
  obtain ⟨reply, q₁, hcall', hvalid, -⟩ := call_eq h (proper_of_call hcall)
  rw [hcall] at hcall'
  exact (Prod.mk.inj (Option.some.inj hcall')).2 ▸ hvalid

/-- A repository that is updating stays so in a run in which it is not removed. -/
theorem run_updating {trace : List (Call × Reply)} {id : Int32}
    (hkept : ∀ repo, (.remove repo true, .removed true) ∈ trace → repo.id ≠ id) :
    ∀ {q}, q.Valid → q.contents id = some u → u.updating = true →
      Machine.run step q trace = some q' → q'.contents id = some u := by
  induction trace with
  | nil =>
    intro q _ hu _ hrun
    rw [← Option.some.inj hrun]
    exact hu
  | cons event trace ih =>
    intro q h hu hupdating hrun
    obtain ⟨q₁, hstep, hrest⟩ := Machine.run_cons.mp hrun
    have hcall := step_eq_some.mp hstep
    obtain ⟨reply, q₂, hcall', hvalid, hupdated, -⟩ := call_eq h (proper_of_call hcall)
    obtain ⟨rfl, rfl⟩ := Prod.mk.inj (Option.some.inj (hcall.symm.trans hcall'))
    refine ih (fun repo hmem => hkept repo (mem_cons_of_mem _ hmem)) hvalid ?_ hupdating hrest
    rcases hupdated id u hu hupdating with ⟨repo, hremove, hremoved, hid⟩ | hsame
    · exact absurd hid (hkept repo (by rw [← hremove, ← hremoved]; exact mem_cons_self))
    · exact hsame

theorem run_valid {trace : List (Call × Reply)} (h : q.Valid)
    (hrun : Machine.run step q trace = some q') : q'.Valid :=
  Machine.run_invariant step_valid hrun h

theorem step_acquired (h : q.Valid)
    (hstep : q.step (.acquireNext, .acquired (some repo)) = some q') :
    ∃ u, q.contents repo.id = some u ∧ u.updating = false
      ∧ q'.contents repo.id = some { u with updating := true } := by
  have hcall := step_eq_some.mp hstep
  obtain ⟨reply, q₁, hcall', -, -, hacquired⟩ := call_eq h (proper_of_call hcall)
  obtain ⟨rfl, rfl⟩ := Prod.mk.inj (Option.some.inj (hcall.symm.trans hcall'))
  obtain ⟨u, -, hu⟩ := hacquired repo rfl
  exact ⟨u, hu⟩

/-- A repository that is handed out is not handed out again before it was removed. -/
theorem run_not_acquired_twice {before between after : List (Call × Reply)}
    {repo repo' : ConfiguredRepo} (h : q.Valid)
    (hrun : Machine.run step q (before ++ (.acquireNext, .acquired (some repo)) :: between
      ++ (.acquireNext, .acquired (some repo')) :: after) = some q')
    (hid : repo'.id = repo.id) :
    ∃ repo'', (.remove repo'' true, .removed true) ∈ between ∧ repo''.id = repo.id := by
  by_contra hnone
  have hkept : ∀ repo'', (Call.remove repo'' true, Reply.removed true) ∈ between →
      repo''.id ≠ repo.id := fun repo'' hmem heq => hnone ⟨repo'', hmem, heq⟩
  rw [Machine.run, append_assoc, foldlM_append] at hrun
  obtain ⟨q₁, hbefore, hrun⟩ := Option.bind_eq_some_iff.mp hrun
  rw [cons_append] at hrun
  obtain ⟨q₂, hfirst, hrun⟩ := Machine.run_cons.mp hrun
  rw [Machine.run, foldlM_append] at hrun
  obtain ⟨q₃, hbetween, hrun⟩ := Option.bind_eq_some_iff.mp hrun
  obtain ⟨q₄, hsecond, -⟩ := Machine.run_cons.mp hrun
  have hvalid₁ := run_valid h hbefore
  have hvalid₂ := step_valid hfirst hvalid₁
  have hvalid₃ := run_valid hvalid₂ hbetween
  -- updating after the first call, not updating before the second
  obtain ⟨u, -, -, hu⟩ := step_acquired hvalid₁ hfirst
  obtain ⟨v, hv, hupdating, -⟩ := step_acquired hvalid₃ hsecond
  rw [hid, run_updating hkept hvalid₂ hu rfl hbetween] at hv
  rw [← Option.some.inj hv] at hupdating
  cases hupdating

/-- The updates in the heap. -/
def queued (q : UpdateQueue) : List Update :=
  q.heap.map fun p => (q.items p).toUpdate

theorem Indexed.mem_queued (h : q.Indexed) :
    u ∈ q.queued ↔ q.contents u.repo.id = some u := by
  constructor
  · intro hu
    obtain ⟨p, hp, rfl⟩ := mem_map.mp hu
    exact h.contents_eq hp
  · intro hu
    obtain ⟨p, hp, hpu⟩ := Option.map_eq_some_iff.mp hu
    exact mem_map.mpr ⟨p, ((h.lookup _ p).mp hp).1, hpu⟩

/-- **The queue is an indexed priority queue in every run.** Each repository is in it at
most once, and the map and the positions agree with the heap; a call returns unless its
repository has no id; `acquireNext` hands out a repository that is not updating, of
the highest priority and with the smallest sequence number of that priority, or all
repositories are updating; and no repository is handed out twice without having been
removed in between. -/
theorem run_indexed_priority_queue (trace : List (Call × Reply)) (q : UpdateQueue)
    (hrun : Machine.run step empty trace = some q) :
    (q.queued.map fun u => u.repo.id).Nodup
      ∧ (∀ (i p : ℕ), q.heap[i]? = some p →
        (q.items p).index = i ∧ q.index.lookup (q.items p).repo.id = some p)
      ∧ (∀ id p, q.index.lookup id = some p → p ∈ q.heap ∧ (q.items p).repo.id = id)
      ∧ (∀ c : Call, c.Proper → (q.call c).isSome)
      ∧ (∀ repo q', q.acquireNext = some (some repo, q') → ∃ u ∈ q.queued, u.repo = repo
        ∧ u.updating = false ∧ ∀ v ∈ q.queued, v.updating = false →
          v.priority < u.priority ∨ v.priority = u.priority ∧ u.seq ≤ v.seq)
      ∧ (∀ q', q.acquireNext = some (none, q') → ∀ u ∈ q.queued, u.updating = true)
      ∧ ∀ before between after repo repo', trace
          = before ++ (.acquireNext, .acquired (some repo)) :: between
            ++ (.acquireNext, .acquired (some repo')) :: after → repo'.id = repo.id →
        ∃ repo'', (.remove repo'' true, .removed true) ∈ between ∧ repo''.id = repo.id := by
  have h : q.Valid := run_valid empty_valid hrun
  refine ⟨?_, fun i p hi => ?_, fun id p hp => (h.lookup id p).mp hp, fun c hc => ?_,
    fun repo q' hnext => ?_, fun q' hnext u hu => ?_, ?_⟩
  · rw [queued, map_map]
    refine h.nodup.map_on fun p hp p' hp' hid => ?_
    have hlookup := (h.lookup _ p).mpr ⟨hp, rfl⟩
    have hlookup' := (h.lookup _ p').mpr ⟨hp', hid.symm⟩
    exact Option.some.inj (hlookup.symm.trans hlookup')
  · exact ⟨h.position i p hi, (h.lookup _ p).mpr ⟨mem_of_getElem? hi, rfl⟩⟩
  · obtain ⟨reply, q', hcall, -⟩ := call_eq h hc
    rw [hcall]
    rfl
  · rcases acquireNext_eq h with ⟨q₁, u, hcall, -, hu, hupdating, hfirst, -⟩ | ⟨hcall, -⟩
    · obtain ⟨hrepo, -⟩ := Prod.mk.inj (Option.some.inj (hnext.symm.trans hcall))
      refine ⟨u, h.mem_queued.mpr hu, (Option.some.inj hrepo).symm, hupdating, fun v hv hv' => ?_⟩
      have hless := hfirst _ v (h.mem_queued.mp hv)
      rw [Update.less, hupdating, hv'] at hless
      grind
    · rw [hnext] at hcall
      cases hcall
  · rcases acquireNext_eq h with ⟨q₁, v, hcall, -⟩ | ⟨-, hall⟩
    · rw [hnext] at hcall
      cases hcall
    · exact hall _ u (h.mem_queued.mp hu)
  · rintro before between after repo repo' rfl hid
    exact run_not_acquired_twice empty_valid hrun hid

/-- Two repositories are enqueued, and the one with the higher priority is handed out,
removed and enqueued again. -/
def twoRepos : List (Call × Reply) :=
  [(.enqueue ⟨1, lit "a"⟩ 0, .updated false), (.enqueue ⟨2, lit "b"⟩ 1, .updated false),
    (.acquireNext, .acquired (some ⟨2, lit "b"⟩)), (.remove ⟨2, lit "b"⟩ true, .removed true),
    (.enqueue ⟨2, lit "b"⟩ 1, .updated false), (.acquireNext, .acquired (some ⟨2, lit "b"⟩))]

theorem run_twoRepos :
    ∃ q, Machine.run step empty twoRepos = some q
      ∧ (q.queued.map fun u => u.repo.id).Nodup
      ∧ (∀ c : Call, c.Proper → (q.call c).isSome)
      ∧ ∀ q', q.acquireNext = some (none, q') → ∀ u ∈ q.queued, u.updating = true := by
  obtain ⟨q, hrun⟩ : ∃ q, Machine.run step empty twoRepos = some q :=
    Option.isSome_iff_exists.mp (by decide +kernel)
  have hqueue := run_indexed_priority_queue twoRepos q hrun
  exact ⟨q, hrun, hqueue.1, hqueue.2.2.2.1, hqueue.2.2.2.2.2.1⟩

/-- The calls that hand out the given updates, one after the other. -/
def acquiring (us : List Update) : List (Call × Reply) :=
  us.map fun u => (.acquireNext, .acquired (some u.repo))

theorem Valid.exists_acquiring (ids : Finset Int32) (h : q.Valid)
    (hids : ∀ id u, q.contents id = some u → u.updating = false → id ∈ ids) :
    ∃ us q', Machine.run step q (acquiring us) = some q' ∧ q'.acquireNext = some (none, q')
      ∧ us.Nodup ∧ us.Pairwise (fun u v => v.less u = false)
      ∧ ∀ u, u ∈ us ↔ q.contents u.repo.id = some u ∧ u.updating = false := by
  -- induction on the repositories that may still wait
  induction ids using Finset.strongInduction generalizing q with
  | _ ids ih =>
    obtain ⟨q₁, u, hcall, hvalid, hu, hwaiting, hfirst, hcontents⟩ | ⟨hcall, hall⟩ :=
      acquireNext_eq h
    · have hrest : ∀ v, q₁.contents v.repo.id = some v ∧ v.updating = false ↔
          v ≠ u ∧ q.contents v.repo.id = some v ∧ v.updating = false := by
        intro v
        rw [hcontents, Function.update_apply]
        grind
      obtain ⟨us, q', hrun, hnext, hnodup, hsorted, hmem⟩ :=
        ih _ (Finset.erase_ssubset (hids _ u hu hwaiting)) hvalid fun id v hv hv' => by
          rw [hcontents, Function.update_apply] at hv
          grind
      simp only [hrest] at hmem
      refine ⟨u :: us, q', Machine.run_cons.mpr ⟨q₁, ?_, hrun⟩, hnext,
        hnodup.cons fun hu' => ((hmem u).mp hu').1 rfl,
        hsorted.cons fun v hv => hfirst _ v ((hmem v).mp hv).2.1, fun v => ?_⟩
      · exact step_eq_some.mpr (by rw [call, hcall]; rfl)
      · grind
    · refine ⟨[], q, rfl, hcall, nodup_nil, .nil, fun u => ?_⟩
      have := hall u.repo.id u
      grind

/-- **A queue is drained in order.** From every queue that a run reaches, calls of
`acquireNext` hand out each update that waits exactly once, those of higher priority
first and those of one priority by their sequence numbers, and then nothing more. -/
theorem run_drained (trace : List (Call × Reply)) (q : UpdateQueue)
    (hrun : Machine.run step empty trace = some q) :
    ∃ us q', Machine.run step q (acquiring us) = some q' ∧ q'.acquireNext = some (none, q')
      ∧ us.Nodup ∧ (∀ u, u ∈ us ↔ u ∈ q.queued ∧ u.updating = false)
      ∧ us.Pairwise fun u v =>
        v.priority < u.priority ∨ v.priority = u.priority ∧ u.seq ≤ v.seq := by
  have h : q.Valid := run_valid empty_valid hrun
  obtain ⟨us, q', hdrain, hnext, hnodup, hsorted, hmem⟩ :=
    h.exists_acquiring (q.heap.map fun p => (q.items p).repo.id).toFinset fun id u hu _ => by
      obtain ⟨p, hp, -⟩ := Option.map_eq_some_iff.mp hu
      exact mem_toFinset.mpr (mem_map.mpr ⟨p, (h.lookup id p).mp hp⟩)
  refine ⟨us, q', hdrain, hnext, hnodup, fun u => by rw [hmem, h.mem_queued],
    hsorted.imp_of_mem fun {u v} hu hv hless => ?_⟩
  rw [Update.less, ((hmem u).mp hu).2, ((hmem v).mp hv).2] at hless
  grind

theorem run_drained_twoRepos :
    ∃ q us q', Machine.run step empty twoRepos = some q
      ∧ Machine.run step q (acquiring us) = some q' ∧ q'.acquireNext = some (none, q') := by
  obtain ⟨q, hrun⟩ : ∃ q, Machine.run step empty twoRepos = some q :=
    Option.isSome_iff_exists.mp (by decide +kernel)
  obtain ⟨us, q', hdrain, hnext, -⟩ := run_drained twoRepos q hrun
  exact ⟨q, us, q', hrun, hdrain, hnext⟩

end UpdateQueue

end Repos
