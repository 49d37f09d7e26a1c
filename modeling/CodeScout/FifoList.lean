import CodeScout.Util.GoString
import Mathlib

/-!
# The list of the newest items

A `FIFOList` keeps its items in a list in Redis, the newest first, and cuts the
list to a maximal size that may be another one at each call. A size that is not
positive is to keep the list empty. What the cut for it leaves is the items from
index 0 to index 0 – bounds are inclusive – so one item stays: a list is kept as
it should be exactly by calls with a positive size, or on a list that is empty
already – that was empty at first and has seen no positive size
(`inserts_keepNewest_iff`).
-/

namespace Rcache

/-! ## List commands -/

/-- Where an index of a list points. A negative one counts from the end. -/
def position (length : ℕ) (index : ℤ) : ℤ :=
  if index < 0 then length + index else index

/-- `LRANGE`, with both bounds inclusive. What is out of range is no error. -/
def lrange (list : List GoString) (start stop : ℤ) : List GoString :=
  (list.take (position list.length stop + 1).toNat).drop (position list.length start).toNat

/-- `LTRIM` keeps what `LRANGE` returns. -/
def ltrim (list : List GoString) (start stop : ℤ) : List GoString := lrange list start stop

/-- `LPUSH` -/
def lpush (list : List GoString) (b : GoString) : List GoString := b :: list

theorem position_of_nonneg {length : ℕ} {index : ℤ} (h : 0 ≤ index) :
    position length index = index :=
  if_neg (not_lt.mpr h)

theorem lrange_zero_of_nonneg (list : List GoString) {stop : ℤ} (h : 0 ≤ stop) :
    lrange list 0 stop = list.take (stop + 1).toNat := by
  rw [lrange, position_of_nonneg h, position_of_nonneg le_rfl]
  rfl

theorem lrange_all (list : List GoString) : lrange list 0 (-1) = list := by
  have hlast : position list.length (-1) + 1 = list.length := neg_add_cancel_right _ 1
  rw [lrange, hlast, position_of_nonneg le_rfl, Int.toNat_natCast, List.take_length]
  rfl

/-! ## The list -/

/-- `MaxSize`, for what the function `maxSize` returns. -/
def maxSize (size : ℤ) : ℤ := if size < 0 then 0 else size

/-- `Insert`. That an item is not valid UTF-8 makes an error that is not
returned. -/
def insert (size : ℤ) (list : List GoString) (b : GoString) : List GoString :=
  if maxSize size = 0 then ltrim list 0 0
  else ltrim (lpush list b) 0 (maxSize size - 1)

/-- `Slice`, with the error of the context. -/
def slice {ε : Type} (ctxErr : Option ε) (size : ℤ) (list : List GoString) (start stop : ℤ) :
    Except ε (List GoString) :=
  match ctxErr with
  | some err => .error err
  | none =>
    let bs := lrange list start stop
    .ok (if bs.length > maxSize size then bs.take (maxSize size).toNat else bs)

/-- `All` -/
def all {ε : Type} (ctxErr : Option ε) (size : ℤ) (list : List GoString) :
    Except ε (List GoString) :=
  slice ctxErr size list 0 (-1)

/-- Calls of `Insert`, each with the maximal size at that time. -/
def inserts (list : List GoString) (calls : List (ℤ × GoString)) : List GoString :=
  calls.foldl (fun list call => insert call.1 list call.2) list

/-! ## What is kept -/

/-- **The newest items are kept** by a call: the item and those before it, up to
the maximal size, and all of them are returned, newest first. -/
structure KeepsNewest (size : ℤ) (list : List GoString) (b : GoString) : Prop where
  stored : insert size list b = (b :: list).take (maxSize size).toNat
  length_le : ((insert size list b).length : ℤ) ≤ maxSize size
  all_eq : ∀ {ε : Type}, all (none : Option ε) size (insert size list b)
    = .ok (insert size list b)

theorem maxSize_nonneg (size : ℤ) : 0 ≤ maxSize size := by
  unfold maxSize
  split_ifs with h
  · exact le_rfl
  · exact not_lt.mp h

theorem maxSize_eq_zero_iff {size : ℤ} : maxSize size = 0 ↔ size ≤ 0 := by
  unfold maxSize
  split_ifs with h
  · exact iff_of_true rfl h.le
  · exact ⟨fun hzero => hzero.le, fun hle => le_antisymm hle (not_lt.mp h)⟩

theorem insert_eq (size : ℤ) (list : List GoString) (b : GoString) :
    insert size list b
      = if size ≤ 0 then list.take 1 else (b :: list).take (maxSize size).toNat := by
  unfold insert ltrim lpush
  simp only [maxSize_eq_zero_iff]
  split_ifs with h
  · exact lrange_zero_of_nonneg list le_rfl
  · have hpos : 0 < maxSize size :=
      lt_of_le_of_ne (maxSize_nonneg size) fun hzero => h (maxSize_eq_zero_iff.mp hzero.symm)
    rw [lrange_zero_of_nonneg _ (Int.le_sub_one_of_lt hpos), Int.sub_add_cancel]

theorem all_of_length_le {ε : Type} {size : ℤ} {list : List GoString}
    (h : (list.length : ℤ) ≤ maxSize size) : all (none : Option ε) size list = .ok list := by
  show Except.ok (if ((lrange list 0 (-1)).length : ℤ) > maxSize size then _ else _) = _
  rw [lrange_all, if_neg (not_lt.mpr h)]

/-- **One call** keeps the newest items exactly if its size is positive or there
are no items. -/
theorem keepsNewest_iff (size : ℤ) (list : List GoString) (b : GoString) :
    KeepsNewest size list b ↔ 0 < size ∨ list = [] := by
  have hbound : ((b :: list).take (maxSize size).toNat).length ≤ (maxSize size).toNat :=
    List.length_take_le _ _
  constructor
  · intro h
    refine or_iff_not_imp_left.mpr fun hsize => ?_
    have hle := not_lt.mp hsize
    have hstored := h.stored
    rw [insert_eq, if_pos hle, maxSize_eq_zero_iff.mpr hle] at hstored
    exact (List.take_eq_nil_iff.mp hstored).resolve_left one_ne_zero
  · intro h
    have hstored : insert size list b = (b :: list).take (maxSize size).toNat := by
      rw [insert_eq]
      split_ifs with hle
      · rw [h.resolve_left (not_lt.mpr hle), maxSize_eq_zero_iff.mpr hle]
        rfl
      · rfl
    have hlength : ((insert size list b).length : ℤ) ≤ maxSize size := by
      rw [hstored, ← Int.toNat_of_nonneg (maxSize_nonneg size)]
      exact Int.ofNat_le.mpr hbound
    exact ⟨hstored, hlength, all_of_length_le hlength⟩

/-- A call leaves no items exactly if there are none and its size is not
positive. -/
theorem insert_eq_nil_iff {size : ℤ} {list : List GoString} {b : GoString} :
    insert size list b = [] ↔ list = [] ∧ size ≤ 0 := by
  rw [insert_eq]
  split_ifs with hle
  · rw [List.take_eq_nil_iff, or_iff_right one_ne_zero, and_iff_left hle]
  · have hsize : maxSize size = size := if_neg fun hneg => hle hneg.le
    rw [List.take_eq_nil_iff, Int.toNat_eq_zero, hsize]
    simp [hle]

theorem inserts_eq_nil_iff {list : List GoString} {calls : List (ℤ × GoString)} :
    inserts list calls = [] ↔ list = [] ∧ ∀ call ∈ calls, call.1 ≤ 0 := by
  induction calls generalizing list with
  | nil => exact (and_iff_left (by simp)).symm
  | cons call calls ih =>
    rw [inserts, List.foldl_cons, ← inserts, ih, insert_eq_nil_iff, List.forall_mem_cons,
      and_assoc]

/-- **Every call of a sequence** keeps the newest items exactly if each one has a
positive size or finds no items, which is to say that there are none at first
and only calls with sizes that are not positive come before it. -/
theorem inserts_keepNewest_iff (list : List GoString) (calls : List (ℤ × GoString)) :
    ((∀ done call rest, calls = done ++ call :: rest →
        KeepsNewest call.1 (inserts list done) call.2) ↔
      ∀ done call rest, calls = done ++ call :: rest → 0 < call.1 ∨ inserts list done = []) ∧
    ((∀ done call rest, calls = done ++ call :: rest →
        KeepsNewest call.1 (inserts list done) call.2) ↔
      ∀ done call rest, calls = done ++ call :: rest →
        0 < call.1 ∨ list = [] ∧ ∀ earlier ∈ done, earlier.1 ≤ 0) := by
  constructor
  · simp only [keepsNewest_iff]
  · simp only [keepsNewest_iff, inserts_eq_nil_iff]

/-- One item is there when the list is to be empty, and it stays. -/
theorem insert_disabled :
    inserts [] [(1, lit "a"), (0, lit "b")] = [lit "a"] ∧
      ¬ KeepsNewest 0 (inserts [] [(1, lit "a")]) (lit "b") := by
  refine ⟨by decide, fun h => ?_⟩
  exact absurd h.length_le (by decide)

end Rcache
