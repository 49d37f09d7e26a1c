import Mathlib.Data.List.AList
import Mathlib.Data.List.Induction
import Mathlib.Data.List.Nodup
import Mathlib.Data.List.Perm.Basic

/-!
# Go maps

A map is a finite list of entries, no two of them with the same key. What a
program observes of a map are its lookups and, when it ranges over the map,
its entries in some order. The language does not fix that order, and it may
change from one loop to the next: `RangeOrder` is any choice of orders.
-/

/-- `map[K]V`. -/
abbrev GoMap (K V : Type) [DecidableEq K] : Type :=
  AList fun _ : K => V

namespace GoMap

open List

variable {K V : Type} [DecidableEq K]

/-- The entries of a map. -/
def toPairs (m : GoMap K V) : List (K × V) :=
  m.entries.map fun e => (e.1, e.2)

/-- The values of a map. -/
def values (m : GoMap K V) : List V :=
  m.entries.map Sigma.snd

theorem mem_values {m : GoMap K V} {v : V} : v ∈ m.values ↔ ∃ k, m.lookup k = some v := by
  rw [values, mem_map]
  constructor
  · rintro ⟨⟨k, v⟩, hmem, rfl⟩
    exact ⟨k, AList.mem_lookup_iff.mpr hmem⟩
  · rintro ⟨k, hlookup⟩
    exact ⟨⟨k, v⟩, AList.mem_lookup_iff.mp hlookup, rfl⟩

theorem mem_toPairs {m : GoMap K V} {k : K} {v : V} :
    (k, v) ∈ m.toPairs ↔ m.lookup k = some v := by
  rw [toPairs, mem_map]
  constructor
  · rintro ⟨⟨k, v⟩, hmem, heq⟩
    cases heq
    exact AList.mem_lookup_iff.mpr hmem
  · exact fun hlookup => ⟨⟨k, v⟩, AList.mem_lookup_iff.mp hlookup, rfl⟩

theorem nodup_toPairs (m : GoMap K V) : (m.toPairs.map Prod.fst).Nodup := by
  unfold toPairs
  rw [map_map]
  exact m.nodupKeys

/-- The statement `m[k] = append(m[k], v)`. -/
def appendTo (m : GoMap K (List V)) (k : K) (v : V) : GoMap K (List V) :=
  m.insert k ((m.lookup k).getD [] ++ [v])

theorem mem_toPairs_appendTo {m : GoMap K (List V)} {k k' : K} {v : V} {l : List V} :
    (k', l) ∈ (m.appendTo k v).toPairs ↔
      k' = k ∧ l = (m.lookup k).getD [] ++ [v] ∨ k' ≠ k ∧ (k', l) ∈ m.toPairs := by
  rw [mem_toPairs, mem_toPairs, appendTo]
  by_cases hk : k' = k
  · subst hk
    rw [AList.lookup_insert]
    simp [eq_comm]
  · rw [AList.lookup_insert_ne hk]
    simp [hk]

/-- Appending to a list of a map appends to all the values together. -/
theorem flatMap_appendTo_perm (m : GoMap K (List V)) (k : K) (v : V) :
    ((m.appendTo k v).toPairs.flatMap Prod.snd).Perm (m.toPairs.flatMap Prod.snd ++ [v]) := by
  simp only [toPairs, appendTo, AList.entries_insert, flatMap_map, flatMap_cons]
  -- the list of the key moves to the front
  suffices h : ((m.lookup k).getD [] ++ (m.entries.kerase k).flatMap Sigma.snd).Perm
      (m.entries.flatMap Sigma.snd) by
    refine List.Perm.trans ?_ (h.append_right [v])
    rw [append_assoc, append_assoc]
    exact perm_append_comm.append_left _
  by_cases hk : k ∈ m.entries.keys
  · obtain ⟨l, l₁, l₂, -, hentries, herase⟩ := exists_of_kerase hk
    have hlookup : m.lookup k = some l :=
      AList.mem_lookup_iff.mpr (by rw [hentries]; exact mem_append_right _ mem_cons_self)
    rw [hlookup, herase, hentries, flatMap_append, flatMap_append, flatMap_cons]
    exact perm_append_comm_assoc _ _ _
  · have hlookup : m.lookup k = none := AList.lookup_eq_none.mpr hk
    rw [hlookup, kerase_of_notMem_keys hk]
    exact .refl _

/-- The statements `m[k] = v` for a list of keys and values, one by one. -/
def assign (m : GoMap K V) (updates : List (K × V)) : GoMap K V :=
  updates.foldl (fun m update => m.insert update.1 update.2) m

/-- The value that a key is set to last. -/
def lastValue (updates : List (K × V)) (k : K) : Option V :=
  (updates.reverse.find? fun update => update.1 = k).map Prod.snd

theorem lookup_assign (m : GoMap K V) (updates : List (K × V)) (k : K) :
    (m.assign updates).lookup k = (lastValue updates k).or (m.lookup k) := by
  induction updates using reverseRecOn with
  | nil => rfl
  | append_singleton updates update ih =>
    rw [assign, foldl_append, foldl_cons, foldl_nil, ← assign, lastValue,
      reverse_append, reverse_singleton, singleton_append, find?_cons]
    by_cases hk : update.1 = k
    · subst hk
      rw [AList.lookup_insert, decide_eq_true rfl]
      rfl
    · rw [AList.lookup_insert_ne (Ne.symm hk), decide_eq_false hk, ih]
      rfl

theorem foldl_insert_eq_assign {α : Type} (key : α → K) (value : α → V) (l : List α)
    (m : GoMap K V) :
    l.foldl (fun m a => m.insert (key a) (value a)) m
      = m.assign (l.map fun a => (key a, value a)) := by
  rw [assign, foldl_map]

theorem assign_append (m : GoMap K V) (l l' : List (K × V)) :
    m.assign (l ++ l') = (m.assign l).assign l' :=
  foldl_append

theorem lookup_assign_empty (updates : List (K × V)) (k : K) :
    (assign ∅ updates).lookup k = lastValue updates k := by
  rw [lookup_assign, AList.lookup_empty, Option.or_none]

theorem lastValue_eq_none_iff {updates : List (K × V)} {k : K} :
    lastValue updates k = none ↔ ∀ update ∈ updates, update.1 ≠ k := by
  simp [lastValue]

theorem mem_values_assign {m : GoMap K V} {v : V} {l : List (K × V)} : v ∈ (m.assign l).values ↔
      (∃ k, m.lookup k = some v ∧ lastValue l k = none) ∨ ∃ k, lastValue l k = some v := by
  simp only [mem_values, lookup_assign, Option.or_eq_some_iff, exists_or]
  rw [or_comm]
  simp only [and_comm]

end GoMap

/-- The orders in which a program ranges over its maps. Executions of range
loops are told apart by a list of numbers. -/
structure RangeOrder where
  range : ∀ {α : Type}, List ℕ → List α → List α
  range_perm : ∀ {α : Type} (loop : List ℕ) (l : List α), (range loop l).Perm l

/-- The order of the entries. -/
def RangeOrder.byEntries : RangeOrder where
  range _ l := l
  range_perm _ l := .refl l

theorem RangeOrder.mem_range {order : RangeOrder} {α : Type} {loop : List ℕ} {l : List α}
    {a : α} : a ∈ order.range loop l ↔ a ∈ l :=
  (order.range_perm loop l).mem_iff

/-! ## Loops that update one key in each iteration -/

section Loop

variable {K V α : Type} [DecidableEq K] {key : α → K}

/-- In a list with one element for each key, the element found is the one
with the key. -/
theorem find?_key_eq_some {l : List α} (h : (l.map key).Nodup) {k : K} {a : α} :
    l.find? (fun a => key a = k) = some a ↔ a ∈ l ∧ key a = k := by
  constructor
  · intro hfind
    exact ⟨List.mem_of_find?_eq_some hfind, by simpa using List.find?_some hfind⟩
  · rintro ⟨hmem, hkey⟩
    cases hfind : l.find? (fun a => key a = k) with
    | none => exact absurd (decide_eq_true hkey) (List.find?_eq_none.mp hfind a hmem)
    | some b =>
      have hb : key b = k := by simpa using List.find?_some hfind
      rw [List.inj_on_of_nodup_map h (List.mem_of_find?_eq_some hfind) hmem (hb.trans hkey.symm)]

/-- **A loop that updates one key in each iteration**, each key at most
once: it has updated a key if and only if there is an element with that
key. -/
theorem lookup_foldl_of_nodup {step : GoMap K V → α → GoMap K V}
    (update : Option V → α → Option V)
    (hstep : ∀ m a k, (step m a).lookup k
      = if k = key a then update (m.lookup k) a else m.lookup k)
    {l : List α} (h : (l.map key).Nodup) (m : GoMap K V) (k : K) :
    (l.foldl step m).lookup k
      = match l.find? (fun a => key a = k) with
        | none => m.lookup k
        | some a => update (m.lookup k) a := by
  induction l generalizing m with
  | nil => rfl
  | cons a l ih =>
    rw [List.map_cons, List.nodup_cons] at h
    rw [List.foldl_cons, ih h.2, hstep, List.find?_cons]
    by_cases hk : k = key a
    · subst hk
      have hnone : l.find? (fun b => key b = key a) = none := by
        rw [List.find?_eq_none]
        intro b hb hkey
        exact h.1 (List.mem_map.mpr ⟨b, hb, of_decide_eq_true hkey⟩)
      simp only [hnone, if_true, decide_true]
    · simp only [hk, if_false, decide_eq_false (Ne.symm hk)]

end Loop
