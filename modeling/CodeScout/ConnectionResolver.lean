import CodeScout.Util.GoString
import CodeScout.Util.Outcome
import Mathlib

/-!
# Connections without a limit

A connection resolver asks its store for one row more than fit on a page, and
drops a row when there are more. Without `First` and `Last` there is no limit for
the store, but still a page size, the maximal one, and a table with more rows
loses the last one. So everything is returned exactly if the table fits on a
page of the maximal size and no cursor cuts it (`nodes_unlimited_iff`). Who
follows the end cursors sees every row once (`followPages_all`).
-/

namespace Graphqlutil

/-- The arguments of a connection. -/
structure ConnectionResolverArgs where
  first : Option Int32 := none
  last : Option Int32 := none
  after : Option GoString := none
  before : Option GoString := none

/-- The options of a resolver. -/
structure ConnectionResolverOptions where
  maxPageSize : Option ℤ := none
  reverse : Option Bool := none
  ascending : Bool := false
  allowNoLimit : Bool := false

/-- The page size without one in the options. -/
def defaultMaxPageSize : ℤ := 100

namespace ConnectionResolverOptions

/-- The largest page. -/
def maxPageSizeOrDefault (o : ConnectionResolverOptions) : ℤ :=
  o.maxPageSize.getD defaultMaxPageSize

/-- The page size that is asked for, up to the largest one. -/
def applyMaxPageSize (o : ConnectionResolverOptions) : Option Int32 → ℤ
  | none => o.maxPageSizeOrDefault
  | some limit =>
    if limit.toInt < o.maxPageSizeOrDefault then limit.toInt else o.maxPageSizeOrDefault

end ConnectionResolverOptions

/-- `Limit`, the page size. -/
def ConnectionResolverArgs.limit (a : ConnectionResolverArgs) (o : ConnectionResolverOptions) : ℤ :=
  o.applyMaxPageSize (a.first.or a.last)

/-! ## The store -/

/-- What the store is asked. -/
structure PaginationArgs (C : Type) where
  first : Option ℤ
  last : Option ℤ
  after : Option C
  before : Option C
  ascending : Bool

/-- A table. A cursor stands for values of the columns that it is ordered by. -/
structure Store (N C : Type) where
  /-- The rows by `ORDER BY`, ascending or not. -/
  rows : Bool → List N
  /-- The columns are greater than a cursor, or less. -/
  greater : C → N → Bool
  less : C → N → Bool
  unmarshalCursor : GoString → Except GoString C

variable {N C : Type} (store : Store N C) (args : ConnectionResolverArgs)
  (options : ConnectionResolverOptions)

/-- The condition on rows of `PaginationArgs.SQL`. -/
def Store.selects (p : PaginationArgs C) (row : N) : Bool :=
  p.after.all (fun c => if p.ascending then store.greater c row else store.less c row) &&
    p.before.all fun c => if p.ascending then store.less c row else store.greater c row

/-- What the query of `PaginationArgs.SQL` returns, without negative limits. -/
def Store.computeNodes (p : PaginationArgs C) : List N :=
  match p.first, p.last with
  | some limit, _ => ((store.rows p.ascending).filter (store.selects p)).take limit.toNat
  | none, some limit => ((store.rows !p.ascending).filter (store.selects p)).take limit.toNat
  | none, none => (store.rows p.ascending).filter (store.selects p)

/-! ## The resolver -/

/-- One row more than the page has is asked for. -/
def paginationArgs : Except GoString (PaginationArgs C) := do
  if args.first = none ∧ args.last = none ∧ !options.allowNoLimit then
    throw (lit "you must provide a `first` or `last` value to properly paginate")
  let limit := args.limit options + 1
  return {
    first := args.first.map fun _ => limit
    last := if args.first.isSome then none else args.last.map fun _ => limit
    after := ← args.after.mapM store.unmarshalCursor
    before := ← args.before.mapM store.unmarshalCursor
    ascending := options.ascending }

/-- The nodes that are fetched, once. With `Last` they come in the opposite order. -/
def fetchedNodes : Except GoString (List N) := do
  let nodes := store.computeNodes (← paginationArgs store args options)
  return if options.reverse ≠ some false ∧ args.last.isSome then nodes.reverse else nodes

/-- `Nodes`. If none was fetched and the page size is negative, there is none to
drop. -/
def nodes : Outcome GoString (List N) :=
  match fetchedNodes store args options with
  | .error e => if 0 > args.limit options then .panic else .error e
  | .ok nodes =>
    if nodes.length > args.limit options then
      if nodes.isEmpty then .panic
      else .ok (if args.last.isSome then nodes.tail else nodes.dropLast)
    else .ok nodes

/-- `HasNextPage` and `HasPreviousPage`, for the nodes that were fetched. -/
def hasNextPage (fetched : List N) : Bool :=
  if args.first.isSome then fetched.length > args.limit options
  else !fetched.isEmpty && args.before.isSome

/-- Whether there is a page before. -/
def hasPreviousPage (fetched : List N) : Bool :=
  if args.last.isSome then fetched.length > args.limit options
  else !fetched.isEmpty && args.after.isSome

/-! ## Everything is returned -/

/-- **All rows are returned**, in order, and without cursors there are no other
pages. -/
structure ReturnsAll : Prop where
  nodes_eq : nodes store args options = .ok (store.rows options.ascending)
  no_pages : args.after = none → args.before = none → ∀ fetched,
    fetchedNodes store args options = .ok fetched →
      hasNextPage args options fetched = false ∧ hasPreviousPage args options fetched = false

/-- The cursors are read, and all rows are between them. -/
def Uncut : Prop :=
  ∃ after before, args.after.mapM store.unmarshalCursor = .ok after ∧
    args.before.mapM store.unmarshalCursor = .ok before ∧
    ∀ row ∈ store.rows options.ascending,
      store.selects ⟨none, none, after, before, options.ascending⟩ row = true

/-- **A page has all rows** exactly if none is left out, and none dropped. -/
theorem page_eq_iff {rows : List N} {p : N → Bool} {size : ℤ} :
    (if (rows.filter p).length > size then
        if (rows.filter p).isEmpty then .panic else .ok (rows.filter p).dropLast
      else .ok (rows.filter p) : Outcome GoString (List N)) = .ok rows ↔
      (∀ row ∈ rows, p row = true) ∧ rows.length ≤ size := by
  rw [← List.filter_eq_self]
  split_ifs with hgt hempty
  · exact iff_of_false nofun fun h => absurd (h.1 ▸ hgt) (not_lt.mpr h.2)
  · refine iff_of_false (fun h => ?_) fun h => absurd (h.1 ▸ hgt) (not_lt.mpr h.2)
    have hle := List.length_filter_le p rows
    have hpos := List.length_pos_iff.mpr (mt List.isEmpty_iff.mpr hempty)
    have hlength := congrArg List.length (Outcome.ok.inj h)
    rw [List.length_dropLast] at hlength
    omega
  · refine ⟨fun h => ⟨Outcome.ok.inj h, ?_⟩, fun h => congrArg _ h.1⟩
    rw [Outcome.ok.inj h] at hgt
    exact not_lt.mp hgt

variable {store args options}

theorem fetchedNodes_unlimited (hallow : options.allowNoLimit = true)
    (hfirst : args.first = none) (hlast : args.last = none) :
    fetchedNodes store args options = (do
      let after ← args.after.mapM store.unmarshalCursor
      let before ← args.before.mapM store.unmarshalCursor
      return (store.rows options.ascending).filter
        (store.selects ⟨none, none, after, before, options.ascending⟩)) := by
  simp only [fetchedNodes, paginationArgs, hallow, hfirst, hlast]
  cases args.after.mapM store.unmarshalCursor with
  | error e => rfl
  | ok after =>
    cases args.before.mapM store.unmarshalCursor with
    | error e => rfl
    | ok before => simp [Store.computeNodes]

/-- **Everything is returned exactly if it fits on a page.** -/
theorem nodes_unlimited_iff (hallow : options.allowNoLimit = true) (hfirst : args.first = none)
    (hlast : args.last = none) :
    ReturnsAll store args options ↔ Uncut store args options ∧
      (store.rows options.ascending).length ≤ options.maxPageSizeOrDefault := by
  have hlimit : args.limit options = options.maxPageSizeOrDefault := by
    rw [ConnectionResolverArgs.limit, hfirst, hlast]
    rfl
  have hpages : ReturnsAll store args options ↔
      nodes store args options = .ok (store.rows options.ascending) := by
    refine ⟨ReturnsAll.nodes_eq, fun h => ⟨h, fun hafter hbefore fetched _ => ?_⟩⟩
    simp [hasNextPage, hasPreviousPage, hfirst, hlast, hafter, hbefore]
  have herror : ∀ e, (if 0 > options.maxPageSizeOrDefault then .panic else .error e :
      Outcome GoString (List N)) ≠ .ok (store.rows options.ascending) := fun e => by
    split_ifs <;> exact nofun
  rw [hpages, nodes, fetchedNodes_unlimited hallow hfirst hlast, hlimit, hlast]
  unfold Uncut
  cases args.after.mapM store.unmarshalCursor with
  | error e => exact iff_of_false (herror e) fun ⟨⟨_, _, h, _⟩, _⟩ => nomatch h
  | ok after =>
    cases args.before.mapM store.unmarshalCursor with
    | error e => exact iff_of_false (herror e) fun ⟨⟨_, _, _, h, _⟩, _⟩ => nomatch h
    | ok before => exact page_eq_iff.trans (and_congr_left fun _ => by simp)

/-- A table with the rows 1 and 2. -/
def twoRows : Store ℕ ℕ where
  rows ascending := if ascending then [1, 2] else [2, 1]
  greater c n := c < n
  less c n := n < c
  unmarshalCursor := .error

/-- Two rows fit on a page with two. -/
theorem nodes_two_rows : ReturnsAll twoRows {} ⟨some 2, none, true, true⟩ :=
  (nodes_unlimited_iff rfl rfl rfl).mpr ⟨⟨none, none, rfl, rfl, by decide⟩, by decide⟩

/-- **A row is dropped** that is not on the first page. -/
theorem nodes_drops_row : nodes twoRows {} ⟨some 1, none, true, true⟩ = .ok [1] ∧
    ¬ ReturnsAll twoRows {} ⟨some 1, none, true, true⟩ := by
  have h : nodes twoRows {} ⟨some 1, none, true, true⟩ = .ok [1] := by decide
  exact ⟨h, fun hall => absurd (h.symm.trans hall.nodes_eq) (by decide)⟩

/-! ## Following the pages -/

section Pages

open List

variable (store options) (marshalCursor : N → Except GoString GoString) (size : Int32)

/-- `EndCursor`. -/
def endCursor (nodes : List N) : Except GoString (Option GoString) :=
  nodes.getLast?.mapM marshalCursor

/-- The pages of a client who asks for the `First` nodes after a cursor, and goes on
after the end cursor while there is a next page. -/
def followPages : ℕ → Option GoString → Outcome GoString (List (List N))
  | 0, _ => .outOfFuel
  | fuel + 1, after => do
    let args : ConnectionResolverArgs := { first := some size, after }
    let page ← nodes store args options
    let fetched ← Outcome.ofExcept (fetchedNodes store args options)
    if hasNextPage args options fetched then
      let rest ← followPages fuel (← Outcome.ofExcept (endCursor marshalCursor page))
      return page :: rest
    else return [page]

/-- Rows are ordered by keys that no two of them share, and the cursor of a row is
read back as its key. -/
structure Store.Keyed [Preorder C] (key : N → C) : Prop where
  greater_iff : ∀ c row, store.greater c row = true ↔ c < key row
  less_iff : ∀ c row, store.less c row = true ↔ key row < c
  ordered : ∀ ascending, (store.rows ascending).Pairwise fun a b =>
    if ascending then key a < key b else key b < key a
  cursor : ∀ row, ∃ text, marshalCursor row = .ok text ∧
    store.unmarshalCursor text = .ok (key row)

/-- The rows that are left after a cursor. -/
def Store.Left (after : Option GoString) (left : List N) : Prop :=
  ∃ c, after.mapM store.unmarshalCursor = .ok c ∧ (store.rows options.ascending).filter
    (store.selects ⟨none, none, c, none, options.ascending⟩) = left

variable {store options marshalCursor size} {after : Option GoString} {left : List N} {n : ℕ}
  (hn : options.applyMaxPageSize (some size) = n)

section

variable (hleft : store.Left options after left)

include hn hleft

theorem fetchedNodes_left :
    fetchedNodes store { first := some size, after } options = .ok (left.take (n + 1)) := by
  obtain ⟨c, hc, rfl⟩ := hleft
  simp [fetchedNodes, paginationArgs, hc, Store.computeNodes, ConnectionResolverArgs.limit, hn]
  rfl

theorem nodes_left :
    nodes store { first := some size, after } options = .ok (left.take n) := by
  rw [nodes, fetchedNodes_left hn hleft]
  simp only [ConnectionResolverArgs.limit, Option.some_or, hn]
  by_cases hlt : n < left.length
  · have hdrop : (left.take (n + 1)).dropLast = left.take n := by
      rw [take_succ_eq_append_getElem hlt, dropLast_concat]
    simp [hlt, hdrop, ne_nil_of_length_pos (Nat.zero_lt_of_lt hlt)]
  · simp [take_of_length_le, not_lt.mp hlt, (not_lt.mp hlt).trans n.le_succ]

theorem followPages_left (fuel : ℕ) :
    followPages store options marshalCursor size (fuel + 1) after =
      if n < left.length then do
        let cursor ← Outcome.ofExcept (endCursor marshalCursor (left.take n))
        return left.take n :: (← followPages store options marshalCursor size fuel cursor)
      else return [left.take n] := by
  rw [followPages, nodes_left hn hleft, fetchedNodes_left hn hleft]
  simp [Outcome.ofExcept, hasNextPage, ConnectionResolverArgs.limit, hn]

end

variable [Preorder C] {key : N → C} (h : store.Keyed marshalCursor key)

include h

theorem Store.Keyed.exists_left {row : N} {before : List N}
    (hrows : store.rows options.ascending = before ++ row :: left) :
    ∃ text, marshalCursor row = .ok text ∧ store.Left options (some text) left := by
  obtain ⟨text, htext, hread⟩ := h.cursor row
  refine ⟨text, htext, some (key row), by simp [hread], ?_⟩
  have hordered := h.ordered options.ascending
  rw [hrows, pairwise_append, pairwise_cons] at hordered
  have hselects : ∀ b,
      store.selects ⟨none, none, some (key row), none, options.ascending⟩ b = true ↔
        if options.ascending then key row < key b else key b < key row := fun b => by
    cases options.ascending <;> simp [Store.selects, h.greater_iff, h.less_iff]
  rw [hrows, filter_append, filter_cons_of_neg, filter_eq_nil_iff.mpr, filter_eq_self.mpr]
  · rfl
  all_goals grind [lt_asymm, lt_irrefl]

include hn

theorem Store.Keyed.yields_followPages (hpos : 0 < n) (before : List N)
    (hrows : store.rows options.ascending = before ++ left)
    (hleft : store.Left options after left) :
    ∃ pages, Outcome.Yields (followPages store options marshalCursor size · after) pages ∧
      pages.flatten = left ∧ ∀ page ∈ pages, page.length ≤ n := by
  induction hlength : left.length using Nat.strong_induction_on generalizing after before left with
  | _ length ih =>
    by_cases hle : left.length ≤ n
    · refine ⟨[left], ⟨1, (followPages_left hn hleft 0).trans ?_⟩, by simp, by simpa using hle⟩
      rw [if_neg hle.not_gt, take_of_length_le hle]
      rfl
    · obtain ⟨init, row, hpage⟩ := (eq_nil_or_concat' (left.take n)).resolve_left
        (by rw [take_eq_nil_iff]; grind)
      have hsplit := take_append_drop n left
      rw [hpage, append_assoc, singleton_append] at hsplit
      rw [← hsplit, ← append_assoc] at hrows
      obtain ⟨text, htext, hafter⟩ := h.exists_left hrows
      obtain ⟨pages, ⟨fuel, hpages⟩, hflatten, hlengths⟩ :=
        ih _ (by grind) (before ++ left.take n) (by simp [hrows, hpage]) hafter rfl
      refine ⟨left.take n :: pages, ⟨fuel + 1, (followPages_left hn hleft fuel).trans ?_⟩,
        by simp [hflatten], forall_mem_cons.mpr ⟨length_take_le _ _, hlengths⟩⟩
      rw [if_pos (not_le.mp hle), hpage, endCursor, getLast?_concat]
      simp [htext, Outcome.ofExcept, hpages]

/-- **Following the pages visits every row once**, in order, on pages that are not larger
than the page size. -/
theorem followPages_all (hpos : 0 < n) :
    ∃ pages, Outcome.Yields (followPages store options marshalCursor size · none) pages ∧
      pages.flatten = store.rows options.ascending ∧ ∀ page ∈ pages, page.length ≤ n :=
  h.yields_followPages hn hpos [] rfl ⟨none, rfl, by simp [Store.selects]⟩

end Pages

theorem followPages_two_rows :
    ∃ pages, Outcome.Yields (followPages { twoRows with unmarshalCursor := fun s => .ok s.length }
        ⟨some 1, none, true, false⟩ (fun n => .ok (.replicate n 0)) 1 · none) pages ∧
      pages.flatten = [1, 2] ∧ ∀ page ∈ pages, page.length ≤ 1 :=
  followPages_all rfl (show Store.Keyed _ _ id from ⟨fun _ _ => decide_eq_true_iff,
    fun _ _ => decide_eq_true_iff, by decide,
    fun _ => ⟨_, rfl, congrArg _ List.length_replicate⟩⟩) one_pos

end Graphqlutil
