import CodeScout.Util.GoString
import Mathlib

/-!
# Queries from combinations of rules

Where a query finds nothing, others are tried that rules make from it. There are
rules that narrow a query and rules that widen it. The generator applies sets of
narrowing rules, large ones first; then the same sets with one widening rule
after the other; then each widening rule alone. A set of rules that does not
apply to the query is skipped.

The generator is a function that returns the next query and a continuation. Its
state is a phase, the size of the sets, an iterator over the sets of that size,
and the position of the widening rule. `Tries` is the list of combinations that
are tried from a state on, and `newGenerator_enumerates` says what it is for a
new generator.
-/

namespace Smartsearch

open List

/-! ## The generator -/

/-- A rule: transformations that are applied one after the other. -/
structure Rule (Basic : Type) where
  description : GoString
  transform : List (Basic → Option Basic)

/-- A query that rules have made. -/
structure AutoQuery (Basic : Type) where
  description : GoString
  query : Basic
deriving DecidableEq

section

variable {Basic : Type}

/-- All transformations, if each applies to what the ones before it have made. -/
def applyTransformation (b : Basic) (transform : List (Basic → Option Basic)) : Option Basic :=
  transform.foldlM (fun b apply => apply b) b

/-- `types` are the values of the field `type` of a query. -/
def pruneRules (types : Basic → List GoString) (seed : Basic) (rules : List (Rule Basic)) :
    List (Rule Basic) :=
  if (types seed).any (· = lit "diff") then []
  else rules.filter fun r => (applyTransformation seed r.transform).isSome

/-- A set of narrowing rules and a widening rule, by their positions. -/
abbrev Combo := List ℕ × Option ℕ

/-- The query that a combination of rules makes. Positions are within the lists
of rules. -/
def generate (seed : Basic) (narrow widen : List (Rule Basic)) (combo : Combo) :
    Option (AutoQuery Basic) :=
  let rules := combo.1.filterMap (narrow[·]?) ++ (combo.2.bind (widen[·]?)).toList
  (applyTransformation seed (rules.flatMap Rule.transform)).map fun query =>
    ⟨(lit " ⚬ ").intercalate (rules.map Rule.description), query⟩

end

/-- The phases of the generator. -/
inductive Phase where
  | one
  | two
  | three

/-- The arguments of the recursive function. `c` are the sets that the iterator
has not returned yet, and `w` is `none` for -1. -/
structure State where
  phase : Phase
  k : ℕ
  c : List (List ℕ)
  w : Option ℕ

/-- What one call of the function does: it returns, it calls itself, or it tries
a combination and goes on from a state. -/
inductive Turn where
  | stop
  | recurse (s : State)
  | attempt (combo : Combo) (s : State)

section

-- the numbers of narrowing and of widening rules, and the sets of `k` out of `n` positions, in
-- the order in which the iterator returns them
variable (num widenCount : ℕ) (combinations : ℕ → ℕ → List (List ℕ))

/-- The `switch` of the function. -/
def turn (s : State) : Turn :=
  match s.phase with
  | .three =>
    if s.w = some widenCount then .stop
    else .attempt ([], s.w) { s with w := s.w.map (· + 1) }
  | .two =>
    if s.w = some widenCount then .recurse ⟨.three, 0, [], some 0⟩
    else if s.k = 0 then .recurse ⟨.two, num, combinations num num, s.w.map (· + 1)⟩
    else match s.c with
      | [] => .recurse { s with k := s.k - 1, c := combinations num (s.k - 1) }
      | combo :: c => .attempt (combo, s.w) { s with c }
  | .one =>
    if s.k = 0 ∧ s.w = none then .recurse ⟨.two, num, combinations num num, some 0⟩
    else match s.c with
      | [] => .recurse { s with k := s.k - 1, c := combinations num (s.k - 1) }
      | combo :: c => .attempt (combo, none) { s with c }

/-- The first call. -/
def start : State :=
  if num = 0 then ⟨.three, 0, [], some 0⟩ else ⟨.one, num, combinations num num, none⟩

variable {Query : Type} (query : Combo → Option Query)

/-- The recursive function: the combinations that it tries, and the query that
it returns, if any, with the state of the continuation. -/
def n : ℕ → State → Option (List Combo × Option (Query × State))
  | 0, _ => none
  | fuel + 1, s =>
    match turn num widenCount combinations s with
    | .stop => some ([], none)
    | .recurse s => n fuel s
    | .attempt combo s =>
      match query combo with
      | none => (n fuel s).map fun r => (combo :: r.1, r.2)
      | some q => some ([combo], some (q, s))

/-- Following the continuations to the end: all combinations that are tried, and
all queries. -/
def follow : ℕ → State → Option (List Combo × List Query)
  | 0, _ => none
  | fuel + 1, s => do
    let r ← n num widenCount combinations query (fuel + 1) s
    match r.2 with
    | none => return (r.1, [])
    | some (q, s) =>
      let rest ← follow fuel s
      return (r.1 ++ rest.1, q :: rest.2)

/-- **`NewGenerator`**, with its continuations followed. -/
def newGenerator {Basic : Type} (types : Basic → List GoString) (seed : Basic)
    (narrow widen : List (Rule Basic)) (fuel : ℕ) :
    Option (List Combo × List (AutoQuery Basic)) :=
  let narrow := pruneRules types seed narrow
  let widen := pruneRules types seed widen
  follow narrow.length widen.length combinations (generate seed narrow widen) fuel
    (start narrow.length combinations)

/-! ## What is tried -/

/-- **The combinations that are tried from a state on.** -/
inductive Tries : State → List Combo → Prop
  | stop {s : State} : turn num widenCount combinations s = .stop → Tries s []
  | recurse {s s' : State} {l : List Combo} :
    turn num widenCount combinations s = .recurse s' → Tries s' l → Tries s l
  | attempt {s s' : State} {combo : Combo} {l : List Combo} :
    turn num widenCount combinations s = .attempt combo s' → Tries s' l → Tries s (combo :: l)

variable {num widenCount combinations query}

variable {l : List Combo}

/-- One call tries combinations up to the first one that makes a query. -/
theorem Tries.n_eq {s : State} (h : Tries num widenCount combinations s l) :
    ∃ fuel, ((∀ combo ∈ l, query combo = none) ∧
        ∀ f ≥ fuel, n num widenCount combinations query f s = some (l, none)) ∨
      ∃ l₁ combo l₂ q s', l = l₁ ++ combo :: l₂ ∧ (∀ combo ∈ l₁, query combo = none) ∧
        query combo = some q ∧ Tries num widenCount combinations s' l₂ ∧
        ∀ f ≥ fuel, n num widenCount combinations query f s =
          some (l₁ ++ [combo], some (q, s')) := by
  -- a call with one more unit of fuel does one turn more
  have hsucc : ∀ {fuel f : ℕ}, fuel + 1 ≤ f → ∃ f', f = f' + 1 ∧ fuel ≤ f' := fun hf =>
    ⟨_, (Nat.succ_pred_eq_of_pos (Nat.zero_lt_of_lt hf)).symm, Nat.le_pred_of_lt hf⟩
  induction h with
  | stop hturn =>
    refine ⟨1, .inl ⟨fun _ hmem => absurd hmem not_mem_nil, fun f hf => ?_⟩⟩
    obtain ⟨f, rfl, -⟩ := hsucc hf
    rw [n, hturn]
  | recurse hturn _ ih =>
    obtain ⟨fuel, ih⟩ := ih
    refine ⟨fuel + 1, ih.imp (And.imp_right fun hn f hf => ?_) ?_⟩
    · obtain ⟨f, rfl, hle⟩ := hsucc hf
      rw [n, hturn]
      exact hn f hle
    · rintro ⟨l₁, combo, l₂, q, s', heq, hnone, hq, htries, hn⟩
      refine ⟨l₁, combo, l₂, q, s', heq, hnone, hq, htries, fun f hf => ?_⟩
      obtain ⟨f, rfl, hle⟩ := hsucc hf
      rw [n, hturn]
      exact hn f hle
  | @attempt s s' combo l hturn htries ih =>
    cases hquery : query combo with
    | some q =>
      refine ⟨1, .inr ⟨[], combo, l, q, s', rfl, fun _ hmem => absurd hmem not_mem_nil,
        hquery, htries, fun f hf => ?_⟩⟩
      obtain ⟨f, rfl, -⟩ := hsucc hf
      rw [n, hturn]
      simp only [hquery]
      rfl
    | none =>
      obtain ⟨fuel, ih⟩ := ih
      refine ⟨fuel + 1, ih.imp ?_ ?_⟩
      · rintro ⟨hnone, hn⟩
        refine ⟨forall_mem_cons.mpr ⟨hquery, hnone⟩, fun f hf => ?_⟩
        obtain ⟨f, rfl, hle⟩ := hsucc hf
        rw [n, hturn]
        simp only [hquery, hn f hle, Option.map_some]
      · rintro ⟨l₁, combo', l₂, q, s'', rfl, hnone, hq, htries', hn⟩
        refine ⟨combo :: l₁, combo', l₂, q, s'', rfl,
          forall_mem_cons.mpr ⟨hquery, hnone⟩, hq, htries', fun f hf => ?_⟩
        obtain ⟨f, rfl, hle⟩ := hsucc hf
        rw [n, hturn]
        simp only [hquery, hn f hle, Option.map_some]
        rfl

theorem filterMap_eq_nil_of_forall (h : ∀ combo ∈ l, query combo = none) :
    l.filterMap query = [] :=
  filterMap_eq_nil_iff.mpr h

/-- **Following the continuations** terminates, and gives a query for each
combination that makes one. -/
theorem Tries.follow_eq {s : State} (h : Tries num widenCount combinations s l) :
    ∃ fuel, ∀ f ≥ fuel, follow num widenCount combinations query f s =
      some (l, l.filterMap query) := by
  -- each query that is returned leaves less to try
  induction hlength : l.length using Nat.strong_induction_on generalizing s l with
  | _ length ih =>
    obtain ⟨fuel, ⟨hnone, hn⟩ | ⟨l₁, combo, l₂, q, s', rfl, hnone, hq, htries, hn⟩⟩ :=
      @Tries.n_eq num widenCount combinations Query query l s h
    · refine ⟨fuel + 1, fun f hf => ?_⟩
      obtain ⟨f, rfl⟩ := Nat.exists_eq_succ_of_ne_zero (Nat.ne_zero_of_lt hf)
      rw [follow, hn (f + 1) (Nat.le_of_succ_le hf), filterMap_eq_nil_of_forall hnone]
      rfl
    · have hshorter : l₂.length < length := by
        rw [← hlength, length_append, length_cons]
        omega
      obtain ⟨fuel', hfollow⟩ := ih l₂.length hshorter htries rfl
      refine ⟨max fuel fuel' + 1, fun f hf => ?_⟩
      obtain ⟨f, rfl⟩ := Nat.exists_eq_succ_of_ne_zero (Nat.ne_zero_of_lt hf)
      have hmax := Nat.le_of_succ_le_succ hf
      rw [follow, hn (f + 1) ((le_max_left _ _).trans (hmax.trans (Nat.le_succ f)))]
      simp only [Option.bind_eq_bind, Option.bind_some, hfollow f ((le_max_right _ _).trans hmax)]
      rw [filterMap_append, filterMap_eq_nil_of_forall hnone, filterMap_cons_some hq, append_assoc]
      rfl

/-! ## The order of combinations -/

variable (num combinations) in
/-- The sets of at most `k` narrowing rules, large ones first. -/
def subsets : ℕ → List (List ℕ)
  | 0 => []
  | k + 1 => combinations num (k + 1) ++ subsets k

variable (widenCount) in
/-- The widening rules alone, from a position on. -/
def alone (w : ℕ) : List Combo := (List.range' w (widenCount - w)).map fun w => ([], some w)

variable (num widenCount combinations) in
/-- The widening rules with sets of narrowing rules, from a position on. -/
def widened (w : ℕ) : List Combo :=
  (List.range' w (widenCount - w)).flatMap fun w =>
    (subsets num combinations num).map fun subset => (subset, some w)

variable {w : ℕ}

theorem range'_of_lt (h : w < widenCount) :
    range' w (widenCount - w) = w :: range' (w + 1) (widenCount - (w + 1)) := by
  rw [← range'_succ, ← Nat.sub_sub, Nat.sub_add_cancel (Nat.sub_pos_of_lt h)]

theorem some_ne_of_lt (h : w < widenCount) : ¬some w = some widenCount := fun heq =>
  h.ne (Option.some.inj heq)

theorem tries_three (h : w ≤ widenCount) :
    Tries num widenCount combinations ⟨.three, 0, [], some w⟩ (alone widenCount w) := by
  induction hd : widenCount - w generalizing w with
  | zero =>
    obtain rfl : w = widenCount := h.antisymm (Nat.le_of_sub_eq_zero hd)
    rw [alone, Nat.sub_self]
    exact .stop (if_pos rfl)
  | succ d ih =>
    have hlt : w < widenCount := Nat.lt_of_sub_eq_succ hd
    rw [alone, range'_of_lt hlt]
    exact .attempt (if_neg (some_ne_of_lt hlt))
      (ih hlt (by rw [Nat.sub_add_eq, hd, Nat.add_sub_cancel]))

/-- **All sets of narrowing rules**, in phase one and in phase two: the sets that
are left of one size, and then the smaller ones. -/
theorem tries_sets {phase : Phase} {w : Option ℕ} {next : State}
    (hnil : ∀ k, turn num widenCount combinations ⟨phase, k + 1, [], w⟩ =
      .recurse ⟨phase, k, combinations num k, w⟩)
    (hcons : ∀ k combo c, turn num widenCount combinations ⟨phase, k + 1, combo :: c, w⟩ =
      .attempt (combo, w) ⟨phase, k + 1, c, w⟩)
    (hzero : ∀ c, turn num widenCount combinations ⟨phase, 0, c, w⟩ = .recurse next)
    (hnext : Tries num widenCount combinations next l) (k : ℕ) (c : List (List ℕ)) :
    Tries num widenCount combinations ⟨phase, k + 1, c, w⟩
      ((c ++ subsets num combinations k).map (·, w) ++ l) := by
  induction k generalizing c with
  | zero =>
    induction c with
    | nil => exact .recurse (hnil 0) (.recurse (hzero _) hnext)
    | cons combo c ih => exact .attempt (hcons 0 combo c) ih
  | succ k ihk =>
    induction c with
    | nil => exact .recurse (hnil (k + 1)) (ihk (combinations num (k + 1)))
    | cons combo c ih => exact .attempt (hcons (k + 1) combo c) ih

theorem tries_two (hnum : num ≠ 0) (h : w ≤ widenCount) :
    Tries num widenCount combinations ⟨.two, num, combinations num num, some w⟩
      (widened num widenCount combinations w ++ alone widenCount 0) := by
  induction hd : widenCount - w generalizing w with
  | zero =>
    obtain rfl : w = widenCount := h.antisymm (Nat.le_of_sub_eq_zero hd)
    rw [widened, Nat.sub_self]
    exact .recurse (if_pos rfl) (tries_three (Nat.zero_le w))
  | succ d ih =>
    have hlt : w < widenCount := Nat.lt_of_sub_eq_succ hd
    obtain ⟨k, rfl⟩ := Nat.exists_eq_succ_of_ne_zero hnum
    have hnext := ih hlt (by rw [Nat.sub_succ, hd]; rfl)
    rw [widened, range'_of_lt hlt, flatMap_cons, append_assoc]
    refine tries_sets (fun j => ?_) (fun j combo c => ?_) (fun c => ?_) hnext k _
    · simp [turn, hlt.ne]
    · simp [turn, hlt.ne]
    · simp [turn, hlt.ne]

variable (num widenCount combinations) in
/-- **The combinations in their order**: sets of narrowing rules, those sets with
one widening rule after the other, and widening rules alone. -/
def allCombos : List Combo :=
  (subsets num combinations num).map (·, none) ++ widened num widenCount combinations 0 ++
    alone widenCount 0

theorem tries_start : Tries num widenCount combinations (start num combinations)
    (allCombos num widenCount combinations) := by
  rw [start, allCombos, append_assoc]
  split_ifs with hnum
  · -- without narrowing rules only the last part is left
    subst hnum
    have hwidened : widened 0 widenCount combinations 0 = [] :=
      flatMap_eq_nil_iff.mpr fun _ _ => rfl
    rw [hwidened]
    exact tries_three (Nat.zero_le _)
  · have hnext := @tries_two num widenCount combinations 0 hnum (Nat.zero_le widenCount)
    obtain ⟨k, rfl⟩ := Nat.exists_eq_succ_of_ne_zero hnum
    refine tries_sets (fun j => ?_) (fun j combo c => ?_) (fun c => ?_) hnext k _
    · simp [turn]
    · simp [turn]
    · simp [turn]

/-! ## Each combination once -/

/-- What the iterator is documented to return: all sets of `k` out of `n`
positions, each once and in ascending order. -/
def IsCombinationGenerator (combinations : ℕ → ℕ → List (List ℕ)) : Prop :=
  ∀ n k, (combinations n k).Nodup ∧
    ∀ set, set ∈ combinations n k ↔ set.Sublist (List.range n) ∧ set.length = k

/-- **The sets of narrowing rules**: all that are not empty and have at most `k`
rules, each once and large ones first. -/
theorem subsets_spec (h : IsCombinationGenerator combinations) (k : ℕ) :
    (subsets num combinations k).Nodup ∧
      (∀ set, set ∈ subsets num combinations k ↔
        set.Sublist (range num) ∧ set ≠ [] ∧ set.length ≤ k) ∧
      (subsets num combinations k).Pairwise fun a b => b.length ≤ a.length := by
  induction k with
  | zero =>
    refine ⟨nodup_nil, fun set => iff_of_false not_mem_nil ?_, List.Pairwise.nil⟩
    exact fun hset => hset.2.1 (length_eq_zero_iff.mp (Nat.le_zero.mp hset.2.2))
  | succ k ih =>
    obtain ⟨hnodup, hmem, hsizes⟩ := ih
    obtain ⟨hnodup', hmem'⟩ := h num (k + 1)
    refine ⟨?_, fun set => ?_, ?_⟩
    · refine nodup_append'.mpr ⟨hnodup', hnodup, fun set hset hsmall => ?_⟩
      have hle := ((hmem set).mp hsmall).2.2
      rw [((hmem' set).mp hset).2] at hle
      exact Nat.not_succ_le_self k hle
    · rw [subsets, mem_append, hmem', hmem]
      constructor
      · rintro (⟨hsub, hlength⟩ | ⟨hsub, hne, hle⟩)
        · exact ⟨hsub, ne_nil_of_length_eq_add_one hlength, hlength.le⟩
        · exact ⟨hsub, hne, hle.trans (Nat.le_succ k)⟩
      · rintro ⟨hsub, hne, hle⟩
        exact (Nat.lt_succ_iff_lt_or_eq.mp (Nat.lt_succ_of_le hle)).elim
          (fun hlt => .inr ⟨hsub, hne, Nat.le_of_lt_succ hlt⟩) fun heq => .inl ⟨hsub, heq⟩
    · refine pairwise_append.mpr ⟨?_, hsizes, fun a ha b hb => ?_⟩
      · refine pairwise_of_forall_mem_list fun a ha b hb => ?_
        rw [((hmem' a).mp ha).2, ((hmem' b).mp hb).2]
      · rw [((hmem' a).mp ha).2]
        exact ((hmem b).mp hb).2.2.trans (Nat.le_succ k)

theorem nodup_allCombos (h : IsCombinationGenerator combinations) :
    (allCombos num widenCount combinations).Nodup := by
  obtain ⟨hnodup, hmem, -⟩ := @subsets_spec num combinations h num
  have hpair : ∀ w : Option ℕ, Function.Injective fun set : List ℕ => (set, w) := fun w a b heq =>
    (Prod.mk.inj heq).1
  have hwidened : ∀ combo ∈ widened num widenCount combinations 0,
      combo.1 ≠ [] ∧ combo.2 ≠ none := by
    intro combo hcombo
    obtain ⟨w, -, hw⟩ := mem_flatMap.mp hcombo
    obtain ⟨set, hset, rfl⟩ := mem_map.mp hw
    exact ⟨((hmem set).mp hset).2.1, Option.some_ne_none w⟩
  refine nodup_append'.mpr ⟨nodup_append'.mpr ⟨hnodup.map (hpair none), ?_, ?_⟩, ?_, ?_⟩
  · refine nodup_flatMap.mpr ⟨fun w _ => hnodup.map (hpair (some w)), ?_⟩
    refine (nodup_range' _).imp fun {v w} hne => disjoint_left.mpr fun combo hv hw => ?_
    obtain ⟨_, -, rfl⟩ := mem_map.mp hv
    obtain ⟨_, -, heq⟩ := mem_map.mp hw
    exact hne (Option.some.inj (Prod.mk.inj heq).2).symm
  · intro combo hone htwo
    obtain ⟨_, -, rfl⟩ := mem_map.mp hone
    exact (hwidened _ htwo).2 rfl
  · exact (nodup_range' _).map fun v w heq => Option.some.inj (Prod.mk.inj heq).2
  · intro combo hfirst hthree
    obtain ⟨w, -, rfl⟩ := mem_map.mp hthree
    rcases mem_append.mp hfirst with hone | htwo
    · obtain ⟨_, -, heq⟩ := mem_map.mp hone
      exact Option.some_ne_none w (Prod.mk.inj heq).2.symm
    · exact (hwidened _ htwo).1 rfl

/-! ## The queries that are made -/

section

variable {Basic : Type}

/-- **Transformations apply** one after the other, each to what the one before has
made. -/
inductive Applies : List (Basic → Option Basic) → Basic → Basic → Prop
  | nil (b : Basic) : Applies [] b b
  | cons {apply : Basic → Option Basic} {transform : List (Basic → Option Basic)}
    {b b' b'' : Basic} : apply b = some b' → Applies transform b' b'' →
      Applies (apply :: transform) b b''

/-- **The rules of a combination**: the narrowing rules at its positions, and the
widening rule. -/
def Uses (narrow widen : List (Rule Basic)) (combo : Combo) (rules : List (Rule Basic)) : Prop :=
  rules.map some = combo.1.map (narrow[·]?) ++ combo.2.toList.map (widen[·]?)

theorem applyTransformation_eq_some_iff {b b' : Basic} {transform : List (Basic → Option Basic)} :
    applyTransformation b transform = some b' ↔ Applies transform b b' := by
  constructor
  · intro h
    induction transform generalizing b with
    | nil =>
      obtain rfl : b = b' := Option.some.inj h
      exact .nil b
    | cons apply transform ih =>
      obtain ⟨c, hc, hrest⟩ := Option.bind_eq_some_iff.mp h
      exact .cons hc (ih hrest)
  · intro h
    induction h with
    | nil b => rfl
    | cons hc _ ih => exact Option.bind_eq_some_iff.mpr ⟨_, hc, ih⟩

theorem map_some_filterMap {rules : List (Rule Basic)} {set : List ℕ}
    (h : ∀ i ∈ set, i < rules.length) :
    (set.filterMap (rules[·]?)).map some = set.map (rules[·]?) := by
  induction set with
  | nil => rfl
  | cons i set ih =>
    rw [forall_mem_cons] at h
    have hi := getElem?_eq_getElem h.1
    rw [filterMap_cons_some hi, map_cons, map_cons, ih h.2, ← hi]

/-- **A combination makes a query** exactly if all transformations of its rules
apply. -/
theorem generate_eq_some_iff {seed : Basic} {narrow widen : List (Rule Basic)} {combo : Combo}
    (hset : ∀ i ∈ combo.1, i < narrow.length) (hwiden : ∀ w ∈ combo.2, w < widen.length) :
    ∃ rules, Uses narrow widen combo rules ∧ ∀ q, generate seed narrow widen combo = some q ↔
      Applies (rules.flatMap Rule.transform) seed q.query ∧
        q.description = (lit " ⚬ ").intercalate (rules.map Rule.description) := by
  refine ⟨combo.1.filterMap (narrow[·]?) ++ (combo.2.bind (widen[·]?)).toList, ?_, fun q => ?_⟩
  · rw [Uses, map_append, map_some_filterMap hset]
    obtain ⟨set, _ | w⟩ := combo
    · rfl
    · have hw := getElem?_eq_getElem (hwiden w rfl)
      simp [hw]
  · rw [generate, Option.map_eq_some_iff]
    simp only [applyTransformation_eq_some_iff]
    constructor
    · rintro ⟨b, hb, rfl⟩
      exact ⟨hb, rfl⟩
    · rintro ⟨hb, hdescription⟩
      exact ⟨q.query, hb, by rw [← hdescription]⟩

end

/-- **The generator enumerates the combinations of rules**: all sets of narrowing
rules that are not empty, large ones first; for each widening rule the same sets
with it; and each widening rule alone. Each is tried once, and makes a query
exactly if all transformations of its rules apply: what they make of the seed. -/
theorem newGenerator_enumerates {Basic : Type} (h : IsCombinationGenerator combinations)
    (types : Basic → List GoString) (seed : Basic) (narrow widen : List (Rule Basic)) :
    ∃ sets : List (List ℕ), sets.Nodup ∧
      (∀ set, set ∈ sets ↔
        set.Sublist (List.range (pruneRules types seed narrow).length) ∧ set ≠ []) ∧
      (sets.Pairwise fun a b => b.length ≤ a.length) ∧
      ∃ combos, combos = sets.map (·, none) ++
          (List.range (pruneRules types seed widen).length).flatMap
            (fun w => sets.map (·, some w)) ++
          (List.range (pruneRules types seed widen).length).map (fun w => ([], some w)) ∧
        combos.Nodup ∧ ∃ makes : Combo → Option (AutoQuery Basic),
          (∀ combo ∈ combos, ∃ rules,
            Uses (pruneRules types seed narrow) (pruneRules types seed widen) combo rules ∧
            ∀ q, makes combo = some q ↔
              Applies (rules.flatMap Rule.transform) seed q.query ∧
                q.description = (lit " ⚬ ").intercalate (rules.map Rule.description)) ∧
          ∃ fuel, ∀ f ≥ fuel, newGenerator combinations types seed narrow widen f =
            some (combos, combos.filterMap makes) := by
  obtain ⟨hnodup, hmem, hsizes⟩ := @subsets_spec (pruneRules types seed narrow).length
    combinations h (pruneRules types seed narrow).length
  refine ⟨_, hnodup, fun set => ?_, hsizes, _, ?_, nodup_allCombos h, _, ?_,
    tries_start.follow_eq⟩
  · rw [hmem]
    refine and_congr_right fun hsub => and_iff_left ?_
    exact hsub.length_le.trans_eq length_range
  · rw [allCombos, widened, alone, Nat.sub_zero, range_eq_range']
  · intro combo hcombo
    -- the positions are those of rules
    have hset : ∀ set ∈ subsets (pruneRules types seed narrow).length combinations
        (pruneRules types seed narrow).length,
        ∀ i ∈ set, i < (pruneRules types seed narrow).length :=
      fun set hset i hi => mem_range.mp (((hmem set).mp hset).1.subset hi)
    simp only [allCombos, widened, alone, mem_append, mem_map, mem_flatMap, mem_range'_1,
      Nat.zero_le, true_and, Nat.sub_zero, Nat.zero_add] at hcombo
    obtain (⟨set, hsub, rfl⟩ | ⟨w, hw, set, hsub, rfl⟩) | ⟨w, hw, rfl⟩ := hcombo
    · exact generate_eq_some_iff (hset set hsub) nofun
    · exact generate_eq_some_iff (hset set hsub) fun _ heq => Option.some.inj heq ▸ hw
    · exact generate_eq_some_iff nofun fun _ heq => Option.some.inj heq ▸ hw

end

/-- The library's combinations of positions. -/
theorem isCombinationGenerator_sublistsLen :
    IsCombinationGenerator fun n k => (range n).sublistsLen k := fun _ k =>
  ⟨nodup_sublistsLen k nodup_range, fun _ => mem_sublistsLen⟩

/-- A rule that adds a text. -/
def addLang : Rule GoString := ⟨lit "lang", [fun q => some (lit "lang:" ++ q)]⟩

/-- A rule that doubles a short query. -/
def double : Rule GoString :=
  ⟨lit "and", [fun q => if q.length < 4 then some (q ++ lit " " ++ q) else none]⟩

/-- A rule that adds a text, and one that does not apply after it. -/
theorem newGenerator_two_rules :
    newGenerator (fun n k => (List.range n).sublistsLen k) (fun _ => []) (lit "go")
        [addLang] [double] 20 =
      some ([([0], none), ([0], some 0), ([], some 0)],
        [⟨lit "lang", lit "lang:go"⟩, ⟨lit "and", lit "go go"⟩]) ∧
    ∃ sets : List (List ℕ), sets.Nodup ∧
      (∀ set, set ∈ sets ↔ set.Sublist (List.range 1) ∧ set ≠ []) ∧
      (sets.Pairwise fun a b => b.length ≤ a.length) ∧
      ∃ combos, combos = sets.map (·, none) ++
          (List.range 1).flatMap (fun w => sets.map (·, some w)) ++
          (List.range 1).map (fun w => ([], some w)) ∧
        combos.Nodup ∧ ∃ makes : Combo → Option (AutoQuery GoString),
          (∀ combo ∈ combos, ∃ rules, Uses [addLang] [double] combo rules ∧
            ∀ q, makes combo = some q ↔
              Applies (rules.flatMap Rule.transform) (lit "go") q.query ∧
                q.description = (lit " ⚬ ").intercalate (rules.map Rule.description)) ∧
          ∃ fuel, ∀ f ≥ fuel, newGenerator (fun n k => (List.range n).sublistsLen k)
            (fun _ => []) (lit "go") [addLang] [double] f =
              some (combos, combos.filterMap makes) :=
  ⟨by decide +kernel, newGenerator_enumerates isCombinationGenerator_sublistsLen (fun _ => [])
    (lit "go") [addLang] [double]⟩

end Smartsearch
