import CodeScout.Util.GoMap
import CodeScout.Util.Outcome
import Mathlib.Data.Finset.Card
import Mathlib.Data.List.Infix
import Mathlib.Logic.Relation
import Mathlib.Tactic.Common

/-!
# Depth-first search

A search that lists the vertices of a graph after their children. A vertex
is marked while its children are visited and after it is listed; reaching a
vertex that is marked as being visited means that the graph has a cycle, and
the search reports it with the path that led there.

A search that reports nothing has listed what it visited in an order in
which the children of a vertex come before it (`Inv.closed`), so there is no
cycle among what it visited; and what it reports is a cycle (`visit_spec`).
-/

namespace DepthFirst

open Relation List

/-- What is known about a vertex. -/
inductive Mark
  | visiting
  | visited
deriving DecidableEq

/-- The vertices listed so far, and the marks. -/
structure State (V : Type) [DecidableEq V] where
  order : List V := []
  marks : GoMap V Mark := ∅

variable {V ε : Type} [DecidableEq V]

/-- The search from a vertex that was reached by a path. -/
def visit (children : V → List V) (report : V → List V → Outcome ε (State V)) :
    ℕ → V → List V → State V → Outcome ε (State V)
  | 0, _, _, _ => .outOfFuel
  | fuel + 1, v, path, s =>
    match s.marks.lookup v with
    | some .visiting => report v path
    | some .visited => .ok s
    | none => do
      let s ← (children v).foldlM (fun s child => visit children report fuel child (path ++ [v]) s)
        { s with marks := s.marks.insert v .visiting }
      .ok ⟨s.order ++ [v], s.marks.insert v .visited⟩

section spec

variable {U : Finset V} {children : V → List V}
  {report : V → List V → Outcome ε (State V)}

/-- **The state of a search** among the given vertices that has reached some
vertex by a path. -/
structure Inv (U : Finset V) (children : V → List V) (path : List V) (s : State V) : Prop where
  subset : ∀ v ∈ s.order, v ∈ U
  visiting : ∀ v, s.marks.lookup v = some .visiting ↔ v ∈ path
  visited : ∀ v, s.marks.lookup v = some .visited ↔ v ∈ s.order
  nodup : s.order.Nodup
  closed : ∀ front v back, s.order = front ++ v :: back → ∀ child ∈ children v, child ∈ front

theorem inv_start : Inv U children [] ({} : State V) where
  subset v hv := absurd hv not_mem_nil
  visiting v := iff_of_false (by rw [AList.lookup_empty]; exact nofun) not_mem_nil
  visited v := iff_of_false (by rw [AList.lookup_empty]; exact nofun) not_mem_nil
  nodup := nodup_nil
  closed _ _ _ h := absurd h.symm (append_ne_nil_of_right_ne_nil _ (cons_ne_nil _ _))

variable {path : List V} {s : State V}

theorem Inv.disjoint (h : Inv U children path s) {v : V} (hpath : v ∈ path) : v ∉ s.order := by
  intro horder
  have := ((h.visiting v).mpr hpath).symm.trans ((h.visited v).mpr horder)
  exact nomatch this

theorem Inv.enter (h : Inv U children path s) {v : V} (hv : s.marks.lookup v = none) :
    Inv U children (path ++ [v]) { s with marks := s.marks.insert v .visiting } := by
  refine ⟨h.subset, fun u => ?_, fun u => ?_, h.nodup, h.closed⟩
  all_goals by_cases hu : u = v
  · subst hu
    rw [AList.lookup_insert]
    exact iff_of_true rfl (mem_append_right _ mem_cons_self)
  · rw [AList.lookup_insert_ne hu, h.visiting, mem_append, mem_singleton, or_iff_left hu]
  · subst hu
    rw [AList.lookup_insert, ← h.visited, hv]
    exact iff_of_false nofun nofun
  · rw [AList.lookup_insert_ne hu]
    exact h.visited u

/-- Leaving a vertex after its children were listed. -/
theorem Inv.leave {v : V} (h : Inv U children (path ++ [v]) s)
    (hU : v ∈ U) (hv : v ∉ path) (hchildren : ∀ child ∈ children v, child ∈ s.order) :
    Inv U children path ⟨s.order ++ [v], s.marks.insert v .visited⟩ := by
  have hnot : v ∉ s.order := h.disjoint (mem_append_right _ mem_cons_self)
  refine ⟨forall_mem_append.mpr ⟨h.subset, forall_mem_singleton.mpr hU⟩,
    fun u => ?_, fun u => ?_, ?_, fun front u back hsplit => ?_⟩
  · by_cases hu : u = v
    · subst hu
      rw [AList.lookup_insert]
      exact iff_of_false nofun hv
    · rw [AList.lookup_insert_ne hu, h.visiting, mem_append, mem_singleton, or_iff_left hu]
  · show _ ↔ u ∈ s.order ++ [v]
    by_cases hu : u = v
    · subst hu
      rw [AList.lookup_insert]
      exact iff_of_true rfl (mem_append_right _ mem_cons_self)
    · rw [AList.lookup_insert_ne hu, h.visited, mem_append, mem_singleton, or_iff_left hu]
  · exact nodup_append.mpr ⟨h.nodup, nodup_singleton v, fun a ha b hb hab =>
      hnot (mem_singleton.mp hb ▸ hab ▸ ha)⟩
  · -- the last vertex is the one that is left
    rcases append_eq_append_iff.mp hsplit with ⟨middle, rfl, hright⟩ | ⟨middle, hleft, hright⟩
    · cases middle with
      | nil =>
        obtain ⟨rfl, -⟩ := cons.inj hright
        rw [append_nil]
        exact hchildren
      | cons a middle =>
        have hnil := (cons.inj hright).2
        exact absurd hnil.symm (append_ne_nil_of_right_ne_nil _ (cons_ne_nil _ _))
    · cases middle with
      | nil =>
        obtain ⟨rfl, -⟩ := cons.inj hright
        rw [append_nil] at hleft
        exact hleft ▸ hchildren
      | cons a middle =>
        obtain ⟨rfl, -⟩ := cons.inj hright
        exact h.closed front _ middle hleft

/-- The edges of the graph. -/
def Edge (children : V → List V) (v child : V) : Prop := child ∈ children v

/-- **What a search does**: it reports a cycle, or it lists the targets and
goes back. -/
def Visits (U : Finset V) (children : V → List V) (targets path : List V) (s : State V)
    (outcome : Outcome ε (State V)) : Prop :=
  (∃ e, outcome = .error e ∧ ∃ v, TransGen (Edge children) v v)
    ∨ ∃ s', outcome = .ok s' ∧ Inv U children path s' ∧ s.order <+: s'.order
      ∧ ∀ v ∈ targets, v ∈ s'.order

theorem visits_foldlM {search : V → State V → Outcome ε (State V)} {targets : List V}
    (h : ∀ v ∈ targets, ∀ s, Inv U children path s → Visits U children [v] path s (search v s)) :
    ∀ s, Inv U children path s →
      Visits U children targets path s (targets.foldlM (fun s v => search v s) s) := by
  induction targets with
  | nil =>
    exact fun s hs => .inr ⟨s, rfl, hs, prefix_rfl, fun v hv => absurd hv not_mem_nil⟩
  | cons v targets ih =>
    intro s hs
    rw [foldlM_cons]
    rcases h v mem_cons_self s hs with ⟨e, he, hcycle⟩ | ⟨s₁, hs₁, hinv, hbegins, hmem⟩
    · rw [he]
      exact .inl ⟨e, rfl, hcycle⟩
    rw [hs₁, Outcome.ok_bind]
    rcases ih (fun u hu => h u (mem_cons_of_mem _ hu)) s₁ hinv with
      hcycle | ⟨s₂, hs₂, hinv₂, hbegins₂, hmem₂⟩
    · exact .inl hcycle
    · refine .inr ⟨s₂, hs₂, hinv₂, hbegins.trans hbegins₂, ?_⟩
      rw [forall_mem_cons]
      exact ⟨hbegins₂.subset (hmem v mem_cons_self), hmem₂⟩

/-- **The search.** The induction is on the fuel, which bounds the length of
the path that is still to come. -/
theorem visit_spec (hU : ∀ v ∈ U, ∀ child ∈ children v, child ∈ U)
    (hreport : ∀ v path, v ∈ path → ∃ e, report v path = .error e) (fuel : ℕ) :
    ∀ {v : V} {path : List V} {s : State V}, v ∈ U → (∀ u ∈ path, u ∈ U) → path.Nodup →
      U.card < fuel + path.length → Inv U children path s →
      (∀ u ∈ path, TransGen (Edge children) u v) →
      Visits U children [v] path s (visit children report fuel v path s) := by
  have hcard : ∀ {path : List V}, (∀ u ∈ path, u ∈ U) → path.Nodup → path.length ≤ U.card := by
    intro path hsub hnodup
    rw [← toFinset_card_of_nodup hnodup]
    exact Finset.card_le_card fun u hu => hsub u (mem_toFinset.mp hu)
  induction fuel with
  | zero =>
    intro v path s _ hsub hnodup hfuel
    have := hcard hsub hnodup
    omega
  | succ fuel ih =>
    intro v path s hv hsub hnodup hfuel hinv hpath
    rw [visit]
    cases hmark : s.marks.lookup v with
    | some mark =>
      cases mark with
      | visiting =>
        have hmem := (hinv.visiting v).mp hmark
        obtain ⟨e, he⟩ := hreport v path hmem
        exact .inl ⟨e, he, v, hpath v hmem⟩
      | visited =>
        refine .inr ⟨s, rfl, hinv, prefix_rfl, fun u hu => ?_⟩
        rw [mem_singleton.mp hu]
        exact (hinv.visited v).mp hmark
    | none =>
      have hnot : v ∉ path := fun hmem => by
        have := (hinv.visiting v).mpr hmem
        rw [hmark] at this
        exact nomatch this
      have hnodup' : (path ++ [v]).Nodup :=
        nodup_append.mpr ⟨hnodup, nodup_singleton v, fun a ha b hb hab =>
          hnot (mem_singleton.mp hb ▸ hab ▸ ha)⟩
      have hsub' : ∀ u ∈ path ++ [v], u ∈ U :=
        forall_mem_append.mpr ⟨hsub, forall_mem_singleton.mpr hv⟩
      have hfuel' : U.card < fuel + (path ++ [v]).length := by
        rw [length_append, length_singleton]
        omega
      have hchild : ∀ child ∈ children v, ∀ s, Inv U children (path ++ [v]) s →
          Visits U children [child] (path ++ [v]) s
            (visit children report fuel child (path ++ [v]) s) :=
        fun child hchild s hs => ih (hU v hv child hchild) hsub' hnodup' hfuel' hs
          (forall_mem_append.mpr ⟨fun u hu => (hpath u hu).tail hchild,
            forall_mem_singleton.mpr (.single hchild)⟩)
      rcases visits_foldlM hchild _ (hinv.enter hmark) with
        ⟨e, he, hcycle⟩ | ⟨s', hs', hinv', hbegins, hmem⟩
      · rw [he]
        exact .inl ⟨e, rfl, hcycle⟩
      · rw [hs']
        refine .inr ⟨_, rfl, hinv'.leave hv hnot hmem, hbegins.trans (prefix_append _ _), ?_⟩
        exact fun u hu => mem_append_right _ hu

/-! ## Orders -/

omit [DecidableEq V] in
/-- In a list in which the children of a vertex come before it, vertices that
can be reached come before it too. -/
theorem mem_front_of_transGen {order : List V}
    (hclosed : ∀ front v back, order = front ++ v :: back → ∀ child ∈ children v, child ∈ front)
    {v u : V} (h : TransGen (Edge children) v u) :
    ∀ front back, order = front ++ v :: back → u ∈ front := by
  induction h with
  | single hedge => exact fun front back hsplit => hclosed front v back hsplit _ hedge
  | tail _ hedge ih =>
    intro front back hsplit
    obtain ⟨front₁, back₁, rfl⟩ := append_of_mem (ih front back hsplit)
    rw [append_assoc, cons_append] at hsplit
    exact mem_append_left _ (hclosed front₁ _ _ hsplit _ hedge)

/-- **No listed vertex is on a cycle.** -/
theorem Inv.not_transGen (h : Inv U children path s) {v : V}
    (hv : v ∈ s.order) : ¬TransGen (Edge children) v v := by
  intro hcycle
  obtain ⟨front, back, hsplit⟩ := append_of_mem hv
  have hmem := mem_front_of_transGen h.closed hcycle front back hsplit
  have hnodup := hsplit ▸ h.nodup
  exact (nodup_append.mp hnodup).2.2 v hmem v mem_cons_self rfl

/-- **A listed vertex comes after its listed parents.** -/
theorem Inv.mem_back (h : Inv U children path s) {v parent : V}
    (hedge : v ∈ children parent) (hparent : parent ∈ s.order) {front back : List V}
    (hsplit : s.order = front ++ v :: back) : parent ∈ back := by
  have hnot : v ∉ front := fun hmem =>
    (nodup_append.mp (hsplit ▸ h.nodup)).2.2 v hmem v mem_cons_self rfl
  rw [hsplit, mem_append, mem_cons] at hparent
  rcases hparent with hfront | rfl | hback
  · obtain ⟨front₁, front₂, rfl⟩ := append_of_mem hfront
    rw [append_assoc, cons_append] at hsplit
    exact absurd (mem_append_left _ (h.closed front₁ parent _ hsplit v hedge)) hnot
  · exact absurd (h.closed front parent back hsplit parent hedge) hnot
  · exact hback

/-- What can be reached from a listed vertex is listed. -/
theorem Inv.mem_of_reflTransGen (h : Inv U children path s)
    {v u : V} (hv : v ∈ s.order) (hreach : ReflTransGen (Edge children) v u) : u ∈ s.order := by
  induction hreach with
  | refl => exact hv
  | tail _ hedge ih =>
    obtain ⟨front, back, hsplit⟩ := append_of_mem ih
    rw [hsplit]
    exact mem_append_left _ (h.closed front _ back hsplit _ hedge)

end spec

end DepthFirst
