import Mathlib.Data.Prod.Lex
import Mathlib.Order.Bounds.Image
import Mathlib.Data.Set.Lattice
import Mathlib.Data.Set.Lattice.Image

/-!
# Nearest labels in a graph

The vertices of a graph carry labels. From a vertex one sees the labels of
the vertices it reaches, each with the lengths of the walks that lead to it,
and the nearest one is the least of them: by length, and by label among
those of one length.

What is seen from a vertex is what is there and what is seen from its
neighbours, one step farther away (`seen_eq`). The least element of a set
is tracked as an option that is `none` for the empty set (`Picks`), so that
unions of sets become minima of options.
-/

namespace Nearest

/-! ## Least elements -/

section Picks

variable {α β : Type*} [LinearOrder α] [LinearOrder β]

/-- The option is the least element of the set, or the set is empty. -/
def Picks (s : Set α) : Option α → Prop
  | none => s = ∅
  | some a => IsLeast s a

theorem Picks.union {s t : Set α} {o o' : Option α} (hs : Picks s o) (ht : Picks t o') :
    Picks (s ∪ t) (Option.merge min o o') := by
  cases o with
  | none =>
    rw [show s = ∅ from hs, Set.empty_union, Option.merge_none_left]
    exact ht
  | some a =>
    cases o' with
    | none =>
      rw [show t = ∅ from ht, Set.union_empty, Option.merge_none_right]
      exact hs
    | some b => exact IsLeast.union hs ht

theorem Picks.image {f : α → β} (hf : Monotone f) {s : Set α} {o : Option α}
    (h : Picks s o) : Picks (f '' s) (o.map f) := by
  cases o with
  | none =>
    show f '' s = ∅
    rw [show s = ∅ from h, Set.image_empty]
  | some a => exact hf.map_isLeast h

theorem Picks.of_subsingleton {s : Set α} {o : Option α} (h : ∀ a, a ∈ s ↔ o = some a) :
    Picks s o := by
  cases o with
  | none => exact Set.eq_empty_iff_forall_notMem.mpr fun a ha => nomatch (h a).mp ha
  | some a =>
    refine ⟨(h a).mpr rfl, fun b hb => ?_⟩
    rw [Option.some.inj ((h b).mp hb)]

end Picks

/-! ## Walks -/

section Walk

variable {V κ : Type*} (next : V → List V)

/-- `Walk next v w n`: a walk of `n` steps leads from `v` to `w`. -/
inductive Walk : V → V → ℕ → Prop
  | refl (v : V) : Walk v v 0
  | step {v p w : V} {n : ℕ} (hp : p ∈ next v) (hw : Walk p w n) : Walk v w (n + 1)

variable {next}

theorem Walk.trans {u v w : V} {m n : ℕ} (h : Walk next u v m) (h' : Walk next v w n) :
    Walk next u w (n + m) := by
  induction h with
  | refl v => exact h'
  | step hp _ ih => exact .step hp (ih h')

theorem Walk.single {v p : V} (h : p ∈ next v) : Walk next v p 1 :=
  .step h (.refl p)

theorem walk_iff {v w : V} {n : ℕ} :
    Walk next v w n ↔ (v = w ∧ n = 0) ∨ ∃ p ∈ next v, ∃ m, Walk next p w m ∧ n = m + 1 := by
  constructor
  · rintro (_ | ⟨hp, hw⟩)
    · exact .inl ⟨rfl, rfl⟩
    · exact .inr ⟨_, hp, _, hw, rfl⟩
  · rintro (⟨rfl, rfl⟩ | ⟨p, hp, m, hw, rfl⟩)
    · exact .refl v
    · exact .step hp hw

end Walk

/-! ## What is seen -/

section Seen

variable {V κ : Type*} (next : V → List V) (label : V → Set κ)

/-- The labels seen from a vertex, with the lengths of the walks to them. -/
def seen (v : V) : Set (ℕ ×ₗ κ) :=
  {x | ∃ w, Walk next v w (ofLex x).1 ∧ (ofLex x).2 ∈ label w}

/-- The same label, `n` steps farther away. -/
def farther (n : ℕ) (x : ℕ ×ₗ κ) : ℕ ×ₗ κ :=
  toLex ((ofLex x).1 + n, (ofLex x).2)

/-- What is seen from `n` steps before one of the vertices. -/
def seenFrom (vs : List V) (n : ℕ) : Set (ℕ ×ₗ κ) :=
  ⋃ v ∈ vs, farther n '' seen next label v

/-- The labels of a vertex itself. -/
def here (v : V) : Set (ℕ ×ₗ κ) :=
  (fun k => toLex (0, k)) '' label v

variable {next label}

theorem mem_seen {v : V} {n : ℕ} {k : κ} :
    toLex (n, k) ∈ seen next label v ↔ ∃ w, Walk next v w n ∧ k ∈ label w :=
  Iff.rfl

theorem monotone_farther [LinearOrder κ] (n : ℕ) : Monotone (farther (κ := κ) n) := by
  intro x y h
  rw [Prod.Lex.le_iff] at h ⊢
  rcases h with h | ⟨h, h'⟩
  · exact .inl (Nat.add_lt_add_right h n)
  · exact .inr ⟨congrArg (· + n) h, h'⟩

theorem image_farther_farther (m n : ℕ) (s : Set (ℕ ×ₗ κ)) :
    farther m '' (farther n '' s) = farther (m + n) '' s := by
  rw [Set.image_image]
  refine Set.image_congr fun x _ => ?_
  show toLex ((ofLex x).1 + n + m, (ofLex x).2) = toLex ((ofLex x).1 + (m + n), (ofLex x).2)
  rw [Nat.add_assoc, Nat.add_comm n m]

theorem seenFrom_nil (n : ℕ) : seenFrom next label [] n = ∅ := by
  simp only [seenFrom, List.not_mem_nil, Set.iUnion_of_empty, Set.iUnion_empty]

theorem seenFrom_cons (v : V) (vs : List V) (n : ℕ) :
    seenFrom next label (v :: vs) n
      = farther n '' seen next label v ∪ seenFrom next label vs n := by
  simp only [seenFrom, List.mem_cons, Set.iUnion_iUnion_eq_or_left]

theorem seenFrom_singleton (v : V) (n : ℕ) :
    seenFrom next label [v] n = farther n '' seen next label v := by
  rw [seenFrom_cons, seenFrom_nil, Set.union_empty]

/-- **What is seen from a vertex** is what is there and what is seen from
its neighbours. -/
theorem seen_eq (v : V) : seen next label v = here label v ∪ seenFrom next label (next v) 1 := by
  ext x
  simp only [seenFrom, Set.mem_union, Set.mem_iUnion, Set.mem_image, here]
  constructor
  · rintro ⟨w, hw, hk⟩
    rcases walk_iff.mp hw with ⟨rfl, hn⟩ | ⟨p, hp, m, hw, hn⟩
    · exact .inl ⟨_, hk, congrArg (fun n => toLex (n, (ofLex x).2)) hn.symm⟩
    · exact .inr ⟨p, hp, toLex (m, (ofLex x).2), ⟨w, hw, hk⟩,
        congrArg (fun n => toLex (n, (ofLex x).2)) hn.symm⟩
  · rintro (⟨k, hk, rfl⟩ | ⟨p, hp, y, ⟨w, hw, hk⟩, rfl⟩)
    · exact ⟨v, .refl v, hk⟩
    · exact ⟨w, .step hp hw, hk⟩

theorem image_farther_seenFrom (m n : ℕ) (vs : List V) :
    farther m '' seenFrom next label vs n = seenFrom next label vs (m + n) := by
  simp only [seenFrom, Set.image_iUnion, image_farther_farther]

/-- **A vertex without labels is passed through.** -/
theorem seenFrom_singleton_of_unlabelled {v : V} (h : label v = ∅) (n : ℕ) :
    seenFrom next label [v] n = seenFrom next label (next v) (n + 1) := by
  rw [seenFrom_singleton, seen_eq, here, h, Set.image_empty, Set.empty_union,
    image_farther_seenFrom]

end Seen

end Nearest
