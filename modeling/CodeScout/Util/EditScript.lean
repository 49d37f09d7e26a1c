import Mathlib.Data.List.Basic
import Mathlib.Tactic.Common

/-!
# Edit scripts

A script that turns a list of lines, its source, into another one, its
target: every line is kept, removed or added. `Pairs es i j` says that the
script keeps line `i` of the source as line `j` of the target. It is a
strictly increasing partial function, and the script with removed and added
lines swapped has the inverse one.
-/

/-- What is done to a line. -/
inductive Edit (α : Type)
  | kept (a : α)
  | removed (a : α)
  | added (a : α)
deriving DecidableEq, Repr

namespace Edit

open List

variable {α : Type}

/-- The line of the source. -/
def source : Edit α → Option α
  | kept a => some a
  | removed a => some a
  | added _ => none

/-- The line of the target. -/
def target : Edit α → Option α
  | kept a => some a
  | removed _ => none
  | added a => some a

/-- The other direction. -/
def swap : Edit α → Edit α
  | kept a => kept a
  | removed a => added a
  | added a => removed a

/-- The source of a script. -/
def sources (es : List (Edit α)) : List α := es.filterMap source

/-- The target of a script. -/
def targets (es : List (Edit α)) : List α := es.filterMap target

/-- **The script keeps a line of the source as a line of the target.** -/
def Pairs (es : List (Edit α)) (i j : ℕ) : Prop :=
  ∃ front a back, es = front ++ kept a :: back ∧ (sources front).length = i
    ∧ (targets front).length = j

@[simp] theorem sources_append (es es' : List (Edit α)) :
    sources (es ++ es') = sources es ++ sources es' :=
  filterMap_append

@[simp] theorem targets_append (es es' : List (Edit α)) :
    targets (es ++ es') = targets es ++ targets es' :=
  filterMap_append

@[simp] theorem sources_kept (as : List α) : sources (as.map kept) = as := by
  rw [sources, filterMap_map]
  exact filterMap_some

@[simp] theorem targets_kept (as : List α) : targets (as.map kept) = as := by
  rw [targets, filterMap_map]
  exact filterMap_some

theorem sources_swap (es : List (Edit α)) : sources (es.map swap) = targets es := by
  rw [sources, filterMap_map, targets]
  refine filterMap_congr fun e _ => ?_
  cases e <;> rfl

theorem targets_swap (es : List (Edit α)) : targets (es.map swap) = sources es := by
  rw [targets, filterMap_map, sources]
  refine filterMap_congr fun e _ => ?_
  cases e <;> rfl

/-! ## Pairs -/

theorem not_pairs_nil (i j : ℕ) : ¬Pairs ([] : List (Edit α)) i j := by
  rintro ⟨front, a, back, h, -⟩
  exact append_ne_nil_of_right_ne_nil _ (cons_ne_nil _ _) h.symm

variable {i j : ℕ}

/-- **The pairs of a script** are those of its first part, and those of its
second part moved by the lines of the first. -/
theorem pairs_append {es es' : List (Edit α)} :
    Pairs (es ++ es') i j ↔ Pairs es i j
      ∨ ∃ i' j', i = (sources es).length + i' ∧ j = (targets es).length + j'
        ∧ Pairs es' i' j' := by
  constructor
  · rintro ⟨front, a, back, h, rfl, rfl⟩
    rcases append_eq_append_iff.mp h with ⟨middle, rfl, hright⟩ | ⟨middle, rfl, hright⟩
    · refine .inr ⟨(sources middle).length, (targets middle).length, ?_, ?_, middle, a, back,
        hright, rfl, rfl⟩
      · rw [sources_append, length_append]
      · rw [targets_append, length_append]
    · cases middle with
      | nil =>
        rw [append_nil]
        exact .inr ⟨0, 0, rfl, rfl, [], a, back, hright.symm, rfl, rfl⟩
      | cons e middle =>
        obtain ⟨rfl, -⟩ := cons.inj hright
        exact .inl ⟨front, a, middle, rfl, rfl, rfl⟩
  · rintro (⟨front, a, back, rfl, rfl, rfl⟩ | ⟨_, _, rfl, rfl, front, a, back, rfl, rfl, rfl⟩)
    · exact ⟨front, a, back ++ es', by rw [append_assoc, cons_append], rfl, rfl⟩
    · refine ⟨es ++ front, a, back, by rw [append_assoc], ?_, ?_⟩
      · rw [sources_append, length_append]
      · rw [targets_append, length_append]

theorem pairs_singleton {e : Edit α} :
    Pairs [e] i j ↔ (∃ a, e = kept a) ∧ i = 0 ∧ j = 0 := by
  constructor
  · rintro ⟨front, a, back, h, rfl, rfl⟩
    cases front with
    | nil =>
      obtain ⟨rfl, -⟩ := cons.inj h
      exact ⟨⟨a, rfl⟩, rfl, rfl⟩
    | cons e' front =>
      have hnil := (cons.inj h).2
      exact absurd hnil.symm (append_ne_nil_of_right_ne_nil _ (cons_ne_nil _ _))
  · rintro ⟨⟨a, rfl⟩, rfl, rfl⟩
    exact ⟨[], a, [], rfl, rfl, rfl⟩

variable {es : List (Edit α)}

theorem pairs_cons {e : Edit α} :
    Pairs (e :: es) i j ↔ ((∃ a, e = kept a) ∧ i = 0 ∧ j = 0)
      ∨ ∃ i' j', i = (sources [e]).length + i' ∧ j = (targets [e]).length + j'
        ∧ Pairs es i' j' := by
  rw [← singleton_append, pairs_append, pairs_singleton]

theorem pairs_kept {as : List α} :
    Pairs (as.map kept) i j ↔ i = j ∧ i < as.length := by
  induction as generalizing i j with
  | nil => exact iff_of_false (not_pairs_nil i j) fun h => absurd h.2 (Nat.not_lt_zero _)
  | cons a as ih =>
    rw [map_cons, pairs_cons, length_cons]
    constructor
    · rintro (⟨-, rfl, rfl⟩ | ⟨i', j', rfl, rfl, h⟩)
      · exact ⟨rfl, Nat.succ_pos _⟩
      · obtain ⟨rfl, hlt⟩ := ih.mp h
        refine ⟨rfl, ?_⟩
        show 1 + i' < as.length + 1
        omega
    · rintro ⟨rfl, hlt⟩
      cases i with
      | zero => exact .inl ⟨⟨a, rfl⟩, rfl, rfl⟩
      | succ i =>
        refine .inr ⟨i, i, Nat.add_comm i 1, Nat.add_comm i 1, ih.mpr ⟨rfl, ?_⟩⟩
        exact Nat.lt_of_succ_lt_succ hlt

theorem Pairs.lt (h : Pairs es i j) :
    i < (sources es).length ∧ j < (targets es).length := by
  obtain ⟨front, a, back, rfl, rfl, rfl⟩ := h
  rw [sources_append, targets_append, length_append, length_append]
  exact ⟨Nat.lt_add_of_pos_right (Nat.succ_pos _), Nat.lt_add_of_pos_right (Nat.succ_pos _)⟩

theorem Pairs.not_first {e : Edit α} (h : Pairs (e :: es) i j) (he : ∀ a, e ≠ kept a) :
    ∃ i' j', i = (sources [e]).length + i' ∧ j = (targets [e]).length + j' ∧ Pairs es i' j' := by
  refine (pairs_cons.mp h).resolve_left ?_
  rintro ⟨⟨a, rfl⟩, -⟩
  exact he a rfl

/-- **Pairs are in order.** -/
theorem Pairs.lt_iff : ∀ {i j i' j' : ℕ}, Pairs es i j → Pairs es i' j' → (i < i' ↔ j < j') := by
  induction es with
  | nil => exact fun h => absurd h (not_pairs_nil _ _)
  | cons e es ih =>
    intro i j i' j' h h'
    cases e with
    | kept a =>
      rcases pairs_cons.mp h with ⟨-, rfl, rfl⟩ | ⟨i, j, rfl, rfl, hrest⟩ <;>
        rcases pairs_cons.mp h' with ⟨-, rfl, rfl⟩ | ⟨i', j', rfl, rfl, hrest'⟩
      · exact iff_of_false (Nat.lt_irrefl 0) (Nat.lt_irrefl 0)
      · exact iff_of_true (Nat.add_comm 1 i' ▸ Nat.succ_pos i')
          (Nat.add_comm 1 j' ▸ Nat.succ_pos j')
      · exact iff_of_false (Nat.not_lt_zero _) (Nat.not_lt_zero _)
      · exact Nat.add_lt_add_iff_left.trans ((ih hrest hrest').trans Nat.add_lt_add_iff_left.symm)
    | removed a =>
      obtain ⟨i, j, rfl, rfl, hrest⟩ := h.not_first fun _ => nofun
      obtain ⟨i', j', rfl, rfl, hrest'⟩ := h'.not_first fun _ => nofun
      exact Nat.add_lt_add_iff_left.trans ((ih hrest hrest').trans Nat.add_lt_add_iff_left.symm)
    | added a =>
      obtain ⟨i, j, rfl, rfl, hrest⟩ := h.not_first fun _ => nofun
      obtain ⟨i', j', rfl, rfl, hrest'⟩ := h'.not_first fun _ => nofun
      exact Nat.add_lt_add_iff_left.trans ((ih hrest hrest').trans Nat.add_lt_add_iff_left.symm)

theorem Pairs.unique {i j j' : ℕ} (h : Pairs es i j) (h' : Pairs es i j') :
    j = j' :=
  Nat.le_antisymm (Nat.not_lt.mp fun hlt => Nat.lt_irrefl i ((h'.lt_iff h).mpr hlt))
    (Nat.not_lt.mp fun hlt => Nat.lt_irrefl i ((h.lt_iff h').mpr hlt))

/-- **The other direction has the inverse pairs.** -/
theorem Pairs.swap (h : Pairs es i j) :
    Pairs (es.map Edit.swap) j i := by
  obtain ⟨front, a, back, rfl, rfl, rfl⟩ := h
  refine ⟨front.map Edit.swap, a, back.map Edit.swap, ?_, ?_, ?_⟩
  · rw [map_append, map_cons]
    rfl
  · rw [sources_swap]
  · rw [targets_swap]

end Edit
