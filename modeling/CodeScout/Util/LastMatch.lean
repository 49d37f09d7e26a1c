import Mathlib

/-!
# The last rule that applies

Where rules stand in a list and later ones take precedence, what counts is
the last rule that applies. If each rule is replaced by several, and of those
the last one that applies decides like the rule they come from, the decision
stays the same (`map_lastMatch_flatMap`).
-/

namespace LastMatch

open List

variable {α β γ : Type}

/-- The last rule that applies. -/
def lastMatch (applies : α → Bool) (rules : List α) : Option α :=
  rules.reverse.find? applies

variable {applies : α → Bool}

theorem lastMatch_append (xs ys : List α) :
    lastMatch applies (xs ++ ys) = (lastMatch applies ys).or (lastMatch applies xs) := by
  unfold lastMatch
  rw [reverse_append, find?_append]

theorem lastMatch_cons (x : α) (xs : List α) :
    lastMatch applies (x :: xs)
      = (lastMatch applies xs).or (if applies x then some x else none) := by
  rw [← singleton_append, lastMatch_append]
  unfold lastMatch
  rw [reverse_singleton, find?_singleton]

theorem lastMatch_concat (xs : List α) (x : α) :
    lastMatch applies (xs ++ [x]) = if applies x then some x else lastMatch applies xs := by
  rw [lastMatch_append, lastMatch_cons]
  show Option.or (Option.or none _) _ = _
  split_ifs <;> rfl

theorem lastMatch_congr {applies' : α → Bool} {xs : List α}
    (h : ∀ x ∈ xs, applies x = applies' x) : lastMatch applies xs = lastMatch applies' xs := by
  induction xs with
  | nil => rfl
  | cons x xs ih =>
    rw [forall_mem_cons] at h
    rw [lastMatch_cons, lastMatch_cons, ih h.2, h.1]

/-- No rule after the last one applies. -/
theorem lastMatch_eq_some_iff {xs : List α} {x : α} : lastMatch applies xs = some x ↔
    applies x = true ∧ ∃ before after, xs = before ++ x :: after ∧
      ∀ y ∈ after, applies y = false := by
  rw [lastMatch, find?_eq_some_iff_append]
  refine and_congr_right fun _ => ⟨?_, ?_⟩
  · rintro ⟨as, bs, heq, hnone⟩
    refine ⟨bs.reverse, as.reverse, ?_, fun y hy => ?_⟩
    · rw [← reverse_reverse xs, heq]
      simp
    · exact Bool.not_eq_true' _ ▸ hnone y (mem_reverse.mp hy)
  · rintro ⟨before, after, rfl, hnone⟩
    refine ⟨after.reverse, before.reverse, by simp, fun y hy => ?_⟩
    rw [hnone y (mem_reverse.mp hy)]
    rfl

/-- **Rules that are replaced by others.** -/
theorem map_lastMatch_flatMap {applies' : β → Bool} {verdict : α → γ} {verdict' : β → γ}
    {f : α → List β} {rules : List α}
    (h : ∀ rule ∈ rules, (lastMatch applies' (f rule)).map verdict'
      = if applies rule then some (verdict rule) else none) :
    (lastMatch applies' (rules.flatMap f)).map verdict'
      = (lastMatch applies rules).map verdict := by
  induction rules with
  | nil => rfl
  | cons rule rules ih =>
    rw [forall_mem_cons] at h
    rw [flatMap_cons, lastMatch_append, lastMatch_cons, Option.map_or, Option.map_or, ih h.2, h.1]
    congr 1
    split_ifs <;> rfl

/-- Rules that correspond to each other. -/
theorem map_lastMatch_of_forall₂ {applies' : β → Bool} {verdict : α → γ} {verdict' : β → γ}
    {R : α → β → Prop} (hR : ∀ {a b}, R a b → applies' b = applies a ∧ verdict' b = verdict a)
    {as : List α} {bs : List β} (h : List.Forall₂ R as bs) :
    (lastMatch applies' bs).map verdict' = (lastMatch applies as).map verdict := by
  induction h with
  | nil => rfl
  | @cons a b as bs hab _ ih =>
    obtain ⟨happlies, hverdict⟩ := hR hab
    rw [lastMatch_cons, lastMatch_cons, Option.map_or, Option.map_or, ih, happlies]
    congr 1
    split_ifs
    · exact congrArg some hverdict
    · rfl

end LastMatch
