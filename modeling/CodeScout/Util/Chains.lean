import Mathlib

/-!
# Chains

A partial function leads from an element to the next. The chain of an element
has the elements that follow it, up to the first without a next one. If the
function is defined at finitely many elements, chains exist where it has no
cycles.
-/

namespace Chains

open Relation

variable {α : Type} {next : α → Option α}

/-- The element and those that follow it, the last one without a next. -/
inductive Chain (next : α → Option α) : α → List α → Prop where
  | last {a : α} (h : next a = none) : Chain next a [a]
  | step {a b : α} {l : List α} (h : next a = some b) (hchain : Chain next b l) :
    Chain next a (a :: l)

/-- One element leads to another. -/
def Leads (next : α → Option α) (a b : α) : Prop := next a = some b

/-- No element leads back to itself. -/
def Acyclic (next : α → Option α) : Prop := ∀ a, ¬ TransGen (Leads next) a a

theorem Chain.unique {a : α} {l l' : List α} (h : Chain next a l) (h' : Chain next a l') :
    l = l' := by
  induction h generalizing l' with
  | last hnone =>
    cases h' with
    | last => rfl
    | step hsome => exact absurd (hnone.symm.trans hsome) nofun
  | step hsome _ ih =>
    cases h' with
    | last hnone => exact absurd (hnone.symm.trans hsome) nofun
    | step hsome' hchain' =>
      cases hsome.symm.trans hsome'
      rw [ih hchain']

theorem Chain.tail {a b : α} {l : List α} (h : Chain next a l) (hab : next a = some b) :
    ∃ l', Chain next b l' ∧ l = a :: l' := by
  cases h with
  | last hnone => exact absurd (hnone.symm.trans hab) nofun
  | step hsome hchain =>
    cases hsome.symm.trans hab
    exact ⟨_, hchain, rfl⟩

/-- What follows an element has a shorter chain. -/
theorem Chain.of_transGen {a b : α} {l : List α} (h : Chain next a l)
    (hab : TransGen (Leads next) a b) : ∃ l', Chain next b l' ∧ l'.length < l.length := by
  induction hab with
  | single hstep =>
    obtain ⟨l', hchain, rfl⟩ := h.tail hstep
    exact ⟨l', hchain, Nat.lt_succ_self _⟩
  | tail _ hstep ih =>
    obtain ⟨l₁, hchain₁, hlt⟩ := ih
    obtain ⟨l', hchain, rfl⟩ := hchain₁.tail hstep
    exact ⟨l', hchain, (Nat.lt_succ_self _).trans hlt⟩

/-- **An element with a chain is on no cycle.** -/
theorem Chain.not_transGen {a : α} {l : List α} (h : Chain next a l) :
    ¬ TransGen (Leads next) a a := by
  intro hcycle
  obtain ⟨l', hchain, hlt⟩ := h.of_transGen hcycle
  exact absurd (congrArg List.length (hchain.unique h)) hlt.ne

/-- **Chains exist where there are no cycles**, and are not longer than the
number of elements with a next one allows. -/
theorem exists_chain [DecidableEq α] (hacyclic : Acyclic next) (keys : Finset α)
    (hkeys : ∀ {a b}, next a = some b → a ∈ keys) (a : α) :
    ∃ l, Chain next a l ∧ l.length ≤ keys.card + 1 := by
  -- the elements of `seen` were passed on the way to `a`, so they are not met again
  suffices h : ∀ (n : ℕ) (seen : Finset α), (keys \ seen).card = n → ∀ a,
      (∀ b ∈ seen, ¬ ReflTransGen (Leads next) a b) → ∃ l, Chain next a l ∧ l.length ≤ n + 1 by
    exact h keys.card ∅ (by rw [Finset.sdiff_empty]) a fun b hb => absurd hb (Finset.notMem_empty b)
  intro n
  induction n with
  | zero =>
    intro seen hcard a hseen
    cases hnext : next a with
    | none => exact ⟨[a], .last hnext, le_rfl⟩
    | some b =>
      have hmem : a ∈ keys \ seen :=
        Finset.mem_sdiff.2 ⟨hkeys hnext, fun ha => hseen a ha .refl⟩
      exact absurd hmem (Finset.card_eq_zero.1 hcard ▸ Finset.notMem_empty a)
  | succ n ih =>
    intro seen hcard a hseen
    cases hnext : next a with
    | none => exact ⟨[a], .last hnext, Nat.le_add_left 1 _⟩
    | some b =>
      have hmem : a ∈ keys \ seen :=
        Finset.mem_sdiff.2 ⟨hkeys hnext, fun ha => hseen a ha .refl⟩
      have hcard' : (keys \ insert a seen).card = n := by
        rw [Finset.sdiff_insert, Finset.card_erase_of_mem hmem, hcard, Nat.add_sub_cancel]
      obtain ⟨l, hchain, hle⟩ := ih (insert a seen) hcard' b fun c hc hbc => by
        obtain rfl | hc := Finset.mem_insert.1 hc
        · exact hacyclic c (.head' hnext hbc)
        · exact hseen c hc (.head hnext hbc)
      exact ⟨a :: l, .step hnext hchain, Nat.succ_le_succ hle⟩

end Chains
