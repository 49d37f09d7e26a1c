import CodeScout.Util.Outcome
import Mathlib.Data.List.Chain
import Mathlib.Order.WellFounded
import Mathlib.Tactic

/-!
# Collecting iterates

The loop that starts at a value, collects it and goes on with the next one
until a value is past the end. Nothing makes such a loop stop: it is given
fuel, and `yields_iterates` and `iterates_eq_outOfFuel` are the two ways to
decide whether it returns – a well-founded relation that each step goes down,
or a property that each step keeps and that excludes the end.
-/

namespace Outcome

variable {ε α : Type}

/-- `for a := start; !past(a); a = next(a) { collect a }`. -/
def iterates (next : α → α) (past : α → Bool) : ℕ → α → Outcome ε (List α)
  | 0, _ => .outOfFuel
  | fuel + 1, a =>
    if past a then .ok []
    else do
      let rest ← iterates next past fuel (next a)
      return a :: rest

variable {next : α → α} {past : α → Bool} {l : List α} {fuel : ℕ} {a : α}

theorem iterates_eq_ok :
    (iterates next past (fuel + 1) a : Outcome ε (List α)) = .ok l ↔
      past a = true ∧ l = [] ∨
      past a = false ∧ ∃ rest, (iterates next past fuel (next a) : Outcome ε (List α)) = .ok rest ∧
        l = a :: rest := by
  rw [iterates]
  cases past a with
  | true => simp [@eq_comm _ _ l]
  | false => simp [bind_eq_ok, @eq_comm _ _ l]

section Collected

variable (h : (iterates next past fuel a : Outcome ε (List α)) = .ok l)

include h

theorem head?_of_iterates (ha : past a = false) : l.head? = some a := by
  cases fuel with
  | zero => cases h
  | succ fuel =>
    obtain ⟨hpast, -⟩ | ⟨-, rest, -, rfl⟩ := iterates_eq_ok.mp h
    · rw [ha] at hpast
      cases hpast
    · rfl

theorem isChain_of_iterates : l.IsChain fun b c => c = next b := by
  induction fuel generalizing a l with
  | zero => cases h
  | succ fuel ih =>
    obtain ⟨-, rfl⟩ | ⟨-, rest, hrest, rfl⟩ := iterates_eq_ok.mp h
    · exact .nil
    · refine List.isChain_cons.mpr ⟨fun b hb => ?_, ih hrest⟩
      cases fuel with
      | zero => cases hrest
      | succ fuel =>
        obtain ⟨-, rfl⟩ | ⟨-, _, -, rfl⟩ := iterates_eq_ok.mp hrest
        · cases hb
        · exact (Option.some.inj hb).symm

theorem past_next_of_iterates {b : α} (hb : l.getLast? = some b) : past (next b) = true := by
  induction fuel generalizing a l with
  | zero => cases h
  | succ fuel ih =>
    obtain ⟨-, rfl⟩ | ⟨-, rest, hrest, rfl⟩ := iterates_eq_ok.mp h
    · cases hb
    · cases rest with
      | cons c rest => exact ih hrest (by rwa [List.getLast?_cons_cons] at hb)
      | nil =>
        cases hb
        cases fuel with
        | zero => cases hrest
        | succ fuel =>
          obtain ⟨hpast, -⟩ | ⟨-, _, -, hnil⟩ := iterates_eq_ok.mp hrest
          · exact hpast
          · cases hnil

end Collected

variable {P : α → Prop}

/-- A property that every step before the end keeps holds of everything
collected. -/
theorem forall_mem_of_iterates (hnext : ∀ a, P a → past a = false → P (next a))
    (h : (iterates next past fuel a : Outcome ε (List α)) = .ok l) (ha : P a) :
    ∀ b ∈ l, P b ∧ past b = false := by
  induction fuel generalizing a l with
  | zero => cases h
  | succ fuel ih =>
    obtain ⟨-, rfl⟩ | ⟨hpast, rest, hrest, rfl⟩ := iterates_eq_ok.mp h
    · exact fun _ hb => nomatch hb
    · exact List.forall_mem_cons.mpr ⟨⟨ha, hpast⟩, ih hrest (hnext a ha hpast)⟩

/-- A property that every step keeps, and that holds of no value past the
end, keeps the loop running. -/
theorem iterates_eq_outOfFuel (hpast : ∀ a, P a → past a = false)
    (hnext : ∀ a, P a → P (next a)) (ha : P a) (fuel : ℕ) :
    (iterates next past fuel a : Outcome ε (List α)) = .outOfFuel := by
  induction fuel generalizing a with
  | zero => rfl
  | succ fuel ih =>
    rw [iterates, hpast a ha, ih (hnext a ha)]
    rfl

/-- The loop returns if each of its steps goes down in a well-founded
relation. -/
theorem yields_iterates {r : α → α → Prop} (hr : WellFounded r)
    (hnext : ∀ a, P a → past a = false → P (next a) ∧ r (next a) a) (ha : P a) :
    ∃ l, Yields (fun fuel => (iterates next past fuel a : Outcome ε (List α))) l := by
  induction a using hr.induction with
  | _ a ih =>
    cases hpast : past a with
    | true => exact ⟨[], 1, iterates_eq_ok.mpr (.inl ⟨hpast, rfl⟩)⟩
    | false =>
      obtain ⟨hP, hdown⟩ := hnext a ha hpast
      obtain ⟨l, fuel, hl⟩ := ih (next a) hdown hP
      exact ⟨a :: l, fuel + 1, iterates_eq_ok.mpr (.inr ⟨hpast, l, hl, rfl⟩)⟩

end Outcome
