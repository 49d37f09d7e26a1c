import Mathlib

/-!
# Patterns with gaps

A pattern is a list of pieces: a letter that must satisfy a condition, or a
gap of any number of letters that satisfy one. A word matches if it can be
cut into the letters and gaps of the pattern (`matchPieces_append`). The
letters are of any type: bytes for patterns of names, names for patterns of
paths.
-/

namespace Wildcard

open List

variable {σ : Type}

/-- A letter or a gap. -/
inductive Piece (σ : Type)
  | letter (p : σ → Bool)
  | gap (p : σ → Bool)

/-- Any letter. -/
def Piece.one : Piece σ := .letter fun _ => true

/-- A gap of any letters. -/
def Piece.any : Piece σ := .gap fun _ => true

/-- Whether the rest of a word is accepted after a gap. -/
def skip (p : σ → Bool) (accepts : List σ → Bool) : List σ → Bool
  | [] => accepts []
  | x :: w => accepts (x :: w) || (p x && skip p accepts w)

/-- The word can be cut into the pieces. -/
def matchPieces : List (Piece σ) → List σ → Bool
  | [], w => w.isEmpty
  | .letter _ :: _, [] => false
  | .letter p :: ps, x :: w => p x && matchPieces ps w
  | .gap p :: ps, w => skip p (matchPieces ps) w

theorem skip_eq_true {p : σ → Bool} {accepts : List σ → Bool} {w : List σ} :
    skip p accepts w = true ↔
      ∃ u v, w = u ++ v ∧ (∀ x ∈ u, p x = true) ∧ accepts v = true := by
  induction w with
  | nil =>
    constructor
    · exact fun h => ⟨[], [], rfl, nofun, h⟩
    · rintro ⟨u, v, heq, -, h⟩
      rw [(append_eq_nil_iff.mp heq.symm).2] at h
      exact h
  | cons x w ih =>
    rw [skip, Bool.or_eq_true, Bool.and_eq_true, ih]
    constructor
    · rintro (h | ⟨hx, u, v, rfl, hu, h⟩)
      · exact ⟨[], x :: w, rfl, nofun, h⟩
      · exact ⟨x :: u, v, rfl, forall_mem_cons.mpr ⟨hx, hu⟩, h⟩
    · rintro ⟨u, v, heq, hu, h⟩
      cases u with
      | nil => exact .inl (heq ▸ h)
      | cons y u =>
        obtain ⟨rfl, rfl⟩ := cons.inj heq
        rw [forall_mem_cons] at hu
        exact .inr ⟨hu.1, u, v, rfl, hu.2, h⟩

theorem skip_any {accepts : List σ → Bool} {w : List σ} :
    skip (fun _ => true) accepts w = true ↔ ∃ v, v <:+ w ∧ accepts v = true := by
  rw [skip_eq_true]
  constructor
  · rintro ⟨u, v, rfl, -, h⟩
    exact ⟨v, suffix_append u v, h⟩
  · rintro ⟨v, ⟨u, rfl⟩, h⟩
    exact ⟨u, v, rfl, fun _ _ => rfl, h⟩

/-- **A word is cut where the pattern is cut.** -/
theorem matchPieces_append {ps qs : List (Piece σ)} {w : List σ} :
    matchPieces (ps ++ qs) w = true ↔
      ∃ u v, w = u ++ v ∧ matchPieces ps u = true ∧ matchPieces qs v = true := by
  induction ps generalizing w with
  | nil =>
    constructor
    · exact fun h => ⟨[], w, rfl, rfl, h⟩
    · rintro ⟨u, v, rfl, hu, hv⟩
      rw [isEmpty_iff.mp hu]
      exact hv
  | cons piece ps ih =>
    cases piece with
    | letter p =>
      cases w with
      | nil =>
        refine iff_of_false Bool.false_ne_true ?_
        rintro ⟨u, v, heq, hu, -⟩
        rw [(append_eq_nil_iff.mp heq.symm).1] at hu
        cases hu
      | cons x w =>
        rw [cons_append, matchPieces, Bool.and_eq_true, ih]
        constructor
        · rintro ⟨hx, u, v, rfl, hu, hv⟩
          exact ⟨x :: u, v, rfl, Bool.and_eq_true _ _ ▸ ⟨hx, hu⟩, hv⟩
        · rintro ⟨u, v, heq, hu, hv⟩
          cases u with
          | nil => cases hu
          | cons y u =>
            obtain ⟨rfl, rfl⟩ := cons.inj heq
            rw [matchPieces, Bool.and_eq_true] at hu
            exact ⟨hu.1, u, v, rfl, hu.2, hv⟩
    | gap p =>
      rw [cons_append, matchPieces, skip_eq_true]
      constructor
      · rintro ⟨u, v, rfl, hu, h⟩
        obtain ⟨v₁, v₂, rfl, h₁, h₂⟩ := ih.mp h
        exact ⟨u ++ v₁, v₂, (append_assoc _ _ _).symm, skip_eq_true.mpr ⟨u, v₁, rfl, hu, h₁⟩, h₂⟩
      · rintro ⟨u, v, rfl, hu, hv⟩
        obtain ⟨u₁, u₂, rfl, h₁, h₂⟩ := skip_eq_true.mp hu
        exact ⟨u₁, u₂ ++ v, append_assoc _ _ _, h₁, ih.mpr ⟨u₂, v, rfl, h₂, hv⟩⟩

theorem matchPieces_letter {p : σ → Bool} {w : List σ} :
    matchPieces [.letter p] w = true ↔ ∃ x, w = [x] ∧ p x = true := by
  match w with
  | [] => simp [matchPieces]
  | [x] => simp [matchPieces]
  | x :: y :: w => simp [matchPieces]

theorem matchPieces_any (w : List σ) : matchPieces [.any] w = true := by
  rw [Piece.any, matchPieces, skip_any]
  exact ⟨[], nil_suffix, rfl⟩

/-! ## The end of a pattern -/

section

variable {ps : List (Piece σ)} {w : List σ}

end

/-! ## Counting letters -/

end Wildcard
