import Mathlib.Tactic.Common

/-!
# Outcomes of computations

A computation returns a value or an error, or panics. A computation whose
loops have no bound of their own is modelled with fuel, and has a fourth
outcome when the fuel is used up.

`Safe Q x` is a postcondition: `x` does not panic or run out of fuel, and if
it returns a value then that value satisfies `Q`. `Extends x y` says that
`y` was given more fuel: it is `x`, unless `x` ran out. `Yields x a` says that
`x` returns `a` with enough fuel.
-/

/-- The outcome of a computation. -/
inductive Outcome (ε α : Type) where
  | ok (a : α)
  | error (e : ε)
  | panic
  | outOfFuel
deriving DecidableEq, Repr

namespace Outcome

variable {ε α β : Type}

/-- One computation after another. -/
def bind (x : Outcome ε α) (f : α → Outcome ε β) : Outcome ε β :=
  match x with
  | ok a => f a
  | error e => error e
  | panic => panic
  | outOfFuel => outOfFuel

instance : Monad (Outcome ε) where
  pure := ok
  bind := bind

@[simp] theorem pure_eq (a : α) : (pure a : Outcome ε α) = ok a := rfl

@[simp] theorem ok_bind (a : α) (f : α → Outcome ε β) : (ok a >>= f) = f a := rfl

@[simp] theorem error_bind (e : ε) (f : α → Outcome ε β) : (error e >>= f) = error e := rfl

@[simp] theorem panic_bind (f : α → Outcome ε β) : (panic >>= f) = panic := rfl

@[simp] theorem outOfFuel_bind (f : α → Outcome ε β) : (outOfFuel >>= f) = outOfFuel := rfl

instance : LawfulMonad (Outcome ε) :=
  LawfulMonad.mk' (Outcome ε) (fun x => by cases x <;> rfl) (fun _ _ => rfl)
    (fun x _ _ => by cases x <;> rfl)

variable {x y : Outcome ε α}

theorem bind_eq_ok {f : α → Outcome ε β} {b : β} :
    (x >>= f) = ok b ↔ ∃ a, x = ok a ∧ f a = ok b := by
  cases x with
  | ok a => simp
  | error e => simp
  | panic => simp
  | outOfFuel => simp

/-- A value, or a panic. -/
def ofOption : Option α → Outcome ε α
  | some a => ok a
  | none => panic

/-- A value or an error. -/
def ofExcept : Except ε α → Outcome ε α
  | .ok a => ok a
  | .error e => error e

/-- Another error instead of the one that was returned. -/
def mapError (f : ε → ε) : Outcome ε α → Outcome ε α
  | error e => error (f e)
  | x => x

/-! ## Postconditions -/

/-- The computation neither panics nor runs out of fuel, and a value it
returns satisfies `Q`. -/
def Safe (Q : α → Prop) : Outcome ε α → Prop
  | ok a => Q a
  | error _ => True
  | panic => False
  | outOfFuel => False

theorem Safe.bind {P : α → Prop} {Q : β → Prop} {f : α → Outcome ε β}
    (hx : Safe P x) (hf : ∀ a, P a → Safe Q (f a)) : Safe Q (x >>= f) := by
  cases x with
  | ok a => exact hf a hx
  | error e => trivial
  | panic => exact hx
  | outOfFuel => exact hx

theorem Safe.mono {P Q : α → Prop} (hx : Safe P x) (h : ∀ a, P a → Q a) :
    Safe Q x := by
  cases x with
  | ok a => exact h a hx
  | error e => trivial
  | panic => exact hx
  | outOfFuel => exact hx

variable {step : α → β → Outcome ε α}

/-- **A loop is safe** if each step is, with an invariant on the elements that
were processed. -/
theorem Safe.foldlM (Inv : List β → α → Prop) {l : List β}
    (hstep : ∀ done b, done ++ [b] <+: l → ∀ a, Inv done a → Safe (Inv (done ++ [b])) (step a b))
    {a : α} (ha : Inv [] a) : Safe (Inv l) (l.foldlM step a) := by
  suffices h : ∀ todo done a, done ++ todo = l → Inv done a → Safe (Inv l) (todo.foldlM step a) from
    h l [] a rfl ha
  intro todo
  induction todo with
  | nil =>
    intro done a hl hinv
    rw [List.append_nil] at hl
    exact hl ▸ hinv
  | cons b todo ih =>
    intro done a hl hinv
    rw [List.append_cons] at hl
    rw [List.foldlM_cons]
    exact (hstep done b ⟨todo, hl⟩ a hinv).bind fun a' hinv' => ih (done ++ [b]) a' hl hinv'

variable {Q : α → Prop}

/-- A loop is safe if its steps keep what holds before it. -/
theorem Safe.foldlM_of_forall {l : List β}
    (hstep : ∀ b ∈ l, ∀ a, Q a → Safe Q (step a b)) {a : α} (ha : Q a) :
    Safe Q (l.foldlM step a) :=
  Safe.foldlM (fun _ => Q)
    (fun _ b hpre => hstep b (hpre.subset (List.mem_append_right _ List.mem_cons_self))) ha

/-- What a loop that returns has done, by the invariant that its steps keep. -/
theorem inv_of_foldlM_eq_ok (Inv : List β → α → Prop) {l : List β}
    (hstep : ∀ done b, done ++ [b] <+: l → ∀ a a', Inv done a → step a b = ok a' →
      Inv (done ++ [b]) a') {a a' : α} (ha : Inv [] a) (h : l.foldlM step a = ok a') :
    Inv l a' := by
  suffices h : ∀ todo done a, done ++ todo = l → Inv done a → todo.foldlM step a = ok a' →
      Inv l a' from h l [] a rfl ha ‹_›
  intro todo
  induction todo with
  | nil =>
    intro done a hl hinv heq
    cases heq
    rw [List.append_nil] at hl
    exact hl ▸ hinv
  | cons b todo ih =>
    intro done a hl hinv heq
    rw [List.append_cons] at hl
    rw [List.foldlM_cons] at heq
    obtain ⟨a₁, hfirst, hrest⟩ := bind_eq_ok.1 heq
    exact ih (done ++ [b]) a₁ hl (hstep done b ⟨todo, hl⟩ a a₁ hinv hfirst) hrest

theorem Safe.exists_ok {x : Outcome Empty α} (hx : Safe Q x) :
    ∃ a, x = ok a ∧ Q a := by
  cases x with
  | ok a => exact ⟨a, rfl, hx⟩
  | error e => exact nomatch e
  | panic => exact absurd hx id
  | outOfFuel => exact absurd hx id

/-! ## More fuel -/

/-- The second computation is the first one, unless that ran out of fuel. -/
def Extends (x y : Outcome ε α) : Prop :=
  x = outOfFuel ∨ x = y

theorem Extends.refl (x : Outcome ε α) : Extends x x :=
  .inr rfl

theorem Extends.bind {f g : α → Outcome ε β} (h : Extends x y)
    (hfg : ∀ a, Extends (f a) (g a)) : Extends (x >>= f) (y >>= g) := by
  rcases h with rfl | rfl
  · exact .inl rfl
  · cases x with
    | ok a => exact hfg a
    | error e => exact .inr rfl
    | panic => exact .inr rfl
    | outOfFuel => exact .inr rfl

theorem Extends.trans {x y z : Outcome ε α} (h : Extends x y) (h' : Extends y z) :
    Extends x z := by
  rcases h with rfl | rfl
  · exact .inl rfl
  · exact h'

/-- If one unit of fuel more does not change a result, no fuel does. -/
theorem extends_of_le {x : ℕ → Outcome ε α} (h : ∀ fuel, Extends (x fuel) (x (fuel + 1)))
    {fuel fuel' : ℕ} (hle : fuel ≤ fuel') : Extends (x fuel) (x fuel') := by
  induction hle with
  | refl => exact .refl _
  | step _ ih => exact ih.trans (h _)

/-- The computation returns the value if it has enough fuel. -/
def Yields (x : ℕ → Outcome ε α) (a : α) : Prop :=
  ∃ fuel, x fuel = .ok a

/-- With any larger amount of fuel as well. -/
theorem Yields.of_le {x : ℕ → Outcome ε α} (h : ∀ fuel, Extends (x fuel) (x (fuel + 1))) {a : α}
    (hx : Yields x a) : ∃ fuel, ∀ fuel', fuel ≤ fuel' → x fuel' = .ok a := by
  obtain ⟨fuel, hfuel⟩ := hx
  refine ⟨fuel, fun fuel' hle => ?_⟩
  rcases extends_of_le h hle with hout | heq
  · rw [hfuel] at hout
    cases hout
  · rw [← heq, hfuel]

end Outcome

/-! ## Computations with errors only -/

namespace Except

variable {ε α β : Type} {x : Except ε α} {b : β}

theorem exists_of_bind {f : α → Except ε β} (h : (x >>= f) = .ok b) :
    ∃ a, x = .ok a ∧ f a = .ok b := by
  cases x with
  | error err => cases h
  | ok a => exact ⟨a, rfl, h⟩

theorem exists_of_map {f : α → β} (h : x.map f = .ok b) : ∃ a, x = .ok a ∧ f a = b := by
  cases x with
  | error err => cases h
  | ok a => exact ⟨a, rfl, Except.ok.inj h⟩

end Except
