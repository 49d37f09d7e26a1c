import Mathlib.Data.List.Basic
import Mathlib.Tactic.Common

/-!
# Machines

A machine takes events: `step s e` is its state after the event `e` in state
`s`, and `none` when the event cannot happen there. The choices of the
environment are part of the events, so a list of events determines a run, and
what holds after every list of events holds along every run.
-/

namespace Machine

universe u v

variable {S : Type u} {E : Type v} (step : S → E → Option S)

/-- The state after a list of events. -/
def run (s : S) (events : List E) : Option S :=
  events.foldlM step s

variable {step}

theorem run_cons {s s' : S} {event : E} {events : List E} :
    run step s (event :: events) = some s' ↔ ∃ s₁, step s event = some s₁
      ∧ run step s₁ events = some s' :=
  Option.bind_eq_some_iff

/-- **What every step keeps, every run keeps.** -/
theorem run_invariant {Inv : S → Prop}
    (hstep : ∀ {s s' event}, step s event = some s' → Inv s → Inv s') {s s' : S} {events : List E}
    (hrun : run step s events = some s') (h : Inv s) : Inv s' := by
  induction events generalizing s with
  | nil =>
    obtain rfl := Option.some.inj hrun
    exact h
  | cons event events ih =>
    obtain ⟨s₁, hfirst, hrest⟩ := run_cons.mp hrun
    exact ih hrest (hstep hfirst h)

variable (step) in
/-- All events of a list happen in states in which they are allowed. -/
def Along (allowed : S → E → Prop) : S → List E → Prop
  | _, [] => True
  | s, event :: events =>
    allowed s event ∧ ∀ s', step s event = some s' → Along allowed s' events

/-- **What every step that is allowed keeps**, every run of such steps keeps. -/
theorem run_invariant_along {Inv : S → Prop} {allowed : S → E → Prop}
    (hstep : ∀ {s s' event}, step s event = some s' → allowed s event → Inv s → Inv s') {s s' : S}
    {events : List E} (hrun : run step s events = some s') (halong : Along step allowed s events)
    (h : Inv s) : Inv s' := by
  induction events generalizing s with
  | nil =>
    obtain rfl := Option.some.inj hrun
    exact h
  | cons event events ih =>
    obtain ⟨s₁, hfirst, hrest⟩ := run_cons.mp hrun
    exact ih hrest (halong.2 s₁ hfirst) (hstep hfirst halong.1 h)

end Machine
