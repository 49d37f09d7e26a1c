import Mathlib.Logic.Relation
import Mathlib.Algebra.BigOperators.Group.List.Basic
import Mathlib.Tactic.Common

/-!
# Interleaved processes

Finitely many processes share a state. A process moves by atomic actions:
`act s p` is the shared state and the process after the next action of `p`,
and `none` when `p` has no action to take. A step of the system is an
action of any one process, so the runs of the system are all interleavings
of the actions.

When every action brings its process closer to its end, every run can be
completed (`exists_terminal`), and a state in which no process can act is
one that no run leaves.
-/

namespace Interleaving

variable {S P : Type} (act : S → P → Option (S × P))

/-- One action of one process. -/
inductive Step : S × List P → S × List P → Prop
  | act {s s' : S} {p p' : P} (pre post : List P) (h : act s p = some (s', p')) :
    Step (s, pre ++ p :: post) (s', pre ++ p' :: post)

/-- The states the system can be in after any number of actions. -/
abbrev Reaches : S × List P → S × List P → Prop :=
  Relation.ReflTransGen (Step act)

/-- No process can act. -/
def Terminal (c : S × List P) : Prop :=
  ∀ c', ¬ Step act c c'

theorem terminal_iff {s : S} {ps : List P} :
    Terminal act (s, ps) ↔ ∀ p ∈ ps, act s p = none := by
  constructor
  · intro h p hp
    obtain ⟨pre, post, rfl⟩ := List.append_of_mem hp
    cases hact : act s p with
    | none => rfl
    | some r => exact absurd (Step.act pre post hact) (h _)
  · rintro h c' hstep
    cases hstep with
    | act pre post hact =>
      rw [h _ (List.mem_append_right _ List.mem_cons_self)] at hact
      cases hact

/-- **An invariant of every action holds in every reachable state.** An
invariant that does not depend on the order of the processes has to be
proved for the actions of the first process only. -/
theorem Reaches.invariant (Inv : S → List P → Prop)
    (hperm : ∀ {s ps ps'}, ps.Perm ps' → Inv s ps → Inv s ps')
    (hstep : ∀ {s s' p p' rest}, act s p = some (s', p') → Inv s (p :: rest) →
      Inv s' (p' :: rest))
    {s s' : S} {ps ps' : List P} (hreach : Reaches act (s, ps) (s', ps')) (h : Inv s ps) :
    Inv s' ps' := by
  have hall : ∀ c, Reaches act (s, ps) c → Inv c.1 c.2 := by
    intro c hc
    induction hc with
    | refl => exact h
    | tail _ hlast ih =>
      cases hlast with
      | act pre post hact =>
        exact hperm List.perm_middle.symm (hstep hact (hperm List.perm_middle ih))
  exact hall _ hreach

/-- **Every run ends** when every action lowers what the shared state and its
process weigh together. -/
theorem wellFounded_step {load : S → ℕ} {weight : P → ℕ}
    (hact : ∀ {s s' p p'}, act s p = some (s', p') → load s' + weight p' < load s + weight p) :
    WellFounded fun c' c => Step act c c' := by
  refine Subrelation.wf ?_ (measure fun c : S × List P => load c.1 + (c.2.map weight).sum).wf
  intro c' c hstep
  cases hstep with
  | act pre post h =>
    show load _ + _ < load _ + _
    simp only [List.map_append, List.map_cons, List.sum_append, List.sum_cons]
    have := hact h
    omega

/-- **Every run can be completed** when every run ends. -/
theorem exists_terminal_of_wellFounded (hwf : WellFounded fun c' c => Step act c c')
    (c : S × List P) : ∃ c', Reaches act c c' ∧ Terminal act c' := by
  induction c using hwf.induction with
  | _ c ih =>
    by_cases hterm : Terminal act c
    · exact ⟨c, .refl, hterm⟩
    · obtain ⟨c₁, hstep⟩ : ∃ c₁, Step act c c₁ := by
        unfold Terminal at hterm
        push Not at hterm
        exact hterm
      obtain ⟨c', hreach, hc'⟩ := ih c₁ hstep
      exact ⟨c', .head hstep hreach, hc'⟩

/-- Every run can be completed when every action makes its process lighter. -/
theorem exists_terminal {weight : P → ℕ}
    (hact : ∀ {s s' p p'}, act s p = some (s', p') → weight p' < weight p)
    (c : S × List P) : ∃ c', Reaches act c c' ∧ Terminal act c' :=
  exists_terminal_of_wellFounded act
    (@wellFounded_step S P act (fun _ => 0) weight fun h => Nat.add_lt_add_left (hact h) 0) c

end Interleaving
