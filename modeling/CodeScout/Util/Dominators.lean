import Mathlib.Data.List.Basic
import Mathlib.Tactic.Common

/-!
# Dominators

A vertex of a graph dominates another one if every path from a root to that
one passes through it. The dominators of a vertex are the vertex itself and
the common dominators of its parents (`dominates_iff`), which is the
equation that a pass over an acyclic graph solves.
-/

namespace Dominators

variable {V : Type} (isRoot : V → Prop) (edge : V → V → Prop)

/-- **A path from a root.** -/
inductive RootPath : List V → V → Prop
  | root {v : V} (h : isRoot v) : RootPath [v] v
  | step {path : List V} {u v : V} (h : RootPath path u) (hedge : edge u v) :
      RootPath (path ++ [v]) v

/-- **The first vertex is on every path to the second.** -/
def Dominates (d v : V) : Prop :=
  ∀ path, RootPath isRoot edge path v → d ∈ path

variable {isRoot edge} {d v : V}

theorem RootPath.last_mem {path : List V} (h : RootPath isRoot edge path v) : v ∈ path := by
  cases h with
  | root _ => exact List.mem_cons_self
  | step _ _ => exact List.mem_append_right _ List.mem_cons_self

theorem dominates_refl (v : V) : Dominates isRoot edge v v := fun _ h => h.last_mem

/-- A root without parents is dominated by itself only. -/
theorem dominates_root (hroot : isRoot v) (hedge : ∀ u, ¬edge u v) :
    Dominates isRoot edge d v ↔ d = v := by
  constructor
  · exact fun h => List.mem_singleton.mp (h [v] (.root hroot))
  · rintro rfl
    exact dominates_refl d

/-- **The equation of dominators.** -/
theorem dominates_iff (hroot : ¬isRoot v) :
    Dominates isRoot edge d v ↔ d = v ∨ ∀ u, edge u v → Dominates isRoot edge d u := by
  constructor
  · intro h
    refine or_iff_not_imp_left.mpr fun hne u hedge path hpath => ?_
    have hmem := h (path ++ [v]) (.step hpath hedge)
    rw [List.mem_append, List.mem_singleton] at hmem
    exact hmem.resolve_right hne
  · rintro (rfl | h)
    · exact dominates_refl d
    · intro path hpath
      cases hpath with
      | root hv => exact absurd hv hroot
      | step hpath hedge => exact List.mem_append_left _ (h _ hedge _ hpath)

/-- **The only root dominates every vertex.** -/
theorem dominates_of_unique (huniq : ∀ u, isRoot u → u = d) (v : V) :
    Dominates isRoot edge d v := by
  intro path hpath
  induction hpath with
  | root h => exact List.mem_singleton.mpr (huniq _ h).symm
  | step _ _ ih => exact List.mem_append_left _ ih

end Dominators
