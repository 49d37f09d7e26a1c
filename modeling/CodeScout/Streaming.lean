import CodeScout.ResultMatch

/-!
# Search events

What a search job sends down a stream: some matches and some statistics,
either of which may be empty.
-/

namespace Streaming

open Result

/-- Statistics about a search. The maps are given by their entries. -/
structure Stats where
  isLimitHit : Bool
  repos : List Int32
  status : List (Int32 × UInt8)
  backendsMissing : ℤ
  excludedForks : ℤ
  excludedArchived : ℤ
deriving DecidableEq, Repr

/-- The zero value `Stats{}`. -/
def Stats.empty : Stats := ⟨false, [], [], 0, 0, 0⟩

/-- **`Stats.Zero`.** -/
def Stats.zero (c : Stats) : Bool :=
  !(c.isLimitHit || decide (0 < c.repos.length) || decide (0 < c.status.length)
    || decide (0 < c.backendsMissing) || decide (0 < c.excludedForks)
    || decide (0 < c.excludedArchived))

/-- Results, and progress. -/
structure SearchEvent where
  results : List Match
  stats : Stats
deriving DecidableEq

/-- The results an event carries. -/
def SearchEvent.count (event : SearchEvent) : ℕ :=
  resultCount event.results

/-- The results some events carry. -/
def totalCount (events : List SearchEvent) : ℕ :=
  (events.map SearchEvent.count).sum

theorem totalCount_cons (event : SearchEvent) (events : List SearchEvent) :
    totalCount (event :: events) = event.count + totalCount events :=
  List.sum_cons

theorem totalCount_append (l₁ l₂ : List SearchEvent) :
    totalCount (l₁ ++ l₂) = totalCount l₁ + totalCount l₂ := by
  rw [totalCount, List.map_append, List.sum_append]
  rfl

theorem totalCount_perm {l₁ l₂ : List SearchEvent} (h : l₁.Perm l₂) :
    totalCount l₁ = totalCount l₂ :=
  (h.map _).sum_eq

/-- An event with one repository. -/
def repoEvent : SearchEvent := ⟨[.repo ⟨lit "r", [], [], []⟩], Stats.empty⟩

end Streaming
