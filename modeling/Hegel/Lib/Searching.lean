/-
Resumable searches.  A search asks about one value after the other and is told
a verdict on each; what it has asked and been told is its history.  A search
whose rank falls with every verdict converges within its rank.
-/
import Mathlib.Data.List.Basic

namespace Hegel

/-- A search: what it asks about next, if anything, and what a verdict makes of
it. -/
structure Searching (State Value : Type) where
  probe : State → Option Value
  record : State → Bool → State

namespace Searching

variable {State Value : Type} (search : Searching State Value)

/-- The questions asked and their verdicts, and the search that is left, when
verdicts are given one after the other for as long as there is a question. -/
def ask : List Bool → State → List (Value × Bool) × State
  | [], state => ([], state)
  | ok :: verdicts, state =>
      match search.probe state with
      | none => ([], state)
      | some value =>
          let (asked, final) := ask verdicts (search.record state ok)
          ((value, ok) :: asked, final)

/-- What holds of a history and is kept by each question holds in the end. -/
theorem ask_invariant (invariant : List (Value × Bool) → State → Prop)
    (hstep : ∀ asked state value ok, invariant asked state →
      search.probe state = some value →
      invariant (asked ++ [(value, ok)]) (search.record state ok))
    (verdicts : List Bool) {asked : List (Value × Bool)} {state : State}
    (hstart : invariant asked state) :
    invariant (asked ++ (search.ask verdicts state).1)
      (search.ask verdicts state).2 := by
  induction verdicts generalizing asked state with
  | nil =>
      rw [ask, List.append_nil]
      exact hstart
  | cons ok verdicts ih =>
      rw [ask]
      cases hprobe : search.probe state with
      | none =>
          dsimp only
          rw [List.append_nil]
          exact hstart
      | some value =>
          have hnext := ih (hstep asked state value ok hstart hprobe)
          rw [List.append_assoc] at hnext
          exact hnext

/-- Enough verdicts leave no question. -/
theorem ask_converges (valid : State → Prop) (rank : State → Nat)
    (hvalid : ∀ state ok, valid state → valid (search.record state ok))
    (hrank : ∀ state value ok, valid state →
      search.probe state = some value →
      rank (search.record state ok) < rank state)
    {verdicts : List Bool} {state : State} (hstart : valid state)
    (henough : rank state ≤ verdicts.length) :
    search.probe (search.ask verdicts state).2 = none := by
  induction verdicts generalizing state with
  | nil =>
      cases hprobe : search.probe state with
      | none =>
          rw [ask]
          exact hprobe
      | some value =>
          have hless := hrank state value true hstart hprobe
          rw [List.length_nil] at henough
          omega
  | cons ok verdicts ih =>
      rw [ask]
      cases hprobe : search.probe state with
      | none => exact hprobe
      | some value =>
          have hless := hrank state value ok hstart hprobe
          rw [List.length_cons] at henough
          exact ih (hvalid state ok hstart) (by omega)

end Searching

end Hegel
