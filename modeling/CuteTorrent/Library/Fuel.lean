import Mathlib.Data.List.Basic

/-! Loops over a list that are given a number of steps: as many as the list is long
are enough. -/
namespace Fuel
variable {α β : Type*}

/-- A loop that goes on with a shorter list each time does not depend on the number of
steps it is given. -/
theorem eq_of_length_le (loop : Nat → List α → β) (hempty : ∀ f g, loop f [] = loop g [])
    (hstep : ∀ f g l, l ≠ [] → (∀ l', l'.length < l.length → loop f l' = loop g l') →
      loop (f + 1) l = loop (g + 1) l)
    {f g : Nat} {l : List α} (hf : l.length ≤ f) (hg : l.length ≤ g) : loop f l = loop g l := by
  induction f generalizing g l with
  | zero =>
    obtain rfl : l = [] := List.length_eq_zero_iff.mp (Nat.le_zero.mp hf)
    exact hempty _ _
  | succ f ih =>
    by_cases hl : l = []
    · subst hl
      exact hempty _ _
    · cases g with
      | zero => exact absurd (List.length_eq_zero_iff.mp (Nat.le_zero.mp hg)) hl
      | succ g =>
        refine hstep f g l hl fun l' hshorter => ?_
        exact ih (by omega) (by omega)

end Fuel
