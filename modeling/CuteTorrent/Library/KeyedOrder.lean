import Mathlib.Data.Prod.Lex
import Mathlib.Order.RelClasses

/-! Sort orders that come from a key: a relation that compares keys of a linear order, in
groups one behind the other, is a strict weak order. -/
namespace KeyedOrder
variable {α γ κ : Type*} [LinearOrder γ] [LinearOrder κ]

/-- First by the group, within a group by the key. -/
def Before (group : α → γ) (key : α → κ) (a b : α) : Prop :=
  group a < group b ∨ group a = group b ∧ key a < key b

theorem before_eq_preimage (group : α → γ) (key : α → κ) : Before group key =
    Order.Preimage (fun a => toLex (group a, key a)) (· < ·) := by
  funext a b
  exact propext (Prod.Lex.toLex_lt_toLex (x := (group a, key a)) (y := (group b, key b))).symm

theorem isStrictWeakOrder_before (group : α → γ) (key : α → κ) :
    IsStrictWeakOrder α (Before group key) := by
  have hlex : IsStrictWeakOrder (γ ×ₗ κ) (· < ·) := isStrictWeakOrder_of_isOrderConnected
  rw [before_eq_preimage]
  infer_instance

end KeyedOrder
