import Mathlib.Algebra.BigOperators.Group.List.Basic
import Mathlib.Algebra.Order.BigOperators.Group.List
import Mathlib.Data.Nat.Basic
import Mathlib.Tactic.Ring

/-!
# Foundations/Apportion — an amount divided in the ratio of weights, rounded down

Each of the weights is given the floor of its ratio of the amount. The floors never add up to more
than there is, and what they leave is less than the number of weights that are not zero.
-/

namespace Apportion

open List

variable {amount : ℕ} {weights : List ℕ}

/-- The floor of a weight's ratio of the amount. -/
def floors (amount : ℕ) (weights : List ℕ) : List ℕ := weights.map fun w => amount * w / weights.sum

theorem mul_sum_div_add (amount divisor : ℕ) (weights : List ℕ) :
    divisor * (weights.map fun w => amount * w / divisor).sum + (weights.map fun w =>
      amount * w % divisor).sum = amount * weights.sum := by
  induction weights with
  | nil => simp
  | cons w weights ih =>
    have hw := Nat.div_add_mod (amount * w) divisor
    simp only [map_cons, sum_cons, Nat.mul_add]
    omega

theorem sum_mod_add_le {divisor : ℕ} (hpos : 0 < divisor) (amount : ℕ) (weights : List ℕ) :
    (weights.map fun w => amount * w % divisor).sum + (weights.filter fun w => w ≠ 0).length
      ≤ divisor * (weights.filter fun w => w ≠ 0).length := by
  induction weights with
  | nil => simp
  | cons w weights ih =>
    have hmod := Nat.mod_lt (amount * w) hpos
    by_cases hw : w = 0
    · simpa [hw] using ih
    · simp only [map_cons, sum_cons, filter_cons, decide_eq_true hw, if_true, length_cons,
        Nat.mul_add, Nat.mul_one]
      omega

theorem mul_sub_sum_floors :
    weights.sum * (amount - (floors amount weights).sum)
      = (weights.map fun w => amount * w % weights.sum).sum := by
  have hsum := mul_sum_div_add amount weights.sum weights
  rw [Nat.mul_sub, floors, Nat.mul_comm weights.sum amount]
  omega

theorem sub_sum_floors_lt (hpos : 0 < weights.sum) :
    amount - (floors amount weights).sum < (weights.filter fun w => w ≠ 0).length := by
  have hc : 0 < (weights.filter fun w => w ≠ 0).length := by
    obtain ⟨w, hw, hne⟩ : ∃ w ∈ weights, w ≠ 0 := by
      by_contra hall
      push Not at hall
      exact hpos.ne' (sum_eq_zero hall)
    exact length_pos_of_mem (mem_filter.mpr ⟨hw, decide_eq_true hne⟩)
  refine Nat.lt_of_mul_lt_mul_left (a := weights.sum) ?_
  rw [mul_sub_sum_floors]
  have hle := sum_mod_add_le hpos amount weights
  omega

end Apportion
