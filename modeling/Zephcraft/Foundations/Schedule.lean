import Mathlib

/-!
# Foundations/Schedule — paying a rate in whole units by differences of floors

A rate of `R` units per `E` slots, paid in whole units: by the time slot `x` opens, `⌊x·R/E⌋` has
been paid, so slot `x` pays the difference to the next floor.
-/

namespace Schedule

open List

variable (R E : ℕ)

/-- What slot `x` pays. -/
def slot (x : ℕ) : ℕ := (x + 1) * R / E - x * R / E

/-- The slots that pay the extra unit: the carry of `x·R` and `R` modulo `E`. -/
def Rises (x : ℕ) : Prop := E ≤ x * R % E + R % E
deriving Decidable

variable {R E}

theorem div_mono (x : ℕ) : x * R / E ≤ (x + 1) * R / E :=
  Nat.div_le_div_right (Nat.mul_le_mul_right R (Nat.le_succ x))

theorem sum_slot (s n : ℕ) :
    ((List.range n).map fun i => slot R E (s + i)).sum = (s + n) * R / E - s * R / E := by
  induction n with
  | zero => simp
  | succ n ih =>
    have hs : s * R / E ≤ (s + n) * R / E :=
      Nat.div_le_div_right (Nat.mul_le_mul_right R (Nat.le_add_right s n))
    have hn : (s + n) * R / E ≤ (s + n + 1) * R / E := div_mono (s + n)
    rw [range_succ, map_append, sum_append, ih, ← Nat.add_assoc]
    simp only [map_cons, map_nil, sum_cons, sum_nil, slot]
    omega

theorem slot_eq (hE : 0 < E) (x : ℕ) : slot R E x = R / E + if Rises R E x then 1 else 0 := by
  have h : (x + 1) * R / E = x * R / E + R / E + if E ≤ x * R % E + R % E then 1 else 0 := by
    rw [Nat.succ_mul, Nat.add_div hE]
  rw [slot, h, Nat.add_assoc, Nat.add_sub_cancel_left]
  rfl

theorem slot_le (hE : 0 < E) (x : ℕ) : slot R E x ≤ R := by
  rw [slot_eq hE]
  have h := Nat.div_add_mod R E
  have hle : R / E ≤ E * (R / E) := Nat.le_mul_of_pos_left _ hE
  split
  · rename_i hx
    have hlt := Nat.mod_lt (x * R) hE
    unfold Rises at hx
    omega
  · omega

theorem sum_slot_eq_countP (hE : 0 < E) (xs : List ℕ) :
    (xs.map (slot R E)).sum = xs.length * (R / E) + xs.countP (Rises R E) := by
  induction xs with
  | nil => simp
  | cons x xs ih =>
    rw [map_cons, sum_cons, ih, slot_eq hE, length_cons, countP_cons, Nat.succ_mul]
    simp only [decide_eq_true_eq]
    omega

/-- **Any slots pay what `n` consecutive ones do exactly when as many of them rise.** -/
theorem sum_slot_eq_iff (hE : 0 < E) (s : ℕ) (xs : List ℕ) :
    (xs.map (slot R E)).sum = (s + xs.length) * R / E - s * R / E ↔ xs.countP (Rises R E)
        = ((List.range xs.length).map (s + ·)).countP (Rises R E) := by
  have hc := sum_slot_eq_countP (R := R) hE ((List.range xs.length).map (s + ·))
  rw [map_map, show (slot R E ∘ (s + ·)) = fun i => slot R E (s + i) from rfl, sum_slot,
    length_map, length_range] at hc
  rw [sum_slot_eq_countP hE, hc]
  omega

end Schedule
