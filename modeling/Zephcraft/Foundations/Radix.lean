import Mathlib

/-!
# Foundations/Radix — values of a radix tree, and keeping them up to date

Leaves are numbered, a node of height `h + 1` and number `k` stands over the nodes `k * b, …, k * b
+ b - 1` of height `h`, and its value is made from theirs.
-/

namespace Radix

variable {α : Type*} {b : ℕ} {combine : (Fin b → Option α) → Option α} {leaf leaf' : ℕ → Option α}
  {h k n : ℕ}

/-! ## Ancestors -/

theorem child_div (hb : 0 < b) (i : Fin b) : (k * b + i) / b = k := by
  rw [Nat.add_div_of_dvd_right (dvd_mul_left b k), Nat.mul_div_cancel _ hb, Nat.div_eq_of_lt i.isLt,
    add_zero]

theorem div_pow_succ_eq_iff (hb : 0 < b) :
    n / b ^ (h + 1) = k ↔ ∃ i : Fin b, n / b ^ h = k * b + i := by
  rw [pow_succ, ← Nat.div_div_eq_div_mul]
  constructor
  · rintro rfl
    exact ⟨⟨n / b ^ h % b, Nat.mod_lt _ hb⟩, (Nat.div_add_mod' _ b).symm⟩
  · rintro ⟨i, hi⟩
    rw [hi, child_div hb]

/-- The node of height `h` and number `k` stands over one of the leaves in `D`. -/
def Touched (b : ℕ) (D : Set ℕ) (h k : ℕ) : Prop := ∃ n ∈ D, n / b ^ h = k

theorem Touched.mono {D D' : Set ℕ} (hD : D ⊆ D') (ht : Touched b D h k) : Touched b D' h k := by
  obtain ⟨n, hn, hk⟩ := ht
  exact ⟨n, hD hn, hk⟩

theorem Touched.parent {D : Set ℕ} (ht : Touched b D h k) : Touched b D (h + 1) (k / b) := by
  obtain ⟨n, hn, rfl⟩ := ht
  exact ⟨n, hn, by rw [pow_succ, Nat.div_div_eq_div_mul]⟩

/-! ## The values -/

variable (combine leaf) in
/-- The value of the node of height `h` and number `k`. -/
def tree : ℕ → ℕ → Option α
  | 0, k => leaf k
  | h + 1, k => combine fun i => tree h (k * b + i)

theorem tree_congr (hb : 0 < b) (hl : ∀ n, n / b ^ h = k → leaf n = leaf' n) :
    tree combine leaf h k = tree combine leaf' h k := by
  induction h generalizing k with
  | zero => exact hl k (by simp)
  | succ h ih =>
    refine congrArg combine (funext fun i => ih fun n hn => hl n ?_)
    exact (div_pow_succ_eq_iff hb).mpr ⟨i, hn⟩

theorem tree_of_untouched (hb : 0 < b) {D : Set ℕ} (hl : ∀ n ∉ D, leaf n = leaf' n)
    (hk : ¬ Touched b D h k) : tree combine leaf h k = tree combine leaf' h k :=
  tree_congr hb fun n hn => hl n fun hD => hk ⟨n, hD, hn⟩

theorem tree_eq_none_iff (hb : 0 < b) (hc : ∀ f, combine f = none ↔ ∀ i, f i = none) :
    tree combine leaf h k = none ↔ ∀ n, n / b ^ h = k → leaf n = none := by
  induction h generalizing k with
  | zero => simp [tree]
  | succ h ih =>
    rw [tree, hc]
    simp only [ih, div_pow_succ_eq_iff hb]
    exact ⟨fun hall n ⟨i, hi⟩ => hall i n hi, fun hall i n hi => hall n ⟨i, hi⟩⟩

theorem exists_leaf_of_tree (hb : 0 < b) (hc : ∀ f, combine f = none ↔ ∀ i, f i = none) {a : α}
    (ha : tree combine leaf h k = some a) : ∃ n, n / b ^ h = k ∧ leaf n ≠ none := by
  have hne : ¬ tree combine leaf h k = none := by simp [ha]
  rw [tree_eq_none_iff hb hc] at hne
  push Not at hne
  exact hne

end Radix
