import Zephcraft.Foundations.Codec

/-!
# Erasure/Gf — arithmetic in GF(2⁸) by tables of powers and logarithms

Addition is exclusive or. Multiplication looks the factors up in a table of logarithms to the base
`2`, adds, and looks the sum up in a table of powers that is long enough to spare a reduction.
-/

namespace Zephcraft.Erasure

open List Finset Function Word

namespace Gf

/-! ## The tables -/

/-- The polynomial the field is reduced by. -/
def poly : ℕ := 0x11D

/-- `x <<= 1; if x & 0x100 != 0 { x ^= POLY }`. -/
def double (x : ℕ) : ℕ :=
  let x := x <<< 1
  if x &&& 0x100 ≠ 0 then x ^^^ poly else x

/-- The values of `x` in the loop that fills the tables. -/
def powers : ℕ → ℕ → List ℕ
  | 0, _ => []
  | n + 1, x => x :: powers n (double x)

/-- The powers of `2`, twice over and two more: `exp[j] = exp[j - 255]`. -/
def exp : List Byte := (List.range 512).map fun j => truncate ((powers 255 1).getD (j % 255) 0)

/-- `log[x] = i` for each power in turn. -/
def log : List Byte :=
  (powers 255 1).zipIdx.foldl (fun log p => log.set p.1 (truncate p.2)) (List.replicate 256 0)

/-- `EXP[i]`. -/
def expAt (i : ℕ) : Byte := exp.getD i 0

/-- `LOG[a]`. -/
def logAt (a : Byte) : ℕ := (log.getD a.val 0).val

def add (a b : Byte) : Byte := ⟨a.val ^^^ b.val, Nat.xor_lt_two_pow a.isLt b.isLt⟩

def mul (a b : Byte) : Byte := if a = 0 ∨ b = 0 then 0 else expAt (logAt a + logAt b)

/-- The inverse of a byte other than zero; the source asserts that it is one. -/
def inv (a : Byte) : Byte := expAt (255 - logAt a)

/-! ## Doubling -/

theorem double_lt : ∀ x < 256, double x < 256 := by decide +kernel

theorem double_pos : ∀ x < 256, 0 < x → 0 < double x := by decide +kernel

variable (i : ℕ) (a : Byte) (x : ℕ) (b c : Byte)

theorem and_carry : x &&& 0x100 = (x.testBit 8).toNat * 0x100 := Nat.and_two_pow x 8

theorem double_xor (y : ℕ) : double (x ^^^ y) = double x ^^^ double y := by
  simp only [double, Nat.shiftLeft_xor_distrib, and_carry, Nat.testBit_xor]
  -- whether each of the two carries decides which of the three reductions take place
  cases (x <<< 1).testBit 8 <;> cases (y <<< 1).testBit 8
  · simp
  · simp [Nat.xor_assoc]
  · simp [Nat.xor_assoc, Nat.xor_comm poly]
  · simp [Nat.xor_assoc, Nat.xor_left_comm poly]

theorem double_zero : double 0 = 0 := rfl

theorem iterate_double_lt {x : ℕ} (h : x < 256) : double^[i] x < 256 := by
  induction i generalizing x with
  | zero => exact h
  | succ i ih => exact ih (double_lt x h)

theorem iterate_double_pos {x : ℕ} (h : x < 256) (h₀ : 0 < x) : 0 < double^[i] x := by
  induction i generalizing x with
  | zero => exact h₀
  | succ i ih => exact ih (double_lt x h) (double_pos x h h₀)

theorem iterate_double_xor (y : ℕ) : double^[i] (x ^^^ y) = double^[i] x ^^^ double^[i] y := by
  induction i generalizing x y with
  | zero => rfl
  | succ i ih => rw [iterate_succ_apply, iterate_succ_apply, iterate_succ_apply, double_xor, ih]

theorem iterate_double_zero : double^[i] 0 = 0 := iterate_fixed double_zero i

/-- **`2` has order `255`**: its period divides `255` and none of `85`, `51` and `15`. -/
theorem minimalPeriod_double : minimalPeriod double 1 = 255 := by
  have hp : IsPeriodicPt double 255 1 := by
    change double^[255] 1 = 1
    decide +kernel
  have h85 : ¬ IsPeriodicPt double 85 1 := by
    change double^[85] 1 ≠ 1
    decide +kernel
  have h51 : ¬ IsPeriodicPt double 51 1 := by
    change double^[51] 1 ≠ 1
    decide +kernel
  have h15 : ¬ IsPeriodicPt double 15 1 := by
    change double^[15] 1 ≠ 1
    decide +kernel
  rw [isPeriodicPt_iff_minimalPeriod_dvd] at hp h85 h51 h15
  generalize minimalPeriod double 1 = p at *
  have hmem : p ∈ Nat.divisors 255 := by simpa using hp
  rw [show Nat.divisors 255 = {1, 3, 5, 15, 17, 51, 85, 255} from by decide +kernel] at hmem
  simp only [mem_insert, Finset.mem_singleton] at hmem
  rcases hmem with rfl | rfl | rfl | rfl | rfl | rfl | rfl | rfl <;> omega

/-! ## Powers and logarithms -/

/-- The `i`th power of `2`. -/
def pow (i : ℕ) : Byte := ⟨double^[i] 1, iterate_double_lt i (by norm_num)⟩

theorem pow_ne_zero : pow i ≠ 0 := fun h =>
  (iterate_double_pos i (x := 1) (by norm_num) one_pos).ne' (congrArg Fin.val h)

theorem pow_mod : pow (i % 255) = pow i := by
  refine Fin.ext ?_
  change double^[i % 255] 1 = double^[i] 1
  rw [← minimalPeriod_double, iterate_mod_minimalPeriod_eq]

theorem pow_injOn {i j : ℕ} (hi : i < 255) (hj : j < 255) (h : pow i = pow j) : i = j := by
  refine iterate_injOn_Iio_minimalPeriod (f := double) (x := 1) ?_ ?_ (congrArg Fin.val h)
  · simpa [minimalPeriod_double] using hi
  · simpa [minimalPeriod_double] using hj

/-- **Every byte other than zero is a power of `2`**: the `255` powers are distinct. -/
theorem exists_pow {a : Byte} (h : a ≠ 0) : ∃ i < 255, pow i = a := by
  have hc : (Finset.univ.erase (0 : Byte)).card = 255 := by
    rw [card_erase_of_mem (mem_univ _), card_univ, Fintype.card_fin]
    norm_num
  obtain ⟨i, hi, hia⟩ := surj_on_of_inj_on_of_card_le (s := Finset.range 255)
    (fun i _ => pow i) (fun i _ => mem_erase.mpr ⟨pow_ne_zero i, mem_univ _⟩)
    (fun i j hi hj => pow_injOn (Finset.mem_range.mp hi) (Finset.mem_range.mp hj))
    (by rw [hc, card_range]) a (mem_erase.mpr ⟨h, mem_univ _⟩)
  exact ⟨i, Finset.mem_range.mp hi, hia.symm⟩

theorem length_powers (n x : ℕ) : (powers n x).length = n := by
  induction n generalizing x with
  | zero => rfl
  | succ n ih => simp [powers, ih]

theorem getElem?_powers {n i : ℕ} (h : i < n) : (powers n x)[i]? = some (double^[i] x) := by
  induction n generalizing i x with
  | zero => omega
  | succ n ih =>
    cases i with
    | zero => rfl
    | succ i => simpa [powers] using ih (double x) (by omega)

theorem expAt_eq {i : ℕ} (h : i < 512) : expAt i = pow i := by
  have hi : i % 255 < 255 := Nat.mod_lt _ (by norm_num)
  rw [← pow_mod, expAt, exp, getD_eq_getElem?_getD, getElem?_map, getElem?_range h]
  refine Fin.ext ?_
  change ((powers 255 1).getD (i % 255) 0) % 2 ^ 8 = double^[i % 255] 1
  rw [getD_eq_getElem?_getD, getElem?_powers 1 hi]
  exact Nat.mod_eq_of_lt (iterate_double_lt _ (by norm_num))

theorem getElem?_foldl_set_of_notMem {f : ℕ → Byte} {l : List ℕ} (n : ℕ) (table : List Byte) {x : ℕ}
    (hx : x ∉ l) : ((l.zipIdx n).foldl (fun t p => t.set p.1 (f p.2)) table)[x]? = table[x]? := by
  induction l generalizing n table with
  | nil => rfl
  | cons y l ih =>
    obtain ⟨hxy, hxl⟩ := ne_and_not_mem_of_not_mem_cons hx
    rw [zipIdx_cons, foldl_cons, ih _ _ hxl, getElem?_set_ne (Ne.symm hxy)]

theorem getElem?_foldl_set {f : ℕ → Byte} {l : List ℕ} (hl : l.Nodup) (n : ℕ) (table : List Byte)
    (ht : ∀ x ∈ l, x < table.length) {i x : ℕ} (hx : l[i]? = some x) :
    ((l.zipIdx n).foldl (fun t p => t.set p.1 (f p.2)) table)[x]? = some (f (n + i)) := by
  induction l generalizing n table i with
  | nil => simp at hx
  | cons y l ih =>
    obtain ⟨hy, hl⟩ := nodup_cons.mp hl
    rw [zipIdx_cons, foldl_cons]
    cases i with
    | zero =>
      obtain rfl : y = x := by simpa using hx
      rw [getElem?_foldl_set_of_notMem _ _ hy]
      simp [getElem?_set_self (ht y (by simp))]
    | succ i =>
      rw [ih hl (n + 1) _ (fun z hz => by simpa using ht z (.tail y hz)) (by simpa using hx)]
      congr 2
      omega

theorem nodup_powers : (powers 255 1).Nodup := by
  refine nodup_iff_getElem?_ne_getElem?.mpr fun i j hij hj heq => ?_
  rw [length_powers] at hj
  rw [getElem?_powers 1 (hij.trans hj), getElem?_powers 1 hj, Option.some.injEq] at heq
  exact hij.ne (pow_injOn (hij.trans hj) hj (Fin.ext heq))

theorem logAt_pow {i : ℕ} (h : i < 255) : logAt (pow i) = i := by
  have hlt : ∀ x ∈ powers 255 1, x < (List.replicate 256 (0 : Byte)).length := by
    intro x hx
    obtain ⟨j, hj, rfl⟩ := getElem_of_mem hx
    rw [length_powers] at hj
    have hval := getElem?_powers 1 hj
    rw [getElem?_eq_getElem (by rwa [length_powers]), Option.some.injEq] at hval
    rw [hval, length_replicate]
    exact iterate_double_lt j (by norm_num)
  have hset := getElem?_foldl_set (f := fun i => truncate i) nodup_powers 0 _ hlt
    (getElem?_powers 1 h)
  rw [logAt, log, getD_eq_getElem?_getD, show (pow i).val = double^[i] 1 from rfl, hset]
  simp only [Option.getD_some, zero_add, val_truncate]
  omega

/-! ## The laws -/

theorem mul_pow (j : ℕ) : mul (pow i) (pow j) = pow (i + j) := by
  have hi : i % 255 < 255 := Nat.mod_lt _ (by norm_num)
  have hj : j % 255 < 255 := Nat.mod_lt _ (by norm_num)
  rw [← pow_mod i, ← pow_mod j, mul, if_neg (by simp [pow_ne_zero]), logAt_pow hi, logAt_pow hj,
    expAt_eq (by omega), ← pow_mod, ← Nat.add_mod, pow_mod]

@[simp] theorem mul_zero : mul a 0 = 0 := by simp [mul]

@[simp] theorem zero_mul : mul 0 a = 0 := by simp [mul]

theorem mul_comm : mul a b = mul b a := by
  simp only [mul, Nat.add_comm, or_comm]

theorem mul_assoc : mul (mul a b) c = mul a (mul b c) := by
  by_cases ha : a = 0
  · simp [ha]
  by_cases hb : b = 0
  · simp [hb]
  by_cases hc : c = 0
  · simp [hc]
  obtain ⟨i, -, rfl⟩ := exists_pow ha
  obtain ⟨j, -, rfl⟩ := exists_pow hb
  obtain ⟨l, -, rfl⟩ := exists_pow hc
  rw [mul_pow, mul_pow, mul_pow, mul_pow, Nat.add_assoc]

@[simp] theorem one_mul : mul 1 a = a := by
  by_cases ha : a = 0
  · simp [ha]
  obtain ⟨i, -, rfl⟩ := exists_pow ha
  rw [show (1 : Byte) = pow 0 from rfl, mul_pow, Nat.zero_add]

theorem mul_inv {a : Byte} (ha : a ≠ 0) : mul a (inv a) = 1 := by
  obtain ⟨i, hi, rfl⟩ := exists_pow ha
  rw [inv, logAt_pow hi, expAt_eq (by omega), mul_pow, Nat.add_sub_cancel' hi.le, ← pow_mod]
  rfl

theorem val_mul_pow : (mul (pow i) b).val = double^[i] b.val := by
  by_cases hb : b = 0
  · subst hb
    rw [mul_zero]
    exact (iterate_double_zero i).symm
  · obtain ⟨j, -, rfl⟩ := exists_pow hb
    rw [mul_pow]
    exact iterate_add_apply double i j 1

theorem mul_add : mul a (add b c) = add (mul a b) (mul a c) := by
  by_cases ha : a = 0
  · subst ha
    simp [add]
  · obtain ⟨i, -, rfl⟩ := exists_pow ha
    refine Fin.ext ?_
    simp only [val_mul_pow, add, iterate_double_xor]

theorem add_mul : mul (add a b) c = add (mul a c) (mul b c) := by
  rw [mul_comm, mul_add, mul_comm c, mul_comm c]

theorem add_comm : add a b = add b a := Fin.ext (Nat.xor_comm _ _)

theorem add_assoc : add (add a b) c = add a (add b c) := Fin.ext (Nat.xor_assoc _ _ _)

@[simp] theorem add_zero : add a 0 = a := Fin.ext (Nat.xor_zero _)

@[simp] theorem add_self : add a a = 0 := Fin.ext (Nat.xor_self _)

end Gf

/-! ## The field -/

/-- A byte as an element of the field; the bytes themselves are numbers modulo `256`. -/
structure GF256 where
  byte : Byte
deriving DecidableEq

namespace GF256

instance : Zero GF256 := ⟨⟨0⟩⟩

instance : One GF256 := ⟨⟨1⟩⟩

instance : Add GF256 := ⟨fun a b => ⟨Gf.add a.byte b.byte⟩⟩

instance : Neg GF256 := ⟨id⟩

instance : Mul GF256 := ⟨fun a b => ⟨Gf.mul a.byte b.byte⟩⟩

instance : Inv GF256 := ⟨fun a => if a = 0 then 0 else ⟨Gf.inv a.byte⟩⟩

instance : Field GF256 where
  add_assoc a b c := congrArg mk (Gf.add_assoc _ _ _)
  zero_add a := congrArg mk ((Gf.add_comm _ _).trans (Gf.add_zero _))
  add_zero a := congrArg mk (Gf.add_zero _)
  add_comm a b := congrArg mk (Gf.add_comm _ _)
  neg_add_cancel a := congrArg mk (Gf.add_self _)
  mul_assoc a b c := congrArg mk (Gf.mul_assoc _ _ _)
  mul_comm a b := congrArg mk (Gf.mul_comm _ _)
  one_mul a := congrArg mk (Gf.one_mul _)
  mul_one a := congrArg mk ((Gf.mul_comm _ _).trans (Gf.one_mul _))
  zero_mul a := congrArg mk (Gf.zero_mul _)
  mul_zero a := congrArg mk (Gf.mul_zero _)
  left_distrib a b c := congrArg mk (Gf.mul_add _ _ _)
  right_distrib a b c := congrArg mk (Gf.add_mul _ _ _)
  nsmul := nsmulRec
  zsmul := zsmulRec
  exists_pair_ne := ⟨0, 1, by decide⟩
  inv_zero := if_pos rfl
  mul_inv_cancel a ha := by
    change (⟨Gf.mul a.byte (if a = 0 then 0 else ⟨Gf.inv a.byte⟩ : GF256).byte⟩ : GF256) = ⟨1⟩
    rw [if_neg ha, Gf.mul_inv fun h => ha (congrArg mk h)]
  nnqsmul := _
  nnqsmul_def _ _ := rfl
  qsmul := _
  qsmul_def _ _ := rfl

theorem neg_eq (a : GF256) : -a = a := rfl

theorem sub_eq_add (a b : GF256) : a - b = a + b := by
  rw [sub_eq_add_neg, neg_eq]

theorem inv_mk {a : Byte} (ha : a ≠ 0) : (mk a)⁻¹ = mk (Gf.inv a) :=
  if_neg fun h => ha (congrArg byte h)

end GF256

end Zephcraft.Erasure
