import Zephcraft.Erasure.Gf

/-!
# Erasure/Rows — row operations on byte strings

The bulk operations multiply by a table made for one coefficient. Read as vectors over the field, a
row operation is the addition of a multiple and a scaling is the multiplication by the scalar; this
is all that is used of them.
-/

namespace Zephcraft.Erasure

open List

namespace Gf

/-- The multiplication table of one coefficient. -/
def mulTable (c : Byte) : List Byte :=
  if c = 0 then List.replicate 256 0
  else (List.range 256).map fun x =>
    if x = 0 then 0 else expAt (logAt c + logAt (Word.truncate x))

/-- `for (d, s) in dst.iter_mut().zip(src)`: what lies beyond the source is left alone. -/
def updateWith (f : Byte → Byte → Byte) : Bytes → Bytes → Bytes
  | d :: dst, s :: src => f d s :: updateWith f dst src
  | dst, [] => dst
  | [], _ => []

/-- `dst ^= c * src`. -/
def axpy (dst src : Bytes) (c : Byte) : Bytes :=
  if c = 0 then dst
  else if c = 1 then updateWith (fun d s => add d s) dst src
  else
    let table := mulTable c
    updateWith (fun d s => add d (table.getD s.val 0)) dst src

/-- `dst *= c`. -/
def scale (dst : Bytes) (c : Byte) : Bytes :=
  if c = 1 then dst
  else
    let table := mulTable c
    dst.map fun d => table.getD d.val 0

/-- `Σ aᵢ·bᵢ`. -/
def dot (a b : Bytes) : Byte := (a.zip b).foldl (fun acc p => add acc (mul p.1 p.2)) 0

variable (dst src : Bytes) (c : Byte)

theorem getElem?_mulTable (x : Byte) : (mulTable c)[x.val]? = some (mul c x) := by
  have hlt : x.val < 256 := x.isLt
  have hx : (Word.truncate x.val : Byte) = x := Fin.ext (Nat.mod_eq_of_lt hlt)
  rw [mulTable]
  split_ifs with hc
  · rw [getElem?_replicate, if_pos hlt, hc, zero_mul]
  · rw [getElem?_map, getElem?_range hlt, Option.map_some, hx]
    by_cases h0 : x = 0
    · simp [h0]
    · have hval : x.val ≠ 0 := fun h => h0 (Fin.ext h)
      rw [if_neg hval, mul, if_neg (by simp [hc, h0])]

@[simp] theorem getD_mulTable (x : Byte) : (mulTable c).getD x.val 0 = mul c x := by
  rw [getD_eq_getElem?_getD, getElem?_mulTable, Option.getD_some]

theorem updateWith_of_right {f : Byte → Byte → Byte} (hf : ∀ d s, f d s = d) (dst src : Bytes) :
    updateWith f dst src = dst := by
  fun_induction updateWith f dst src <;> simp_all

theorem axpy_eq : axpy dst src c = updateWith (fun d s => add d (mul c s)) dst src := by
  rw [axpy]
  split_ifs with h0 h1
  · subst h0
    exact (updateWith_of_right (by simp) dst src).symm
  · subst h1
    simp only [one_mul]
  · simp only [getD_mulTable]

theorem scale_eq : scale dst c = dst.map (mul c) := by
  rw [scale]
  split_ifs with hc
  · subst hc
    simp [funext one_mul]
  · simp only [getD_mulTable]

theorem length_updateWith (f : Byte → Byte → Byte) (dst src : Bytes) :
    (updateWith f dst src).length = dst.length := by
  fun_induction updateWith f dst src <;> simp_all

@[simp] theorem length_axpy : (axpy dst src c).length = dst.length := by
  rw [axpy_eq, length_updateWith]

@[simp] theorem length_scale : (scale dst c).length = dst.length := by
  rw [scale_eq, length_map]

theorem getD_updateWith {f : Byte → Byte → Byte} (hf : ∀ d, f d 0 = d) {dst : Bytes} (src : Bytes)
    {i : ℕ} (hi : i < dst.length) :
    (updateWith f dst src).getD i 0 = f (dst.getD i 0) (src.getD i 0) := by
  induction dst generalizing src i with
  | nil => simp at hi
  | cons d dst ih =>
    cases src with
    | nil => simp [updateWith, hf]
    | cons s src =>
      cases i with
      | zero => simp [updateWith]
      | succ i => simpa [updateWith] using ih src (by simpa using hi)

end Gf

/-! ## Byte strings as vectors -/

/-- A byte string as a vector over the field. -/
def vec (n : ℕ) (v : Bytes) : Fin n → GF256 := fun i => ⟨v.getD i 0⟩

variable {n : ℕ} {v w : Bytes}

theorem vec_axpy (hv : v.length = n) (c : Byte) :
    vec n (Gf.axpy v w c) = vec n v + (⟨c⟩ : GF256) • vec n w := by
  funext i
  have hi : i.val < v.length := hv ▸ i.isLt
  rw [vec, Gf.axpy_eq, Gf.getD_updateWith (by simp) w hi]
  rfl

theorem vec_scale (c : Byte) : vec n (Gf.scale v c) = (⟨c⟩ : GF256) • vec n v := by
  funext i
  have h : (v.map (Gf.mul c)).getD i (Gf.mul c 0) = Gf.mul c (v.getD i 0) := getD_map _ _ _
  rw [vec, Gf.scale_eq, ← Gf.mul_zero c, h]
  rfl

theorem vec_replicate : vec n (List.replicate n 0) = 0 := by
  funext i
  simp [vec]
  rfl

theorem vec_nil : vec n [] = 0 := by
  funext i
  rfl

theorem vec_injective (hv : v.length = n) (hw : w.length = n) (h : vec n v = vec n w) : v = w := by
  refine ext_getElem (hv.trans hw.symm) fun i hi hi' => ?_
  have := congrArg GF256.byte (congrFun h ⟨i, hv ▸ hi⟩)
  simpa [vec, hi, hi'] using this

theorem vec_eq_zero_iff (hv : v.length = n) : vec n v = 0 ↔ ∀ c ∈ v, c = 0 := by
  rw [← vec_replicate]
  constructor
  · intro h c hc
    rw [vec_injective hv (by simp) h] at hc
    exact eq_of_mem_replicate hc
  · intro h
    rw [← hv, ← eq_replicate_of_mem h]

/-- `v.iter().any(|&c| c != 0)`. -/
def anyNonzero (v : Bytes) : Bool := v.any (· ≠ 0)

theorem anyNonzero_iff : anyNonzero v = true ↔ ∃ c ∈ v, c ≠ 0 := by
  simp [anyNonzero]

theorem anyNonzero_iff_vec (hv : v.length = n) : anyNonzero v = true ↔ vec n v ≠ 0 := by
  rw [anyNonzero_iff, Ne, vec_eq_zero_iff hv]
  push Not
  rfl

theorem foldl_dot (hv : v.length ≤ n) (acc : Byte) :
    (⟨(v.zip w).foldl (fun acc p => Gf.add acc (Gf.mul p.1 p.2)) acc⟩ : GF256)
      = ⟨acc⟩ + ∑ i, vec n v i * vec n w i := by
  induction v generalizing w n acc with
  | nil => simp [vec_nil]
  | cons x v ih =>
    obtain ⟨m, rfl⟩ : ∃ m, n = m + 1 := ⟨n - 1, by simp at hv; omega⟩
    cases w with
    | nil => simp [vec_nil]
    | cons y w =>
      rw [zip_cons_cons, foldl_cons, ih (by simpa using hv), Fin.sum_univ_succ, ← add_assoc]
      rfl

theorem dot_eq (hv : v.length ≤ n) : (⟨Gf.dot v w⟩ : GF256) = ∑ i, vec n v i * vec n w i := by
  rw [Gf.dot, foldl_dot hv]
  exact zero_add _

end Zephcraft.Erasure
