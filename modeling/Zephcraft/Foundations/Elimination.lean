import Mathlib

/-!
# Foundations/Elimination — progressive Gauss–Jordan elimination

Rows are kept **reduced**: each has a `1` at its own pivot and a `0` at the pivots of the others. A
new vector is reduced by the rows, and if something is left of it, it becomes a row.
-/

namespace Elimination

open List

variable {F ι : Type*} [Field F]

/-- A vector with the column it was normalised at. -/
structure Row (F ι : Type*) where
  pivot : ι
  vector : ι → F

/-- Each row is `1` at its own pivot and `0` at the others'. -/
structure Reduced (rows : List (Row F ι)) : Prop where
  apart : rows.Pairwise fun r s => r.vector s.pivot = 0 ∧ s.vector r.pivot = 0
  self : ∀ r ∈ rows, r.vector r.pivot = 1

def space (rows : List (Row F ι)) : Submodule F (ι → F) :=
  Submodule.span F {v | v ∈ rows.map Row.vector}

def reduce (rows : List (Row F ι)) (x : ι → F) : ι → F :=
  rows.foldl (fun x r => x - x r.pivot • r.vector) x

/-- The rows with one more, cleared from the column of its pivot. -/
def extend (rows : List (Row F ι)) (p : ι) (y : ι → F) : List (Row F ι) :=
  rows.map (fun r => ⟨r.pivot, r.vector - r.vector p • y⟩) ++ [⟨p, y⟩]

variable {rows : List (Row F ι)} {x y : ι → F} {p : ι}

variable {r : Row F ι}

theorem mem_space (hr : r ∈ rows) : r.vector ∈ space rows :=
  Submodule.subset_span (mem_map_of_mem hr)

theorem Reduced.of_cons (h : Reduced (r :: rows)) : Reduced rows :=
  ⟨(pairwise_cons.mp h.apart).2, fun s hs => h.self s (.tail r hs)⟩

/-! ## Reducing a vector -/

theorem reduce_cons (r : Row F ι) : reduce (r :: rows) x = reduce rows (x - x r.pivot • r.vector) :=
  rfl

theorem reduce_apply_of_zero {i : ι} (h : ∀ r ∈ rows, r.vector i = 0) : reduce rows x i = x i := by
  induction rows generalizing x with
  | nil => rfl
  | cons r rows ih =>
    rw [reduce_cons, ih fun s hs => h s (.tail r hs)]
    simp [h r (by simp)]

theorem Reduced.reduce_apply_pivot (h : Reduced rows) (hr : r ∈ rows) :
    reduce rows x r.pivot = 0 := by
  induction rows generalizing x with
  | nil => simp at hr
  | cons s rows ih =>
    rw [reduce_cons]
    rcases mem_cons.mp hr with rfl | hr
    · -- the later rows do not touch this column again
      rw [reduce_apply_of_zero fun t ht => ((pairwise_cons.mp h.apart).1 t ht).2]
      simp [h.self r (by simp)]
    · exact ih h.of_cons hr

theorem space_cons_le : space rows ≤ space (r :: rows) :=
  Submodule.span_mono fun _ hv => mem_cons_of_mem _ hv

theorem sub_reduce_mem (rows : List (Row F ι)) (x : ι → F) : x - reduce rows x ∈ space rows := by
  induction rows generalizing x with
  | nil => simp [reduce]
  | cons r rows ih =>
    have hs : x r.pivot • r.vector ∈ space (r :: rows) :=
      Submodule.smul_mem _ _ (mem_space (by simp))
    have hr := space_cons_le (r := r) (ih (x - x r.pivot • r.vector))
    have hsum := Submodule.add_mem _ hs hr
    rwa [← add_sub_assoc, add_sub_cancel] at hsum

theorem reduce_add : reduce rows (x + y) = reduce rows x + reduce rows y := by
  induction rows generalizing x y with
  | nil => rfl
  | cons r rows ih =>
    rw [reduce_cons, reduce_cons, reduce_cons, ← ih]
    congr 1
    rw [Pi.add_apply, add_smul]
    abel

theorem reduce_smul (c : F) : reduce rows (c • x) = c • reduce rows x := by
  induction rows generalizing x with
  | nil => rfl
  | cons r rows ih =>
    rw [reduce_cons, reduce_cons, ← ih, smul_sub, ← mul_smul]
    rfl

theorem reduce_zero : reduce rows (0 : ι → F) = 0 := by
  have h : reduce rows ((0 : F) • (0 : ι → F)) = (0 : F) • reduce rows 0 := reduce_smul 0
  rwa [zero_smul, zero_smul] at h

theorem Reduced.reduce_row (h : Reduced rows) (hr : r ∈ rows) : reduce rows r.vector = 0 := by
  induction rows with
  | nil => simp at hr
  | cons s rows ih =>
    rw [reduce_cons]
    rcases mem_cons.mp hr with rfl | hr
    · rw [h.self r (by simp), one_smul, sub_self, reduce_zero]
    · rw [((pairwise_cons.mp h.apart).1 r hr).2, zero_smul, sub_zero]
      exact ih h.of_cons hr

theorem Reduced.mem_space_iff (h : Reduced rows) : x ∈ space rows ↔ reduce rows x = 0 := by
  constructor
  · intro hx
    induction hx using Submodule.span_induction with
    | mem v hv =>
      obtain ⟨r, hr, rfl⟩ := mem_map.mp hv
      exact h.reduce_row hr
    | zero => exact reduce_zero
    | add u v _ _ hu hv => rw [reduce_add, hu, hv, add_zero]
    | smul c v _ hv => rw [reduce_smul, hv, smul_zero]
  · intro hx
    simpa [hx] using sub_reduce_mem rows x

/-! ## One row more -/

/-- **A row that is `1` at its pivot and vanishes at the others' keeps the rows reduced.** -/
theorem Reduced.extend (h : Reduced rows) (hp : y p = 1) (hy : ∀ r ∈ rows, y r.pivot = 0) :
    Reduced (extend rows p y) := by
  constructor
  · refine List.pairwise_append.mpr ⟨?_, by simp, ?_⟩
    · rw [pairwise_map]
      refine h.apart.imp_of_mem fun {r s} hr hs hrs => ?_
      simp [hrs.1, hrs.2, hy r hr, hy s hs]
    · intro r' hr' s' hs'
      obtain ⟨r, hr, rfl⟩ := mem_map.mp hr'
      obtain rfl : s' = ⟨p, y⟩ := by simpa using hs'
      exact ⟨by simp [hp], hy r hr⟩
  · intro r' hr'
    rcases mem_append.mp hr' with hr' | hr'
    · obtain ⟨r, hr, rfl⟩ := mem_map.mp hr'
      simp [h.self r hr, hy r hr]
    · obtain rfl : r' = ⟨p, y⟩ := by simpa using hr'
      exact hp

/-- **Clearing a column by the new row does not change what is spanned with it.** -/
theorem space_extend : space (extend rows p y) = space rows ⊔ Submodule.span F {y} := by
  have hl : y ∈ space (Elimination.extend rows p y) :=
    mem_space (r := ⟨p, y⟩) (by simp [Elimination.extend])
  apply le_antisymm
  · refine Submodule.span_le.mpr fun v hv => ?_
    obtain ⟨r', hr', rfl⟩ := mem_map.mp hv
    have hy : y ∈ space rows ⊔ Submodule.span F {y} :=
      Submodule.mem_sup_right (Submodule.mem_span_singleton_self y)
    rcases mem_append.mp hr' with hr' | hr'
    · obtain ⟨r, hr, rfl⟩ := mem_map.mp hr'
      exact Submodule.sub_mem _ (Submodule.mem_sup_left (mem_space hr)) (Submodule.smul_mem _ _ hy)
    · obtain rfl : r' = ⟨p, y⟩ := by simpa using hr'
      exact hy
  · refine sup_le (Submodule.span_le.mpr fun v hv => ?_)
      ((Submodule.span_singleton_le_iff_mem _ _).mpr hl)
    obtain ⟨r, hr, rfl⟩ := mem_map.mp hv
    have hc : r.vector - r.vector p • y ∈ space (Elimination.extend rows p y) :=
      mem_space (r := ⟨r.pivot, r.vector - r.vector p • y⟩) (mem_append_left _ (mem_map_of_mem hr))
    simpa using Submodule.add_mem _ hc (Submodule.smul_mem _ (r.vector p) hl)

theorem sup_span_reduce (rows : List (Row F ι)) (x : ι → F) :
    space rows ⊔ Submodule.span F {reduce rows x} = space rows ⊔ Submodule.span F {x} := by
  have hd := sub_reduce_mem rows x
  apply le_antisymm <;> refine sup_le le_sup_left ((Submodule.span_singleton_le_iff_mem _ _).mpr ?_)
  · have h := Submodule.sub_mem _ (Submodule.mem_sup_right (Submodule.mem_span_singleton_self x))
      (Submodule.mem_sup_left (T := Submodule.span F {x}) hd)
    rwa [sub_sub_cancel] at h
  · have h :=
      Submodule.add_mem _ (Submodule.mem_sup_left (T := Submodule.span F {reduce rows x}) hd)
      (Submodule.mem_sup_right (Submodule.mem_span_singleton_self _))
    rwa [sub_add_cancel] at h

/-- **A vector of which something is left becomes a row**: normalised where it does not vanish, it
keeps the rows reduced, and they span the vector, which they did not before. -/
theorem Reduced.insert (h : Reduced rows) (hp : reduce rows x p ≠ 0) :
    Reduced (Elimination.extend rows p ((reduce rows x p)⁻¹ • reduce rows x))
      ∧ space (Elimination.extend rows p ((reduce rows x p)⁻¹ • reduce rows x))
        = space rows ⊔ Submodule.span F {x}
      ∧ x ∉ space rows := by
  refine ⟨h.extend (by simp [inv_mul_cancel₀ hp]) fun r hr => ?_, ?_, fun hx => ?_⟩
  · rw [Pi.smul_apply, h.reduce_apply_pivot hr, smul_zero]
  · rw [space_extend, Submodule.span_singleton_smul_eq (IsUnit.mk0 _ (inv_ne_zero hp)),
      sup_span_reduce]
  · exact hp (by rw [h.mem_space_iff.mp hx]; rfl)

/-! ## Rank -/

theorem Reduced.apply_pivot_getElem (h : Reduced rows) (i j : Fin rows.length) :
    rows[i.val].vector rows[j.val].pivot = if i = j then 1 else 0 := by
  split_ifs with hij
  · subst hij
    exact h.self _ (getElem_mem _)
  · have happ := pairwise_iff_getElem.mp h.apart
    rcases lt_or_gt_of_ne hij with hlt | hgt
    · exact (happ i j i.isLt j.isLt hlt).1
    · exact (happ j i j.isLt i.isLt hgt).2

theorem Reduced.linearIndependent (h : Reduced rows) :
    LinearIndependent F fun i : Fin rows.length => rows[i.val].vector := by
  refine Fintype.linearIndependent_iff.mpr fun g hg j => ?_
  have hj := congrFun hg rows[j.val].pivot
  simpa [Finset.sum_apply, h.apply_pivot_getElem] using hj

theorem Reduced.finrank_space (h : Reduced rows) : Module.finrank F (space rows) = rows.length := by
  have hra : Set.range (fun i : Fin rows.length => rows[i.val].vector)
      = {v | v ∈ rows.map Row.vector} := by
    ext v
    constructor
    · rintro ⟨i, rfl⟩
      exact mem_map_of_mem (getElem_mem i.isLt)
    · intro hv
      obtain ⟨r, hr, rfl⟩ := mem_map.mp hv
      obtain ⟨i, hi, rfl⟩ := getElem_of_mem hr
      exact ⟨⟨i, hi⟩, rfl⟩
  rw [space, ← hra, finrank_span_eq_card h.linearIndependent, Fintype.card_fin]

theorem Reduced.apply_pivot [DecidableEq ι] (h : Reduced rows) {s : Row F ι} (hr : r ∈ rows)
    (hs : s ∈ rows) :
    r.vector s.pivot = if r.pivot = s.pivot then 1 else 0 := by
  split_ifs with heq
  · rw [← heq, h.self r hr]
  · obtain ⟨i, hi, rfl⟩ := getElem_of_mem hr
    obtain ⟨j, hj, rfl⟩ := getElem_of_mem hs
    rw [h.apply_pivot_getElem ⟨i, hi⟩ ⟨j, hj⟩, if_neg]
    rintro ⟨⟩
    exact heq rfl

theorem Reduced.nodup_pivots (h : Reduced rows) : (rows.map Row.pivot).Nodup := by
  refine pairwise_map.mpr (h.apart.imp_of_mem fun {r s} hr hs hrs heq => ?_)
  have hse := h.self r hr
  rw [heq, hrs.1] at hse
  exact zero_ne_one hse

theorem Reduced.vector_eq_single [DecidableEq ι] (h : Reduced rows)
    (hall : ∀ i, ∃ r ∈ rows, r.pivot = i) (hr : r ∈ rows) :
    r.vector = Pi.single r.pivot 1 := by
  funext i
  obtain ⟨s, hs, rfl⟩ := hall i
  rw [h.apply_pivot hr hs, Pi.single_apply]
  simp only [eq_comm]

end Elimination
