import Mathlib.Data.List.Basic

/-!
# Foundations/BinarySearch — searching a sorted vector by halves

`binary_search_by` is given a comparison with the target. Where the vector is sorted by it — first
what is less, then what is equal, then what is greater — it returns the place of an equal entry, or
the place where one would go; where it is not sorted, it may return anything.
-/

/-- Along the list the comparison goes from less over equal to greater. -/
def Ascending {α : Type} (cmp : α → Ordering) (l : List α) : Prop :=
  l.Pairwise fun a b => (cmp b = .lt → cmp a = .lt) ∧ (cmp a = .gt → cmp b = .gt)

/-- What a search of a list is to return: the place of an equal entry, or the place where one would
go. -/
inductive Located {α : Type} (cmp : α → Ordering) : List α → Except ℕ ℕ → Prop
  | found (pre : List α) (a : α) (post : List α) (h : cmp a = .eq) :
    Located cmp (pre ++ a :: post) (.ok pre.length)
  | absent (pre post : List α) (hpre : ∀ a ∈ pre, cmp a = .lt) (hpost : ∀ a ∈ post, cmp a = .gt) :
      Located cmp (pre ++ post) (.error pre.length)

/-- A search, right wherever the list is sorted. -/
structure BinarySearch where
  search : {α : Type} → (α → Ordering) → List α → Except ℕ ℕ
  located : ∀ {α : Type} {cmp : α → Ordering} {l : List α}, Ascending cmp l
    → Located cmp l (search cmp l)

namespace BinarySearch

open List Option

section Halving

variable {α : Type} (cmp : α → Ordering) (l : List α)

/-- Halve the range of `size` places from `base` on, until one place is left. -/
def narrow : (fuel base size : ℕ) → ℕ
  | 0, base, _ => base
  | fuel + 1, base, size =>
    if 1 < size then
      let half := size / 2
      let mid := base + half
      narrow fuel (if l[mid]?.map cmp = some .gt then base else mid) (size - half)
    else base

/-- The search by halves; a range of `n` places is down to one after fewer than `n` rounds. -/
def searchBy : Except ℕ ℕ :=
  let base := narrow cmp l l.length 0 l.length
  match l[base]?.map cmp with
  | some .eq => .ok base
  | some .lt => .error (base + 1)
  | some .gt => .error base
  | none => .error 0

variable {cmp l}

/-- What the loop keeps: the range is not empty, all behind it is greater, and it starts at the
front or at an entry that is not. -/
structure Ranges (cmp : α → Ordering) (l : List α) (base size : ℕ) : Prop where
  pos : 0 < size
  le : base + size ≤ l.length
  behind : ∀ i a, base + size ≤ i → l[i]? = some a → cmp a = .gt
  front : base = 0 ∨ ∀ a, l[base]? = some a → cmp a ≠ .gt

theorem Ascending.gt_of_lt {i j : ℕ} {a b : α} (h : Ascending cmp l) (hij : i < j)
    (ha : l[i]? = some a) (hb : l[j]? = some b) (hgt : cmp a = .gt) : cmp b = .gt := by
  obtain ⟨hi, rfl⟩ := List.getElem?_eq_some_iff.mp ha
  obtain ⟨hj, rfl⟩ := List.getElem?_eq_some_iff.mp hb
  exact (pairwise_iff_getElem.mp h i j hi hj hij).2 hgt

theorem Ascending.lt_of_lt {i j : ℕ} {a b : α} (h : Ascending cmp l) (hij : i < j)
    (ha : l[i]? = some a) (hb : l[j]? = some b) (hlt : cmp b = .lt) : cmp a = .lt := by
  obtain ⟨hi, rfl⟩ := List.getElem?_eq_some_iff.mp ha
  obtain ⟨hj, rfl⟩ := List.getElem?_eq_some_iff.mp hb
  exact (pairwise_iff_getElem.mp h i j hi hj hij).1 hlt

theorem Ranges.halve {base size : ℕ} (hasc : Ascending cmp l) (h : Ranges cmp l base size)
    (hs : 1 < size) :
    Ranges cmp l (if l[base + size / 2]?.map cmp = some .gt then base else base + size / 2)
      (size - size / 2) := by
  have hle := h.le
  obtain ⟨m, hm⟩ : ∃ m, l[base + size / 2]? = some m := ⟨_, getElem?_eq_getElem (by omega)⟩
  split
  · rename_i hgt
    rw [hm, map_some, Option.some.injEq] at hgt
    refine ⟨by omega, by omega, fun i a hi ha => ?_, h.front⟩
    -- what the range loses is at or behind the middle
    rcases Nat.lt_or_ge (base + size / 2) i with hlt | hge
    · exact Ascending.gt_of_lt hasc hlt hm ha hgt
    · obtain rfl : i = base + size / 2 := by omega
      exact Option.some.inj (hm.symm.trans ha) ▸ hgt
  · rename_i hgt
    rw [hm, map_some, Option.some.injEq] at hgt
    refine ⟨by omega, by omega, fun i a hi ha => h.behind i a (by omega) ha, .inr fun a ha => ?_⟩
    exact Option.some.inj (hm.symm.trans ha) ▸ hgt

theorem Ranges.narrow {base size : ℕ} (fuel : ℕ) (hasc : Ascending cmp l)
    (h : Ranges cmp l base size) (hf : size ≤ fuel + 1) :
    Ranges cmp l (narrow cmp l fuel base size) 1 := by
  induction fuel generalizing base size with
  | zero =>
    obtain rfl : size = 1 := Nat.le_antisymm hf h.pos
    exact h
  | succ fuel ih =>
    rw [BinarySearch.narrow]
    split
    · rename_i hs
      exact ih (h.halve hasc hs) (by omega)
    · rename_i hs
      obtain rfl : size = 1 := by have := h.pos; omega
      exact h

theorem located_searchBy (hasc : Ascending cmp l) : Located cmp l (searchBy cmp l) := by
  rcases eq_or_ne l [] with rfl | hne
  · exact Located.absent [] [] (by simp) (by simp)
  have hpos : 0 < l.length := length_pos_iff.mpr hne
  have hst : Ranges cmp l 0 l.length :=
    ⟨hpos, by omega, fun i a hi ha => absurd (List.getElem?_eq_some_iff.mp ha).1 (by omega),
      .inl rfl⟩
  have hend := hst.narrow l.length hasc (Nat.le_succ _)
  rw [searchBy]
  generalize BinarySearch.narrow cmp l l.length 0 l.length = base at hend
  have hba : base < l.length := hend.le
  have ha := getElem?_eq_getElem hba
  generalize l[base] = a at ha
  -- before the place, and behind it
  have hs : l = l.take base ++ a :: l.drop (base + 1) := by
    obtain ⟨_, rfl⟩ := List.getElem?_eq_some_iff.mp ha
    rw [getElem_cons_drop, take_append_drop]
  have hbeh : ∀ b ∈ l.drop (base + 1), cmp b = .gt := by
    intro b hb
    obtain ⟨i, hi⟩ := mem_iff_getElem?.mp hb
    rw [List.getElem?_drop] at hi
    exact hend.behind _ b (by omega) hi
  have hlen : (l.take base).length = base := length_take_of_le (Nat.le_of_lt hba)
  rw [ha, map_some]
  cases hcmp : cmp a with
  | eq =>
    have := Located.found (l.take base) a (l.drop (base + 1)) hcmp
    rwa [hlen, ← hs] at this
  | lt =>
    have hbe : ∀ b ∈ l.take base ++ [a], cmp b = .lt := by
      intro b hb
      rcases mem_append.mp hb with hb | hb
      · obtain ⟨i, hi⟩ := mem_iff_getElem?.mp hb
        rw [getElem?_take] at hi
        split at hi
        · rename_i hlt
          exact Ascending.lt_of_lt hasc hlt hi ha hcmp
        · cases hi
      · exact mem_singleton.mp hb ▸ hcmp
    have := Located.absent _ _ hbe hbeh
    rwa [length_append, hlen, append_assoc, singleton_append, ← hs] at this
  | gt =>
    -- only the front can be greater
    obtain rfl : base = 0 := hend.front.resolve_right fun h => h a ha hcmp
    refine Located.absent [] l (by simp) fun b hb => ?_
    obtain ⟨i, hi⟩ := mem_iff_getElem?.mp hb
    rcases Nat.eq_zero_or_pos i with rfl | hi'
    · exact Option.some.inj (ha.symm.trans hi) ▸ hcmp
    · exact Ascending.gt_of_lt hasc hi' ha hi hcmp

def halving : BinarySearch := ⟨searchBy, located_searchBy⟩

end Halving

end BinarySearch
