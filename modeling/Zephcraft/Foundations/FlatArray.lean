import Mathlib

/-!
# Foundations/FlatArray — an array that is read and written in windows

An array without an end is a function of the index. Reading gives the elements of a window, writing
replaces those of one.
-/

namespace FlatArray

open List Option

variable {α : Type*}

def read (f : ℕ → α) (len offset : ℕ) : List α := (List.range len).map fun i => f (offset + i)

/-- The array with a list put at an offset. -/
def write (f : ℕ → α) (l : List α) (offset : ℕ) : ℕ → α :=
  fun i => if i < offset then f i else (l[i - offset]?).getD (f i)

variable (f : ℕ → α) (l l' : List α) (len offset : ℕ)

@[simp] theorem length_read : (read f len offset).length = len := by simp [read]

theorem getElem?_read (i : ℕ) :
    (read f len offset)[i]? = if i < len then some (f (offset + i)) else none := by
  split <;> simp_all [read]

theorem read_append (len' : ℕ) :
    read f (len + len') offset = read f len offset ++ read f len' (offset + len) := by
  simp [read, range_add, Nat.add_assoc]

theorem take_drop_read {within n : ℕ} (h : within + n ≤ len) :
    ((read f len offset).drop within).take n = read f n (offset + within) := by
  refine ext_getElem? fun i => ?_
  rw [getElem?_take, List.getElem?_drop, getElem?_read, getElem?_read]
  by_cases hi : i < n
  · rw [if_pos hi, if_pos (show within + i < len by omega), if_pos hi, Nat.add_assoc]
  · rw [if_neg hi, if_neg hi]

@[simp] theorem write_nil : write f [] offset = f := by
  funext i
  simp [write]

theorem write_append :
    write (write f l offset) l' (offset + l.length) = write f (l ++ l') offset := by
  funext i
  unfold write
  by_cases hlow : i < offset
  · rw [if_pos (show i < offset + l.length by omega), if_pos hlow, if_pos hlow]
  · rw [if_neg hlow, if_neg hlow, getElem?_append]
    by_cases hmid : i < offset + l.length
    · rw [if_pos hmid, if_pos (show i - offset < l.length by omega)]
    · rw [if_neg hmid, if_neg (show ¬ i - offset < l.length by omega),
        getElem?_eq_none (show l.length ≤ i - offset by omega), Nat.sub_add_eq, getD_none]

theorem write_block {within : ℕ} (h : within + l.length ≤ len) :
    write f ((read f len offset).take within ++ l ++ (read f len offset).drop (within + l.length))
      offset = write f l (offset + within) := by
  have ht : ((read f len offset).take within).length = within := by
    rw [length_take, length_read, Nat.min_eq_left (by omega)]
  funext i
  unfold write
  by_cases hlow : i < offset
  · rw [if_pos hlow, if_pos (show i < offset + within by omega)]
  · rw [if_neg hlow, append_assoc, getElem?_append, ht]
    by_cases hb : i < offset + within
    · -- before the part, what was read is put back
      rw [if_pos (show i - offset < within by omega), if_pos hb, getElem?_take,
        if_pos (show i - offset < within by omega), getElem?_read,
        if_pos (show i - offset < len by omega), getD_some, Nat.add_sub_cancel' (not_lt.mp hlow)]
    · rw [if_neg (show ¬ i - offset < within by omega), if_neg hb, getElem?_append,
        ← Nat.sub_add_eq]
      by_cases hp : i - (offset + within) < l.length
      · rw [if_pos hp]
      · -- …and behind it
        rw [if_neg hp, getElem?_eq_none (not_lt.mp hp), getD_none, List.getElem?_drop,
          getElem?_read, show offset + (within + l.length + (i - (offset + within) - l.length))
            = i by omega]
        split <;> rfl

end FlatArray
