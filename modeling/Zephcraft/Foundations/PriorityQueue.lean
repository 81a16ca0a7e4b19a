import Mathlib.Data.List.Sort

/-!
# Foundations/PriorityQueue — a queue that gives the least rank first

A heap is known by the order in which it gives its items back, so it is kept here as the list of its
items in that order. Looking for an item that meets a condition pops until one does, and pushes back
what was skipped.
-/

structure PriorityQueue (α : Type) {κ : Type} [LinearOrder κ] (rank : α → κ) where
  items : List α
  sorted : items.Pairwise fun a b => rank a ≤ rank b

namespace PriorityQueue

open List

variable {α κ : Type} [LinearOrder κ] {rank : α → κ}

instance : Std.Total fun a b : α => rank a ≤ rank b := ⟨fun a b => le_total (rank a) (rank b)⟩

instance : IsTrans α fun a b : α => rank a ≤ rank b := ⟨fun _ _ _ => le_trans⟩

def empty : PriorityQueue α rank := ⟨[], .nil⟩

def peek (q : PriorityQueue α rank) : Option α := q.items.head?

/-- The queue without the item that comes next. -/
def tail (q : PriorityQueue α rank) : PriorityQueue α rank := ⟨q.items.tail, q.sorted.tail⟩

def push (q : PriorityQueue α rank) (a : α) : PriorityQueue α rank :=
  ⟨q.items.orderedInsert (fun a b => rank a ≤ rank b) a, q.sorted.orderedInsert a _⟩

/-- Pop until an item meets `p`: that item, what was skipped before it, and the rest. -/
def popUntil (p : α → Bool) : (l : List α) → (l.Pairwise fun a b => rank a ≤ rank b) → List α →
    Option α × List α × PriorityQueue α rank
  | [], _, skipped => (none, skipped, empty)
  | a :: rest, h, skipped =>
    if p a then (some a, skipped, ⟨rest, h.of_cons⟩) else popUntil p rest h.of_cons (skipped ++ [a])

theorem push_perm (q : PriorityQueue α rank) (a : α) : (q.push a).items.Perm (a :: q.items) :=
  perm_orderedInsert _ _ _

theorem foldl_push_perm (l : List α) (q : PriorityQueue α rank) :
    (l.foldl push q).items.Perm (l ++ q.items) := by
  induction l generalizing q with
  | nil => exact .refl _
  | cons a l ih => exact (ih (q.push a)).trans (((q.push_perm a).append_left l).trans perm_middle)

theorem popUntil_spec (p : α → Bool) (l : List α) (h : l.Pairwise fun a b => rank a ≤ rank b)
    (skipped : List α) :
    (popUntil p l h skipped).1 = l.find? p ∧ ((popUntil p l h skipped).1.toList
        ++ ((popUntil p l h skipped).2.1 ++ (popUntil p l h skipped).2.2.items)).Perm
        (skipped ++ l) := by
  induction l generalizing skipped with
  | nil => exact ⟨rfl, .refl _⟩
  | cons a l ih =>
    rw [popUntil]
    by_cases ha : p a
    · rw [if_pos ha, find?_cons_of_pos ha]
      exact ⟨rfl, (perm_middle : (skipped ++ a :: l).Perm (a :: (skipped ++ l))).symm⟩
    · obtain ⟨hf, hp⟩ := ih h.of_cons (skipped ++ [a])
      rw [if_neg ha, find?_cons_of_neg ha]
      refine ⟨hf, hp.trans ?_⟩
      rw [append_assoc, singleton_append]

theorem rank_find?_le {p : α → Bool} {l : List α} (h : l.Pairwise fun a b => rank a ≤ rank b)
    {a b : α} (ha : l.find? p = some a) (hb : b ∈ l) (hp : p b) : rank a ≤ rank b := by
  obtain ⟨before, after, rfl, hbe⟩ :
    ∃ before after, l = before ++ a :: after ∧ ∀ c ∈ before, ¬ p c := by
    obtain ⟨-, before, after, hl, hbe⟩ := find?_eq_some_iff_append.mp ha
    exact ⟨before, after, hl, fun c hc => by simpa using hbe c hc⟩
  rcases mem_append.mp hb with hb | hb
  · exact absurd hp (hbe b hb)
  · rcases mem_cons.mp hb with rfl | hb
    · exact le_rfl
    · exact (pairwise_cons.mp (List.pairwise_append.mp h).2.1).1 b hb

end PriorityQueue
