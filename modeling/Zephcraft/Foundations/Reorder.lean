import Zephcraft.Foundations.OrderedMap
import Zephcraft.Foundations.Word

/-!
# Foundations/Reorder — what does not see the order of a list

A sort under which no two entries tie, and a loop whose steps commute, give the same for a list and
any rearrangement of it.
-/

namespace List.Perm

open List

universe v

variable {α : Type*} {l l' : List α}

theorem insertionSort_eq {r : α → α → Prop} [DecidableRel r] [Std.Total r] [IsTrans α r]
    (h : l.Perm l') (ht : ∀ a ∈ l, ∀ b ∈ l, r a b → r b a → a = b) :
    l.insertionSort r = l'.insertionSort r := by
  refine List.Perm.eq_of_pairwise (fun a b ha hb => ?_) (pairwise_insertionSort r l)
    (pairwise_insertionSort r l')
      ((perm_insertionSort r l).trans (h.trans (perm_insertionSort r l').symm))
  exact ht a ((mem_insertionSort r).mp ha) b (h.mem_iff.mpr ((mem_insertionSort r).mp hb))

section Compare

variable [Ord α] [Std.TransOrd α]

instance instTotalCompare : Std.Total fun a b : α => (compare a b).isLE = true where
  total a b := by
    rw [Std.OrientedOrd.eq_swap (α := α) (a := b)]
    cases compare a b <;> simp

instance instTransCompare : IsTrans α fun a b => (compare a b).isLE = true where
  trans _ _ _ := Std.TransOrd.isLE_trans

theorem insertionSort_compare_eq [Std.LawfulEqOrd α] (h : l.Perm l') :
    (l.insertionSort fun a b => (compare a b).isLE) = l'.insertionSort fun a b =>
      (compare a b).isLE :=
  h.insertionSort_eq fun _ _ _ _ hab hba =>
    Std.LawfulEqOrd.eq_of_compare (Std.OrientedCmp.isLE_antisymm hab hba)

end Compare

theorem foldlM_eq {ε : Type*} {β : Type v} {f : β → α → Except ε β} (h : l.Perm l')
    (hc : ∀ a b s, (f s a >>= fun s => f s b) = (f s b >>= fun s => f s a)) (s : β) :
    l.foldlM f s = l'.foldlM f s := by
  induction h generalizing s with
  | nil => rfl
  | cons a _ ih =>
    simp only [foldlM_cons]
    exact bind_congr fun s => ih s
  | swap a b l =>
    simp only [foldlM_cons, ← bind_assoc]
    rw [hc]
  | trans _ _ ih ih' => exact (ih s).trans (ih' s)

end List.Perm

namespace BTreeMap

open Std

variable {κ β : Type*} [Ord κ] [TransOrd κ] [LawfulEqOrd κ] [DecidableEq κ]

theorem insert_comm (m : BTreeMap κ β) {k k' : κ} (h : k ≠ k') (v v' : β) :
    (m.insert k v).insert k' v' = (m.insert k' v').insert k v := by
  refine ExtTreeMap.ext_getElem? fun x => ?_
  simp only [getElem?_insert]
  split_ifs with hk' hk hk
  · exact absurd (hk.trans hk'.symm) h
  · rfl
  · rfl
  · rfl

theorem insert_insert (m : BTreeMap κ β) (k : κ) (v v' : β) :
    (m.insert k v).insert k v' = m.insert k v' := by
  refine ExtTreeMap.ext_getElem? fun x => ?_
  simp only [getElem?_insert]
  split_ifs <;> rfl

end BTreeMap

theorem Except.eq_of_ok_iff {α : Type*} {x y : Except Panic α} (h : ∀ a, x = .ok a ↔ y = .ok a) :
    x = y := by
  cases x with
  | ok a => exact ((h a).mp rfl).symm
  | error e =>
    cases y with
    | ok a => exact (h a).mpr rfl
    | error e' => rfl
