import Mathlib

/-!
# Foundations/OrderedMap — ordered maps and what their entries add up to

A `BTreeMap` is an extensional tree map: two maps with the same entries are equal, and iteration is
in key order.
-/

open Std

/-- The ordered map of the standard library. -/
abbrev BTreeMap (α β : Type*) [Ord α] := ExtTreeMap α β compare

/-- The ordered set of the standard library. -/
abbrev BTreeSet (α : Type*) [Ord α] := ExtTreeSet α compare

namespace BTreeMap

variable {α β : Type*} [Ord α] [TransOrd α]

variable (f : α → β → ℕ) (m : BTreeMap α β) (k : α) (v : β)

theorem nodup_keys_toList : (m.toList.map Prod.fst).Nodup := by
  rw [ExtTreeMap.map_fst_toList_eq_keys]
  exact ExtTreeMap.nodup_keys

theorem nodup_toList : m.toList.Nodup := (nodup_keys_toList m).of_map

/-- The sum of the weight `f` over the entries. -/
def total (f : α → β → ℕ) (m : BTreeMap α β) : ℕ := (m.toList.map fun e => f e.1 e.2).sum

@[simp] theorem total_empty : total f (∅ : BTreeMap α β) = 0 := by
  have h : (∅ : BTreeMap α β).toList = [] := rfl
  simp [total, h]

variable [LawfulEqOrd α]

/-! ## Entries -/

theorem getElem?_insert [DecidableEq α] (a : α) (v : β) :
    (m.insert k v)[a]? = if k = a then some v else m[a]? := by
  simp [ExtTreeMap.getElem?_insert]

theorem getElem?_insert_self : (m.insert k v)[k]? = some v := by
  simp

theorem getElem?_insert_of_ne {k a : α} (h : k ≠ a) (v : β) : (m.insert k v)[a]? = m[a]? := by
  simp [ExtTreeMap.getElem?_insert, h]

/-- **Insertion, as a rearrangement of the entries** — the new entry and every entry of another
key. -/
theorem toList_insert_perm [DecidableEq α] :
    (m.insert k v).toList.Perm ((k, v) :: m.toList.filter fun e => e.1 ≠ k) := by
  refine (List.perm_ext_iff_of_nodup (nodup_toList _) ?_).mpr ?_
  · exact List.nodup_cons.mpr ⟨by simp, (nodup_toList m).filter _⟩
  · rintro ⟨a, b⟩
    by_cases h : k = a
    · simp [h, eq_comm]
    · simp [getElem?_insert, h, Ne.symm h]

theorem toList_erase_perm [DecidableEq α] :
    (m.erase k).toList.Perm (m.toList.filter fun e => e.1 ≠ k) := by
  refine (List.perm_ext_iff_of_nodup (nodup_toList _) ((nodup_toList m).filter _)).mpr ?_
  rintro ⟨a, b⟩
  by_cases h : k = a
  · simp [h]
  · simp [ExtTreeMap.getElem?_erase, h, Ne.symm h]

theorem toList_perm_of_getElem? [DecidableEq α] {m : BTreeMap α β} {k : α} {v : β}
    (h : m[k]? = some v) : m.toList.Perm ((k, v) :: m.toList.filter fun e => e.1 ≠ k) := by
  have hm : m.insert k v = m := by
    refine ExtTreeMap.ext_getElem? fun a => ?_
    rw [getElem?_insert]
    split <;> simp_all
  simpa only [hm] using toList_insert_perm m k v

theorem filter_toList_eq [DecidableEq α] :
    (m.toList.filter fun e => e.1 = k) = (m[k]?).toList.map fun v => (k, v) := by
  cases h : m[k]? with
  | none =>
    refine List.filter_eq_nil_iff.mpr fun e he hk => ?_
    obtain rfl : e.1 = k := by simpa using hk
    have hs : m[e.1]? = some e.2 := ExtTreeMap.mem_toList_iff_getElem?_eq_some.mp he
    simp [h] at hs
  | some v =>
    have hp := (toList_perm_of_getElem? h).filter fun e => decide (e.1 = k)
    refine List.perm_singleton.mp (hp.trans (.of_eq ?_))
    rw [List.filter_cons_of_pos (by simp), List.filter_filter]
    simp

/-- **Grouping a list under keys**: the entry of a key is what the items of that key fold to, in
their order. -/
theorem getElem?_foldl_merge {γ : Type*} [DecidableEq α] (key : γ → α) (merge : Option β → γ → β)
    (l : List γ) (m : BTreeMap α β) (k : α) :
    (l.foldl (fun m x => m.insert (key x) (merge m[key x]? x)) m)[k]?
      = (l.filter fun x => key x = k).foldl (fun o x => some (merge o x)) m[k]? := by
  induction l generalizing m with
  | nil => rfl
  | cons x l ih =>
    rw [List.foldl_cons, ih, getElem?_insert]
    by_cases h : key x = k
    · rw [if_pos h, List.filter_cons_of_pos (by simpa using h), List.foldl_cons, h]
    · rw [if_neg h, List.filter_cons_of_neg (by simpa using h)]

/-- Every entry of the one map is an entry of the other. -/
def Within (m m' : BTreeMap α β) : Prop := ∀ e ∈ m.toList, m'[e.1]? = some e.2

instance [DecidableEq β] (m m' : BTreeMap α β) : Decidable (Within m m') :=
  inferInstanceAs (Decidable (∀ e ∈ _, _))

theorem within_iff {m m' : BTreeMap α β} :
    Within m m' ↔ ∀ (k : α) (v : β), m[k]? = some v → m'[k]? = some v := by
  simp only [Within, Prod.forall, ExtTreeMap.mem_toList_iff_getElem?_eq_some]

theorem Within.refl : Within m m := within_iff.mpr fun _ _ h => h

theorem Within.trans {m₁ m₂ m₃ : BTreeMap α β} (h : Within m₁ m₂) (h' : Within m₂ m₃) :
    Within m₁ m₃ :=
  within_iff.mpr fun k v hk => within_iff.mp h' k v (within_iff.mp h k v hk)

theorem within_insert [DecidableEq α] {m : BTreeMap α β} {k : α} {v : β}
    (h : ∀ v', m[k]? = some v' → v' = v) :
    Within m (m.insert k v) := by
  refine within_iff.mpr fun k' v' hk => ?_
  rw [getElem?_insert]
  split
  · rename_i hkey
    rw [h v' (hkey ▸ hk)]
  · exact hk

theorem total_eq_sum_map {m : BTreeMap α β} {l : List α} {g : α → β} (hl : l.Nodup)
    (h : ∀ k v, m[k]? = some v ↔ k ∈ l ∧ g k = v) : total f m = (l.map fun k => f k (g k)).sum := by
  have hp : m.toList.Perm (l.map fun k => (k, g k)) := by
    refine (List.perm_ext_iff_of_nodup (nodup_toList m)
      (hl.map fun a b hab => (Prod.ext_iff.mp hab).1)).mpr ?_
    rintro ⟨k, v⟩
    rw [ExtTreeMap.mem_toList_iff_getElem?_eq_some, h]
    simp
  rw [total, (hp.map _).sum_eq, List.map_map]
  rfl

theorem total_map {γ : Type*} (f : α → γ → ℕ) {g : β → γ} {m : BTreeMap α β} {m' : BTreeMap α γ}
    (h : ∀ k : α, m[k]?.map g = m'[k]?) : total f m' = total (fun k v => f k (g v)) m := by
  have hp : m'.toList.Perm (m.toList.map fun e => (e.1, g e.2)) := by
    have hk : ((m.toList.map fun e => (e.1, g e.2)).map Prod.fst).Nodup := by
      simpa [Function.comp_def] using nodup_keys_toList m
    refine (List.perm_ext_iff_of_nodup (nodup_toList m') hk.of_map).mpr ?_
    rintro ⟨k, v⟩
    rw [ExtTreeMap.mem_toList_iff_getElem?_eq_some, ← h k]
    simp [ExtTreeMap.mem_toList_iff_getElem?_eq_some]
  rw [total, (hp.map _).sum_eq, List.map_map]
  rfl

/-! ## How the total moves -/

/-- **One insertion** exchanges the weight of the entry it replaces, if there is one, for the weight
of the entry it writes. -/
theorem total_insert : total f (m.insert k v) + (m[k]?.elim 0 (f k)) = total f m + f k v := by
  classical
  have hins := ((toList_insert_perm m k v).map fun e => f e.1 e.2).sum_eq
  simp only [List.map_cons, List.sum_cons] at hins
  rw [total, total, hins]
  cases h : m[k]? with
  | none =>
    have hf : m.toList.filter (fun e => e.1 ≠ k) = m.toList := by
      refine List.filter_eq_self.mpr fun e he => ?_
      have hk := ExtTreeMap.mem_toList_iff_getElem?_eq_some.mp (show (e.1, e.2) ∈ m.toList from he)
      simp only [decide_eq_true_eq]
      rintro rfl
      simp [h] at hk
    rw [hf, Option.elim_none]
    omega
  | some w =>
    have hm := ((toList_perm_of_getElem? h).map fun e => f e.1 e.2).sum_eq
    simp only [List.map_cons, List.sum_cons] at hm
    rw [hm]
    simp only [Option.elim_some]
    omega

theorem total_insert_of_none {m : BTreeMap α β} {k : α} (h : m[k]? = none) (v : β) :
    total f (m.insert k v) = total f m + f k v := by
  simpa [h] using total_insert f m k v

theorem le_total {m : BTreeMap α β} {k : α} {v : β} (h : m[k]? = some v) : f k v ≤ total f m :=
  List.single_le_sum (by simp) _
    (List.mem_map.mpr ⟨(k, v), ExtTreeMap.mem_toList_iff_getElem?_eq_some.mpr h, rfl⟩)

theorem total_congr {f g : α → β → ℕ} {m : BTreeMap α β}
    (h : ∀ k v, m[k]? = some v → f k v = g k v) : total f m = total g m := by
  refine congrArg List.sum (List.map_congr_left fun e he => h e.1 e.2 ?_)
  exact ExtTreeMap.mem_toList_iff_getElem?_eq_some.mp he

theorem total_add_le {f g : α → β → ℕ} {m : BTreeMap α β} {k : α} {v : β} {d : ℕ}
    (hk : m[k]? = some v) (hle : ∀ k v, g k v ≤ f k v) (hd : g k v + d ≤ f k v) :
    total g m + d ≤ total f m := by
  classical
  have hp := toList_perm_of_getElem? hk
  have hg := (hp.map fun e => g e.1 e.2).sum_eq
  have hf := (hp.map fun e => f e.1 e.2).sum_eq
  simp only [List.map_cons, List.sum_cons] at hg hf
  have hr := List.sum_le_sum (l := m.toList.filter fun e => e.1 ≠ k)
    (f := fun e => g e.1 e.2) (g := fun e => f e.1 e.2) fun e _ => hle e.1 e.2
  rw [total, total, hg, hf]
  omega

theorem total_erase_le : total f (m.erase k) ≤ total f m := by
  classical
  rw [total, ((toList_erase_perm m k).map fun e => f e.1 e.2).sum_eq]
  exact ((List.filter_sublist).map _).sum_le_sum fun _ _ => Nat.zero_le _

/-! ## Rows

A snapshot keeps a map as the list of its rows; reading it back either collects the rows or merges
them into what is there, the greater value winning. -/

theorem ofList_toList : ExtTreeMap.ofList m.toList compare = m := by
  classical
  refine ExtTreeMap.ext_getElem? fun k => ?_
  cases h : m[k]? with
  | some v =>
    exact ExtTreeMap.getElem?_ofList_of_mem ReflCmp.compare_self ExtTreeMap.distinct_keys_toList
      (ExtTreeMap.mem_toList_iff_getElem?_eq_some.mpr h)
  | none =>
    refine ExtTreeMap.getElem?_ofList_of_contains_eq_false ?_
    simpa using h

section Raise

variable [Max β] [Zero β]

/-- Raise the entries of a map to at least the given rows, an absent entry counting as zero. -/
def raise (m : BTreeMap α β) (rows : List (α × β)) : BTreeMap α β :=
  rows.foldl (fun m r => m.insert r.1 (max (m.getD r.1 0) r.2)) m

/-- **Raising by the rows of a map**: an entry it has is raised, the others stay. -/
theorem getElem?_raise_toList (m p : BTreeMap α β) (k : α) :
    (raise m p.toList)[k]? = (p[k]?).elim m[k]? fun v => some (max (m.getD k 0) v) := by
  classical
  simp only [raise, ExtTreeMap.getD_eq_getD_getElem?]
  rw [getElem?_foldl_merge Prod.fst fun o r => max (o.getD 0) r.2, filter_toList_eq]
  cases p[k]? <;> rfl

end Raise

section Advanced

variable [LinearOrder β] [Zero β]

/-- `m'` is `m` with the entries of `p` written over it, each at least as great as what it
replaces. -/
def Advanced (m p m' : BTreeMap α β) : Prop :=
  ∀ k, (p[k]? = none → m'[k]? = m[k]?) ∧ ∀ v, p[k]? = some v → m'[k]? = some v ∧ m.getD k 0 ≤ v

omit [LawfulEqOrd α] in
theorem Advanced.refl (m : BTreeMap α β) : Advanced m ∅ m := fun k => ⟨fun _ => rfl, by simp⟩

variable {m p m' : BTreeMap α β}

omit [LawfulEqOrd α] in
theorem Advanced.le (h : Advanced m p m') (k : α) : m.getD k 0 ≤ m'.getD k 0 := by
  rw [ExtTreeMap.getD_eq_getD_getElem? (t := m')]
  cases hp : p[k]? with
  | none => rw [(h k).1 hp, ← ExtTreeMap.getD_eq_getD_getElem?]
  | some v => simpa [((h k).2 v hp).1] using ((h k).2 v hp).2

theorem Advanced.insert (h : Advanced m p m') {k : α} {v : β} (hv : m'.getD k 0 ≤ v) :
    Advanced m (p.insert k v) (m'.insert k v) := by
  classical
  intro k'
  rw [getElem?_insert, getElem?_insert]
  by_cases hk : k = k'
  · subst hk
    refine ⟨by simp, fun w hw => ?_⟩
    obtain rfl : v = w := by simpa using hw
    exact ⟨by simp, (h.le k).trans hv⟩
  · simpa [hk] using h k'

theorem Advanced.raise_eq (h : Advanced m p m') : raise m p.toList = m' := by
  refine ExtTreeMap.ext_getElem? fun k => ?_
  rw [getElem?_raise_toList]
  cases hp : p[k]? with
  | none => exact ((h k).1 hp).symm
  | some v =>
    obtain ⟨hm, hle⟩ := (h k).2 v hp
    rw [hm, Option.elim_some, max_eq_right hle]

end Advanced

end BTreeMap

theorem BTreeSet.ofList_toList {α : Type*} [Ord α] [TransOrd α] [LawfulEqOrd α] (s : BTreeSet α) :
    ExtTreeSet.ofList s.toList compare = s := by
  classical
  refine ExtTreeSet.ext_contains fun k => ?_
  rw [Bool.eq_iff_iff, ExtTreeSet.contains_ofList, List.contains_iff_mem, ExtTreeSet.mem_toList,
    ExtTreeSet.contains_iff_mem]

@[simp] theorem BTreeSet.contains_filter {α : Type*} [Ord α] [TransOrd α] [LawfulEqOrd α]
    (s : BTreeSet α) (f : α → Bool) (k : α) : (s.filter f).contains k = (s.contains k && f k) := by
  rw [Bool.eq_iff_iff, Bool.and_eq_true, ExtTreeSet.contains_iff_mem, ExtTreeSet.contains_iff_mem,
    ← ExtTreeSet.mem_toList, ← ExtTreeSet.mem_toList, ExtTreeSet.toList_filter, List.mem_filter]

section Folds

variable {α : Type*} [Ord α] [TransOrd α] [LawfulEqOrd α]

theorem BTreeSet.mem_foldl_insert (l : List α) (s : BTreeSet α) (k : α) :
    k ∈ l.foldl (fun s a => s.insert a) s ↔ k ∈ l ∨ k ∈ s := by
  induction l generalizing s with
  | nil => simp
  | cons a l ih => rw [List.foldl_cons, ih, ExtTreeSet.mem_insert, Std.compare_eq_iff_eq,
    List.mem_cons, eq_comm]; tauto

theorem BTreeSet.mem_foldl_erase (l : List α) (s : BTreeSet α) (k : α) :
    k ∈ l.foldl (fun s a => s.erase a) s ↔ k ∈ s ∧ k ∉ l := by
  induction l generalizing s with
  | nil => simp
  | cons a l ih =>
    rw [List.foldl_cons, ih, ExtTreeSet.mem_erase, ne_eq, Std.compare_eq_iff_eq, List.mem_cons,
      eq_comm, not_or]
    tauto

end Folds
