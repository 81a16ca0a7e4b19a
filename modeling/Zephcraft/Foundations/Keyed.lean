import Zephcraft.Foundations.OrderedMap

/-!
# Foundations/Keyed — stores that file each entry under its own key

Entries come in a list and go into an ordered map, each under its key. Either the **first** entry of
a key stays, or the **last** one does.
-/

namespace Keyed

open List Option Std.ExtTreeMap

variable {κ ε : Type*} [Ord κ] [Std.TransOrd κ] (key : ε → κ)

/-- File an entry, unless its key is taken. -/
def fileFirst (m : BTreeMap κ ε) (e : ε) : BTreeMap κ ε :=
  match m[key e]? with
  | some _ => m
  | none => m.insert (key e) e

/-- File an entry, in place of what its key had. -/
def fileLast (m : BTreeMap κ ε) (e : ε) : BTreeMap κ ε := m.insert (key e) e

def Filed (m : BTreeMap κ ε) : Prop := ∀ k e, m[k]? = some e → key e = k

variable [Std.LawfulEqOrd κ] [DecidableEq κ] {key} {m : BTreeMap κ ε} {e : ε}

theorem getElem?_fileFirst (k : κ) :
    (fileFirst key m e)[k]? = m[k]?.or (if key e = k then some e else none) := by
  unfold fileFirst
  split
  · next held hh =>
    split
    · next hkey =>
      rw [← hkey, hh]
      rfl
    · rw [or_none]
  · next hn =>
    rw [BTreeMap.getElem?_insert]
    split
    · next hkey =>
      rw [← hkey, hn]
      rfl
    · rw [or_none]

theorem getElem?_fileLast (k : κ) :
    (fileLast key m e)[k]? = (if key e = k then some e else none).or m[k]? := by
  rw [fileLast, BTreeMap.getElem?_insert]
  split <;> rfl

theorem getElem?_foldl_fileFirst (l : List ε) (m : BTreeMap κ ε) (k : κ) :
    (l.foldl (fileFirst key) m)[k]? = m[k]?.or (l.find? fun e => key e = k) := by
  induction l generalizing m with
  | nil => rw [foldl_nil, find?_nil, or_none]
  | cons e l ih =>
    rw [foldl_cons, ih, getElem?_fileFirst, Option.or_assoc, find?_cons]
    by_cases h : key e = k
    · simp [h]
    · simp [h]

theorem getElem?_foldl_fileLast (l : List ε) (m : BTreeMap κ ε) (k : κ) :
    (l.foldl (fileLast key) m)[k]? = (l.reverse.find? fun e => key e = k).or m[k]? := by
  induction l generalizing m with
  | nil => rw [foldl_nil, reverse_nil, find?_nil, none_or]
  | cons e l ih =>
    rw [foldl_cons, ih, getElem?_fileLast, ← Option.or_assoc, reverse_cons, find?_append]
    by_cases h : key e = k
    · simp [h]
    · simp [h]

omit [Std.LawfulEqOrd κ] [DecidableEq κ] in
theorem filed_empty : Filed key (∅ : BTreeMap κ ε) := fun k e h => by simp at h

theorem Filed.fileFirst (h : Filed key m) : Filed key (fileFirst key m e) := by
  intro k e' he
  rw [getElem?_fileFirst, or_eq_some_iff] at he
  rcases he with he | ⟨-, he⟩
  · exact h k e' he
  · split at he
    · next hkey => exact Option.some.inj he ▸ hkey
    · cases he

theorem Filed.fileLast (h : Filed key m) : Filed key (fileLast key m e) := by
  intro k e' he
  rw [getElem?_fileLast, or_eq_some_iff] at he
  rcases he with he | ⟨-, he⟩
  · split at he
    · next hkey => exact Option.some.inj he ▸ hkey
    · cases he
  · exact h k e' he

def entries (m : BTreeMap κ ε) : List ε := m.toList.map Prod.snd

omit [DecidableEq κ] in
theorem mem_entries (h : Filed key m) : e ∈ entries m ↔ m[key e]? = some e := by
  constructor
  · intro he
    obtain ⟨⟨k, e'⟩, hmem, rfl⟩ := List.mem_map.mp he
    have hget := mem_toList_iff_getElem?_eq_some.mp hmem
    rw [h k e' hget]
    exact hget
  · intro he
    exact List.mem_map.mpr ⟨(key e, e), mem_toList_iff_getElem?_eq_some.mpr he, rfl⟩

omit [DecidableEq κ] in
theorem nodup_keys_entries (h : Filed key m) : ((entries m).map key).Nodup := by
  have heq : (entries m).map key = m.toList.map Prod.fst := by
    rw [entries, List.map_map]
    refine map_congr_left fun e he => ?_
    exact h e.1 e.2 (mem_toList_iff_getElem?_eq_some.mp he)
  rw [heq]
  exact BTreeMap.nodup_keys_toList m

theorem find?_of_perm (h : Filed key m) {l : List ε} (hl : l.Perm (entries m)) (k : κ) :
    (l.find? fun e => key e = k) = m[k]? := by
  cases hf : l.find? fun e => key e = k with
  | none =>
    rw [find?_eq_none] at hf
    cases hget : m[k]? with
    | none => rfl
    | some e =>
      have hkey := h k e hget
      have hmem : e ∈ l := hl.mem_iff.mpr ((mem_entries h).mpr (hkey ▸ hget))
      exact absurd hkey (by simpa using hf e hmem)
  | some e =>
    have hkey : key e = k := by simpa using find?_some hf
    have hmem : e ∈ entries m := hl.mem_iff.mp (mem_of_find?_eq_some hf)
    rw [← hkey]
    exact ((mem_entries h).mp hmem).symm

end Keyed
