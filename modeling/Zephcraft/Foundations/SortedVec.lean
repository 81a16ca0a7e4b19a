import Mathlib.Data.List.MinMax
import Zephcraft.Foundations.BinarySearch
import Zephcraft.Foundations.LastWriter

/-!
# Foundations/SortedVec — a sorted vector as a map

A vector whose entries stand in the strict order of their keys is a map: a binary search finds the
entry of a key, or the place where it would go. An entry is put in if its key is free or its rank is
above the entry there.
-/

namespace SortedVec

open List Option Std.ExtTreeMap

variable {ε κ ρ : Type} [Ord κ] (B : BinarySearch) (key : ε → κ)

def Sorted (l : List ε) : Prop := l.Pairwise fun a b => compare (key a) (key b) = .lt

/-- The place of a key, or where it would go. -/
def find (l : List ε) (k : κ) : Except ℕ ℕ := B.search (fun e => compare (key e) k) l

def lookup (l : List ε) (k : κ) : Option ε :=
  match find B key l k with
  | .ok i => l[i]?
  | .error _ => none

variable [LinearOrder ρ] (rank : ε → ρ)

/-- Put an entry in; nothing if an entry of its key is at least as high. -/
def upsert (l : List ε) (e : ε) : Option (List ε) :=
  match find B key l (key e) with
  | .ok i => if l[i]?.any (rank e ≤ rank ·) then none else some (l.set i e)
  | .error i => some (l.insertIdx i e)

/-- Put an entry in, or leave the vector as it is. -/
def absorb (l : List ε) (e : ε) : List ε := (upsert B key rank l e).getD l

variable {B key rank} {l l' pre post : List ε} {a e : ε} {k : κ}

theorem sorted_nil : Sorted key [] := List.Pairwise.nil

theorem insertIdx_length_append (pre post : List ε) (e : ε) :
    (pre ++ post).insertIdx pre.length e = pre ++ e :: post := by
  induction pre with
  | nil => rfl
  | cons a pre ih => simp [ih]

theorem Sorted.eq_of_key [Std.LawfulEqOrd κ] (h : Sorted key l) (ha : a ∈ l) (he : e ∈ l)
    (hkey : key a = key e) : a = e := by
  have hn : (l.map key).Nodup := pairwise_map.mpr (h.imp fun hlt heq => by simp [heq] at hlt)
  exact inj_on_of_nodup_map hn ha he hkey

variable [Std.TransOrd κ]

theorem Sorted.ascending (h : Sorted key l) (k : κ) : Ascending (fun e => compare (key e) k) l := by
  refine List.Pairwise.imp (fun {a b} hab => ⟨fun hb => ?_, fun ha => ?_⟩) h
  · exact Std.TransCmp.lt_trans hab hb
  · have hka : compare k (key a) = .lt := Std.OrientedCmp.gt_iff_lt.mp ha
    exact Std.OrientedCmp.gt_iff_lt.mpr (Std.TransCmp.lt_trans hka hab)

theorem sorted_of_split (hpre : Sorted key pre) (hp : Sorted key post)
    (hbe : ∀ a ∈ pre, compare (key a) (key e) = .lt)
    (hbeh : ∀ a ∈ post, compare (key e) (key a) = .lt) :
    Sorted key (pre ++ e :: post) := by
  refine List.pairwise_append.mpr ⟨hpre, pairwise_cons.mpr ⟨hbeh, hp⟩, fun a ha b hb => ?_⟩
  rcases mem_cons.mp hb with rfl | hb
  · exact hbe a ha
  · exact Std.TransCmp.lt_trans (hbe a ha) (hbeh b hb)

variable [Std.LawfulEqOrd κ]

/-- **What a search finds**: the entry of the key, with the lower keys before it and the higher ones
behind, or no entry. -/
theorem Sorted.find_cases (h : Sorted key l) (B : BinarySearch) (k : κ) :
    (∃ pre held post, l = pre ++ held :: post ∧ key held = k ∧ find B key l k = .ok pre.length)
      ∨ ∃ pre post, l = pre ++ post ∧ (∀ a ∈ pre, compare (key a) k = .lt)
        ∧ (∀ a ∈ post, compare k (key a) = .lt) ∧ find B key l k = .error pre.length := by
  have hl := B.located (h.ascending k)
  rw [find]
  generalize B.search (fun e => compare (key e) k) l = r at hl
  cases hl with
  | found pre held post heq => exact .inl ⟨_, _, _, rfl, Std.LawfulEqOrd.eq_of_compare heq, rfl⟩
  | absent pre post hpre hp => exact .inr ⟨_, _, rfl, hpre, fun a ha =>
    Std.OrientedCmp.gt_iff_lt.mp (hp a ha), rfl⟩

theorem Sorted.lookup_eq_some (h : Sorted key l) (B : BinarySearch) :
    lookup B key l k = some e ↔ e ∈ l ∧ key e = k := by
  rcases h.find_cases B k with ⟨pre, held, post, rfl, rfl, hf⟩ | ⟨pre, post, rfl, hpre, hp, hf⟩
  · have hh : lookup B key (pre ++ held :: post) (key held) = some held := by
      rw [lookup, hf]
      simp
    rw [hh]
    refine ⟨fun heq => ?_, fun ⟨he, hkey⟩ => congrArg some (h.eq_of_key (by simp) he hkey.symm)⟩
    cases heq
    exact ⟨by simp, rfl⟩
  · have hn : lookup B key (pre ++ post) k = none := by rw [lookup, hf]
    rw [hn]
    refine ⟨fun heq => (nomatch heq), ?_⟩
    rintro ⟨he, rfl⟩
    rcases mem_append.mp he with he | he
    · exact absurd (hpre e he) (by simp)
    · exact absurd (hp e he) (by simp)

theorem Sorted.lookup_eq_none (h : Sorted key l) (B : BinarySearch) :
    lookup B key l k = none ↔ ∀ e ∈ l, key e ≠ k := by
  rw [eq_none_iff_forall_ne_some]
  refine ⟨fun hn e he hkey => hn e ((h.lookup_eq_some B).mpr ⟨he, hkey⟩), fun hn e he => ?_⟩
  obtain ⟨hmem, hkey⟩ := (h.lookup_eq_some B).mp he
  exact hn e hmem hkey

/-- **What putting an entry in does**: it takes the place of a lower entry of its key, or the place
between the lower and the higher keys — or an entry of its key is as high. -/
theorem Sorted.upsert_cases (h : Sorted key l) (B : BinarySearch) (rank : ε → ρ) (e : ε) :
    (∃ held, lookup B key l (key e) = some held ∧ rank e ≤ rank held ∧ upsert B key rank l e = none)
      ∨ (∃ pre held post, l = pre ++ held :: post ∧ key held = key e ∧ rank held < rank e
          ∧ lookup B key l (key e) = some held ∧ upsert B key rank l e = some (pre ++ e :: post))
      ∨ ∃ pre post, l = pre ++ post ∧ (∀ a ∈ pre, compare (key a) (key e) = .lt)
          ∧ (∀ a ∈ post, compare (key e) (key a) = .lt)
          ∧ lookup B key l (key e) = none ∧ upsert B key rank l e = some (pre ++ e :: post) := by
  rcases h.find_cases B (key e) with ⟨pre, held, post, rfl, hkey, hf⟩ | ⟨pre, post, rfl, hpre, hp,
    hf⟩
  · have hl : lookup B key (pre ++ held :: post) (key e) = some held := by
      rw [lookup, hf]
      simp
    rcases le_or_gt (rank e) (rank held) with hle | hlt
    · refine .inl ⟨held, hl, hle, ?_⟩
      rw [upsert, hf]
      simp [hle]
    · refine .inr (.inl ⟨pre, held, post, rfl, hkey, hlt, hl, ?_⟩)
      rw [upsert, hf]
      simp [not_le.mpr hlt]
  · refine .inr (.inr ⟨pre, post, rfl, hpre, hp, ?_, ?_⟩)
    · rw [lookup, hf]
    · rw [upsert, hf, ← insertIdx_length_append]

theorem Sorted.upsert_eq_none (h : Sorted key l) : upsert B key rank l e = none
    ↔ ∃ held, lookup B key l (key e) = some held ∧ rank e ≤ rank held := by
  rcases h.upsert_cases B rank e with
    ⟨held, hh, hle, hup⟩ | ⟨pre, held, post, -, -, hlt, hh, hup⟩ | ⟨pre, post, -, -, -, hh, hup⟩
  · exact ⟨fun _ => ⟨held, hh, hle⟩, fun _ => hup⟩
  · rw [hup, hh]
    refine ⟨fun hn => (nomatch hn), fun ⟨held', heq, hle⟩ => ?_⟩
    cases heq
    exact absurd hle (not_le.mpr hlt)
  · rw [hup, hh]
    exact ⟨fun hn => (nomatch hn), fun ⟨_, heq, _⟩ => (nomatch heq)⟩

theorem Sorted.of_upsert (h : Sorted key l) (hup : upsert B key rank l e = some l') :
    Sorted key l' ∧ ∀ x, x ∈ l' ↔ x = e ∨ (x ∈ l ∧ key x ≠ key e) := by
  rcases h.upsert_cases B rank e with
    ⟨held, -, -, hn⟩ | ⟨pre, held, post, rfl, hkey, -, -, hso⟩ | ⟨pre, post, rfl, hpre, hp, -, hso⟩
  · rw [hn] at hup
    cases hup
  · cases hso.symm.trans hup
    obtain ⟨hs, hs', hc⟩ := List.pairwise_append.mp h
    obtain ⟨hb, hs'⟩ := pairwise_cons.mp hs'
    have hbe : ∀ a ∈ pre, compare (key a) (key e) = .lt := fun a ha => hkey ▸ hc a ha held (by simp)
    rw [hkey] at hb
    refine ⟨sorted_of_split hs hs' hbe hb, fun x => ?_⟩
    have hne : ∀ a, compare (key a) (key e) = .lt ∨ compare (key e) (key a) = .lt
        → key a ≠ key e := by
      rintro a (hlt | hlt) heq <;> simp [heq] at hlt
    simp only [mem_append, mem_cons]
    constructor
    · rintro (hx | rfl | hx)
      · exact .inr ⟨.inl hx, hne x (.inl (hbe x hx))⟩
      · exact .inl rfl
      · exact .inr ⟨.inr (.inr hx), hne x (.inr (hb x hx))⟩
    · rintro (rfl | ⟨hx | rfl | hx, hk⟩)
      · exact .inr (.inl rfl)
      · exact .inl hx
      · exact absurd hkey hk
      · exact .inr (.inr hx)
  · cases hso.symm.trans hup
    obtain ⟨hs, hs', -⟩ := List.pairwise_append.mp h
    refine ⟨sorted_of_split hs hs' hpre hp, fun x => ?_⟩
    simp only [mem_append, mem_cons]
    constructor
    · rintro (hx | rfl | hx)
      · exact .inr ⟨.inl hx, fun heq => by simpa [heq] using hpre x hx⟩
      · exact .inl rfl
      · exact .inr ⟨.inr hx, fun heq => by simpa [heq] using hp x hx⟩
    · rintro (rfl | ⟨hx | hx, -⟩)
      · exact .inr (.inl rfl)
      · exact .inl hx
      · exact .inr (.inr hx)

theorem Sorted.lookup_upsert [DecidableEq κ] (h : Sorted key l)
    (hup : upsert B key rank l e = some l') (k : κ) :
    lookup B key l' k = if key e = k then some e else lookup B key l k := by
  obtain ⟨hs, hmem⟩ := h.of_upsert hup
  refine Option.ext fun x => ?_
  rw [hs.lookup_eq_some, hmem]
  split
  · rename_i hk
    subst hk
    rw [Option.some.injEq]
    refine ⟨?_, fun heq => ⟨.inl heq.symm, heq ▸ rfl⟩⟩
    rintro ⟨rfl | ⟨-, hne⟩, hx⟩
    · rfl
    · exact absurd hx hne
  · rename_i hk
    rw [h.lookup_eq_some]
    constructor
    · rintro ⟨rfl | ⟨hx, -⟩, hkx⟩
      · exact absurd hkx hk
      · exact ⟨hx, hkx⟩
    · rintro ⟨hx, rfl⟩
      exact ⟨.inr ⟨hx, Ne.symm hk⟩, rfl⟩

/-! ## Absorbing one entry after another -/

theorem Sorted.absorb (h : Sorted key l) (e : ε) : Sorted key (absorb B key rank l e) := by
  rw [SortedVec.absorb]
  cases hup : upsert B key rank l e with
  | none => exact h
  | some l' => exact (h.of_upsert hup).1

variable [DecidableEq κ]

/-- The first of highest rank among the entries of a key. -/
def top (key : ε → κ) (rank : ε → ρ) (seen : List ε) (k : κ) : Option ε :=
  (seen.filter (key · = k)).argmax rank

/-- **One entry**: if the vector holds the top of each key among the entries seen, it then holds the
top with this one. -/
theorem Sorted.lookup_absorb {seen : List ε} (h : Sorted key l)
    (htop : ∀ k, lookup B key l k = top key rank seen k)
    (e : ε) (k : κ) :
    lookup B key (SortedVec.absorb B key rank l e) k = top key rank (seen ++ [e]) k := by
  rw [top, filter_append]
  by_cases hk : key e = k
  · subst hk
    rw [filter_cons_of_pos (by simp), filter_nil, argmax_concat, ← top, ← htop, SortedVec.absorb]
    cases hup : upsert B key rank l e with
    | none =>
      obtain ⟨held, hh, hle⟩ := h.upsert_eq_none.mp hup
      rw [getD_none, hh]
      exact (if_neg (not_lt.mpr hle)).symm
    | some l' =>
      rw [getD_some, h.lookup_upsert hup, if_pos rfl]
      cases hh : lookup B key l (key e) with
      | none => rfl
      | some held =>
        have hlt : rank held < rank e := not_le.mp fun hle => by
          rw [h.upsert_eq_none.mpr ⟨held, hh, hle⟩] at hup
          cases hup
        exact (if_pos hlt).symm
  · rw [filter_cons_of_neg (by simpa using hk), filter_nil, append_nil, ← top, ← htop,
      SortedVec.absorb]
    cases hup : upsert B key rank l e with
    | none => rfl
    | some l' => rw [getD_some, h.lookup_upsert hup, if_neg hk]

/-- **Any number of entries**: the vector stays sorted and holds the top of each key. -/
theorem Sorted.lookup_foldl_absorb {seen : List ε} (h : Sorted key l)
    (htop : ∀ k, lookup B key l k = top key rank seen k) (es : List ε) :
    Sorted key (es.foldl (SortedVec.absorb B key rank) l)
      ∧ ∀ k, lookup B key (es.foldl (SortedVec.absorb B key rank) l) k
        = top key rank (seen ++ es) k := by
  induction es generalizing l seen with
  | nil => simpa using ⟨h, htop⟩
  | cons e es ih =>
    have hs : Sorted key (SortedVec.absorb B key rank l e) := h.absorb e
    simpa using ih hs (h.lookup_absorb htop e)

/-! ## As an ordered map -/

omit [DecidableEq κ] in
theorem Sorted.ext (h : Sorted key l) (h' : Sorted key l') (hmem : ∀ x, x ∈ l ↔ x ∈ l') :
    l = l' := by
  have hn : ∀ {l : List ε}, Sorted key l → l.Nodup :=
    fun hs => hs.imp fun hlt heq => by simp [heq] at hlt
  have hp := (perm_ext_iff_of_nodup (hn h) (hn h')).mpr hmem
  refine hp.eq_of_pairwise (fun a b _ _ hab hba => ?_) h h'
  have hl : compare (key a) (key a) = .lt := Std.TransCmp.lt_trans hab hba
  simp at hl

/-- The values of a map, in the order of the keys. -/
def values (m : BTreeMap κ ε) : List ε := m.toList.map Prod.snd

variable {m : BTreeMap κ ε}

omit [DecidableEq κ] in
theorem mem_values {x : ε} : x ∈ values m ↔ ∃ k : κ, m[k]? = some x := by
  simp only [values, List.mem_map, Prod.exists, exists_eq_right, mem_toList_iff_getElem?_eq_some]

omit [DecidableEq κ] in
theorem sorted_values (hk : ∀ k e, m[k]? = some e → key e = k) : Sorted key (values m) := by
  refine pairwise_map.mpr (List.Pairwise.imp_of_mem (fun {a b} ha hb hab => ?_) ordered_keys_toList)
  rw [hk a.1 a.2 (mem_toList_iff_getElem?_eq_some.mp ha),
    hk b.1 b.2 (mem_toList_iff_getElem?_eq_some.mp hb)]
  exact hab

omit [DecidableEq κ] in
theorem lookup_values (hk : ∀ k e, m[k]? = some e → key e = k) :
    lookup B key (values m) k = m[k]? := by
  refine Option.ext fun x => ?_
  rw [(sorted_values hk).lookup_eq_some, mem_values]
  refine ⟨fun ⟨⟨k', hk'⟩, hx⟩ => ?_, fun hx => ⟨⟨k, hx⟩, hk k x hx⟩⟩
  obtain rfl := (hk k' x hk').symm.trans hx
  exact hk'

/-- **Putting an entry in is inserting it in the map**, under the same condition. -/
theorem upsert_values (hke : ∀ k e, m[k]? = some e → key e = k) : upsert B key rank (values m) e
    = if m[key e]?.any (rank e ≤ rank ·) then none else some (values (m.insert (key e) e)) := by
  have hso := sorted_values hke
  have hl := lookup_values (B := B) (k := key e) hke
  cases hup : upsert B key rank (values m) e with
  | none =>
    obtain ⟨held, hh, hle⟩ := hso.upsert_eq_none.mp hup
    rw [hl] at hh
    simp [hh, hle]
  | some l' =>
    have hf : ¬ m[key e]?.any (rank e ≤ rank ·) := by
      intro hany
      obtain ⟨held, hh, hle⟩ := (Option.any_eq_true _ _).mp hany
      rw [hso.upsert_eq_none.mpr ⟨held, hl.trans hh, by simpa using hle⟩] at hup
      cases hup
    have hk' : ∀ k x, (m.insert (key e) e)[k]? = some x → key x = k := by
      intro k x hx
      rw [BTreeMap.getElem?_insert] at hx
      split at hx
      · rename_i hk
        exact Option.some.inj hx ▸ hk
      · exact hke k x hx
    rw [if_neg hf, Option.some.injEq]
    obtain ⟨hs, hmem⟩ := hso.of_upsert hup
    refine hs.ext (sorted_values hk') fun x => ?_
    rw [hmem, mem_values, mem_values]
    simp only [BTreeMap.getElem?_insert]
    constructor
    · rintro (rfl | ⟨⟨k, hk⟩, hne⟩)
      · exact ⟨key x, if_pos rfl⟩
      · exact ⟨k, by rwa [if_neg fun heq => hne ((hke k x hk).trans heq.symm)]⟩
    · rintro ⟨k, hk⟩
      split at hk
      · exact .inl (Option.some.inj hk).symm
      · rename_i hne
        exact .inr ⟨⟨k, hk⟩, fun heq => hne (heq.symm.trans (hke k x hk))⟩

end SortedVec
