import Zephcraft.Foundations.OrderedMap

/-!
# Foundations/LastWriter — a store that keeps the highest entry of each key

A **last-writer-wins** store is an ordered map fed with entries: an entry goes in when its key is
free or its rank is strictly above the entry there.
-/

namespace LastWriter

open List Std.ExtTreeMap

variable {κ ε ρ : Type*} [Ord κ] [Std.TransOrd κ] [LinearOrder ρ] (key : ε → κ) (rank : ε → ρ)

/-- Take an entry in, unless an entry of its key is at least as high. -/
def keep (m : BTreeMap κ ε) (e : ε) : BTreeMap κ ε :=
  match m[key e]? with
  | some held => if rank held < rank e then m.insert (key e) e else m
  | none => m.insert (key e) e

/-- Of the entries seen, the store holds one of highest rank for each key. -/
structure Latest (m : BTreeMap κ ε) (seen : List ε) : Prop where
  mem : ∀ (k : κ) (e : ε), m[k]? = some e → e ∈ seen ∧ key e = k
  top : ∀ e ∈ seen, ∃ held, m[key e]? = some held ∧ rank e ≤ rank held

/-- No two of the entries seen tie at the top of a key. -/
def Untied (seen : List ε) : Prop :=
  ∀ e ∈ seen, ∀ e' ∈ seen, key e = key e' → rank e = rank e' →
    (∀ x ∈ seen, key x = key e → rank x ≤ rank e) → e = e'

instance [DecidableEq κ] [DecidableEq ε] (seen : List ε) : Decidable (Untied key rank seen) :=
  inferInstanceAs (Decidable (∀ e ∈ seen, ∀ e' ∈ seen, _))

variable {key rank} {m m' : BTreeMap κ ε} {seen seen' : List ε} {e : ε}

/-! ## One entry -/

theorem keep_of_le {held : ε} (hh : m[key e]? = some held) (h : rank e ≤ rank held) :
    keep key rank m e = m := by
  simp [keep, hh, not_lt.mpr h]

theorem keep_of_lt {held : ε} (hh : m[key e]? = some held) (h : rank held < rank e) :
    keep key rank m e = m.insert (key e) e := by
  simp [keep, hh, h]

theorem keep_of_none (hn : m[key e]? = none) : keep key rank m e = m.insert (key e) e := by
  simp [keep, hn]

/-- **What one entry does**: nothing, where an entry of its key is as high, or it takes the key. -/
theorem keep_cases (key : ε → κ) (rank : ε → ρ) (m : BTreeMap κ ε) (e : ε) :
    (∃ held, m[key e]? = some held ∧ rank e ≤ rank held ∧ keep key rank m e = m)
      ∨ ((∀ held, m[key e]? = some held → rank held < rank e)
          ∧ keep key rank m e = m.insert (key e) e) := by
  cases h : m[key e]? with
  | none => exact .inr ⟨by simp, keep_of_none h⟩
  | some held =>
    rcases le_or_gt (rank e) (rank held) with hle | hlt
    · exact .inl ⟨held, rfl, hle, keep_of_le h hle⟩
    · exact .inr ⟨by simpa using hlt, keep_of_lt h hlt⟩

/-! ## What a store holds -/

theorem latest_empty : Latest key rank (∅ : BTreeMap κ ε) [] := ⟨by simp, by simp⟩

theorem Latest.of_dominated (h : Latest key rank m seen) (hsub : seen ⊆ seen')
    (hdom : ∀ e ∈ seen', ∃ e' ∈ seen, key e' = key e ∧ rank e ≤ rank e') :
    Latest key rank m seen' := by
  refine ⟨fun k e he => ⟨hsub (h.mem k e he).1, (h.mem k e he).2⟩, fun e he => ?_⟩
  obtain ⟨e', he', hkey, hle⟩ := hdom e he
  obtain ⟨held, hh, hle'⟩ := h.top e' he'
  exact ⟨held, hkey ▸ hh, hle.trans hle'⟩

theorem Latest.congr (h : Latest key rank m seen) (hmem : ∀ e, e ∈ seen ↔ e ∈ seen') :
    Latest key rank m seen' :=
  h.of_dominated (fun e he => (hmem e).mp he) fun e he => ⟨e, (hmem e).mpr he, rfl, le_rfl⟩

theorem Latest.le_of_mem (h : Latest key rank m seen) {k : κ} (hh : m[k]? = some e) {x : ε}
    (hx : x ∈ seen) (hk : key x = k) : rank x ≤ rank e := by
  obtain ⟨held, hh', hle⟩ := h.top x hx
  rw [hk, hh] at hh'
  exact (Option.some.inj hh') ▸ hle

variable [Std.LawfulEqOrd κ]

theorem getElem?_keep_of_ne {k : κ} (h : key e ≠ k) : (keep key rank m e)[k]? = m[k]? := by
  unfold keep
  split
  · split
    · exact BTreeMap.getElem?_insert_of_ne m h e
    · rfl
  · exact BTreeMap.getElem?_insert_of_ne m h e

theorem Latest.keep (h : Latest key rank m seen) (e : ε) :
    Latest key rank (keep key rank m e) (seen ++ [e]) := by
  classical
  rcases keep_cases key rank m e with ⟨held, hh, hle, heq⟩ | ⟨hlt, heq⟩
  · rw [heq]
    refine ⟨fun k x hx => ⟨mem_append_left _ (h.mem k x hx).1, (h.mem k x hx).2⟩, fun x hx => ?_⟩
    rcases mem_append.mp hx with hx | hx
    · exact h.top x hx
    · obtain rfl := mem_singleton.mp hx
      exact ⟨held, hh, hle⟩
  · rw [heq]
    refine ⟨fun k x hx => ?_, fun x hx => ?_⟩
    · rw [BTreeMap.getElem?_insert] at hx
      split at hx
      · rename_i hk
        cases hx
        exact ⟨by simp, hk⟩
      · exact ⟨mem_append_left _ (h.mem k x hx).1, (h.mem k x hx).2⟩
    · rw [BTreeMap.getElem?_insert]
      by_cases hk : key e = key x
      · rw [if_pos hk]
        refine ⟨e, rfl, ?_⟩
        rcases mem_append.mp hx with hx | hx
        · obtain ⟨held, hh, hle⟩ := h.top x hx
          exact hle.trans (hlt held (hk ▸ hh)).le
        · rw [mem_singleton.mp hx]
      · rw [if_neg hk]
        rcases mem_append.mp hx with hx | hx
        · exact h.top x hx
        · exact absurd (congrArg key (mem_singleton.mp hx)).symm hk

theorem Latest.foldl_keep (h : Latest key rank m seen) (l : List ε) :
    Latest key rank (l.foldl (LastWriter.keep key rank) m) (seen ++ l) := by
  induction l generalizing m seen with
  | nil => simpa using h
  | cons e l ih => simpa using ih (h.keep e)

theorem Latest.dominated (h : Latest key rank m seen) {e : ε} (he : e ∈ seen) :
    ∃ e' ∈ m.toList.map Prod.snd, key e' = key e ∧ rank e ≤ rank e' := by
  obtain ⟨held, hh, hle⟩ := h.top e he
  exact ⟨held, List.mem_map.mpr ⟨_, mem_toList_iff_getElem?_eq_some.mpr hh, rfl⟩,
    (h.mem _ _ hh).2, hle⟩

theorem Latest.values_subset (h : Latest key rank m seen) : m.toList.map Prod.snd ⊆ seen := by
  intro e he
  obtain ⟨⟨k, e⟩, hmem, rfl⟩ := List.mem_map.mp he
  exact (h.mem k e (mem_toList_iff_getElem?_eq_some.mp hmem)).1

theorem Latest.foldl_keep_values (h : Latest key rank m seen) (h' : Latest key rank m' seen') :
    Latest key rank ((m'.toList.map Prod.snd).foldl (LastWriter.keep key rank) m)
      (seen ++ seen') := by
  refine (h.foldl_keep (m'.toList.map Prod.snd)).of_dominated ?_ fun e he => ?_
  · exact append_subset_of_subset_of_subset (subset_append_left _ _)
      (List.Subset.trans h'.values_subset (subset_append_right _ _))
  · rcases mem_append.mp he with he | he
    · exact ⟨e, mem_append_left _ he, rfl, le_rfl⟩
    · obtain ⟨e', he', hkey, hle⟩ := h'.dominated he
      exact ⟨e', mem_append_right _ he', hkey, hle⟩

/-! ## Ties -/

theorem Latest.ext (h : Latest key rank m seen) (h' : Latest key rank m' seen)
    (hu : Untied key rank seen) : m = m' := by
  refine Std.ExtTreeMap.ext_getElem? fun k => ?_
  have hs : ∀ {m₁ m₂ : BTreeMap κ ε}, Latest key rank m₁ seen → Latest key rank m₂ seen → ∀ {e},
      m₁[k]? = some e → m₂[k]? = some e := by
    intro m₁ m₂ h₁ h₂ e he
    obtain ⟨hmem, hkey⟩ := h₁.mem k e he
    obtain ⟨held, hh, hle⟩ := h₂.top e hmem
    rw [hkey] at hh
    obtain ⟨hmem', hkey'⟩ := h₂.mem k held hh
    have hr := le_antisymm hle (h₁.le_of_mem he hmem' hkey')
    rw [hh, hu e hmem held hmem' (hkey.trans hkey'.symm) hr fun x hx hk =>
      h₁.le_of_mem he hx (hk.trans hkey)]
  cases he : m[k]? with
  | some e => exact (hs h h' he).symm
  | none =>
    cases he' : m'[k]? with
    | some e => exact absurd (hs h' h he') (by simp [he])
    | none => rfl

theorem getElem?_foldl_keep_of_top {k : κ} (hh : m[k]? = some e) {l : List ε}
    (hle : ∀ x ∈ l, key x = k → rank x ≤ rank e) :
    (l.foldl (keep key rank) m)[k]? = some e := by
  induction l generalizing m with
  | nil => exact hh
  | cons x l ih =>
    refine ih ?_ fun y hy => hle y (.tail x hy)
    by_cases hk : key x = k
    · rw [keep_of_le (hk ▸ hh) (hle x (.head _) hk)]
      exact hh
    · rw [getElem?_keep_of_ne hk]
      exact hh

theorem exists_apart_of_tied (h : ¬ Untied key rank seen) :
    ∃ e ∈ seen, ∃ e' ∈ seen, (e :: seen).foldl (keep key rank) ∅
      ≠ (e' :: seen).foldl (keep key rank) ∅ := by
  unfold Untied at h
  push Not at h
  obtain ⟨e, he, e', he', hkey, hra, htop, hne⟩ := h
  refine ⟨e, he, e', he', fun heq => hne ?_⟩
  have hf : ∀ x ∈ seen, key x = key e → rank x = rank e →
      ((x :: seen).foldl (keep key rank) ∅)[key e]? = some x := by
    intro x _ hk hr
    rw [foldl_cons, keep_of_none (by simp)]
    refine getElem?_foldl_keep_of_top ?_ fun y hy hky => (htop y hy hky).trans hr.ge
    rw [hk, BTreeMap.getElem?_insert_self]
  have hx := hf e he rfl rfl
  rw [heq, hf e' he' hkey.symm hra.symm] at hx
  exact (Option.some.inj hx).symm

end LastWriter
