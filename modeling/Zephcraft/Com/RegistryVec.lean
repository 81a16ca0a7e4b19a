import Zephcraft.Com.Registry
import Zephcraft.Foundations.Run
import Zephcraft.Foundations.SortedVec

/-!
# Com/RegistryVec — the registry state as the vector it is

The registry keeps its heads in a vector and finds them by binary search. Nothing in the type says
that the vector is sorted, and one that comes over the network may be in any order, with keys twice
and signatures that do not verify.
-/

namespace Zephcraft.Com

open Zephcraft.Core List SortedVec HeadEntry Run

/-- A registry state, decoded from anywhere. -/
@[ext] structure RegistryVec where
  entries : List HeadEntry
deriving DecidableEq

namespace RegistryVec

variable (B : BinarySearch) (S : SigScheme) (state : RegistryVec)

def empty : RegistryVec := ⟨[]⟩

/-- The place of a key, or where it would go. -/
def find (owner : B32) (name : Bytes) : Except ℕ ℕ :=
  B.search (fun e => (compare e.owner owner).then (compare e.name name)) state.entries

def resolve (owner : B32) (name : Bytes) : Option HeadEntry :=
  match state.find B owner name with
  | .ok i => state.entries[i]?
  | .error _ => none

def apply (sub : HeadSubmission) : Except Rejection RegistryVec :=
  if ¬ sub.verify S then .error .badSignature
  else match state.find B sub.owner sub.name with
    | .ok i =>
      if state.entries[i]?.any (sub.version ≤ ·.version) then .error .staleVersion
      else .ok ⟨state.entries.set i sub.entry⟩
    | .error i => .ok ⟨state.entries.insertIdx i sub.entry⟩

def mergeEntry (e : HeadEntry) : RegistryVec :=
  if ¬ e.verify S then state
  else match state.find B e.owner e.name with
    | .ok i => if state.entries[i]?.any (·.version < e.version) then ⟨state.entries.set i e⟩
      else state
    | .error i => ⟨state.entries.insertIdx i e⟩

def merge (other : RegistryVec) : RegistryVec := other.entries.foldl (mergeEntry B S) state

def mergeEntries (entries : List HeadEntry) : RegistryVec := entries.foldl (mergeEntry B S) state

/-! ## One head -/

section

variable {B S state} {e : HeadEntry} {sub : HeadSubmission}

theorem find_key (e : HeadEntry) :
    state.find B e.owner e.name = SortedVec.find B HeadEntry.key state.entries e.key := rfl

theorem resolve_eq (owner : B32) (name : Bytes) :
    state.resolve B owner name = SortedVec.lookup B HeadEntry.key state.entries (owner, name) := rfl

theorem entries_mergeEntry : (state.mergeEntry B S e).entries
    = if e.verify S then absorb B HeadEntry.key version state.entries e else state.entries := by
  rw [mergeEntry, absorb, SortedVec.upsert, find_key]
  by_cases hv : e.verify S
  · rw [if_neg (not_not.mpr hv), if_pos hv]
    cases SortedVec.find B HeadEntry.key state.entries e.key with
    | error i => rfl
    | ok i =>
      cases hh : state.entries[i]? with
      | none =>
        -- no place: setting it would change nothing
        have hlen := List.getElem?_eq_none_iff.mp hh
        simp [hh, set_eq_of_length_le hlen]
      | some held =>
        rcases le_or_gt e.version held.version with hle | hlt
        · simp [hh, hle, not_lt.mpr hle]
        · simp [hh, hlt, not_le.mpr hlt]
  · rw [if_pos hv, if_neg hv]

theorem apply_eq : state.apply B S sub = if ¬ sub.verify S then .error .badSignature
    else match SortedVec.upsert B HeadEntry.key version state.entries sub.entry with
      | some entries => .ok ⟨entries⟩
      | none => .error .staleVersion := by
  have hf :
      state.find B sub.owner sub.name
        = SortedVec.find B HeadEntry.key state.entries sub.entry.key :=
    find_key sub.entry
  rw [apply, SortedVec.upsert, hf]
  cases SortedVec.find B HeadEntry.key state.entries sub.entry.key with
  | error i => rfl
  | ok i =>
    have hv : sub.entry.version = sub.version := rfl
    dsimp only
    rw [hv]
    cases state.entries[i]?.any (sub.version ≤ ·.version) <;> rfl

theorem entries_mergeEntries (es : List HeadEntry) : (state.mergeEntries B S es).entries
    = (es.filter (HeadEntry.verify S)).foldl (absorb B HeadEntry.key version) state.entries := by
  induction es generalizing state with
  | nil => rfl
  | cons e es ih =>
    have hs : state.mergeEntries B S (e :: es) = (state.mergeEntry B S e).mergeEntries B S es := rfl
    rw [hs, ih, entries_mergeEntry]
    by_cases hv : e.verify S <;> simp [hv]

end

/-! ## Whatever it is fed -/

/-- What a state is fed: a submission, another state, or a batch of entries. -/
inductive Feed where
  | apply (sub : HeadSubmission)
  | merge (other : RegistryVec)
  | mergeEntries (entries : List HeadEntry)

/-- The heads that are offered to the state. -/
def Feed.offered : Feed → List HeadEntry
  | apply sub => [sub.entry]
  | merge other => other.entries
  | mergeEntries entries => entries

/-- The state afterwards; a submission that is refused leaves it. -/
def feed : Feed → RegistryVec
  | .apply sub => match state.apply B S sub with
    | .ok next => next
    | .error _ => state
  | .merge other => state.merge B S other
  | .mergeEntries entries => state.mergeEntries B S entries

/-- The state after any number of feeds, from the empty one. -/
def fed (feeds : List Feed) : RegistryVec := run (feed B S) empty feeds

/-- The heads of one key that were offered with a good signature. -/
def accepted (feeds : List Feed) (owner : B32) (name : Bytes) : List HeadEntry :=
  ((feeds.flatMap Feed.offered).filter (HeadEntry.verify S)).filter (·.key = (owner, name))

variable {B S state} {feeds : List Feed}

/-- **The three ways in are one**: a refused submission is a head that a merge would pass over. -/
theorem feed_eq (f : Feed) : state.feed B S f = state.mergeEntries B S f.offered := by
  cases f with
  | merge other => rfl
  | mergeEntries entries => rfl
  | apply sub =>
    have hm : (state.mergeEntries B S [sub.entry]).entries = if sub.verify S
        then absorb B HeadEntry.key version state.entries sub.entry else state.entries :=
      entries_mergeEntry
    rw [RegistryVec.ext_iff, Feed.offered, hm, feed, apply_eq, absorb]
    by_cases hv : sub.verify S
    · rw [if_neg (not_not.mpr hv), if_pos hv]
      cases SortedVec.upsert B HeadEntry.key version state.entries sub.entry <;> rfl
    · rw [if_pos hv, if_neg hv]

theorem holds_fed (B : BinarySearch) (S : SigScheme) (feeds : List Feed) :
    SortedVec.Sorted HeadEntry.key (fed B S feeds).entries
      ∧ ∀ k, SortedVec.lookup B HeadEntry.key (fed B S feeds).entries k
        = top HeadEntry.key version ((feeds.flatMap Feed.offered).filter (HeadEntry.verify S))
          k := by
  induction feeds using reverseRecOn with
  | nil =>
    refine ⟨sorted_nil, fun k => ?_⟩
    exact (sorted_nil.lookup_eq_none B).mpr (by simp)
  | append_singleton feeds f ih =>
    obtain ⟨hso, htop⟩ := ih
    have hs := hso.lookup_foldl_absorb htop (f.offered.filter (HeadEntry.verify S))
    rw [← entries_mergeEntries, ← feed_eq] at hs
    simpa [fed] using hs

theorem resolve_fed (owner : B32) (name : Bytes) :
    (fed B S feeds).resolve B owner name = (accepted S feeds owner name).argmax version :=
  (holds_fed B S feeds).2 (owner, name)

/-- **A fed state is a sorted last-version map.** It is strictly sorted by owner and name, all of it
verifies, a head that is found is followed only by heads of the same name and no lower version, and
of the heads of a name that were offered with a good signature it has the first of the highest
version. -/
theorem fed_state_is_last_version_map (B : BinarySearch) (S : SigScheme) (feeds : List Feed) :
    ((fed B S feeds).entries.Pairwise fun a b => compare (a.owner, a.name) (b.owner, b.name) = .lt)
    ∧ (∀ e ∈ (fed B S feeds).entries, e.verify S)
    ∧ (∀ owner name e, (fed B S feeds).resolve B owner name = some e → ∀ more, ∃ e',
        (fed B S (feeds ++ more)).resolve B owner name = some e' ∧ e.version ≤ e'.version)
    ∧ ∀ owner name, (fed B S feeds).resolve B owner name
      = (accepted S feeds owner name).argmax version := by
  obtain ⟨hsorted, htop⟩ := holds_fed B S feeds
  refine ⟨hsorted, fun e he => ?_, fun owner name e he more => ?_, fun owner name =>
    resolve_fed owner name⟩
  · have hfound := (hsorted.lookup_eq_some B).mpr ⟨he, rfl⟩
    rw [htop] at hfound
    exact (mem_filter.mp (mem_filter.mp (argmax_mem hfound)).1).2
  · rw [resolve_fed] at he ⊢
    have hmem : e ∈ accepted S (feeds ++ more) owner name := by
      rw [accepted, flatMap_append, filter_append, filter_append]
      exact mem_append_left _ (argmax_mem he)
    cases hmax : (accepted S (feeds ++ more) owner name).argmax version with
    | none =>
      rw [argmax_eq_none.mp hmax] at hmem
      cases hmem
    | some e' => exact ⟨e', rfl, le_of_mem_argmax hmem hmax⟩

end RegistryVec

/-! ## As the ordered map -/

namespace RegistryState

variable {B : BinarySearch} {S : SigScheme} (state : RegistryState)

def vec : RegistryVec := ⟨state.entries⟩

theorem resolve_vec (owner : B32) (name : Bytes) :
    state.vec.resolve B owner name = state.resolve owner name := by
  rw [RegistryVec.resolve_eq]
  exact lookup_values state.keyed

theorem upsert_vec (e : HeadEntry) : SortedVec.upsert B HeadEntry.key version state.vec.entries e
    = if state.rows[e.key]?.any (e.version ≤ ·.version) then none
      else some (state.upsert e).vec.entries :=
  upsert_values state.keyed

theorem vec_mergeEntry (e : HeadEntry) :
    state.vec.mergeEntry B S e = (state.mergeEntry S e).vec := by
  rw [RegistryVec.ext_iff, RegistryVec.entries_mergeEntry, absorb, upsert_vec, mergeEntry]
  by_cases hv : e.verify S
  · rw [if_pos hv, if_neg (not_not.mpr hv)]
    cases state.rows[e.key]? with
    | none => rfl
    | some held =>
      rcases le_or_gt e.version held.version with hle | hlt
      · simp [hle, not_lt.mpr hle]
      · simp [hlt, not_le.mpr hlt]
  · rw [if_neg hv, if_pos hv]

theorem vec_apply (sub : HeadSubmission) :
    state.vec.apply B S sub = (state.apply S sub).map vec := by
  rw [RegistryVec.apply_eq, upsert_vec, apply, HeadSubmission.key_entry]
  by_cases hv : sub.verify S
  · rw [if_neg (not_not.mpr hv), if_neg (not_not.mpr hv)]
    cases state.rows[sub.key]? with
    | none => rfl
    | some held =>
      have hve : sub.entry.version = sub.version := rfl
      rcases le_or_gt sub.version held.version with hle | hlt
      · simp [hve, hle, Except.map]
      · simp [hve, not_le.mpr hlt, Except.map, vec]
  · rw [if_pos hv, if_pos hv]
    rfl

theorem vec_mergeEntries (es : List HeadEntry) :
    state.vec.mergeEntries B S es = (state.mergeEntries S es).vec := by
  induction es generalizing state with
  | nil => rfl
  | cons e es ih =>
    have hs :
        state.vec.mergeEntries B S (e :: es) = (state.vec.mergeEntry B S e).mergeEntries B S es :=
      rfl
    rw [hs, vec_mergeEntry, ih]
    rfl

/-- The map after a feed. -/
def feed (S : SigScheme) (state : RegistryState) : RegistryVec.Feed → RegistryState
  | .apply sub => match state.apply S sub with
    | .ok next => next
    | .error _ => state
  | .merge other => state.mergeEntries S other.entries
  | .mergeEntries entries => state.mergeEntries S entries

theorem vec_feed (f : RegistryVec.Feed) : state.vec.feed B S f = (state.feed S f).vec := by
  cases f with
  | apply sub =>
    rw [RegistryVec.feed, vec_apply, feed]
    cases state.apply S sub <;> rfl
  | merge other => exact state.vec_mergeEntries other.entries
  | mergeEntries entries => exact state.vec_mergeEntries entries

/-- **The vector is the ordered map**, whatever it is fed and wherever the search probes. -/
theorem fed_refines_map (B : BinarySearch) (S : SigScheme) (feeds : List RegistryVec.Feed) :
    RegistryVec.fed B S feeds = (run (feed S) empty feeds).vec
      ∧ ∀ owner name, (RegistryVec.fed B S feeds).resolve B owner name
        = (run (feed S) empty feeds).resolve owner name := by
  have hfed : RegistryVec.fed B S feeds = (run (feed S) empty feeds).vec := by
    induction feeds using reverseRecOn with
    | nil => rfl
    | append_singleton feeds f ih =>
      rw [RegistryVec.fed, run_concat, run_concat, ← vec_feed, ← ih, RegistryVec.fed]
  exact ⟨hfed, fun owner name => by rw [hfed, resolve_vec]⟩

end RegistryState

end Zephcraft.Com
