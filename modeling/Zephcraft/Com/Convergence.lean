import Zephcraft.Com.Registry
import Zephcraft.Foundations.Blake3

/-!
# Com/Convergence — when replicas of the registry agree

A replica is fed by batches and by the states of other replicas, themselves fed in any way. Every
such history leaves a **latest** state: one head of highest version for each key.
-/

namespace Zephcraft.Com

open Zephcraft.Core List RegistryState LastWriter HeadEntry

/-- How a replica came to its state: by batches of heads, and by merging other replicas' states. -/
inductive History where
  | start
  | mergeEntries (h : History) (es : List HeadEntry)
  | merge (h other : History)

namespace History

def state (S : SigScheme) : History → RegistryState
  | start => .empty
  | mergeEntries h es => (h.state S).mergeEntries S es
  | merge h other => (h.state S).merge S (other.state S)

/-- The heads that were delivered, directly or to a replica whose state was merged. -/
def seen : History → List HeadEntry
  | start => []
  | mergeEntries h es => h.seen ++ es
  | merge h other => h.seen ++ other.seen

/-- Delivered exactly these heads, in some order, grouping and repetition. -/
def Delivers (h : History) (es : List HeadEntry) : Prop := ∀ e, e ∈ h.seen ↔ e ∈ es

theorem latest_state (S : SigScheme) (h : History) :
    LastWriter.Latest HeadEntry.key version (h.state S).rows
      (h.seen.filter (HeadEntry.verify S)) := by
  induction h with
  | start => exact latest_empty
  | mergeEntries h es ih =>
    rw [state, rows_mergeEntries, seen, filter_append]
    exact ih.foldl_keep _
  | merge h other ih ih' =>
    -- what a replica holds has been verified, so nothing is dropped when it is merged
    have hall : (other.state S).entries.filter (HeadEntry.verify S) = (other.state S).entries :=
      filter_eq_self.mpr fun e he => (mem_filter.mp (ih'.values_subset he)).2
    have hr := rows_mergeEntries S (h.state S) (other.state S).entries
    rw [hall] at hr
    rw [state, RegistryState.merge, ← RegistryState.mergeEntries, hr, seen, filter_append]
    exact ih.foldl_keep_values ih'

end History

/-- **Replicas agree exactly without ties**: whatever the order, the grouping and the repetition in
which the same heads reached two replicas, they end in the same state under the same root — if and
only if no two different verified heads of one key share its highest version. -/
theorem replicas_agree_iff_untied (S : SigScheme) (es : List HeadEntry) :
    (∀ h h' : History, h.Delivers es → h'.Delivers es →
        h.state S = h'.state S ∧ (h.state S).root blake3 = (h'.state S).root blake3)
      ↔ LastWriter.Untied HeadEntry.key version (es.filter (HeadEntry.verify S)) := by
  constructor
  · intro hagree
    by_contra htied
    obtain ⟨e, he, e', he', hne⟩ := exists_apart_of_tied htied
    have hmem :
        ∀ x ∈ es.filter (HeadEntry.verify S),
        (History.start.mergeEntries (x :: es)).Delivers es := by
      intro x hx y
      have hxes := (mem_filter.mp hx).1
      simp only [History.seen, nil_append, mem_cons]
      exact ⟨fun h => h.elim (fun h => h ▸ hxes) id, .inr⟩
    have hrows : ∀ x ∈ es.filter (HeadEntry.verify S),
        ((History.start.mergeEntries (x :: es)).state S).rows
          = (x :: es.filter (HeadEntry.verify S)).foldl (keep HeadEntry.key version) ∅ := by
      intro x hx
      rw [History.state, rows_mergeEntries, filter_cons_of_pos (mem_filter.mp hx).2]
      rfl
    have heq := congrArg RegistryState.rows (hagree _ _ (hmem e he) (hmem e' he')).1
    rw [hrows e he, hrows e' he'] at heq
    exact hne heq
  · intro huntied h h' hd hd'
    have hfilter : ∀ h : History, h.Delivers es → ∀ e, e ∈ h.seen.filter (HeadEntry.verify S)
        ↔ e ∈ es.filter (HeadEntry.verify S) := by
      intro h hd e
      rw [mem_filter, mem_filter, hd e]
    have hstate : h.state S = h'.state S := RegistryState.ext
      (((h.latest_state S).congr (hfilter h hd)).ext ((h'.latest_state S).congr (hfilter h' hd'))
        huntied)
    exact ⟨hstate, congrArg (RegistryState.root blake3) hstate⟩

/-- Two heads an owner signed for one name, at one version. -/
def twins : List HeadEntry :=
  [(HeadSubmission.sign .transparent (5 : B32) (ascii "app") 100 1).entry,
    (HeadSubmission.sign .transparent (5 : B32) (ascii "app") 200 1).entry]

/-- **A tie splits the replicas**: both orders are deliveries of the same heads, and they end in
states with different roots. -/
theorem twins_split_replicas :
    let h := History.start.mergeEntries twins
    let h' := History.start.mergeEntries twins.reverse
    (∀ e ∈ twins, e.verify .transparent) ∧ h.Delivers twins ∧ h'.Delivers twins
      ∧ (h.state .transparent).resolve 5 (ascii "app") ≠ (h'.state .transparent).resolve 5
        (ascii "app") ∧ (h.state .transparent).root blake3
          ≠ (h'.state .transparent).root blake3 := by
  refine ⟨by decide +kernel, fun e => by simp [History.seen], fun e => by simp [History.seen],
    by decide +kernel, by decide +kernel⟩

end Zephcraft.Com
