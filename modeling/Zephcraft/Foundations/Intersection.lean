import Mathlib.Data.Finset.Card

/-!
# Foundations/Intersection — how two groups of voters can overlap

Out of each of two bodies a group of a given size votes. The question of every quorum argument is
what the two groups can have in common: with `d` the set they **may** share, two such groups exist
exactly when the sizes leave room for them (`exists_groups_iff`).
-/

namespace Intersection

open Finset

variable {α : Type*} [DecidableEq α]

theorem card_union_add_card_inter (s t d : Finset α) :
    (s ∪ t).card + (s ∩ t ∩ d).card = (s \ (t \ d)).card + t.card := by
  have hs : s \ (t \ d) = s \ t ∪ s ∩ t ∩ d := by
    ext x
    simp only [mem_sdiff, mem_union, mem_inter]
    tauto
  have hd : Disjoint (s \ t) (s ∩ t ∩ d) := by
    refine disjoint_left.mpr fun x hx hx' => (mem_sdiff.mp hx).2 ?_
    exact (mem_inter.mp (mem_inter.mp hx').1).2
  rw [hs, card_union_of_disjoint hd, ← card_sdiff_add_card s t]
  omega

/-- **Two groups share what they must**: as many as their sizes exceed the union by. -/
theorem card_add_card_le {s t d a b : Finset α} (ha : a ⊆ s) (hb : b ⊆ t) (hab : a ∩ b ⊆ d) :
    a.card + b.card ≤ (s ∪ t).card + (s ∩ t ∩ d).card := by
  rw [← Finset.card_union_add_card_inter a b]
  exact Nat.add_le_add (card_le_card (union_subset_union ha hb))
    (card_le_card (subset_inter (inter_subset_inter ha hb) hab))

/-- **Two groups sharing nothing but `d` exist exactly when there is room for them.** -/
theorem exists_groups_iff (s t d : Finset α) (k l : ℕ) :
    (∃ a ⊆ s, ∃ b ⊆ t, a.card = k ∧ b.card = l ∧ a ∩ b ⊆ d)
      ↔ k ≤ s.card ∧ l ≤ t.card ∧ k + l ≤ (s ∪ t).card + (s ∩ t ∩ d).card := by
  constructor
  · rintro ⟨a, ha, b, hb, rfl, rfl, hab⟩
    exact ⟨card_le_card ha, card_le_card hb, card_add_card_le ha hb hab⟩
  rintro ⟨hk, hl, hro⟩
  rw [card_union_add_card_inter] at hro
  -- the first group takes from the harmless part of `s` first; the second avoids the rest of it
  obtain ⟨a, has, rfl, hr⟩ : ∃ a ⊆ s, a.card = k ∧ l ≤ (t \ (a \ (s \ (t \ d)))).card := by
    rcases le_total k (s \ (t \ d)).card with hle | hle
    · obtain ⟨a, ha, rfl⟩ := exists_subset_card_eq hle
      refine ⟨a, ha.trans sdiff_subset, rfl, ?_⟩
      rwa [sdiff_eq_empty_iff_subset.mpr ha, sdiff_empty]
    · obtain ⟨a, hsub, ha, rfl⟩ := exists_subsuperset_card_eq sdiff_subset hle hk
      have hc := card_sdiff_of_subset hsub
      have hcut := le_card_sdiff (a \ (s \ (t \ d))) t
      exact ⟨a, ha, rfl, by omega⟩
  obtain ⟨b, hb, rfl⟩ := exists_subset_card_eq hr
  refine ⟨a, has, b, hb.trans sdiff_subset, rfl, rfl, fun x hx => ?_⟩
  obtain ⟨hxa, hxb⟩ := mem_inter.mp hx
  have hxt := hb hxb
  simp only [mem_sdiff] at hxt
  tauto

end Intersection
