import Mathlib.Data.Finset.Card
import Zephcraft.Foundations.Reorder

/-!
# Foundations/Lowest — the entries of lowest rank

Rendezvous hashing ranks the candidates by a hash and takes the low end. Without ties that is a
choice from the **set** of candidates: no order of listing them shows.
-/

namespace Ranking

open List

variable {α κ : Type*} (rank : α → κ) {l l' : List α}

/-- No two of the candidates share a rank. -/
def Apart (l : List α) : Prop := ∀ a ∈ l, ∀ b ∈ l, rank a = rank b → a = b

variable {rank} in
theorem Apart.perm (h : Apart rank l) (hp : l'.Perm l) : Apart rank l' := fun a ha b hb =>
  h a (hp.mem_iff.mp ha) b (hp.mem_iff.mp hb)

variable {rank} in
theorem Apart.tail {x : α} (h : Apart rank (x :: l)) : Apart rank l := fun a ha b hb =>
  h a (.tail x ha) b (.tail x hb)

variable [LinearOrder κ]

/-- The low end of the candidates, `n` of them or all. -/
def lowest (n : ℕ) (l : List α) : List α := (l.insertionSort fun a b => rank a ≤ rank b).take n

variable {rank} {n : ℕ}

instance instTotalRank : Std.Total fun a b : α => rank a ≤ rank b := ⟨fun _ _ => le_total _ _⟩

instance instTransRank : IsTrans α fun a b => rank a ≤ rank b := ⟨fun _ _ _ => le_trans⟩

@[simp] theorem length_lowest : (lowest rank n l).length = min n l.length := by
  simp [lowest]

theorem mem_of_mem_lowest {a : α} (h : a ∈ lowest rank n l) : a ∈ l :=
  (mem_insertionSort _).mp (mem_of_mem_take h)

theorem nodup_lowest (h : l.Nodup) : (lowest rank n l).Nodup :=
  ((perm_insertionSort _ l).nodup_iff.mpr h).sublist (take_sublist _ _)

theorem lowest_min_length : lowest rank (min n l.length) l = lowest rank n l := by
  rw [lowest, lowest, ← length_insertionSort (fun a b => rank a ≤ rank b) l, ← take_take,
    take_length]

theorem lowest_eq_of_perm (hp : l'.Perm l) (hap : Apart rank l) :
    lowest rank n l' = lowest rank n l := by
  have ht : ∀ a ∈ l', ∀ b ∈ l', rank a ≤ rank b → rank b ≤ rank a → a = b :=
    fun a ha b hb hab hba =>
    hap.perm hp a ha b hb (le_antisymm hab hba)
  exact congrArg (List.take n) (hp.insertionSort_eq ht)

theorem pairwise_rank_lt (hn : l.Nodup) (hap : Apart rank l) :
    (l.insertionSort fun a b => rank a ≤ rank b).Pairwise fun a b => rank a < rank b := by
  have hn' := (perm_insertionSort (fun a b => rank a ≤ rank b) l).nodup_iff.mpr hn
  refine ((pairwise_insertionSort _ l).and hn').imp_of_mem fun {a b} ha hb hab => ?_
  exact lt_of_le_of_ne hab.1 fun heq =>
    hab.2 (hap a ((mem_insertionSort _).mp ha) b ((mem_insertionSort _).mp hb) heq)

theorem pairwise_lowest (hn : l.Nodup) (ha : Apart rank l) :
    (lowest rank n l).Pairwise fun a b => rank a < rank b :=
  (pairwise_rank_lt hn ha).sublist (take_sublist _ _)

/-- What is left out ranks above what is chosen. -/
theorem lt_of_notMem_lowest (hn : l.Nodup) (hap : Apart rank l) {a b : α} (ha : a ∈ lowest rank n l)
    (hb : b ∈ l) (hout : b ∉ lowest rank n l) : rank a < rank b := by
  have hp := pairwise_rank_lt hn hap
  rw [← take_append_drop n (l.insertionSort _), List.pairwise_append] at hp
  have hs := (mem_insertionSort fun a b => rank a ≤ rank b).mpr hb
  rw [← take_append_drop n (l.insertionSort _), mem_append] at hs
  exact hp.2.2 a ha b (hs.resolve_left hout)

/-- **One candidate more**: the choice is the same but for at most one that comes and at most one
that goes. -/
theorem exists_lowest_cons (rank : α → κ) (n : ℕ) (x : α) (l : List α) : ∃ kept gone come : List α,
    (lowest rank n l).Perm (kept ++ gone) ∧ (lowest rank n (x :: l)).Perm (kept ++ come)
      ∧ gone.length ≤ 1 ∧ come.length ≤ 1 := by
  -- the sorted candidates are those before `x` and those behind it
  obtain ⟨before, behind, hs, hs'⟩ : ∃ before behind,
      (l.insertionSort fun a b => rank a ≤ rank b) = before ++ behind
        ∧ ((x :: l).insertionSort fun a b => rank a ≤ rank b) = before ++ x :: behind :=
    ⟨_, _, (takeWhile_append_dropWhile).symm, insertionSort_cons_eq_take_drop _ x l⟩
  rw [lowest, lowest, hs, hs']
  rcases Nat.lt_or_ge before.length n with hlt | hle
  · obtain ⟨m, rfl⟩ := Nat.exists_eq_add_of_lt hlt
    refine ⟨before ++ behind.take m, behind[m]?.toList, [x], ?_, ?_, ?_, le_rfl⟩
    · rw [append_assoc, ← take_add_one, Nat.add_assoc, take_length_add_append]
    · rw [Nat.add_assoc, take_length_add_append, take_succ_cons, append_assoc]
      exact (perm_append_singleton x _).symm.append_left before
    · cases behind[m]? <;> simp
  · refine ⟨before.take n, [], [], ?_, ?_, Nat.zero_le 1, Nat.zero_le 1⟩ <;>
      rw [append_nil, take_append_of_le_length hle]

variable [DecidableEq α]

/-- At most one is in the first set only, and at most one in the second only. -/
def DiffersByOne (s t : Finset α) : Prop := (s \ t).card ≤ 1 ∧ (t \ s).card ≤ 1

theorem card_sdiff_le_of_perm {kept gone come : List α} (h : l.Perm (kept ++ gone))
    (h' : l'.Perm (kept ++ come)) :
    (l.toFinset \ l'.toFinset).card ≤ gone.length := by
  have hsub : l.toFinset \ l'.toFinset ⊆ gone.toFinset := by
    intro a ha
    simp only [Finset.mem_sdiff, mem_toFinset, h.mem_iff, h'.mem_iff, mem_append, not_or] at ha
    exact mem_toFinset.mpr (ha.1.resolve_left ha.2.1)
  exact (Finset.card_le_card hsub).trans (toFinset_card_le gone)

theorem differsByOne_lowest_cons (x : α) :
    DiffersByOne (lowest rank n l).toFinset (lowest rank n (x :: l)).toFinset := by
  obtain ⟨kept, gone, come, hgo, hco, hg, hc⟩ := exists_lowest_cons rank n x l
  exact ⟨(card_sdiff_le_of_perm hgo hco).trans hg, (card_sdiff_le_of_perm hco hgo).trans hc⟩

end Ranking
