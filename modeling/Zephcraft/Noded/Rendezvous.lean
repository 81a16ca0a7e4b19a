import Zephcraft.Noded.EpochCommittee
import Zephcraft.Noded.HeadElection

/-!
# Noded/Rendezvous — committees and replica sets as the nodes come and go

A committee and the replica set of a shard are both the low end of the eligible nodes, by a hash
that no two nodes share.
-/

namespace Zephcraft.Noded

open Com Ranking List Quorum

section Low

variable {blake3 : Bytes → B32} {program : B32} {epoch : U64} {sk : ShardKey}
  {nodes nodes' : List B32}

/-- **The committee is the low end of the nodes**, with a threshold that their number alone
decides. -/
theorem committeeFor_eq_lowest (hne : nodes ≠ []) : committeeFor blake3 program epoch nodes
    = some (.genesis (lowest (rendezvous blake3 program epoch) nDefault nodes)
        (max (min kDefault (min nDefault nodes.length)) (min nDefault nodes.length / 2 + 1))) := by
  have hpos : 1 ≤ min nDefault nodes.length := le_min (by decide) (length_pos_iff.mpr hne)
  rw [committeeFor, if_neg hne]
  dsimp only
  rw [length_insertionSort, max_eq_left hpos, ← lowest_min_length]
  rfl

theorem committeeFor_eq_of_perm (hp : nodes'.Perm nodes)
    (ha : Apart (rendezvous blake3 program epoch) nodes) :
    committeeFor blake3 program epoch nodes' = committeeFor blake3 program epoch nodes := by
  rcases eq_or_ne nodes [] with rfl | hne
  · rw [hp.eq_nil]
  · have hne' : nodes' ≠ [] := fun h => hne ((h ▸ hp).symm.eq_nil)
    rw [committeeFor_eq_lowest hne, committeeFor_eq_lowest hne', hp.length_eq,
      lowest_eq_of_perm hp ha]

/-- **A seat for a node that joins**: of two committees that are drawn with and without it, each has
at most one member that the other has not. -/
theorem differsByOne_committeeFor {x : B32} {q q' : Quorum} (hne : nodes ≠ [])
    (hq : committeeFor blake3 program epoch nodes = some q)
    (hq' : committeeFor blake3 program epoch (x :: nodes) = some q') :
    DiffersByOne q.body q'.body := by
  rw [committeeFor_eq_lowest hne] at hq
  rw [committeeFor_eq_lowest (cons_ne_nil x nodes)] at hq'
  cases hq
  cases hq'
  rw [body_genesis, body_genesis]
  exact differsByOne_lowest_cons x

theorem differsByOne_replicas (x : B32) :
    DiffersByOne (replicas blake3 sk nodes).toFinset
      (replicas blake3 sk (x :: nodes)).toFinset := by
  rw [replicas_eq_lowest, replicas_eq_lowest]
  exact differsByOne_lowest_cons x

end Low

/-- **Committees and replica sets are drawn alike by everyone, and stably.** The committee has four
of the nodes, or all if they are fewer, and a threshold of more than half; whoever lists the same
nodes in another order has the same committee; and with one node more, or one less, at most one
member comes and at most one goes. Of the three replicas of a shard the same is true. -/
theorem rendezvous_stable (blake3 : Bytes → B32) {nodes : List B32} (hnodup : nodes.Nodup)
    (hne : nodes ≠ []) :
    (∀ program epoch, Apart (rendezvous blake3 program epoch) nodes →
      ∃ q, committeeFor blake3 program epoch nodes = some q
        ∧ q.body ⊆ nodes.toFinset ∧ q.body.card = min 4 nodes.length
        ∧ q.members.length < 2 * q.threshold ∧ (∀ nodes', nodes'.Perm nodes
          → committeeFor blake3 program epoch nodes' = some q)
        ∧ ∀ x ∉ nodes, Apart (rendezvous blake3 program epoch) (x :: nodes)
          → ∀ nodes', nodes'.Perm (x :: nodes) →
            ∃ q', committeeFor blake3 program epoch nodes' = some q' ∧ DiffersByOne q.body q'.body)
    ∧ ∀ sk, Apart (replicaRank blake3 sk) nodes →
        (replicas blake3 sk nodes).toFinset ⊆ nodes.toFinset
        ∧ (replicas blake3 sk nodes).toFinset.card = min 3 nodes.length
        ∧ (∀ nodes', nodes'.Perm nodes → replicas blake3 sk nodes' = replicas blake3 sk nodes)
        ∧ ∀ x ∉ nodes, Apart (replicaRank blake3 sk) (x :: nodes)
          → ∀ nodes', nodes'.Perm (x :: nodes) → DiffersByOne (replicas blake3 sk nodes).toFinset
              (replicas blake3 sk nodes').toFinset := by
  constructor
  · intro program epoch hapart
    obtain ⟨q, hq⟩ : ∃ q, committeeFor blake3 program epoch nodes = some q :=
      ⟨_, committeeFor_eq_lowest hne⟩
    refine ⟨q, hq, fun m hm => ?_, ?_, ?_, fun nodes' hperm => ?_, fun x _ hapart' nodes' hperm =>
      ?_⟩
    · exact mem_toFinset.mpr (mem_eligible_of_committeeFor hq (mem_body.mp hm))
    · rw [card_body, (size_committeeFor hnodup hq).1]
    · rw [← card_body]
      exact isIntersectionSized_iff.mp (sized_committeeFor hq).1
    · rw [committeeFor_eq_of_perm hperm hapart, hq]
    · obtain ⟨q', hq'⟩ : ∃ q', committeeFor blake3 program epoch (x :: nodes) = some q' :=
        ⟨_, committeeFor_eq_lowest (cons_ne_nil x nodes)⟩
      exact ⟨q', (committeeFor_eq_of_perm hperm hapart').trans hq',
        differsByOne_committeeFor hne hq hq'⟩
  · intro sk hapart
    refine ⟨fun m hm => ?_, ?_, fun nodes' hperm => replicas_eq_of_perm hperm hapart,
      fun x _ hapart' nodes' hperm => ?_⟩
    · exact mem_toFinset.mpr (mem_of_mem_replicas (mem_toFinset.mp hm))
    · rw [toFinset_card_of_nodup (nodup_replicas hnodup), length_replicas, replicationFactor]
    · rw [replicas_eq_of_perm hperm hapart']
      exact differsByOne_replicas x

/-- Six nodes, and a seventh. -/
theorem rendezvous_stable_sixNodes :
    ∃ q q', committeeFor blake3 7 0 [1, 2, 3, 4, 5, 6] = some q
      ∧ committeeFor blake3 7 0 [7, 6, 5, 4, 3, 2, 1] = some q'
      ∧ q.body.card = 4 ∧ DiffersByOne q.body q'.body
      ∧ DiffersByOne (replicas blake3 ⟨0, 8, 3⟩ [1, 2, 3, 4, 5, 6]).toFinset
          (replicas blake3 ⟨0, 8, 3⟩ [7, 6, 5, 4, 3, 2, 1]).toFinset := by
  have hperm : ([7, 6, 5, 4, 3, 2, 1] : List B32).Perm (7 :: [1, 2, 3, 4, 5, 6]) := by
    decide +kernel
  have hapart : Apart (rendezvous blake3 7 0) (7 :: [1, 2, 3, 4, 5, 6]) :=
    inj_on_of_nodup_map (by decide +kernel)
  have hrank : Apart (replicaRank blake3 ⟨0, 8, 3⟩) (7 :: [1, 2, 3, 4, 5, 6]) :=
    inj_on_of_nodup_map (by decide +kernel)
  obtain ⟨hcommittee, hreplicas⟩ :=
    rendezvous_stable blake3 (by decide +kernel : ([1, 2, 3, 4, 5, 6] : List B32).Nodup) (by simp)
  obtain ⟨q, hq, -, hcard, -, -, hstep⟩ := hcommittee 7 0 hapart.tail
  obtain ⟨q', hq', hdiff⟩ := hstep 7 (by decide +kernel) hapart _ hperm
  obtain ⟨-, -, -, hstep'⟩ := hreplicas ⟨0, 8, 3⟩ hrank.tail
  exact ⟨q, q', hq, hq', hcard, hdiff, hstep' 7 (by decide +kernel) hrank _ hperm⟩

end Zephcraft.Noded
