import Zephcraft.Foundations.Blake3
import Zephcraft.Foundations.Lowest
import Zephcraft.Settlement.Store

/-!
# Noded/HeadElection — who writes a registry shard

The writer of a shard is elected twice over: a hash picks a stable set of replicas out of the
eligible nodes, and the epoch rotates the role through it.
-/

namespace Zephcraft.Noded

open List Ranking

open Settlement (epochMillis)

def replicationFactor : ℕ := 3

/-- How long the writer of the previous epoch stays, in milliseconds. -/
def graceMillis : ℕ := 2000

/-- One registry account: a kind, the shard-count generation, a shard. -/
structure ShardKey where
  rtype : Byte
  bits : ℕ
  shard : U64
deriving DecidableEq

def effectiveEpoch (now : ℕ) : ℕ :=
  let e := now / epochMillis
  if now % epochMillis < graceMillis ∧ 0 < e then e - 1 else e

/-- The nodes a node elects from: itself, and the census. -/
def eligible (selfId : B32) (census : List B32) : List B32 :=
  selfId :: census.filter (· != selfId)

/-- What the nodes are ranked by, for a shard. The generation and the epoch do not enter. -/
def replicaRank (blake3 : Bytes → B32) (sk : ShardKey) (id : B32) : B32 :=
  blake3 (sk.rtype :: (sk.shard.toLeBytes ++ id.toBytes))

def replicas (blake3 : Bytes → B32) (sk : ShardKey) (eligible : List B32) : List B32 :=
  (eligible.insertionSort fun a b => replicaRank blake3 sk a ≤ replicaRank blake3 sk b).take
    (min replicationFactor eligible.length)

/-- The writer of a shard; a node that knows of no one elects itself. -/
def writerOf (blake3 : Bytes → B32) (sk : ShardKey) (eligible : List B32) (eff : ℕ)
    (selfId : B32) : B32 :=
  let reps := replicas blake3 sk eligible
  match reps[eff % reps.length]? with
  | some writer => writer
  | none => selfId

def isWriter (blake3 : Bytes → B32) (sk : ShardKey) (eligible : List B32) (now : ℕ)
    (selfId : B32) : Bool :=
  writerOf blake3 sk eligible (effectiveEpoch now) selfId = selfId

/-! ## The epoch and its boundary -/

/-- **The grace moves the boundary**: an epoch is entered when the clock has passed its start by the
grace. -/
theorem effectiveEpoch_lt_iff {now k : ℕ} (hk : 1 ≤ k) :
    effectiveEpoch now < k ↔ now < k * epochMillis + graceMillis := by
  unfold effectiveEpoch epochMillis graceMillis
  dsimp only
  split <;> omega

theorem effectiveEpoch_eq_iff (t t' : ℕ) : effectiveEpoch t = effectiveEpoch t' ↔
    ∀ k, 1 ≤ k → (t < k * epochMillis + graceMillis ↔ t' < k * epochMillis + graceMillis) := by
  constructor
  · intro h k hk
    rw [← effectiveEpoch_lt_iff hk, ← effectiveEpoch_lt_iff hk, h]
  · intro h
    have hlt : ∀ k, 1 ≤ k → (effectiveEpoch t < k ↔ effectiveEpoch t' < k) := fun k hk => by
      rw [effectiveEpoch_lt_iff hk, effectiveEpoch_lt_iff hk]
      exact h k hk
    have hle := (hlt (effectiveEpoch t' + 1) (by omega)).mpr (by omega)
    have hge := (hlt (effectiveEpoch t + 1) (by omega)).mp (by omega)
    omega

theorem effectiveEpoch_near {t t' : ℕ} (h : t < t' + graceMillis) (h' : t' < t + graceMillis) :
    effectiveEpoch t ≤ effectiveEpoch t' + 1 ∧ effectiveEpoch t' ≤ effectiveEpoch t + 1 := by
  unfold effectiveEpoch epochMillis
  unfold graceMillis at *
  dsimp only
  split <;> split <;> omega

/-! ## The replica set -/

section Replicas

variable {blake3 : Bytes → B32} {sk : ShardKey} {members l : List B32}

theorem replicas_eq_lowest :
    replicas blake3 sk l = lowest (replicaRank blake3 sk) replicationFactor l :=
  lowest_min_length

theorem length_replicas : (replicas blake3 sk l).length = min replicationFactor l.length := by
  rw [replicas_eq_lowest, length_lowest]

theorem nodup_replicas (h : l.Nodup) : (replicas blake3 sk l).Nodup := by
  rw [replicas_eq_lowest]
  exact nodup_lowest h

theorem mem_of_mem_replicas {id : B32} (h : id ∈ replicas blake3 sk l) : id ∈ l := by
  rw [replicas_eq_lowest] at h
  exact mem_of_mem_lowest h

/-- **The replica set does not depend on the order of the census**, where no two ids share a
rank. -/
theorem replicas_eq_of_perm (hp : l.Perm members)
    (hf : ∀ a ∈ members, ∀ b ∈ members, replicaRank blake3 sk a = replicaRank blake3 sk b → a = b) :
    replicas blake3 sk l = replicas blake3 sk members := by
  rw [replicas_eq_lowest, replicas_eq_lowest]
  exact lowest_eq_of_perm hp hf

theorem perm_eligible {selfId : B32} {census : List B32} (hmem : selfId ∈ census)
    (hnd : census.Nodup) : (eligible selfId census).Perm census := by
  rw [eligible, ← hnd.erase_eq_filter]
  exact (perm_cons_erase hmem).symm

theorem writerOf_eq_iff {eff : ℕ} {selfId id : B32} (hne : l ≠ []) :
    writerOf blake3 sk l eff selfId = id
      ↔ (replicas blake3 sk l)[eff % (replicas blake3 sk l).length]? = some id := by
  have hpos : 0 < (replicas blake3 sk l).length := by
    rw [length_replicas]
    exact lt_min (by decide) (length_pos_iff.mpr hne)
  rw [writerOf]
  simp [getElem?_eq_getElem (Nat.mod_lt eff hpos)]

end Replicas

/-! ## Two clocks -/

/-- **One writer, unless a boundary lies between the clocks.** The nodes agree on who is eligible,
each listing them in its own order, and no two of them share a rank. At two readings less than the
grace apart no two nodes both elect themselves, exactly when there are not two nodes, or both
readings are on the same side of every epoch boundary moved by the grace. -/
theorem one_writer_iff_same_side (blake3 : Bytes → B32) (sk : ShardKey) (members : List B32)
    (listing : B32 → List B32) (hnd : members.Nodup)
    (hlisting : ∀ a ∈ members, (listing a).Perm members)
    (hfree : ∀ a ∈ members, ∀ b ∈ members, replicaRank blake3 sk a = replicaRank blake3 sk b
      → a = b) (t t' : ℕ) (hskew : t < t' + graceMillis) (hskew' : t' < t + graceMillis) :
    (∀ a ∈ members, ∀ b ∈ members, a ≠ b →
        ¬ (isWriter blake3 sk (listing a) t a ∧ isWriter blake3 sk (listing b) t' b))
      ↔ members.length ≤ 1 ∨ ∀ k, 1 ≤ k → (t < k * epochMillis + graceMillis
          ↔ t' < k * epochMillis + graceMillis) := by
  rw [← effectiveEpoch_eq_iff]
  have hwriter : ∀ {a : B32} {now : ℕ}, a ∈ members → (isWriter blake3 sk (listing a) now a ↔
      (replicas blake3 sk members)[effectiveEpoch now % (replicas blake3 sk members).length]?
        = some a) := by
    intro a now ha
    have hne : listing a ≠ [] := fun h =>
      ne_nil_of_mem ha (perm_nil.mp (h ▸ (hlisting a ha)).symm)
    rw [isWriter, decide_eq_true_eq, writerOf_eq_iff hne, replicas_eq_of_perm (hlisting a ha) hfree]
  constructor
  · intro h
    by_contra hcon
    obtain ⟨hlen, hne⟩ := not_or.mp hcon
    have hsize : 2 ≤ (replicas blake3 sk members).length ∧ (replicas blake3 sk members).length
        ≤ 3 := by
      rw [length_replicas, replicationFactor]
      omega
    have hpos : 0 < (replicas blake3 sk members).length := by omega
    -- the epochs are neighbours, so they point at different replicas
    have hmod : effectiveEpoch t % (replicas blake3 sk members).length
        ≠ effectiveEpoch t' % (replicas blake3 sk members).length := by
      have hnear := effectiveEpoch_near hskew hskew'
      generalize (replicas blake3 sk members).length = n at hsize
      obtain rfl | rfl : n = 2 ∨ n = 3 := by omega
      all_goals omega
    have ha := getElem?_eq_getElem (Nat.mod_lt (effectiveEpoch t) hpos)
    have hb := getElem?_eq_getElem (Nat.mod_lt (effectiveEpoch t') hpos)
    refine h _ (mem_of_mem_replicas (getElem_mem _)) _ (mem_of_mem_replicas (getElem_mem _))
      (fun heq => hmod ?_) ⟨(hwriter (mem_of_mem_replicas (getElem_mem _))).mpr ha,
        (hwriter (mem_of_mem_replicas (getElem_mem _))).mpr hb⟩
    exact (nodup_replicas hnd).getElem_inj_iff.mp heq
  · rintro (hlen | heq) a ha b hb hab ⟨hwa, hwb⟩
    · obtain ⟨i, hi, rfl⟩ := getElem_of_mem ha
      obtain ⟨j, hj, rfl⟩ := getElem_of_mem hb
      obtain rfl : i = j := by omega
      exact hab rfl
    · rw [hwriter ha] at hwa
      rw [hwriter hb, ← heq, hwa] at hwb
      exact hab (Option.some.inj hwb)

/-- Two nodes, each with itself in front. -/
def twoNodes (a : B32) : List B32 := eligible a [1, 2]

theorem replicaRank_twoNodes :
    replicaRank blake3 ⟨0, 8, 5⟩ 1 ≠ replicaRank blake3 ⟨0, 8, 5⟩ 2 := by decide +kernel

/-- Away from a boundary there is one writer. -/
theorem one_writer_iff_same_side_twoNodes :
    ¬ (isWriter blake3 ⟨0, 8, 5⟩ (twoNodes 1) 400000 1
      ∧ isWriter blake3 ⟨0, 8, 5⟩ (twoNodes 2) 400001 2)
      ∧ ¬ (isWriter blake3 ⟨0, 8, 5⟩ (twoNodes 2) 400000 2
        ∧ isWriter blake3 ⟨0, 8, 5⟩ (twoNodes 1) 400001 1) := by
  have hone := (one_writer_iff_same_side blake3 ⟨0, 8, 5⟩ [1, 2] twoNodes (by decide)
    (fun _ ha => perm_eligible ha (by decide))
    (by simp [replicaRank_twoNodes, replicaRank_twoNodes.symm]) 400000 400001 (by decide)
    (by decide)).mpr (.inr fun k hk => by unfold epochMillis graceMillis; omega)
  exact ⟨hone 1 (by simp) 2 (by simp) (by decide), hone 2 (by simp) 1 (by simp) (by decide)⟩

/-- **Two writers, one millisecond apart.** Two seconds into epoch 1 the clock of the one node has
just left the grace and the clock of the other has not: each elects itself. -/
theorem two_writers_at_boundary :
    isWriter blake3 ⟨0, 8, 5⟩ (twoNodes 1) 302000 1
      ∧ isWriter blake3 ⟨0, 8, 5⟩ (twoNodes 2) 301999 2 := by
  decide +kernel

end Zephcraft.Noded
