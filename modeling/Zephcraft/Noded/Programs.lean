import Zephcraft.Foundations.Blake3
import Zephcraft.Noded.Conflict

/-!
# Noded/Programs — the chains of several programs

Every program has a quorum of its own, fixed for good. The signed-set tells the programs apart, the
signed bytes do not.
-/

namespace Zephcraft.Noded

open Zephcraft.Core Com Finset Quorum

/-- A fixed quorum for each program's chain. -/
structure Programs (F : Fleet) where
  quorumFor : Chain → Option Quorum
  staffed : ∀ chain q, quorumFor chain = some q → ∀ m ∈ q.members, ∃ n, F.id n = m

namespace Programs

variable {F : Fleet} (P : Programs F)

/-- The programs as a network whose quorums never change. -/
def network : Network F where
  quorumFor _ chain := P.quorumFor chain
  staffed _ := P.staffed

/-- The member sits in an intersection-sized quorum of another program. -/
def SitsElsewhere (chain : Chain) (m : B32) : Prop :=
  ∃ chain' q, chain' ≠ chain ∧ P.quorumFor chain' = some q ∧ q.isIntersectionSized ∧ m ∈ q.members

/-- The signatures released for chains other than this one. -/
def foreignSignatures (requests : List (Solicit F)) (chain : Chain) : List (B32 × SequencedWrite) :=
  ((P.network.after requests).released.filter fun r => r.chain ≠ chain).map
    fun r => (F.id r.node, r.write)

/-- **No signature counts twice**: signatures released for other chains do not authorize a commit on
this one. -/
def Separate (requests : List (Solicit F)) (chain : Chain) : Prop :=
  ∀ q, P.quorumFor chain = some q → ∀ c : SequencedCommit,
    c.Unforged F.S (· ∈ q.members) (P.foreignSignatures requests chain) → ¬ c.authorizes F.S q

open scoped Classical in
/-- **Few enough members shared**: of each quorum no more sit elsewhere than may be byzantine. -/
def Disentangled : Prop :=
  ∀ chain q, P.quorumFor chain = some q → q.isIntersectionSized → q.threshold ≤ q.members.length →
    (q.body.filter (P.SitsElsewhere chain)).card ≤ q.byzantineTolerance

variable {P}

theorem straddles_iff {chain : Chain} {q : Quorum} (hq : P.quorumFor chain = some q)
    (hs : q.isIntersectionSized) {m : B32} (hm : m ∈ q.body) :
    P.network.Straddles m ↔ P.SitsElsewhere chain m := by
  constructor
  · rintro ⟨chain₁, chain₂, hne, ⟨_, q₁, h₁⟩, ⟨_, q₂, h₂⟩⟩
    by_cases hc : chain₁ = chain
    · exact ⟨chain₂, q₂, fun h => hne (hc.trans h.symm), h₂⟩
    · exact ⟨chain₁, q₁, hc, h₁⟩
  · rintro ⟨chain', q', hne, h'⟩
    exact ⟨chain', chain, hne, ⟨0, q', h'⟩, ⟨0, q, hq, hs, mem_body.mp hm⟩⟩

theorem noRoom_iff_disentangled : (∀ chain, P.network.NoRoom chain) ↔ P.Disentangled := by
  classical
  have hc : ∀ {chain q}, P.quorumFor chain = some q → q.isIntersectionSized →
      (q.body.filter P.network.Straddles).card = (q.body.filter (P.SitsElsewhere chain)).card :=
    fun hq hs => congrArg Finset.card (filter_congr fun m hm => straddles_iff hq hs hm)
  constructor
  · intro h chain q hq hs hk
    have hlt := h chain 0 0 q q hq hq hs hs (by simpa using hk) (by simpa using hk)
    rw [union_idempotent, inter_self, hc hq hs, card_body] at hlt
    rw [byzantineTolerance]
    omega
  · intro h chain e e' q q' hq hq' hs _ hk _
    obtain rfl : q = q' := Option.some.inj (hq.symm.trans hq')
    have hle := h chain q hq hs (by simpa using hk)
    have hsi := isIntersectionSized_iff.mp hs
    rw [union_idempotent, inter_self, hc hq hs]
    rw [byzantineTolerance, ← card_body] at hle
    omega

theorem separate_of_disentangled (h : P.Disentangled) (requests : List (Solicit F))
    (chain : Chain) :
    P.Separate requests chain := by
  classical
  intro q hq c hc ha
  obtain ⟨-, hs, hk⟩ := SequencedCommit.authorizes_iff.mp ha
  have hsub := q.signers_subset F.S c.write.signingBytes c.signatures
  have hf : q.signers F.S c.write.signingBytes c.signatures
      ⊆ q.body.filter (P.SitsElsewhere chain) := by
    intro m hm
    refine mem_filter.mpr ⟨hsub hm, ?_⟩
    obtain ⟨r, hr, heq⟩ := List.mem_map.mp
      (hc.released_of_mem_signers hm (Quorum.mem_signers.mp hm).1)
    obtain ⟨rfl, -⟩ : F.id r.node = m ∧ r.write = c.write := by simpa using heq
    obtain ⟨hr, hch⟩ := List.mem_filter.mp hr
    obtain ⟨_, q', h'⟩ := (P.network.sound_after requests).eligible r hr
    exact ⟨r.chain, q', by simpa using hch, h'⟩
  have hn := hk.trans (card_le_card hsub)
  have hle := (hk.trans (card_le_card hf)).trans (h chain q hq hs (by simpa using hn))
  have hsi := isIntersectionSized_iff.mp hs
  rw [byzantineTolerance, ← card_body] at hle
  omega

/-- **The order of every program is safe from the others, in every run, exactly when no quorum
shares more members with other quorums than it tolerates to be byzantine.** -/
theorem programs_safe_iff_disentangled (F : Fleet) (P : Programs F) :
    (∀ requests, CollisionFree requests → ∀ chain,
      P.network.Agrees requests chain ∧ P.Separate requests chain) ↔ P.Disentangled := by
  constructor
  · intro h
    refine noRoom_iff_disentangled.mp fun chain => (P.network.agrees_iff_noRoom chain).mp ?_
    exact fun requests hfree => (h requests hfree chain).1
  · intro h requests hfree chain
    refine ⟨(P.network.agrees_iff_noRoom chain).mpr ?_ requests hfree,
      separate_of_disentangled h requests chain⟩
    exact noRoom_iff_disentangled.mpr h chain

/-! ## Two programs with one quorum -/

end Programs

/-- Nodes that are their own keys, under the transparent scheme and the real hash. -/
def openFleet : Fleet where
  S := .transparent
  blake3 := blake3
  Node := B32
  decEq := inferInstance
  secret n := n
  id_injective _ _ h := h
  separates := ⟨(9 : B32), 0, [1], [2], by decide +kernel⟩

namespace Programs

/-- Programs 1 and 2 of owner 0, both ordered by two of the nodes 1, 2, 3. -/
def twins : Programs openFleet where
  quorumFor chain := if chain = (0, 1) ∨ chain = (0, 2) then some (.genesis [1, 2, 3] 2) else none
  staffed _ _ _ m _ := ⟨m, rfl⟩

/-- Account 9's first write on either program's chain. -/
def firstWrite (payload : Byte) : SequencedWrite := .author .transparent (9 : B32) 0 [payload]

/-- Nodes 1 and 2 order one write on each program's chain. -/
def oneWriteEach : List (Solicit openFleet) :=
  [⟨0, (1 : B32), (0, 1), firstWrite 1⟩, ⟨0, (2 : B32), (0, 1), firstWrite 1⟩,
    ⟨0, (1 : B32), (0, 2), firstWrite 2⟩, ⟨0, (2 : B32), (0, 2), firstWrite 2⟩]

/-- **Both writes can be committed on the first program's chain** — the second under signatures that
were released for the other program. -/
theorem twins_order_two_writes :
    CollisionFree oneWriteEach ∧ ¬ twins.network.Agrees oneWriteEach (0, 1)
      ∧ ¬ twins.Separate oneWriteEach (0, 1) := by
  have hq : twins.quorumFor (0, 1) = some (.genesis [1, 2, 3] 2) := rfl
  refine ⟨by unfold CollisionFree; decide +kernel, fun h => ?_, fun h => ?_⟩
  · have heq := h 0 0 _ _ hq hq (openFleet.commitBy (firstWrite 1) [(1 : B32), (2 : B32)])
      (openFleet.commitBy (firstWrite 2) [(1 : B32), (2 : B32)]) (by decide +kernel)
      (by decide +kernel) (by decide +kernel) (by decide +kernel) (by decide +kernel)
    exact absurd heq (by decide +kernel)
  · exact h _ hq (openFleet.commitBy (firstWrite 2) [(1 : B32), (2 : B32)])
      (by decide +kernel) (by decide +kernel)

end Programs

end Zephcraft.Noded
