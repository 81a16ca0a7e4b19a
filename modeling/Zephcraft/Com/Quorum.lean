import Zephcraft.Core.Identity
import Zephcraft.Foundations.Intersection
import Mathlib.Data.List.Sort

/-!
# Com/Quorum — a named set of members and a threshold

The members are kept in strictly increasing order — the canonical form `genesis` establishes — so
the structure carries it: looking a member up is membership, and counting members is counting a set.
-/

namespace Zephcraft.Com

open Zephcraft.Core List

/-- A member's signature. -/
structure MemberSignature where
  member : B32
  signature : Bytes
deriving DecidableEq

/-- A sorted member set with its threshold. -/
structure Quorum where
  members : List B32
  threshold : ℕ
  seq : U64
  sorted : members.Pairwise (· < ·)
deriving DecidableEq

namespace Quorum

/-- The members sorted, repetitions dropped. -/
def canonical (members : List B32) : List B32 := (members.insertionSort (· ≤ ·)).dedup

theorem pairwise_canonical (members : List B32) : (canonical members).Pairwise (· < ·) := by
  have hle : (canonical members).Pairwise (· ≤ ·) :=
    (pairwise_insertionSort (· ≤ ·) members).sublist (dedup_sublist _)
  exact hle.imp₂ (fun _ _ hle hne => lt_of_le_of_ne hle hne) (nodup_dedup _)

variable {m : B32} {q : Quorum}

@[simp] theorem mem_canonical {members : List B32} : m ∈ canonical members ↔ m ∈ members := by
  simp [canonical]

/-- The bootstrap quorum; the threshold is clamped to the number of members. -/
def genesis (members : List B32) (threshold : ℕ) : Quorum where
  members := canonical members
  threshold := max 1 (min threshold (max (canonical members).length 1))
  seq := 0
  sorted := pairwise_canonical members

/-- Is this a member? In a sorted list the binary search finds what is there. -/
def isMember (q : Quorum) (id : B32) : Bool := id ∈ q.members

/-- Do any two `threshold`-subsets of the members share one? -/
def isIntersectionSized (q : Quorum) : Bool := q.members.length < 2 * q.threshold

/-- How many equivocating members the sizing tolerates. -/
def byzantineTolerance (q : Quorum) : ℕ := 2 * q.threshold - (q.members.length + 1)

/-- The members with a valid signature over `msg` among `sigs`. -/
def signers (q : Quorum) (S : SigScheme) (msg : Bytes) (sigs : List MemberSignature) :
    Finset B32 :=
  ((sigs.filter fun s => q.isMember s.member && S.verifyBytes s.member msg s.signature).map
    MemberSignature.member).toFinset

/-- How many distinct members signed `msg`. -/
def countSigners (q : Quorum) (S : SigScheme) (msg : Bytes) (sigs : List MemberSignature) : ℕ :=
  (q.signers S msg sigs).card

/-! ## The members as a set -/

def body (q : Quorum) : Finset B32 := q.members.toFinset

@[simp] theorem mem_body : m ∈ q.body ↔ m ∈ q.members :=
  mem_toFinset

theorem body_genesis (members : List B32) (threshold : ℕ) :
    (genesis members threshold).body = members.toFinset := by
  ext m
  rw [mem_body, mem_toFinset]
  exact mem_canonical

theorem nodup_members (q : Quorum) : q.members.Nodup := q.sorted.imp fun h => ne_of_lt h

@[simp] theorem card_body (q : Quorum) : q.body.card = q.members.length :=
  toFinset_card_of_nodup q.nodup_members

theorem ext_body {q' : Quorum} (hb : q.body = q'.body) (ht : q.threshold = q'.threshold)
    (hseq : q.seq = q'.seq) : q = q' := by
  have hp := perm_of_nodup_nodup_toFinset_eq q.nodup_members q'.nodup_members hb
  have hm := hp.eq_of_pairwise' (q.sorted.imp le_of_lt) (q'.sorted.imp le_of_lt)
  cases q
  cases q'
  simp_all

theorem isIntersectionSized_iff : q.isIntersectionSized ↔ q.body.card < 2 * q.threshold := by
  simp [isIntersectionSized]

theorem threshold_pos (h : q.isIntersectionSized) : 0 < q.threshold := by
  have := isIntersectionSized_iff.mp h
  omega

/-- **A bootstrap quorum of a majority threshold** is intersection-sized and can reach the
threshold. -/
theorem sized_genesis {ids : List B32} {k : ℕ} (hne : ids ≠ []) (hk : ids.length < 2 * k) :
    (genesis ids k).isIntersectionSized ∧ (genesis ids k).threshold
      ≤ (genesis ids k).body.card := by
  have hpos : 0 < (canonical ids).length := by
    obtain ⟨m, hm⟩ := exists_mem_of_ne_nil ids hne
    exact length_pos_of_mem (mem_canonical.mpr hm)
  have hle : (canonical ids).length ≤ ids.length :=
    (dedup_sublist _).length_le.trans (length_insertionSort _ _).le
  rw [isIntersectionSized_iff, card_body]
  dsimp only [genesis]
  omega

theorem length_canonical_of_nodup {ids : List B32} (h : ids.Nodup) :
    (canonical ids).length = ids.length := by
  rw [canonical, List.Nodup.dedup ((perm_insertionSort _ ids).nodup_iff.mpr h),
    length_insertionSort]

theorem mem_signers {S : SigScheme} {msg : Bytes} {sigs : List MemberSignature} :
    m ∈ q.signers S msg sigs
      ↔ m ∈ q.members ∧ ∃ s ∈ sigs, s.member = m ∧ S.verifyBytes m msg s.signature := by
  simp only [signers, isMember, mem_toFinset, mem_map, mem_filter, Bool.and_eq_true,
    decide_eq_true_eq]
  constructor
  · rintro ⟨s, ⟨hs, hm, hv⟩, rfl⟩
    exact ⟨hm, s, hs, rfl, hv⟩
  · rintro ⟨hm, s, hs, rfl, hv⟩
    exact ⟨s, ⟨hs, hm, hv⟩, rfl⟩

theorem signers_subset (q : Quorum) (S : SigScheme) (msg : Bytes)
    (sigs : List MemberSignature) : q.signers S msg sigs ⊆ q.body := fun _ hm =>
  mem_body.mpr (mem_signers.mp hm).1

end Quorum

end Zephcraft.Com
