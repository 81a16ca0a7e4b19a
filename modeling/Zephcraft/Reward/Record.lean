import Zephcraft.Foundations.Codec
import Zephcraft.Foundations.OrderedMap

/-!
# Reward/Record — the reward program's wire data and its issuance schedule

The input of one epoch, the record it becomes, and the snapshot of the economy the record commits
to. Amounts are in base units; a list in a record is canonical — sorted, one entry a key — because
records are signed and compared by hash.
-/

namespace Zephcraft.Reward

open List Word

def oneToken : U64 := 100000000

/-- The default seed rate: one whole token a day, in base units. -/
def defaultIssuanceTokensPerDay : U64 := oneToken

/-- The lifetime ceiling on issuance: a million whole tokens, in base units. -/
def defaultIssuanceTotalCap : U64 := 1000000 * oneToken

/-- The issuance schedule governing one epoch. -/
structure IssuanceParams where
  tokensPerDay : U64
  epochsPerDay : U64
  totalCap : U64

/-- One provider's rewardable contribution to an epoch, and its running total. -/
structure Contribution where
  provider : B32
  bytes : U64
  cumulativeBytes : U64
deriving DecidableEq

/-- One consumer's subscription after an epoch. -/
structure Entitlement where
  consumer : B32
  spent : U64
  remaining : U64
deriving DecidableEq

/-- The cumulative served bytes of one provider for one consumer. -/
abbrev ServedWatermark := (B32 × B32) × U64

/-- The complete economic state at an epoch boundary. -/
structure EconomicSnapshot where
  pool : U64
  minted : U64
  paidWatermarks : List (B32 × U64)
  servedWatermarks : List ServedWatermark
  seedingNext : List (B32 × U64)
  claimed : List (U64 × B32)
deriving DecidableEq

/-- The default snapshot: nothing held, nothing minted. -/
def EconomicSnapshot.empty : EconomicSnapshot := ⟨0, 0, [], [], [], []⟩

/-- What the reward program is given for an epoch. -/
structure RewardInput where
  epoch : U64
  pool : U64
  contributions : List Contribution
  entitlements : List Entitlement
  cumulativeIssued : U64
  issuance : IssuanceParams
  paidMarks : List (B32 × U64)
  servedMarks : List ServedWatermark
  paid : U64
  claimPayouts : U64
  state : EconomicSnapshot

/-- One provider's share of an epoch's pool, and the bytes that earned it. -/
structure Share where
  provider : B32
  amount : U64
  bytes : U64
  cumulativeBytes : U64
deriving DecidableEq

/-- The record of an epoch, against which providers claim. -/
structure RewardRecord where
  epoch : U64
  pool : U64
  shares : List Share
  entitlements : List Entitlement
  issued : U64
  checkpoint : Option EconomicSnapshot
  paidMarks : List (B32 × U64)
  servedMarks : List ServedWatermark
  committedPool : U64
  stateHash : B32
  cumulativeIssued : U64
deriving DecidableEq

/-! ## Canonical lists -/

/-- `sort_unstable` followed by `dedup_by_key`: sorted, and of a run of equal keys the first. -/
def sortDedupByKey {α κ : Type*} [Ord α] [DecidableEq κ] (key : α → κ) (l : List α) : List α :=
  (l.insertionSort fun a b => (compare a b).isLE).destutter fun a b => key a ≠ key b

section Canonical

open Std

variable {κ β : Type*} [Ord κ] [TransOrd κ] [LawfulEqOrd κ] [DecidableEq κ]

theorem sortDedupByKey_toList [Ord β] (m : BTreeMap κ β) :
    sortDedupByKey Prod.fst m.toList = m.toList := by
  have hlt := ExtTreeMap.ordered_keys_toList (t := m)
  rw [sortDedupByKey, List.Pairwise.insertionSort_eq, destutter_of_isChain]
  · refine (hlt.imp fun {a b} h => ?_).isChain
    intro he
    rw [he] at h
    simp at h
  · refine hlt.imp fun {a b} h => ?_
    change ((compare a.1 b.1).then (compare a.2 b.2)).isLE = true
    rw [h]
    rfl

theorem sortDedupByKey_toList_set (s : BTreeSet κ) : sortDedupByKey id s.toList = s.toList := by
  have hlt := ExtTreeSet.ordered_toList (t := s)
  rw [sortDedupByKey, List.Pairwise.insertionSort_eq, destutter_of_isChain]
  · refine (hlt.imp fun {a b} h => ?_).isChain
    intro he
    obtain rfl : a = b := he
    simp at h
  · refine hlt.imp fun {a b} h => ?_
    simp [h]

end Canonical

/-! ## The state commitment -/

/-- `(v.len() as u64).to_le_bytes()`. -/
def lengthBytes {α : Type*} (v : List α) : Bytes := U64.toLeBytes (truncate v.length)

/-- The bytes the commitment covers, every list behind its length. -/
def EconomicSnapshot.hashedBytes (s : EconomicSnapshot) : Bytes :=
  ascii "zeph.econ.v1" ++ s.pool.toLeBytes ++ s.minted.toLeBytes ++ lengthBytes s.paidWatermarks
    ++ s.paidWatermarks.flatMap (fun e => e.1.toBytes ++ e.2.toLeBytes)
    ++ lengthBytes s.servedWatermarks
    ++ s.servedWatermarks.flatMap (fun e => e.1.1.toBytes ++ e.1.2.toBytes ++ e.2.toLeBytes)
    ++ lengthBytes s.seedingNext
    ++ s.seedingNext.flatMap (fun e => e.1.toBytes ++ e.2.toLeBytes)
    ++ lengthBytes s.claimed
    ++ s.claimed.flatMap (fun e => e.1.toLeBytes ++ e.2.toBytes)

/-- The canonical state hash, for a hash function `blake3`. -/
def EconomicSnapshot.stateHash (blake3 : Bytes → B32) (s : EconomicSnapshot) : B32 :=
  blake3 s.hashedBytes

/-- The lists of a snapshot are vectors, whose lengths a `u64` holds. -/
structure EconomicSnapshot.LengthsFit (s : EconomicSnapshot) : Prop where
  paidWatermarks : s.paidWatermarks.length < 2 ^ 64
  servedWatermarks : s.servedWatermarks.length < 2 ^ 64
  seedingNext : s.seedingNext.length < 2 ^ 64
  claimed : s.claimed.length < 2 ^ 64

/-- A list behind its length is told from what follows it. -/
theorem lengthBytes_append_inj {α : Type*} {enc : α → Bytes} (henc : PrefixCode enc) {l l' : List α}
    {rest rest' : Bytes} (hl : l.length < 2 ^ 64) (hl' : l'.length < 2 ^ 64)
    (h : lengthBytes l ++ (l.flatMap enc ++ rest) = lengthBytes l' ++ (l'.flatMap enc ++ rest')) :
    l = l' ∧ rest = rest' := by
  obtain ⟨hlen, h⟩ := prefixCode_toLeBytes h
  have hlen := congrArg Fin.val hlen
  rw [val_truncate, val_truncate, Nat.mod_eq_of_lt hl, Nat.mod_eq_of_lt hl'] at hlen
  exact henc.flatMap hlen h

/-- **The bytes the commitment covers determine the snapshot.** -/
theorem EconomicSnapshot.eq_of_hashedBytes {s s' : EconomicSnapshot} (hs : s.LengthsFit)
    (hs' : s'.LengthsFit) (h : s.hashedBytes = s'.hashedBytes) : s = s' := by
  have hm : PrefixCode fun e : B32 × U64 => e.1.toBytes ++ e.2.toLeBytes :=
    prefixCode_toBytes.pair prefixCode_toLeBytes
  have hse :
      PrefixCode fun e : ServedWatermark => e.1.1.toBytes ++ (e.1.2.toBytes ++ e.2.toLeBytes) := by
    simpa only [append_assoc] using (prefixCode_toBytes.pair prefixCode_toBytes).pair
      prefixCode_toLeBytes
  have hc : PrefixCode fun e : U64 × B32 => e.1.toLeBytes ++ e.2.toBytes :=
    prefixCode_toLeBytes.pair prefixCode_toBytes
  rw [← append_nil s.hashedBytes, ← append_nil s'.hashedBytes] at h
  simp only [hashedBytes, append_assoc] at h
  obtain ⟨hpo, h⟩ := prefixCode_toLeBytes (append_cancel_left h)
  obtain ⟨hmi, h⟩ := prefixCode_toLeBytes h
  -- each section in turn, up to the next length
  obtain ⟨hp, h⟩ := lengthBytes_append_inj hm hs.paidWatermarks hs'.paidWatermarks h
  obtain ⟨hsw, h⟩ := lengthBytes_append_inj hse hs.servedWatermarks hs'.servedWatermarks h
  obtain ⟨hsee, h⟩ := lengthBytes_append_inj hm hs.seedingNext hs'.seedingNext h
  obtain ⟨hcl, -⟩ := lengthBytes_append_inj hc hs.claimed hs'.claimed h
  cases s
  cases s'
  simp_all

/-- **The state commitment is unambiguous**: two snapshots feed the hasher the same bytes only if
they are equal, and so, where the hash function tells these bytes apart, they have one state hash
only if they are equal. -/
theorem EconomicSnapshot.stateHash_unambiguous {s s' : EconomicSnapshot} (hs : s.LengthsFit)
    (hs' : s'.LengthsFit) :
    (s.hashedBytes = s'.hashedBytes ↔ s = s')
      ∧ ∀ blake3 : Bytes → B32, (blake3 s.hashedBytes = blake3 s'.hashedBytes
        → s.hashedBytes = s'.hashedBytes) → (s.stateHash blake3 = s'.stateHash blake3
          ↔ s = s') := by
  refine ⟨⟨eq_of_hashedBytes hs hs', congrArg _⟩, fun blake3 hfree => ⟨fun h => ?_, congrArg _⟩⟩
  exact eq_of_hashedBytes hs hs' (hfree h)

/-- A mark moved from the paid to the seeding list changes the bytes. -/
theorem EconomicSnapshot.stateHash_unambiguous_moved :
    (⟨1, 0, [(7, 5)], [], [], []⟩ : EconomicSnapshot).hashedBytes
      ≠ (⟨1, 0, [], [], [(7, 5)], []⟩ : EconomicSnapshot).hashedBytes := by
  intro h
  have hmoved := (stateHash_unambiguous ⟨by decide, by decide, by decide, by decide⟩
    ⟨by decide, by decide, by decide, by decide⟩).1.mp h
  revert hmoved
  decide

/-- How often a record carries the whole state. -/
def checkpointEvery : U64 := 32

/-- Whether `epoch` carries a full-state checkpoint. -/
def isCheckpoint (epoch : U64) : Bool := epoch.val % checkpointEvery.val = 0

namespace RewardRecord

variable (r : RewardRecord)

def statePool : U64 := r.committedPool

/-- The share owed to `provider`, zero if it has no row. -/
def shareOf (provider : B32) : U64 :=
  ((r.shares.find? fun s => s.provider = provider).map Share.amount).getD 0

def distributed : ℕ := (r.shares.map fun s => s.amount.val).sum

/-- What was left unallocated by the distribution: the integer dust. -/
def poolRemaining : Except Panic U64 := do
  let allocated ← sumOrPanic (r.shares.map Share.amount)
  return r.pool.satSub allocated

end RewardRecord

/-! ## The issuance schedule -/

/-- Fresh issuance for one epoch: the schedule's step at `epoch`, bounded by the headroom left under
the cap, and nothing unless there is contribution to reward. -/
def issuanceFor (epoch cumulativeIssued : U64) (hasContribution : Bool) (params : IssuanceParams) :
    U64 :=
  if !hasContribution || params.tokensPerDay = 0 || params.epochsPerDay = 0 then 0
  else
    let r := params.tokensPerDay.val
    let e := params.epochsPerDay.val
    -- both products are below 2^128, so the u128 arithmetic is the arithmetic of naturals
    let scheduled : U64 := truncate ((epoch.val + 1) * r / e - epoch.val * r / e)
    let headroom := params.totalCap.satSub cumulativeIssued
    if scheduled < headroom then scheduled else headroom

end Zephcraft.Reward
