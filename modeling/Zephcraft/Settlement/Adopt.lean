import Zephcraft.Foundations.Blake3
import Zephcraft.Settlement.Closing
import Zephcraft.Settlement.Solvency

/-!
# Settlement/Adopt — taking over a committed position

A record commits to the economy its settler is left with. A node that did not settle the epoch takes
the position over with `adoptCanonical`: a checkpoint record carries the whole state, which
`restore` puts in place, and any other record carries the watermarks it advanced.
-/

namespace Zephcraft.Settlement

open Economy Reward Token Std.ExtTreeMap Run

namespace SettlementStore

variable (s : SettlementStore)

/-- The position the most recent record committed to. -/
def committedSnapshot : EconomicSnapshot := s.committed

/-- Put a snapshot in place. The supply only rises, and of two epochs of seeding eligibility the
later wins; the rest is replaced. -/
def restore (snap : EconomicSnapshot) : SettlementStore :=
  { s with
    protocol := ⟨⟨max s.protocol.totalSupply snap.minted, s.protocol.supply.cap⟩, snap.pool⟩
    paidWatermark := ofList snap.paidWatermarks compare
    servedPairWm := ofList snap.servedWatermarks compare
    subs := s.subs.restoreSeedingEligibility snap.seedingNext
    claimed := Std.ExtTreeSet.ofList snap.claimed compare }

/-- Take over the position of a record settled elsewhere. -/
def adoptCanonical (rec : RewardRecord) : SettlementStore :=
  let s := { s with
    protocol :=
      { s.protocol.setPool rec.statePool with
        supply := s.protocol.supply.observeMinted rec.cumulativeIssued } }
  match rec.checkpoint with
  | some full =>
    { s.restore full with committed := full, records := s.records.insert rec.epoch rec }
  | none =>
    let s := { s with
      paidWatermark := s.paidWatermark.raise rec.paidMarks
      servedPairWm := s.servedPairWm.raise rec.servedMarks }
    { s with committed := s.snapshot, records := s.records.insert rec.epoch rec }

/-- Set the governed issuance: the seed rate, and the lifetime cap that the supply keeps. -/
def setIssuance (tokensPerDay totalCap : U64) : SettlementStore :=
  { s with
    issuanceTokensPerDay := tokensPerDay
    protocol := { s.protocol with supply := s.protocol.supply.setCap totalCap } }

/-! ## The settler is where its record says -/

section Commitment

variable {blake3 : Bytes → B32} {s s' : SettlementStore} {epoch : U64}
  {contributions : List Contribution} {entitlements : List Entitlement} {record : RewardRecord}

theorem totalSupply_publish
    (h : compute blake3 (s.rewardInput epoch contributions entitlements) = .ok record) :
    (s.publish epoch record).protocol.totalSupply
      = s.protocol.totalSupply.satAdd record.issued := by
  refine Fin.ext ?_
  have his : record.issued.val ≤ s.protocol.supply.cap.val - s.protocol.supply.minted.val := by
    rw [issued_of_compute h]
    exact issuanceFor_le_headroom _ _ _ _
  have hcap := s.protocol.supply.cap.isLt
  rw [Word.val_satAdd]
  refine (minted_publish h).trans ?_
  change _ = min (s.protocol.supply.minted.val + record.issued.val) _
  omega

/-- **A published record leaves the store in the state it was computed to commit to.** -/
theorem snapshot_publish
    (h : compute blake3 (s.rewardInput epoch contributions entitlements) = .ok record) :
    (s.publish epoch record).snapshot
      = settledState (s.rewardInput epoch contributions entitlements) record.issued := by
  have hpo : (s.publish epoch record).snapshot.pool
      = (settledState (s.rewardInput epoch contributions entitlements) record.issued).pool :=
    committedPool_of_compute h
  have hm := totalSupply_publish h
  have hp := sortDedupByKey_toList s.paidWatermark
  have hs := sortDedupByKey_toList s.servedPairWm
  have hse := sortDedupByKey_toList s.subs.seedingNext
  have hc := sortDedupByKey_toList_set s.claimed
  exact (EconomicSnapshot.mk.injEq ..).mpr ⟨hpo, hm, hp.symm, hs.symm, hse.symm, hc.symm⟩

/-- **What a close leaves behind is what its record says it leaves behind.** -/
structure CommitsTo (blake3 : Bytes → B32) (s : SettlementStore) (record : RewardRecord) :
    Prop where
  stateHash : s.committedSnapshot.stateHash blake3 = record.stateHash
  pool : s.protocol.pool = record.committedPool
  supply : s.protocol.totalSupply = record.cumulativeIssued
  checkpoint :
    record.checkpoint = if isCheckpoint record.epoch then some s.committedSnapshot else none

theorem commitsTo_publish
    (h : compute blake3 (s.rewardInput epoch contributions entitlements) = .ok record) :
    CommitsTo blake3 (s.publish epoch record) record := by
  have hs : (s.publish epoch record).committedSnapshot
      = settledState (s.rewardInput epoch contributions entitlements) record.issued :=
    snapshot_publish h
  obtain ⟨-, -, shares, -, -, -, -, -, hr⟩ := compute_eq_ok h
  constructor
  · rw [hs, hr]
    rfl
  · rfl
  · rw [totalSupply_publish h, hr]
    rfl
  · rw [hs, hr]
    rfl

theorem commitsTo_of_settle {paid : List (B32 × U64)} {cheques : List BoardCheque}
    (hf : s.records[epoch]? = none)
    (h : s.settleEpochFromCheques blake3 epoch paid cheques = .ok (s', record)) :
    CommitsTo blake3 s' record ∧ record.epoch = epoch := by
  obtain ⟨t, poolAdd, -, hc, rfl⟩ := (settleEpochFromCheques_eq_ok hf).mp h
  obtain ⟨-, -, shares, -, -, -, -, -, hr⟩ := compute_eq_ok hc
  refine ⟨commitsTo_publish hc, ?_⟩
  rw [hr]
  rfl

end Commitment

end SettlementStore

/-! ## Runs of a node that settles and adopts -/

open SettlementStore

theorem exists_eq_ok {x : Except SettlementStore (SettlementStore × RewardRecord)}
    (h : (published x).isSome = true) : ∃ record, x = .ok (after x, record) := by
  cases x with
  | error s => simp [published] at h
  | ok r => exact ⟨r.2, rfl⟩

/-- A call on the store of a node that settles some epochs and adopts others. -/
inductive Call where
  | payIn (amount : U64)
  | settle (epoch : U64) (paid : List (B32 × U64)) (cheques : List BoardCheque)
  | claim (epoch : U64) (provider : B32)
  | adopt (rec : RewardRecord)
  | setIssuance (tokensPerDay totalCap : U64)
  | restore (snap : EconomicSnapshot)

def Call.exec (blake3 : Bytes → B32) (s : SettlementStore) : Call → SettlementStore
  | .payIn amount => s.payIn amount
  | .settle epoch paid cheques => after (s.settleEpochFromCheques blake3 epoch paid cheques)
  | .claim epoch provider => (s.claim epoch provider).1
  | .adopt rec => s.adoptCanonical rec
  | .setIssuance tokensPerDay totalCap => s.setIssuance tokensPerDay totalCap
  | .restore snap => s.restore snap

/-- **In every run, each epoch that is settled leaves the store in the state its record commits to**
— the hash, the pool and the supply are the record's, and a checkpoint carries exactly the committed
snapshot. -/
theorem settle_commits_to_state (blake3 : Bytes → B32) (calls : List Call) {epoch : U64}
    {paid : List (B32 × U64)} {cheques : List BoardCheque} {s' : SettlementStore}
    {record : RewardRecord}
    (hfresh : (run (Call.exec blake3) .new calls).records[epoch]? = none)
    (h : (run (Call.exec blake3) .new calls).settleEpochFromCheques blake3 epoch paid cheques
      = .ok (s', record)) :
    s'.committedSnapshot.stateHash blake3 = record.stateHash
      ∧ s'.protocol.pool = record.committedPool
      ∧ s'.protocol.totalSupply = record.cumulativeIssued
      ∧ (isCheckpoint epoch = true → record.checkpoint = some s'.committedSnapshot) := by
  obtain ⟨hcommits, rfl⟩ := commitsTo_of_settle hfresh h
  refine ⟨hcommits.stateHash, hcommits.pool, hcommits.supply, fun hcheck => ?_⟩
  rw [hcommits.checkpoint, if_pos hcheck]

/-- A history with every kind of call; its cap ends below what has been minted. -/
def loweredCap : List Call :=
  [.setIssuance 28800 1000, .payIn 500, .settle 1 [] [⟨7, 9, 40, 0⟩], .claim 1 7,
    .adopt ⟨2, 0, [], [], 0, none, [(6, 4)], [], 900, 0, 700⟩,
    .restore ⟨900, 800, [(5, 60)], [], [(9, 3)], [(1, 7)]⟩, .setIssuance 28800 100]

theorem settle_commits_to_state_loweredCap :
    ∃ s' record, (run (Call.exec blake3) .new loweredCap).settleEpochFromCheques
        blake3 32 [(5, 75)] [⟨7, 9, 90, 1⟩, ⟨8, 9, 30, 0⟩] = .ok (s', record)
      ∧ s'.committedSnapshot.stateHash blake3 = record.stateHash
      ∧ s'.protocol.pool = record.committedPool
      ∧ s'.protocol.totalSupply = record.cumulativeIssued
      ∧ record.checkpoint = some s'.committedSnapshot := by
  have hfresh : (run (Call.exec blake3) .new loweredCap).records[(32 : U64)]? = none := by
    decide +kernel
  obtain ⟨record, h⟩ := exists_eq_ok
    (x := (run (Call.exec blake3) .new loweredCap).settleEpochFromCheques blake3 32 [(5, 75)]
      [⟨7, 9, 90, 1⟩, ⟨8, 9, 30, 0⟩]) (by decide +kernel)
  obtain ⟨hhash, hpool, hsupply, hcheck⟩ := settle_commits_to_state blake3 loweredCap hfresh h
  exact ⟨_, record, h, hhash, hpool, hsupply, hcheck (by decide)⟩

end Zephcraft.Settlement
