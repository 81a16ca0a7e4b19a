import Zephcraft.Economy.Subscription
import Zephcraft.Reward.Compute
import Zephcraft.Token.Supply

/-!
# Settlement/Store — the epoch-close settlement pool

Payments come in, an epoch's close divides what is not yet earmarked over its contributions, and
providers claim their shares.
-/

namespace Zephcraft.Settlement

open Economy Reward Token

/-- An unclaimed share forfeits after this many epochs. -/
def claimWindowEpochs : U64 := 8

/-- The length of an epoch in milliseconds. -/
def epochMillis : ℕ := 300000

/-- How many epochs span a duration in milliseconds: rounded up, and never zero. -/
def epochsIn (millis : ℕ) : U64 :=
  let n := (millis + epochMillis - 1) / epochMillis
  if n = 0 then 1 else Word.truncate n

def epochsPerDay : U64 := max (epochsIn (24 * 3600 * 1000)) 1

/-- A cheque as the settlement reads it off a report: `provider` has served `consumer` that many
bytes so far. -/
structure BoardCheque where
  provider : B32
  consumer : B32
  cumulativeBytes : U64
  timestamp : U64

/-- The state of the settlement. -/
structure SettlementStore where
  protocol : ProtocolState
  records : BTreeMap U64 RewardRecord
  claimed : BTreeSet (U64 × B32)
  paidWatermark : BTreeMap B32 U64
  servedPairWm : BTreeMap (B32 × B32) U64
  subs : SubscriptionLedger
  bytesPerToken : U64
  windowEpochs : U64
  rewardable : BTreeMap B32 U64
  pendingPayouts : U64
  pendingPaid : U64
  pendingPaidMarks : BTreeMap B32 U64
  pendingServedMarks : BTreeMap (B32 × B32) U64
  committed : EconomicSnapshot
  issuanceTokensPerDay : U64

/-- `*map.entry(key).or_default() += d`. -/
def bump {κ : Type} [Ord κ] [Std.TransOrd κ] (m : BTreeMap κ U64) (k : κ) (d : U64) :
    Except Panic (BTreeMap κ U64) := do
  let v ← (m.getD k 0).addOrPanic d
  return m.insert k v

namespace SettlementStore

def new : SettlementStore where
  protocol := ⟨⟨0, defaultIssuanceTotalCap⟩, 0⟩
  records := ∅
  claimed := ∅
  paidWatermark := ∅
  servedPairWm := ∅
  subs := .new
  bytesPerToken := defaultBytesPerToken
  windowEpochs := epochsIn (30 * 24 * 3600 * 1000)
  rewardable := ∅
  pendingPayouts := 0
  pendingPaid := 0
  pendingPaidMarks := ∅
  pendingServedMarks := ∅
  committed := .empty
  issuanceTokensPerDay := defaultIssuanceTokensPerDay

variable (s : SettlementStore)

def snapshot : EconomicSnapshot where
  pool := s.protocol.pool
  minted := s.protocol.totalSupply
  paidWatermarks := s.paidWatermark.toList
  servedWatermarks := s.servedPairWm.toList
  seedingNext := s.subs.seedingEligibility
  claimed := s.claimed.toList

/-- Accumulate a committed payment for the next record. -/
def payIn (amount : U64) : SettlementStore :=
  { s with pendingPaid := s.pendingPaid.satAdd amount }

def unclaimed (claimed : BTreeSet (U64 × B32)) (e : U64) (rec : RewardRecord) : List Share :=
  rec.shares.filter fun s => ¬ claimed.contains (e, s.provider)

/-- Settled but unclaimed shares, still in the pool. -/
def owedOutstanding : U64 :=
  ((s.records.toList.flatMap fun e => unclaimed s.claimed e.1 e.2).map Share.amount).foldl
    Word.satAdd 0

/-- The distributable balance: what is held and not earmarked. -/
def unallocated : U64 :=
  (s.protocol.pool.satAdd s.pendingPaid).satSub s.owedOutstanding

/-- Drop one stale record and its claim marks. -/
def dropRecord (e : U64) : SettlementStore :=
  { s with
    records := s.records.erase e
    claimed := s.claimed.filter fun k => k.1 ≠ e }

/-- Drop the records that have left the claim window. -/
def expire (nowEpoch : U64) : SettlementStore :=
  let cutoff := nowEpoch.satSub claimWindowEpochs
  (s.records.keys.filter fun e => e < cutoff).foldl dropRecord s

variable (epoch : U64)

/-- What the reward program is given to close `epoch`. -/
def rewardInput (contributions : List Contribution)
    (entitlements : List Entitlement) : RewardInput where
  epoch := epoch
  pool := s.unallocated
  contributions := contributions
  entitlements := entitlements
  cumulativeIssued := s.protocol.totalSupply
  claimPayouts := s.pendingPayouts
  paid := s.pendingPaid
  paidMarks := s.pendingPaidMarks.toList
  servedMarks := s.pendingServedMarks.toList
  state := s.snapshot
  issuance := ⟨s.issuanceTokensPerDay, epochsPerDay, s.protocol.supply.cap⟩

/-- Publish a computed record: mint what it issued, adopt its pool, clear what it folded. -/
def publish (record : RewardRecord) : SettlementStore :=
  let s := { s with
    protocol := (s.protocol.mintIntoPool record.issued).1.setPool record.statePool
    pendingPayouts := 0
    pendingPaid := 0
    pendingPaidMarks := ∅
    pendingServedMarks := ∅ }
  { s with
    committed := s.snapshot
    records := s.records.insert epoch record }

/-- Close `epoch` over the given contributions. A settled epoch is returned as it stands. -/
def settleEpoch (blake3 : Bytes → B32) (s : SettlementStore) (epoch : U64)
    (contributions : List Contribution) (entitlements : List Entitlement) :
    Except SettlementStore (SettlementStore × RewardRecord) :=
  match s.records[epoch]? with
  | some existing => .ok (s, existing)
  | none =>
    let s := s.expire epoch
    match compute blake3 (s.rewardInput epoch contributions entitlements) with
    | .ok record => .ok (s.publish epoch record, record)
    | .error _ => .error s

/-! ## Closing an epoch from cheques -/

/-- One payer's cumulative total: past the first sight, the delta funds the pool and buys the payer
an entitlement. -/
def foldPaid (acc : SettlementStore × U64) (p : B32 × U64) : SettlementStore × U64 :=
  let (s, poolAdd) := acc
  match s.paidWatermark[p.1]? with
  | none =>
    ({ s with
      paidWatermark := s.paidWatermark.insert p.1 p.2
      pendingPaidMarks := s.pendingPaidMarks.insert p.1 p.2 }, poolAdd)
  | some w =>
    let delta := p.2.satSub w
    let advanced := max p.2 w
    ({ s with
      subs := s.subs.purchase p.1 delta s.bytesPerToken epoch s.windowEpochs
      paidWatermark := s.paidWatermark.insert p.1 advanced
      pendingPaidMarks := s.pendingPaidMarks.insert p.1 advanced }, poolAdd.satAdd delta)

/-- The order cheques are served in: by timestamp, then provider, then consumer. -/
def chequeOrder (cheques : List BoardCheque) : List BoardCheque :=
  cheques.insertionSort fun a b =>
    (compare (a.timestamp, a.provider, a.consumer) (b.timestamp, b.provider, b.consumer)).isLE

/-- The allocation loop's accumulators: the store, the bytes each provider earned and the bytes each
consumer spent. -/
structure Tally where
  store : SettlementStore
  contrib : BTreeMap B32 U64
  spent : BTreeMap B32 U64

/-- Advance the served watermark of a cheque's pair; returns the bytes past the old one. -/
def advanceServed (c : BoardCheque) : SettlementStore × U64 :=
  let key := (c.provider, c.consumer)
  let w := s.servedPairWm.getD key 0
  let advanced := max c.cumulativeBytes w
  ({ s with
    servedPairWm := s.servedPairWm.insert key advanced
    pendingServedMarks := s.pendingServedMarks.insert key advanced }, c.cumulativeBytes.satSub w)

def allocateCheque (t : Tally) (c : BoardCheque) : Except SettlementStore Tally :=
  let (s, delta) := t.store.advanceServed c
  if delta = 0 then return { t with store := s }
  else do
    let (subs, rewardable) ← (s.subs.allocate c.consumer delta epoch).mapError fun _ => s
    let s := { s with subs := subs }
    if rewardable = 0 then return { t with store := s }
    else
      let contrib ← (bump t.contrib c.provider rewardable).mapError fun _ => s
      let spent ← (bump t.spent c.consumer rewardable).mapError fun _ => s
      let total ← (bump s.rewardable c.provider rewardable).mapError fun _ => s
      return ⟨{ s with rewardable := total }, contrib, spent⟩

/-- The contributions of an epoch, from what each provider earned. -/
def contributionsOf (t : Tally) : List Contribution :=
  t.contrib.toList.map fun e => ⟨e.1, e.2, t.store.rewardable.getD e.1 0⟩

/-- A row for every consumer that spent or still holds entitlement. -/
def entitlementsOf (t : Tally) (epoch : U64) : List Entitlement :=
  let rows := t.spent.toList.foldl (fun m e => m.insert e.1 (e.2, (m.getD e.1 (0, 0)).2))
    (∅ : BTreeMap B32 (U64 × U64))
  let rows := (t.store.subs.balances epoch).foldl
    (fun m e => m.insert e.1 ((m.getD e.1 (0, 0)).1, e.2)) rows
  rows.toList.map fun e => ⟨e.1, e.2.1, e.2.2⟩

/-- Fold the participants' payments and allocate their cheques; returns the tally and what the
payments add to the pool. -/
def gather (paid : List (B32 × U64))
    (cheques : List BoardCheque) : Except SettlementStore (Tally × U64) := do
  let (s, poolAdd) := paid.foldl (foldPaid epoch) (s, 0)
  let t ← (chequeOrder cheques).foldlM (allocateCheque epoch) ⟨s, ∅, ∅⟩
  return (t, poolAdd)

/-- Close `epoch` from the participants' payments and cheques. -/
def settleEpochFromCheques (blake3 : Bytes → B32) (s : SettlementStore) (epoch : U64)
    (paid : List (B32 × U64)) (cheques : List BoardCheque) :
    Except SettlementStore (SettlementStore × RewardRecord) :=
  match s.records[epoch]? with
  | some existing => .ok (s, existing)
  | none => do
    let (t, poolAdd) ← s.gather epoch paid cheques
    (t.store.payIn poolAdd).settleEpoch blake3 epoch (contributionsOf t) (entitlementsOf t epoch)

/-! ## Claiming -/

/-- A provider claims its share of `epoch`: returns what was released. -/
def claim (provider : B32) : SettlementStore × U64 :=
  match s.records[epoch]? with
  | none => (s, 0)
  | some rec =>
    let share := rec.shareOf provider
    if share = 0 ∨ s.claimed.contains (epoch, provider) then (s, 0)
    else
      ({ s with
        pendingPayouts := s.pendingPayouts.satAdd share
        claimed := s.claimed.insert (epoch, provider) }, share)

end SettlementStore

end Zephcraft.Settlement
