import Zephcraft.Core.Identity
import Zephcraft.Settlement.Allocation

/-!
# Settlement/Reports — reading the participants' reports

At an epoch boundary every node commits a report of what it paid and served to its own settlement
chain, the second backed by cheques its consumers signed.
-/

namespace Zephcraft.Settlement

open Zephcraft.Core Reward

/-- A serving cheque: `consumer` acknowledges the bytes `server` has served it so far. -/
structure ServingCheque where
  server : B32
  consumer : B32
  cumulativeBytes : U64
  timestamp : U64
  consumerSig : Bytes
deriving DecidableEq

namespace ServingCheque

def chequeBytes (server consumer : B32) (cumulative timestamp : U64) : Bytes :=
  ascii "craftec/serving-cheque/1" ++ server.toBytes ++ consumer.toBytes ++ cumulative.toLeBytes
    ++ timestamp.toLeBytes

def sign (S : SigScheme) (identity : S.Secret) (server : B32)
    (cumulativeBytes timestamp : U64) : ServingCheque :=
  let consumer := S.nodeId identity
  ⟨server, consumer, cumulativeBytes, timestamp,
    S.sign identity (chequeBytes server consumer cumulativeBytes timestamp)⟩

/-- Did the named consumer sign this cheque? -/
def verify (S : SigScheme) (c : ServingCheque) : Bool :=
  S.verifyBytes c.consumer (chequeBytes c.server c.consumer c.cumulativeBytes c.timestamp)
    c.consumerSig

/-- The cheque as it is handed to the settlement. -/
def toBoard (c : ServingCheque) : BoardCheque :=
  ⟨c.server, c.consumer, c.cumulativeBytes, c.timestamp⟩

end ServingCheque

/-- The cheques behind a report: carried in it, or stored as an object. -/
inductive ServedProof where
  | inline (cheques : List ServingCheque)
  | ref (cid : B32)

/-- An account's report. -/
structure SettleReport where
  epoch : U64
  paidCumulative : U64
  servedCumulative : U64
  proof : ServedProof

/-- A report whose proof has been verified. -/
structure VerifiedReport where
  epoch : U64
  paidCumulative : U64
  servedCumulative : U64
  cheques : List ServingCheque

/-- How far an account's chain has been scanned, and the verified reports found. -/
structure ReportCache where
  nextNonce : ℕ := 0
  verified : List VerifiedReport := []

/-- What a settling node sees of its surroundings: the decoders, the object store — `none` for a
fetch that failed — the committed payloads of each settlement chain, and the ledger's paid
totals. -/
structure Board where
  decodeReport : Bytes → Option SettleReport
  decodeCheques : Bytes → Option (List ServingCheque)
  fetch : B32 → Option Bytes
  sequences : BTreeMap B32 (List Bytes)
  paidTotal : B32 → U64

/-! ## Verifying a proof -/

/-- Raise the cheque's consumer to the cheque's total. -/
def raiseConsumer (m : BTreeMap B32 U64) (c : ServingCheque) : BTreeMap B32 U64 :=
  m.insert c.consumer (max (m.getD c.consumer 0) c.cumulativeBytes)

/-- Is the cheque one of `node`'s earnings? -/
def backs (S : SigScheme) (node : B32) (c : ServingCheque) : Bool :=
  c.server = node && c.verify S

/-- The bytes a proof shows `node` to have served: the latest total of each consumer, summed. A
cheque that names another server or does not verify voids the whole proof. -/
def provenCumulative (S : SigScheme) (node : B32) (proof : List ServingCheque) :
    Except Panic (Option U64) :=
  match proof.foldlM (fun m c => if backs S node c then some (raiseConsumer m c) else none) ∅ with
  | none => return none
  | some perConsumer => some <$> Word.sumOrPanic (perConsumer.toList.map Prod.snd)

/-! ## Scanning a chain -/

namespace Board

/-- The cheques of a proof; the outer `none` is a fetch that failed, the inner one a proof that does
not decode. -/
def resolve (board : Board) : ServedProof → Option (Option (List ServingCheque))
  | .inline cheques => some (some cheques)
  | .ref cid => (board.fetch cid).map board.decodeCheques

/-- Scan a chain's payloads: returns how many are done with, and the verified reports among them. A
failed fetch stops the scan in front of its report. -/
def scan (board : Board) (S : SigScheme) (account : B32) :
    List Bytes → Except Panic (ℕ × List VerifiedReport)
  | [] => return (0, [])
  | payload :: rest =>
    match board.decodeReport payload with
    | none => do
      let (n, fresh) ← board.scan S account rest
      return (n + 1, fresh)
    | some report =>
      match board.resolve report.proof with
      | none => return (0, [])
      | some none => do
        let (n, fresh) ← board.scan S account rest
        return (n + 1, fresh)
      | some (some cheques) => do
        let proven ← provenCumulative S account cheques
        let (n, fresh) ← board.scan S account rest
        if proven = some report.servedCumulative then
          let v := ⟨report.epoch, report.paidCumulative, report.servedCumulative, cheques⟩
          return (n + 1, v :: fresh)
        else return (n + 1, fresh)

/-- The latest of the reports up to `epoch`; of several for one epoch, the last. -/
def latest (epoch : U64) (verified : List VerifiedReport) : Option VerifiedReport :=
  (verified.filter fun v => v.epoch ≤ epoch).foldl (fun best v =>
    match best with
    | none => some v
    | some b => if b.epoch ≤ v.epoch then some v else some b) none

/-- What an account's chain says up to `epoch`: its paid total, capped at what the ledger saw it
pay, and its verified cheques. -/
def cumulativesOf (board : Board) (S : SigScheme) (caches : BTreeMap B32 ReportCache)
    (account : B32) (epoch : U64) :
    Except Panic (BTreeMap B32 ReportCache × Option (U64 × List ServingCheque)) :=
  match board.sequences[account]? with
  | none => return (caches, none)
  | some payloads => do
    let cache := caches.getD account {}
    let (n, fresh) ← board.scan S account (payloads.drop cache.nextNonce)
    let cache := ⟨cache.nextNonce + n, cache.verified ++ fresh⟩
    let found := (latest epoch cache.verified).map fun v =>
      (min v.paidCumulative (board.paidTotal account), v.cheques)
    return (caches.insert account cache, found)

end Board

/-- What the reports of a settle add up to. -/
structure Readings where
  caches : BTreeMap B32 ReportCache
  paid : List (B32 × U64) := []
  cheques : List BoardCheque := []

namespace Board

def readParticipant (board : Board) (S : SigScheme) (epoch : U64) (r : Readings)
    (account : B32) : Except Panic Readings := do
  let (caches, found) ← board.cumulativesOf S r.caches account epoch
  match found with
  | none => return { r with caches := caches }
  | some (paid, cheques) =>
    return ⟨caches, r.paid ++ [(account, paid)], r.cheques ++ cheques.map ServingCheque.toBoard⟩

def readParticipants (board : Board) (S : SigScheme) (caches : BTreeMap B32 ReportCache)
    (participants : List B32) (epoch : U64) : Except Panic Readings :=
  participants.foldlM (board.readParticipant S epoch) ⟨caches, [], []⟩

/-- Settle an epoch from the durable chains. -/
def settleEpochState (board : Board) (S : SigScheme) (blake3 : Bytes → B32)
    (caches : BTreeMap B32 ReportCache) (store : SettlementStore) (participants : List B32)
    (epoch : U64) :
    Except SettlementStore (BTreeMap B32 ReportCache × SettlementStore × RewardRecord) := do
  let r ← (board.readParticipants S caches participants epoch).mapError fun _ => store
  let (store, record) ← store.settleEpochFromCheques blake3 epoch r.paid r.cheques
  return (r.caches, store, record)

end Board

end Zephcraft.Settlement
