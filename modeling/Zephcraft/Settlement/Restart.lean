import Zephcraft.Settlement.Adopt

/-!
# Settlement/Restart — what a snapshot does not carry

A node that restarts puts the committed snapshot into a fresh store. The snapshot has the pool, the
supply, the watermarks, the seeding eligibility and the claim marks.
-/

namespace Zephcraft.Settlement

open Economy Reward Token Std.ExtTreeMap SubscriptionLedger

structure Governed where
  bytesPerToken : U64
  windowEpochs : U64
  seedingPaidTier : U64
  seedingWindow : U64
  tokensPerDay : U64
  totalCap : U64

/-- A fresh store under governed parameters. -/
def Governed.fresh (g : Governed) : SettlementStore :=
  { SettlementStore.new with
    protocol := ⟨⟨0, g.totalCap⟩, 0⟩
    subs := SubscriptionLedger.new.setSeedingPaidTier g.seedingPaidTier g.seedingWindow
    bytesPerToken := g.bytesPerToken
    windowEpochs := g.windowEpochs
    issuanceTokensPerDay := g.tokensPerDay }

namespace SettlementStore

def governed (s : SettlementStore) : Governed :=
  ⟨s.bytesPerToken, s.windowEpochs, s.subs.seedingPaidTier, s.subs.seedingWindow,
    s.issuanceTokensPerDay, s.protocol.supply.cap⟩

/-- A fresh store carrying the same governed parameters, restored from the committed snapshot. -/
def restarted (s : SettlementStore) : SettlementStore :=
  s.governed.fresh.restore s.committedSnapshot

/-- Nothing has happened since the last record. -/
structure AtClose (s : SettlementStore) : Prop where
  committed : s.committed = s.snapshot
  pendingPayouts : s.pendingPayouts = 0
  pendingPaid : s.pendingPaid = 0
  pendingPaidMarks : s.pendingPaidMarks = ∅
  pendingServedMarks : s.pendingServedMarks = ∅

theorem atClose_publish (s : SettlementStore) (epoch : U64) (record : RewardRecord) :
    (s.publish epoch record).AtClose := ⟨rfl, rfl, rfl, rfl, rfl⟩

/-- The next close reads nothing that the snapshot lacks: the epoch is not settled, nothing in the
window is owed, no mark expires with its record, no grant is live, and no provider of the cheques
has earned before. -/
structure Carried (s : SettlementStore) (next : U64) (cheques : List BoardCheque) : Prop where
  fresh : s.records[next]? = none
  owed : (s.expire next).owedOutstanding = 0
  marks : (s.expire next).claimed = s.claimed
  grants : ∀ q ∈ s.subs.grants.toList, unexpired next q.2 = []
  rewardable : ∀ c ∈ cheques, s.rewardable.getD c.provider 0 = 0

instance (s : SettlementStore) (next : U64) (cheques : List BoardCheque) :
    Decidable (s.Carried next cheques) :=
  decidable_of_iff (s.records[next]? = none ∧ (s.expire next).owedOutstanding = 0
      ∧ (s.expire next).claimed = s.claimed
      ∧ (∀ q ∈ s.subs.grants.toList, unexpired next q.2 = [])
      ∧ ∀ c ∈ cheques, s.rewardable.getD c.provider 0 = 0)
    ⟨fun ⟨h₁, h₂, h₃, h₄, h₅⟩ => ⟨h₁, h₂, h₃, h₄, h₅⟩,
      fun h => ⟨h.fresh, h.owed, h.marks, h.grants, h.rewardable⟩⟩

section Restarted

variable {s : SettlementStore} {next : U64} {cheques : List BoardCheque}

theorem raise_empty_toList (m : BTreeMap B32 U64) : (∅ : BTreeMap B32 U64).raise m.toList = m := by
  refine ext_getElem? fun k => ?_
  rw [BTreeMap.getElem?_raise_toList]
  cases m[k]? with
  | none => simp
  | some v => simp

theorem live_eq_nil (h : ∀ q ∈ s.subs.grants.toList, unexpired next q.2 = [])
    (c : B32) : s.subs.live c next = [] := by
  rw [live, queue, getD_eq_getD_getElem?]
  cases hq : s.subs.grants[c]? with
  | none => rfl
  | some q => exact h (c, q) (mem_toList_iff_getElem?_eq_some.mpr hq)

theorem alike_of_bare (hg : ∀ q ∈ s.subs.grants.toList, unexpired next q.2 = [])
    (he : ∀ c ∈ cheques, s.rewardable.getD c.provider 0 = 0)
    {r : SettlementStore} (hr : r = { s with
      records := r.records, subs := { s.subs with grants := ∅ }, rewardable := ∅,
      committed := r.committed }) :
    Alike next (cheques.map BoardCheque.provider) s r := by
  refine ⟨by rw [hr], ⟨by rw [hr], by rw [hr], by rw [hr], fun c => ?_⟩, fun p hp => ?_⟩
  · rw [live_eq_nil hg c, hr]
    simp [live, queue, unexpired]
  · obtain ⟨c, hmem, rfl⟩ := List.mem_map.mp hp
    rw [he c hmem, hr]
    simp

theorem restarted_eq (h : s.AtClose) :
    s.restarted = { s with
      records := ∅
      subs := { s.subs with grants := ∅ }
      rewardable := ∅
      committed := .empty } := by
  have hse := raise_empty_toList s.subs.seedingNext
  have hm : max 0 s.protocol.supply.minted = s.protocol.supply.minted :=
    max_eq_right (Nat.zero_le _)
  unfold restarted committedSnapshot
  rw [h.committed]
  obtain ⟨-, hpa, hpai, hp, hs⟩ := h
  simp only [restore, Governed.fresh, governed, new, snapshot, ProtocolState.totalSupply,
    SubscriptionLedger.new, setSeedingPaidTier, seedingEligibility,
    restoreSeedingEligibility, BTreeMap.ofList_toList, BTreeSet.ofList_toList,
    hse, hm, hpa, hpai, hp, hs]

/-- **Where the snapshot carries what is read, the restarted store publishes the same record.** -/
theorem published_restarted {blake3 : Bytes → B32} (h : s.AtClose)
    (hc : s.Carried next cheques) (paid : List (B32 × U64)) :
    published (s.restarted.settleEpochFromCheques blake3 next paid cheques)
      = published (s.settleEpochFromCheques blake3 next paid cheques) := by
  have hr := restarted_eq h
  have ha : Alike next (cheques.map BoardCheque.provider) s s.restarted :=
    alike_of_bare hc.grants hc.rewardable (by rw [hr])
  have hcl : SameClaims next s s.restarted := by
    have he : s.restarted.expire next = s.restarted := by
      rw [hr]
      rfl
    refine ⟨?_, ?_⟩
    · rw [he, hc.marks, hr]
    · rw [he, hc.owed, hr]
      rfl
  refine ha.published_eq hcl hc.fresh ?_ paid
  rw [hr]
  simp

end Restarted

end SettlementStore

open SettlementStore

/-- **A store restarted right after a settle publishes the next record of the store that never
stopped**, in every run and for every next epoch that reads nothing the snapshot lacks. -/
theorem restart_publishes_same_record (blake3 : Bytes → B32) (g : Governed) (calls : List Call)
    {epoch : U64} {paid₀ : List (B32 × U64)} {cheques₀ : List BoardCheque} {s : SettlementStore}
    {record : RewardRecord}
    (hfresh : (Run.run (Call.exec blake3) g.fresh calls).records[epoch]? = none)
    (hsettle : (Run.run (Call.exec blake3) g.fresh calls).settleEpochFromCheques blake3 epoch paid₀
      cheques₀ = .ok (s, record))
    {next : U64} {cheques : List BoardCheque} (hcarried : s.Carried next cheques)
    (paid : List (B32 × U64)) :
    published (s.restarted.settleEpochFromCheques blake3 next paid cheques)
      = published (s.settleEpochFromCheques blake3 next paid cheques) := by
  obtain ⟨t, poolAdd, -, -, rfl⟩ := (settleEpochFromCheques_eq_ok hfresh).mp hsettle
  exact published_restarted (atClose_publish _ _ _) hcarried paid

def defaultGoverned : Governed := SettlementStore.new.governed

/-- Provider `7` is paid for epoch 1, and the allowance it was earned with expires. -/
def paidOut : List Call := [.settle 1 [] [⟨7, 9, 40, 0⟩], .claim 1 7]

theorem restart_after_paidOut :
    ∃ s record, (Run.run (Call.exec blake3) defaultGoverned.fresh paidOut).settleEpochFromCheques
        blake3 2 [] [] = .ok (s, record)
      ∧ published (s.restarted.settleEpochFromCheques blake3 3 [(9, 80)] [⟨8, 9, 25, 0⟩])
        = published (s.settleEpochFromCheques blake3 3 [(9, 80)] [⟨8, 9, 25, 0⟩])
      ∧ (published (s.settleEpochFromCheques blake3 3 [(9, 80)] [⟨8, 9, 25, 0⟩])).isSome
        = true := by
  obtain ⟨record, h⟩ := exists_eq_ok
    (x := (Run.run (Call.exec blake3) defaultGoverned.fresh paidOut).settleEpochFromCheques
      blake3 2 [] []) (by decide +kernel)
  exact ⟨_, record, h,
    restart_publishes_same_record blake3 defaultGoverned paidOut (by decide +kernel) h
      (by decide +kernel) _, by decide +kernel⟩

/-- Provider `7` earns the seed of epoch 1, and a restart forgets that it is owed. -/
theorem restart_forgets_earmark :
    ∃ s record, defaultGoverned.fresh.settleEpochFromCheques blake3 1 [] [⟨7, 9, 40, 0⟩]
        = .ok (s, record)
      ∧ (published (s.settleEpochFromCheques blake3 2 [] [])).map RewardRecord.pool = some 0
      ∧ (published (s.restarted.settleEpochFromCheques blake3 2 [] [])).map RewardRecord.pool
        = some 347222 := by
  obtain ⟨record, h⟩ := exists_eq_ok
    (x := defaultGoverned.fresh.settleEpochFromCheques blake3 1 [] [⟨7, 9, 40, 0⟩])
    (by decide +kernel)
  exact ⟨_, record, h, by decide +kernel, by decide +kernel⟩

end Zephcraft.Settlement
