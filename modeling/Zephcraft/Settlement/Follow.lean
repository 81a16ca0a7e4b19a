import Zephcraft.Settlement.LocalClaims
import Zephcraft.Settlement.Restart

/-!
# Settlement/Follow — a node that adopts what another settles

One node settles epoch after epoch, a second adopts each record. A record carries the watermarks it
advanced, and every 32nd the whole state; in between nothing tells the adopter which allowances were
granted and which shares were claimed.
-/

namespace Zephcraft.Settlement

open Economy Reward Token Std.ExtTreeMap Run

namespace SettlementStore

/-! ## What the loops leave for the record to carry -/

/-- Every watermark that moved between `s` and `t` is marked for the record, and no account may have
its next allowance earlier. -/
structure Gathered (s t : SettlementStore) : Prop where
  paid : s.paidWatermark.Advanced t.pendingPaidMarks t.paidWatermark
  served : s.servedPairWm.Advanced t.pendingServedMarks t.servedPairWm
  tier : t.subs.seedingPaidTier = s.subs.seedingPaidTier
  window : t.subs.seedingWindow = s.subs.seedingWindow
  next : ∀ (c : B32) (v : U64), s.subs.seedingNext[c]? = some v →
    ∃ v', t.subs.seedingNext[c]? = some v' ∧ v ≤ v'

variable {s t : SettlementStore} {epoch : U64}

theorem Gathered.refl (hp : s.pendingPaidMarks = ∅) (hs : s.pendingServedMarks = ∅) :
    Gathered s s :=
  ⟨hp ▸ .refl _, hs ▸ .refl _, rfl, rfl, fun _ v h => ⟨v, h, le_rfl⟩⟩

theorem Gathered.foldPaid (h : Gathered s t) (poolAdd : U64) (p : B32 × U64) :
    Gathered s (foldPaid epoch (t, poolAdd) p).1 := by
  obtain ⟨paid, served, tier, window, next⟩ := h
  unfold SettlementStore.foldPaid
  dsimp only
  cases hw : t.paidWatermark[p.1]? with
  | none =>
    refine ⟨paid.insert ?_, served, tier, window, next⟩
    simp [getD_eq_getD_getElem?, hw]
  | some w =>
    obtain ⟨ht, hwi, hn⟩ := t.subs.seeding_purchase p.1 (p.2.satSub w) t.bytesPerToken epoch
      t.windowEpochs
    refine ⟨paid.insert ?_, served, ht.trans tier, hwi.trans window, ?_⟩
    · simp [getD_eq_getD_getElem?, hw]
    · simpa only [hn] using next

theorem Gathered.drawn (h : Gathered s t) (c : BoardCheque) : Gathered s (t.drawn epoch c) := by
  obtain ⟨paid, served, tier, window, next⟩ := h
  obtain ⟨ht, hw, hn⟩ := seeding_draw epoch t.subs t.servedPairWm c
  refine ⟨paid, served.insert ?_, ht.trans tier, hw.trans window, fun k v hk => ?_⟩
  · exact le_max_right _ _
  · obtain ⟨v', hv', hle⟩ := next k v hk
    change ∃ v', (draw epoch t.subs t.servedPairWm c).1.seedingNext[k]? = some v' ∧ v ≤ v'
    rcases hn with hs | ⟨he, hin⟩
    · exact ⟨v', hs ▸ hv', hle⟩
    · rw [hin, BTreeMap.getElem?_insert]
      by_cases hc : c.consumer = k
      · -- an account is granted its allowance no earlier than it may have it
        subst hc
        have hdue : v' ≤ epoch := by
          simpa [getD_eq_getD_getElem?, hv'] using he.2
        refine ⟨_, if_pos rfl, hle.trans (hdue.trans ?_)⟩
        rw [Fin.le_def, Word.val_satAdd]
        have := epoch.isLt
        omega
      · exact ⟨v', by rw [if_neg hc, hv'], hle⟩

theorem Gathered.withRewardable (h : Gathered s t) (m : BTreeMap B32 U64) :
    Gathered s { t with rewardable := m } :=
  ⟨h.paid, h.served, h.tier, h.window, h.next⟩

theorem Gathered.foldl_foldPaid (paid : List (B32 × U64)) (poolAdd : U64) (h : Gathered s t) :
    Gathered s (paid.foldl (SettlementStore.foldPaid epoch) (t, poolAdd)).1 := by
  induction paid generalizing t poolAdd with
  | nil => exact h
  | cons p paid ih => exact ih _ (h.foldPaid poolAdd p)

section Gather

variable {paid : List (B32 × U64)} {cheques : List BoardCheque} {u : Tally} {poolAdd : U64}

theorem gathered_of_gather (hp : s.pendingPaidMarks = ∅) (hs : s.pendingServedMarks = ∅)
    (h : s.gather epoch paid cheques = .ok (u, poolAdd)) : Gathered s u.store := by
  refine gather_invariant (I := fun u => Gathered s u.store) h
    (Gathered.foldl_foldPaid paid 0 (.refl hp hs)) fun c _ u u' hu hd => ?_
  rw [hd.store]
  exact (hu.drawn c).withRewardable _

theorem seeding_foldl_foldPaid (paid : List (B32 × U64)) (acc : SettlementStore × U64) :
    (paid.foldl (foldPaid epoch) acc).1.subs.seedingNext = acc.1.subs.seedingNext
      ∧ (paid.foldl (foldPaid epoch) acc).1.subs.seedingPaidTier = acc.1.subs.seedingPaidTier := by
  induction paid generalizing acc with
  | nil => exact ⟨rfl, rfl⟩
  | cons p paid ih =>
    rw [List.foldl_cons, (ih _).1, (ih _).2]
    unfold foldPaid
    dsimp only
    split
    · exact ⟨rfl, rfl⟩
    · obtain ⟨ht, -, hn⟩ := acc.1.subs.seeding_purchase p.1 (p.2.satSub ‹U64›)
        acc.1.bytesPerToken epoch acc.1.windowEpochs
      exact ⟨hn, ht⟩

theorem seedingNext_of_gather (hdue : ∀ c ∈ cheques, ¬ s.subs.Eligible c.consumer epoch)
    (h : s.gather epoch paid cheques = .ok (u, poolAdd)) :
    u.store.subs.seedingNext = s.subs.seedingNext := by
  refine (gather_invariant (I := fun u => u.store.subs.seedingNext = s.subs.seedingNext
    ∧ u.store.subs.seedingPaidTier = s.subs.seedingPaidTier) h
    (seeding_foldl_foldPaid paid (s, 0)) fun c hc u u' hu hd => ?_).1
  obtain ⟨ht, -, hn⟩ := seeding_draw epoch u.store.subs u.store.servedPairWm c
  rw [hd.store]
  refine ⟨?_, ht.trans hu.2⟩
  rcases hn with hs | ⟨he, -⟩
  · exact hs.trans hu.1
  · exact absurd ⟨hu.2 ▸ he.1, hu.1 ▸ he.2⟩ (hdue c hc)

end Gather

/-! ## A close, as its record tells it -/

/-- **What a close does to the store**: the money and the watermarks are what the record says, the
allowances only move forward. -/
structure Closes (s s' : SettlementStore) (record : RewardRecord) : Prop where
  frame : s' = { s with
    protocol := ⟨⟨record.cumulativeIssued, s.protocol.supply.cap⟩, record.statePool⟩
    records := s'.records
    claimed := s'.claimed
    paidWatermark := s.paidWatermark.raise record.paidMarks
    servedPairWm := s.servedPairWm.raise record.servedMarks
    subs := s'.subs
    rewardable := s'.rewardable
    pendingPayouts := 0
    pendingPaid := 0
    pendingPaidMarks := ∅
    pendingServedMarks := ∅
    committed := s'.committed }
  records : s'.records = (s.expire record.epoch).records.insert record.epoch record
  claimed : s'.claimed = (s.expire record.epoch).claimed
  supply : s.protocol.supply.minted ≤ record.cumulativeIssued
  tier : s'.subs.seedingPaidTier = s.subs.seedingPaidTier
  window : s'.subs.seedingWindow = s.subs.seedingWindow
  next : s.subs.seedingNext.raise s'.subs.seedingNext.toList = s'.subs.seedingNext

theorem Gathered.raise_next (h : Gathered s t) :
    s.subs.seedingNext.raise t.subs.seedingNext.toList = t.subs.seedingNext := by
  refine ext_getElem? fun c => ?_
  rw [BTreeMap.getElem?_raise_toList, getD_eq_getD_getElem?]
  cases hs : s.subs.seedingNext[c]? with
  | some v =>
    obtain ⟨v', hv', hle⟩ := h.next c v hs
    simp [hv', hle]
  | none =>
    cases t.subs.seedingNext[c]? with
    | none => rfl
    | some v' => simp

section Close

variable {blake3 : Bytes → B32} {paid : List (B32 × U64)} {cheques : List BoardCheque}
  {s' : SettlementStore} {record : RewardRecord}

theorem closes_of_settle (hpa : s.pendingPaidMarks = ∅) (hse : s.pendingServedMarks = ∅)
    (hf : s.records[epoch]? = none)
    (h : s.settleEpochFromCheques blake3 epoch paid cheques = .ok (s', record)) :
    Closes s s' record := by
  obtain ⟨hco, rfl⟩ := commitsTo_of_settle hf h
  obtain ⟨t, poolAdd, hg, hc, rfl⟩ := (settleEpochFromCheques_eq_ok hf).mp h
  have hga := gathered_of_gather hpa hse hg
  have hmo := moved_of_gather.1 hg
  obtain ⟨hrec, hcl⟩ := expire_congr (s := s) (r := t.store.payIn poolAdd)
    (by rw [payIn, hmo]) (by rw [payIn, hmo]) record.epoch
  have hb : t.base record.epoch poolAdd = { s with
      records := (s.expire record.epoch).records
      claimed := (s.expire record.epoch).claimed
      paidWatermark := t.store.paidWatermark
      servedPairWm := t.store.servedPairWm
      subs := t.store.subs
      rewardable := t.store.rewardable
      pendingPaid := s.pendingPaid.satAdd poolAdd
      pendingPaidMarks := t.store.pendingPaidMarks
      pendingServedMarks := t.store.pendingServedMarks } := by
    rw [Tally.base, expire_eq, hrec, hcl, payIn]
    conv_lhs => rw [hmo]
  obtain ⟨hp, hs⟩ := marks_of_compute hc
  have his := totalSupply_publish hc
  have hm := hco.supply
  rw [Tally.input, hb] at hp hs
  rw [hb] at his hm ⊢
  refine ⟨(SettlementStore.mk.injEq ..).mpr ⟨?_, rfl, rfl, ?_, ?_, rfl, rfl, rfl, rfl, rfl, rfl,
    rfl,
    rfl, rfl, rfl⟩, rfl, rfl, ?_, hga.tier, hga.window, hga.raise_next⟩
  · rw [← hm]
    rfl
  · rw [hp]
    exact (congrArg _ (sortDedupByKey_toList _)).trans hga.paid.raise_eq |>.symm
  · rw [hs]
    exact (congrArg _ (sortDedupByKey_toList _)).trans hga.served.raise_eq |>.symm
  · rw [← hm, his, Fin.le_def, Word.val_satAdd]
    have := s.protocol.supply.minted.isLt
    exact le_min (Nat.le_add_right _ _) (by omega)

/-- What an adopter has of a settler's store, besides records of its own: neither grants nor the
providers' running totals. -/
def bare (s : SettlementStore) (records : BTreeMap U64 RewardRecord) : SettlementStore :=
  { s with records := records, subs := { s.subs with grants := ∅ }, rewardable := ∅ }

variable {claimed : BTreeSet (U64 × B32)} {payouts : U64} {committed : EconomicSnapshot}

theorem Closes.bare_eq (hs : s.AtClose)
    (hc : Closes (s.withClaims claimed payouts committed) s' record)
    (records : BTreeMap U64 RewardRecord) :
    s'.bare records = { s with
      protocol := ⟨⟨record.cumulativeIssued, s.protocol.supply.cap⟩, record.statePool⟩
      records := records
      claimed := s'.claimed
      paidWatermark := s.paidWatermark.raise record.paidMarks
      servedPairWm := s.servedPairWm.raise record.servedMarks
      subs := { s.subs with grants := ∅, seedingNext := s'.subs.seedingNext }
      rewardable := ∅
      committed := s'.committed } := by
  have hsu : ({ s'.subs with grants := ∅ } : SubscriptionLedger)
      = { s.subs with grants := ∅, seedingNext := s'.subs.seedingNext } :=
    (SubscriptionLedger.mk.injEq ..).mpr ⟨rfl, hc.tier, hc.window, rfl⟩
  obtain ⟨-, hpa, hpai, hp, hsM⟩ := hs
  rw [bare, hsu, hpa, hpai, hp, hsM]
  conv_lhs => rw [hc.frame]
  rfl

/-- **Adopting a record that is not a checkpoint** gives the settler's position, if the close left
the claim marks and the allowances as they were. -/
theorem adoptCanonical_delta (hs : s.AtClose) (hs' : s'.AtClose)
    (hc : Closes (s.withClaims claimed payouts committed) s' record)
    (hch : record.checkpoint = none) (hm : s'.claimed = s.claimed)
    (hn : s'.subs.seedingNext = s.subs.seedingNext) (records : BTreeMap U64 RewardRecord) :
    (s.bare records).adoptCanonical record = s'.bare (records.insert record.epoch record) := by
  have hsu : max s.protocol.supply.minted record.cumulativeIssued = record.cumulativeIssued :=
    max_eq_right hc.supply
  have hco : s'.committed = (s'.bare records).snapshot := hs'.committed
  rw [hc.bare_eq hs, hm, hn] at hco ⊢
  rw [hco]
  simp only [adoptCanonical, hch, bare, SupplyState.observeMinted, ProtocolState.setPool, hsu,
    snapshot, SubscriptionLedger.seedingEligibility]

/-- **Adopting a checkpoint** gives the settler's position, whatever the close did. -/
theorem adoptCanonical_checkpoint (hs : s.AtClose) (hs' : s'.AtClose)
    (hc : Closes (s.withClaims claimed payouts committed) s' record)
    (hch : record.checkpoint = some s'.committed) (records : BTreeMap U64 RewardRecord) :
    (s.bare records).adoptCanonical record = s'.bare (records.insert record.epoch record) := by
  have hsu : max s.protocol.supply.minted record.cumulativeIssued = record.cumulativeIssued :=
    max_eq_right hc.supply
  have hn : s.subs.seedingNext.raise s'.subs.seedingNext.toList = s'.subs.seedingNext := hc.next
  have hco : s'.committed = (s'.bare records).snapshot := hs'.committed
  rw [hc.bare_eq hs] at hco ⊢
  rw [hco] at hch ⊢
  simp only [adoptCanonical, hch, bare, SupplyState.observeMinted, hsu, snapshot,
    SubscriptionLedger.seedingEligibility, restore, ProtocolState.totalSupply, max_self,
    BTreeMap.ofList_toList, BTreeSet.ofList_toList, SubscriptionLedger.restoreSeedingEligibility,
    hn]

theorem atClose_of_settle (hf : s.records[epoch]? = none)
    (h : s.settleEpochFromCheques blake3 epoch paid cheques = .ok (s', record)) : s'.AtClose := by
  obtain ⟨t, poolAdd, -, -, rfl⟩ := (settleEpochFromCheques_eq_ok hf).mp h
  exact atClose_publish _ _ _

theorem seedingNext_of_settle (hf : s.records[epoch]? = none)
    (hdue : ∀ c ∈ cheques, ¬ s.subs.Eligible c.consumer epoch)
    (h : s.settleEpochFromCheques blake3 epoch paid cheques = .ok (s', record)) :
    s'.subs.seedingNext = s.subs.seedingNext := by
  obtain ⟨t, poolAdd, hg, -, rfl⟩ := (settleEpochFromCheques_eq_ok hf).mp h
  rw [← seedingNext_of_gather hdue hg, publish, Tally.base, expire_eq]
  rfl

theorem Recorded.of_closes (hr : s.Recorded) (hc : Closes s s' record) : s'.Recorded := by
  intro k hk
  rw [hc.claimed] at hk
  rw [hc.records, contains_insert, (expired_expire s record.epoch).recorded hr k hk, Bool.or_true]

theorem Recorded.claimAll (hr : s.Recorded) (claims : List (U64 × B32)) :
    (Settlement.claimAll s claims).Recorded := by
  induction claims generalizing s with
  | nil => exact hr
  | cons k claims ih => exact ih (hr.claim k.1 k.2)

end Close

end SettlementStore

open SettlementStore

/-! ## A settler and its adopter -/

/-- One epoch: the claims the settler processes, and what it then settles the epoch from. -/
structure Close where
  claims : List (U64 × B32)
  epoch : U64
  paid : List (B32 × U64)
  cheques : List BoardCheque

/-- The two stores, and the epoch whose turn it is. -/
structure Pair where
  settler : SettlementStore
  adopter : SettlementStore
  next : ℕ

def Close.settle (blake3 : Bytes → B32) (c : Close) (s : SettlementStore) :
    Except SettlementStore (SettlementStore × RewardRecord) :=
  s.settleEpochFromCheques blake3 c.epoch c.paid c.cheques

namespace Pair

/-- Two fresh stores under the same governed parameters. -/
def init (g : Governed) (first : ℕ) : Pair := ⟨g.fresh, g.fresh, first⟩

/-- The settler's store when it settles: its claims are processed. -/
def settling (p : Pair) (c : Close) : SettlementStore := claimAll p.settler c.claims

/-- One epoch: the settler settles it, the adopter adopts the record. -/
def step (blake3 : Bytes → B32) (p : Pair) (c : Close) : Pair :=
  match c.settle blake3 (p.settling c) with
  | .ok (s, record) => ⟨s, p.adopter.adoptCanonical record, c.epoch.val + 1⟩
  | .error s => { p with settler := s }

/-- The epoch is the next one, and its close returns. -/
def Settles (blake3 : Bytes → B32) (p : Pair) (c : Close) : Prop :=
  c.epoch.val = p.next ∧ (published (c.settle blake3 (p.settling c))).isSome = true
deriving Decidable

/-- The record tells the adopter all that the close changes: it is a checkpoint, or the claim marks
that are left are those of the last close and nobody who is served is due an allowance. -/
def Told (p : Pair) (c : Close) : Prop :=
  isCheckpoint c.epoch = true ∨ ((p.settling c).expire c.epoch).claimed = p.settler.claimed
      ∧ ∀ q ∈ c.cheques, ¬ p.settler.subs.Eligible q.consumer c.epoch
deriving Decidable

/-- The epoch reads nothing that no record tells: the settler's claims release nothing, no grant is
live, and no provider of the cheques has earned before. -/
def Bare (p : Pair) (c : Close) : Prop :=
  (∀ k ∈ c.claims, (p.settler.claim k.1 k.2).2 = 0)
    ∧ (∀ q ∈ p.settler.subs.grants.toList, SubscriptionLedger.unexpired c.epoch q.2 = [])
    ∧ ∀ q ∈ c.cheques, p.settler.rewardable.getD q.provider 0 = 0

instance (p : Pair) (c : Close) : Decidable (p.Bare c) :=
  have : Decidable (∀ k ∈ c.claims, (p.settler.claim k.1 k.2).2 = 0) :=
    List.decidableBAll (fun k : U64 × B32 => (p.settler.claim k.1 k.2).2 = 0) _
  inferInstanceAs (Decidable (_ ∧ _))

/-- The adopter is where the settler is, but for records that have left the claim window. -/
structure Follows (p : Pair) (floor : U64) : Prop where
  atClose : p.settler.AtClose
  recorded : p.settler.Recorded
  adopter : p.adopter = p.settler.bare p.adopter.records
  low : floor.val ≤ p.next - claimWindowEpochs.val
  gone : ∀ e, e < floor → p.settler.records[e]? = none
  records : ∀ e, ¬ e < floor → p.adopter.records[e]? = p.settler.records[e]?
  old : ∀ e, p.adopter.records.contains e = true → e.val < p.next

theorem follows_init (g : Governed) (first : ℕ) : (init g first).Follows 0 := by
  have hr : g.fresh.records = ∅ := rfl
  have hc : g.fresh.claimed = ∅ := rfl
  refine ⟨⟨rfl, rfl, rfl, rfl, rfl⟩, fun k hk => ?_, rfl, Nat.zero_le _, fun e he => ?_,
    fun e _ => rfl, fun e he => ?_⟩
  · simp [init, hc] at hk
  · simp [init, hr]
  · simp [init, hr] at he

variable {blake3 : Bytes → B32} {p : Pair} {floor : U64} {c : Close}

theorem floor_le_cutoff (h : p.Follows floor) (hn : c.epoch.val = p.next) :
    floor ≤ cutoff c.epoch := by
  rw [Fin.le_def, cutoff, Word.val_satSub, hn]
  exact h.low

theorem Follows.fresh (h : p.Follows floor) (hn : c.epoch.val = p.next) :
    p.adopter.records[c.epoch]? = none ∧ p.settler.records[c.epoch]? = none := by
  have ha : p.adopter.records[c.epoch]? = none := by
    by_contra hs
    have hold := h.old c.epoch (by
      rw [contains_eq_isSome_getElem?]
      exact Option.isSome_iff_ne_none.mpr hs)
    omega
  refine ⟨ha, ?_⟩
  by_cases hlow : c.epoch < floor
  · exact h.gone _ hlow
  · rw [← h.records _ hlow, ha]

section Settled

variable {s' : SettlementStore} {record : RewardRecord}

theorem Follows.settling_eq (h : p.Follows floor) (hn : c.epoch.val = p.next) :
    (∃ claimed payouts, p.settling c = p.settler.withClaims claimed payouts p.settler.committed)
      ∧ (p.settling c).records[c.epoch]? = none := by
  obtain ⟨claimed, payouts, hc⟩ := claimAll_eq_withClaims p.settler c.claims
  refine ⟨⟨claimed, payouts, hc⟩, ?_⟩
  rw [settling, hc]
  exact (h.fresh hn).2

theorem Follows.closes (h : p.Follows floor) (hn : c.epoch.val = p.next)
    (hok : c.settle blake3 (p.settling c) = .ok (s', record)) :
    Closes (p.settling c) s' record := by
  obtain ⟨⟨claimed, payouts, hc⟩, hf⟩ := h.settling_eq hn
  refine closes_of_settle ?_ ?_ hf hok
  · rw [hc]
    exact h.atClose.pendingPaidMarks
  · rw [hc]
    exact h.atClose.pendingServedMarks

/-- **The adopter of a record that tells all takes over the settler's position.** -/
theorem Follows.adopted (h : p.Follows floor) (hn : c.epoch.val = p.next) (ht : p.Told c)
    (hok : c.settle blake3 (p.settling c) = .ok (s', record)) :
    p.adopter.adoptCanonical record = s'.bare (p.adopter.records.insert record.epoch record) := by
  obtain ⟨⟨claimed, payouts, hcla⟩, hf⟩ := h.settling_eq hn
  obtain ⟨hco, he⟩ := commitsTo_of_settle hf hok
  have hs' := atClose_of_settle hf hok
  have hcl := h.closes hn hok
  have hc := hco.checkpoint
  rw [h.adopter]
  rw [hcla] at hcl
  rw [he] at hc
  rcases ht with hcp | ⟨hm, hdue⟩
  · rw [if_pos hcp] at hc
    exact adoptCanonical_checkpoint h.atClose hs' hcl hc _
  · by_cases hcp : isCheckpoint c.epoch = true
    · rw [if_pos hcp] at hc
      exact adoptCanonical_checkpoint h.atClose hs' hcl hc _
    · rw [if_neg hcp] at hc
      have hs : (p.settling c).subs = p.settler.subs := by
        rw [hcla]
        rfl
      refine adoptCanonical_delta h.atClose hs' hcl hc ?_ ?_ _
      · rw [hcl.claimed, he, ← hcla, hm]
      · rw [seedingNext_of_settle hf (hs ▸ hdue) hok, hs]

theorem Follows.step (h : p.Follows floor) (hn : c.epoch.val = p.next) (ht : p.Told c)
    (hok : c.settle blake3 (p.settling c) = .ok (s', record)) :
    (p.step blake3 c).Follows (cutoff c.epoch) := by
  obtain ⟨⟨claimed, payouts, hcl⟩, hf⟩ := h.settling_eq hn
  obtain ⟨-, hep⟩ := commitsTo_of_settle hf hok
  have hc := h.closes hn hok
  have hr : ∀ e, s'.records[e]?
      = if c.epoch = e then some record else if e < cutoff c.epoch then none
        else p.settler.records[e]? := by
    intro e
    rw [hc.records, BTreeMap.getElem?_insert, getElem?_expire, hep, hcl]
    rfl
  have hcut : ∀ e, e < cutoff c.epoch → c.epoch ≠ e := by
    rintro e he rfl
    rw [Fin.lt_def, cutoff, Word.val_satSub] at he
    omega
  rw [Pair.step, hok]
  dsimp only
  rw [h.adopted hn ht hok, hep]
  refine ⟨atClose_of_settle hf hok, (h.recorded.claimAll c.claims).of_closes hc, rfl, ?_, ?_,
    ?_, ?_⟩
  · rw [cutoff, Word.val_satSub]
    exact Nat.sub_le_sub_right (Nat.le_succ _) _
  · intro e he
    rw [hr, if_neg (hcut e he), if_pos he]
  · intro e he
    have hfl : ¬ e < floor := fun hlt => he (hlt.trans_le (floor_le_cutoff h hn))
    rw [hr, if_neg he, ← h.records e hfl]
    exact BTreeMap.getElem?_insert _ _ _ _
  · intro e he
    rcases (Bool.or_eq_true _ _).mp ((contains_insert).symm.trans he) with heq | hold
    · obtain rfl : c.epoch = e := by simpa using heq
      exact Nat.lt_succ_self _
    · have := h.old e hold
      change e.val < c.epoch.val + 1
      omega

end Settled

theorem claimAll_idle {s : SettlementStore} {claims : List (U64 × B32)}
    (h : ∀ k ∈ claims, (s.claim k.1 k.2).2 = 0) : claimAll s claims = s := by
  induction claims with
  | nil => rfl
  | cons k claims ih =>
    obtain ⟨hk, hr⟩ := List.forall_mem_cons.mp h
    rw [claimAll, List.foldl_cons, claim_idle hk]
    exact ih hr

theorem Follows.expire (h : p.Follows floor) (hn : c.epoch.val = p.next) :
    (p.adopter.expire c.epoch).records = (p.settler.expire c.epoch).records
      ∧ (p.adopter.expire c.epoch).claimed = (p.settler.expire c.epoch).claimed := by
  have hc : p.adopter.claimed = p.settler.claimed := by rw [h.adopter, bare]
  constructor
  · refine ext_getElem? fun e => ?_
    rw [getElem?_expire, getElem?_expire]
    by_cases he : e < cutoff c.epoch
    · rw [if_pos he, if_pos he]
    · rw [if_neg he, if_neg he, h.records e fun hlt => he (hlt.trans_le (floor_le_cutoff h hn))]
  · refine Std.ExtTreeSet.ext_contains fun k => ?_
    rw [contains_expire, contains_expire, hc]
    cases hk : p.settler.claimed.contains k with
    | false => rfl
    | true =>
      -- a mark has its record, so its epoch is not below the floor
      have hh := h.recorded k hk
      have hf : ¬ k.1 < floor := fun hlt => by
        rw [contains_eq_isSome_getElem?, h.gone _ hlt] at hh
        simp at hh
      simp only [contains_eq_isSome_getElem?, h.records _ hf]

/-- **An epoch that reads nothing the records do not tell** is settled alike by both. -/
theorem Follows.published_eq (h : p.Follows floor) (hn : c.epoch.val = p.next) (hb : p.Bare c) :
    published (c.settle blake3 p.adopter) = published (c.settle blake3 (p.settling c)) := by
  obtain ⟨hc, hg, he⟩ := hb
  obtain ⟨hr, hm⟩ := h.expire hn
  obtain ⟨ha, hs⟩ := h.fresh hn
  rw [settling, claimAll_idle hc]
  have hal : Alike c.epoch (c.cheques.map BoardCheque.provider) p.settler p.adopter :=
    alike_of_bare hg he (by
      rw [h.adopter]
      rfl)
  refine hal.published_eq ⟨hm, ?_⟩ hs ha c.paid
  rw [owedOutstanding, owedOutstanding, hr, hm]

end Pair

/-- **An adopter that is told all is where the settler is**: in every run of consecutive epochs
whose records are checkpoints or tell what the closes changed, the adopter commits to what every
record commits to, and would itself have published the record of every epoch that reads nothing
else. -/
theorem adopter_follows_settler (blake3 : Bytes → B32) (g : Governed) (first : ℕ)
    (closes : List Close)
    (hsettles : EachStep (Pair.step blake3) (.init g first) (Pair.Settles blake3) closes)
    (htold : EachStep (Pair.step blake3) (.init g first) Pair.Told closes) :
    EachStep (Pair.step blake3) (.init g first) (fun p c =>
        (∀ record ∈ published (c.settle blake3 (p.settling c)),
          (p.step blake3 c).adopter.committedSnapshot.stateHash blake3 = record.stateHash)
        ∧ (p.Bare c →
          published (c.settle blake3 p.adopter) = published (c.settle blake3 (p.settling c))))
      closes := by
  have hboth : EachStep (Pair.step blake3) (.init g first)
      (fun p c => p.Settles blake3 c ∧ p.Told c) closes :=
    fun pre c hp => ⟨hsettles pre c hp, htold pre c hp⟩
  refine eachStep_of_invariant (I := fun p : Pair => ∃ floor, p.Follows floor)
    ⟨0, Pair.follows_init g first⟩ ?_ ?_ hboth
  · rintro p c ⟨floor, h⟩ ⟨⟨hnext, hsome⟩, htold⟩
    obtain ⟨record, hok⟩ := exists_eq_ok hsome
    exact ⟨_, h.step hnext htold hok⟩
  · rintro p c ⟨floor, h⟩ ⟨⟨hnext, hsome⟩, htold⟩
    obtain ⟨record, hok⟩ := exists_eq_ok hsome
    refine ⟨fun r hr => ?_, h.published_eq hnext⟩
    obtain ⟨-, hfresh⟩ := h.settling_eq hnext
    obtain ⟨hcommits, -⟩ := commitsTo_of_settle hfresh hok
    obtain rfl : record = r := by
      rw [hok] at hr
      exact Option.some.inj hr
    rw [Pair.step, hok]
    dsimp only
    rw [h.adopted hnext htold hok]
    exact hcommits.stateHash

/-- One token buys a base unit's worth of serving each, and no allowance is granted. -/
def paidOnly : Governed := ⟨100000000, 4, 0, 0, 28800, 1000000⟩

/-- Account `5` is seen, then pays and is served by provider `7`, which claims before the checkpoint
of epoch 32. -/
def paidEpochs : List Close :=
  [⟨[], 30, [(5, 100)], []⟩, ⟨[], 31, [(5, 300)], [⟨7, 5, 150, 0⟩]⟩, ⟨[(31, 7)], 32, [], []⟩]

theorem adopter_follows_settler_paidEpochs :
    EachStep (Pair.step blake3) (.init paidOnly 30) Pair.Bare (paidEpochs.take 2)
      ∧ EachStep (Pair.step blake3) (.init paidOnly 30) (fun p c =>
          (∀ record ∈ published (c.settle blake3 (p.settling c)),
            (p.step blake3 c).adopter.committedSnapshot.stateHash blake3 = record.stateHash)
          ∧ (p.Bare c →
            published (c.settle blake3 p.adopter) = published (c.settle blake3 (p.settling c))))
        paidEpochs :=
  ⟨by decide +kernel, adopter_follows_settler blake3 paidOnly 30 paidEpochs (by decide +kernel)
    (by decide +kernel)⟩

/-- Provider `7` serves account `9` on its allowance, in epoch 1 and in epoch 2. -/
def allowanceEpochs : Close × Close := (⟨[], 1, [], [⟨7, 9, 40, 0⟩]⟩, ⟨[], 2, [], [⟨7, 9, 50, 1⟩]⟩)

theorem adopter_misses_allowance :
    let p := Pair.step blake3 (.init defaultGoverned 1) allowanceEpochs.1
    (p.settler.records[(1 : U64)]?.map fun r =>
        decide (r.stateHash = p.adopter.committedSnapshot.stateHash blake3)) = some false
      ∧ ((published (allowanceEpochs.2.settle blake3 p.settler)).map fun r =>
        r.shares.map Share.cumulativeBytes) = some [50]
      ∧ ((published (allowanceEpochs.2.settle blake3 p.adopter)).map fun r =>
        r.shares.map Share.cumulativeBytes) = some [10] := by
  decide +kernel

end Zephcraft.Settlement
