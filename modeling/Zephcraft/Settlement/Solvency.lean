import Zephcraft.Foundations.Run
import Zephcraft.Reward.Division
import Zephcraft.Settlement.Money

/-!
# Settlement/Solvency — when the shares and payouts are backed

The store is solvent when what it owes and what it has paid out since the last record fit what it
holds. Between two closes this is never lost: a claim moves a share from one side to the other, an
expiry only drops earmarks.
-/

namespace Zephcraft.Settlement

open Reward Token SettlementStore Word RewardInput Run

/-- What is owed and what was paid out fit what is held. -/
def Solvent (s : SettlementStore) : Prop :=
  s.owed + s.pendingPayouts.val ≤ s.protocol.pool.val + s.pendingPaid.val
deriving Decidable

/-- Solvent from the pool alone, and every claim mark with its record. -/
structure Backed (s : SettlementStore) : Prop where
  pool : s.owed + s.pendingPayouts.val ≤ s.protocol.pool.val
  recorded : s.Recorded

variable {s : SettlementStore}

theorem Backed.solvent (h : Backed s) : Solvent s := by
  have := h.pool
  unfold Solvent
  omega

theorem Backed.congr {s' : SettlementStore} (h : s.money = s'.money) (hb : Backed s) :
    Backed s' := by
  have ho := owed_congr h
  obtain ⟨hp, hr, hc, hx, -⟩ := Money.mk.injEq .. ▸ h
  refine ⟨?_, fun k hk => ?_⟩
  · rw [← ho, ← hx, ← hp]
    exact hb.pool
  · rw [← hr]
    exact hb.recorded k (hc ▸ hk)

/-! ## Between two closes -/

theorem Backed.payIn (hb : Backed s) (amount : U64) : Backed (s.payIn amount) :=
  ⟨hb.pool, hb.recorded⟩

theorem Backed.expire (hb : Backed s) (epoch : U64) : Backed (s.expire epoch) := by
  have h := expired_expire s epoch
  refine ⟨?_, h.recorded hb.recorded⟩
  rw [h.protocol, h.pendingPayouts]
  exact (Nat.add_le_add_right h.owed _).trans hb.pool

/-- **What a claim does**: nothing, or it moves a share from what is owed to what is paid out. -/
theorem claim_cases (s : SettlementStore) (epoch : U64) (provider : B32) :
    s.claim epoch provider = (s, 0) ∨ ∃ share, s.claim epoch provider = ({ s with
              pendingPayouts := s.pendingPayouts.satAdd share
              claimed := s.claimed.insert (epoch, provider) }, share)
        ∧ (s.claim epoch provider).1.owed + share.val ≤ s.owed
        ∧ s.records.contains epoch = true := by
  unfold claim
  split
  · exact .inl rfl
  · rename_i rec hrec
    dsimp only
    split
    · exact .inl rfl
    · rename_i hf
      obtain ⟨-, hf⟩ := not_or.mp hf
      refine .inr ⟨rec.shareOf provider, rfl, ?_, ?_⟩
      · exact BTreeMap.total_add_le hrec (fun e rec => owedOf_insert_le s.claimed _ e rec)
          (owedOf_insert_add_shareOf_le rec ((Bool.not_eq_true _).mp hf))
      · rw [Std.ExtTreeMap.contains_eq_isSome_getElem?, hrec]
        rfl

theorem SettlementStore.Recorded.claim (h : s.Recorded) (epoch : U64) (provider : B32) :
    (s.claim epoch provider).1.Recorded := by
  rcases claim_cases s epoch provider with heq | ⟨share, heq, -, hrec⟩
  · rw [heq]
    exact h
  · rw [heq]
    intro k hk
    rcases eq_or_ne k (epoch, provider) with rfl | hne
    · exact hrec
    · refine h k ?_
      simpa [Std.ExtTreeSet.contains_insert, Ne.symm hne] using hk

theorem Backed.claim (hb : Backed s) (epoch : U64) (provider : B32) :
    Backed (s.claim epoch provider).1 ∧ (s.claim epoch provider).1.pendingPayouts.val
        = s.pendingPayouts.val + (s.claim epoch provider).2.val := by
  have hr := hb.recorded.claim epoch provider
  rcases claim_cases s epoch provider with h | ⟨share, h, ho, -⟩
  · rw [h]
    exact ⟨hb, rfl⟩
  · have hp := hb.pool
    have hlt := s.protocol.pool.isLt
    have hsum : (s.pendingPayouts.satAdd share).val = s.pendingPayouts.val + share.val :=
      val_satAdd_of_lt (by omega)
    rw [h] at ho hr ⊢
    refine ⟨⟨?_, hr⟩, hsum⟩
    change _ + (s.pendingPayouts.satAdd share).val ≤ s.protocol.pool.val
    omega

/-! ## A close -/

/-- The part of an epoch's mint that the pool's saturating addition drops. -/
def mintLost (s : SettlementStore) (input : RewardInput) : ℕ :=
  s.owed + input.distributable.val - (s.backing input.mint).val

/-- If the division of `input` is carried out at all, the payouts awaiting it, and what it loses of
its mint, fit its dust. -/
def Covered (s : SettlementStore) (input : RewardInput) : Prop :=
  input.Fits → s.pendingPayouts.val + mintLost s input ≤ input.dust

section Close

variable {blake3 : Bytes → B32} {s : SettlementStore} {epoch : U64}
  {contributions : List Contribution} {entitlements : List Entitlement} {record : RewardRecord}

/-- **A close keeps the store solvent exactly when its division covers the payouts.** -/
theorem solvent_publish_iff (hb : Backed s) (ha : s.records[epoch]? = none)
    (h : compute blake3 (s.rewardInput epoch contributions entitlements) = .ok record) :
    Solvent (s.publish epoch record)
      ↔ Covered s (s.rewardInput epoch contributions entitlements) := by
  have hp := hb.pool
  have ho := owed_publish hb.recorded ha record
  have hle := distributed_le_pool h
  have hf := exists_compute_eq_ok.mp ⟨record, h⟩
  have hba : (s.backing record.issued).val
      = min (min (s.protocol.pool.val + s.pendingPaid.val) (2 ^ 64 - 1) + record.issued.val)
        (2 ^ 64 - 1) := rfl
  have hpub : Solvent (s.publish epoch record)
      ↔ s.owed + record.distributed ≤ (s.backing record.issued).val - s.pendingPayouts.val := by
    unfold Solvent
    rw [ho, pool_publish h]
    rfl
  have hrec : record.pool.val
      = min (min (s.protocol.pool.val + s.pendingPaid.val) (2 ^ 64 - 1) - min s.owed (2 ^ 64 - 1)
        + record.issued.val) (2 ^ 64 - 1) := by
    rw [pool_of_compute h]
    simp only [rewardInput, unallocated, val_satAdd, val_satSub, val_owedOutstanding]
  have hlt := s.protocol.pool.isLt
  rw [hpub, Covered, forall_prop_of_true hf, mintLost, dust,
    ← distributed_of_compute h, distributable, mint, ← issued_of_compute h,
    ← pool_of_compute h]
  omega

theorem Backed.publish (hb : Backed s) (ha : s.records[epoch]? = none)
    (h : compute blake3 (s.rewardInput epoch contributions entitlements) = .ok record)
    (hc : Covered s (s.rewardInput epoch contributions entitlements)) :
    Backed (s.publish epoch record) :=
  ⟨(solvent_publish_iff hb ha h).mpr hc, hb.recorded.publish epoch record⟩

end Close

/-! ## Runs -/

/-- The calls that move money. -/
inductive Op where
  | payIn (amount : U64)
  | settleEpoch (epoch : U64) (contributions : List Contribution) (entitlements : List Entitlement)
  | settleEpochFromCheques (epoch : U64) (paid : List (B32 × U64)) (cheques : List BoardCheque)
  | claim (epoch : U64) (provider : B32)

/-- The store, and what has been paid into it and released from it so far. -/
structure Trace where
  store : SettlementStore
  paidIn : ℕ
  released : ℕ

/-- The store after a call that may have panicked. -/
def after : Except SettlementStore (SettlementStore × RewardRecord) → SettlementStore
  | .ok (s, _) => s
  | .error s => s

/-- What closing `epoch` on `s` pays into the pool. -/
def funded (s : SettlementStore) (epoch : U64) (paid : List (B32 × U64))
    (cheques : List BoardCheque) : ℕ :=
  match s.records[epoch]?, s.gather epoch paid cheques with
  | none, .ok (_, poolAdd) => poolAdd.val
  | _, _ => 0

def exec (blake3 : Bytes → B32) (t : Trace) : Op → Trace
  | .payIn amount => { t with store := t.store.payIn amount, paidIn := t.paidIn + amount.val }
  | .settleEpoch epoch contributions entitlements =>
    { t with store := after (t.store.settleEpoch blake3 epoch contributions entitlements) }
  | .settleEpochFromCheques epoch paid cheques =>
    { t with
      store := after (t.store.settleEpochFromCheques blake3 epoch paid cheques)
      paidIn := t.paidIn + funded t.store epoch paid cheques }
  | .claim epoch provider =>
    { t with
      store := (t.store.claim epoch provider).1
      released := t.released + (t.store.claim epoch provider).2.val }

def Trace.init : Trace := ⟨.new, 0, 0⟩

/-- A call of `settleEpoch`: the store it is made on, and its arguments. -/
structure Settle where
  store : SettlementStore
  epoch : U64
  contributions : List Contribution
  entitlements : List Entitlement

namespace Settle

/-- The store once its old records have expired. -/
def base (c : Settle) : SettlementStore := c.store.expire c.epoch

def input (c : Settle) : RewardInput := c.base.rewardInput c.epoch c.contributions c.entitlements

/-- If the epoch is not settled yet, its division covers the payouts that await it. -/
def Covers (c : Settle) : Prop := c.store.records[c.epoch]? = none → Covered c.base c.input

end Settle

/-- The call of `settleEpoch` that a call is or ends with. -/
def Op.settle (s : SettlementStore) : Op → Option Settle
  | .settleEpoch epoch contributions entitlements => some ⟨s, epoch, contributions, entitlements⟩
  | .settleEpochFromCheques epoch paid cheques =>
    match s.records[epoch]?, s.gather epoch paid cheques with
    | none, .ok (t, poolAdd) =>
      some ⟨t.store.payIn poolAdd, epoch, contributionsOf t, entitlementsOf t epoch⟩
    | _, _ => none
  | _ => none

/-- A call that settles covers the payouts that await it. -/
def CoveredCall (t : Trace) (op : Op) : Prop := ∀ c ∈ op.settle t.store, c.Covers

/-- **What a call leaves of the money**: `quiet` when it publishes no record, `close` when it
does. -/
inductive Outcome (blake3 : Bytes → B32) (s : SettlementStore) (paid : ℕ) :
    Option Settle → SettlementStore → Prop
  | quiet {call s'} (covers : ∀ c ∈ call, c.Covers) (backed : Backed s → Backed s')
      (protocol : s'.protocol = s.protocol) (pendingPayouts : s'.pendingPayouts = s.pendingPayouts)
      (pendingPaid : s'.pendingPaid.val ≤ s.pendingPaid.val + paid) : Outcome blake3 s paid call s'
  | close {c record} (backed : Backed s → Backed c.base) (protocol : c.base.protocol = s.protocol)
      (pendingPayouts : c.base.pendingPayouts = s.pendingPayouts)
      (pendingPaid : c.base.pendingPaid.val ≤ s.pendingPaid.val + paid)
      (fresh : c.store.records[c.epoch]? = none) (computed : compute blake3 c.input = .ok record) :
      Outcome blake3 s paid (some c) (c.base.publish c.epoch record)

section Call

variable {blake3 : Bytes → B32}

theorem Outcome.of_quiet {s s₁ s' : SettlementStore} {paid : ℕ} {call : Option Settle}
    (hb : Backed s → Backed s₁) (hp : s₁.protocol = s.protocol)
    (hx : s₁.pendingPayouts = s.pendingPayouts)
    (hq : s₁.pendingPaid.val ≤ s.pendingPaid.val + paid) (h : Outcome blake3 s₁ 0 call s') :
    Outcome blake3 s paid call s' := by
  cases h with
  | quiet covers backed protocol payouts pending =>
    exact .quiet covers (backed ∘ hb) (protocol.trans hp) (payouts.trans hx) (pending.trans hq)
  | close backed protocol payouts pending fresh computed =>
    exact .close (backed ∘ hb) (protocol.trans hp) (payouts.trans hx) (pending.trans hq) fresh
      computed

theorem outcome_settleEpoch (c : Settle) :
    Outcome blake3 c.store 0 (some c)
      (after (c.store.settleEpoch blake3 c.epoch c.contributions c.entitlements)) := by
  have hexp := expired_expire c.store c.epoch
  unfold settleEpoch
  cases hrec : c.store.records[c.epoch]? with
  | some existing =>
    refine .quiet ?_ id rfl rfl le_rfl
    rintro _ ⟨⟩ hf
    simp [hrec] at hf
  | none =>
    cases hc : compute blake3 c.input with
    | error p =>
      -- a division that panics publishes nothing, and expiry has already happened
      have hout : compute blake3 ((c.store.expire c.epoch).rewardInput c.epoch c.contributions
          c.entitlements) = .error p := hc
      simp only [hout, after]
      refine .quiet ?_ (fun h => h.expire c.epoch) hexp.protocol hexp.pendingPayouts
        hexp.pendingPaid.le
      rintro _ ⟨⟩ - hfi
      obtain ⟨record, hok⟩ : ∃ record, compute blake3 c.input = .ok record :=
        exists_compute_eq_ok.mpr hfi
      simp [hc] at hok
    | ok record =>
      have hout : compute blake3 ((c.store.expire c.epoch).rewardInput c.epoch c.contributions
          c.entitlements) = .ok record := hc
      simp only [hout, after]
      exact .close (fun h => h.expire c.epoch) hexp.protocol hexp.pendingPayouts
        hexp.pendingPaid.le hrec hc

theorem outcome_settleEpochFromCheques (s : SettlementStore) (epoch : U64)
    (paid : List (B32 × U64)) (cheques : List BoardCheque) :
    Outcome blake3 s (funded s epoch paid cheques)
      ((Op.settleEpochFromCheques epoch paid cheques).settle s)
      (after (s.settleEpochFromCheques blake3 epoch paid cheques)) := by
  cases hrec : s.records[epoch]? with
  | some existing =>
    simp only [settleEpochFromCheques, Op.settle, funded, hrec, after]
    exact .quiet (fun _ h => nomatch h) id rfl rfl le_rfl
  | none =>
    cases hg : s.gather epoch paid cheques with
    | error s' =>
      have hm := money_gather.2 hg
      obtain ⟨hp, -, -, hx, hq⟩ := Money.mk.injEq .. ▸ hm
      simp only [settleEpochFromCheques, Op.settle, funded, hrec, hg, bind, Except.bind, after]
      exact .quiet (fun _ h => nomatch h) (Backed.congr hm.symm) hp hx (congrArg Fin.val hq).le
    | ok r =>
      obtain ⟨t, poolAdd⟩ := r
      have hm := money_gather.1 hg
      obtain ⟨hp, -, -, hx, hq⟩ := Money.mk.injEq .. ▸ hm
      simp only [settleEpochFromCheques, Op.settle, funded, hrec, hg, bind, Except.bind]
      refine .of_quiet (fun hb => (hb.congr hm.symm).payIn poolAdd) hp hx ?_
        (outcome_settleEpoch ⟨_, _, _, _⟩)
      change (t.store.pendingPaid.satAdd poolAdd).val ≤ _
      rw [show t.store.pendingPaid = s.pendingPaid from hq, val_satAdd]
      omega

variable {t : Trace} {op : Op}

theorem backed_exec (hb : Backed t.store) (hc : CoveredCall t op) :
    Backed (exec blake3 t op).store := by
  have key : ∀ {paid s'}, Outcome blake3 t.store paid (op.settle t.store) s' → Backed s' := by
    intro paid s' ho
    unfold CoveredCall at hc
    generalize op.settle t.store = call at ho hc
    cases ho with
    | quiet _ backed => exact backed hb
    | @close c _ backed _ _ _ fresh computed =>
      exact (backed hb).publish ((expired_expire _ _).absent _ fresh) computed (hc c rfl fresh)
  cases op with
  | payIn amount => exact hb.payIn amount
  | settleEpoch epoch cs es => exact key (outcome_settleEpoch ⟨t.store, epoch, cs, es⟩)
  | settleEpochFromCheques epoch paid cheques =>
    exact key (outcome_settleEpochFromCheques t.store epoch paid cheques)
  | claim epoch provider => exact (hb.claim epoch provider).1

theorem covered_of_solvent_exec (hb : Backed t.store) (hs : Solvent (exec blake3 t op).store) :
    CoveredCall t op := by
  have key : ∀ {paid s'}, Outcome blake3 t.store paid (op.settle t.store) s' → Solvent s' →
      CoveredCall t op := by
    intro paid s' ho hs
    unfold CoveredCall
    generalize op.settle t.store = call at ho
    cases ho with
    | quiet covers => exact covers
    | close backed _ _ _ fresh computed =>
      rintro c ⟨⟩ -
      exact (solvent_publish_iff (backed hb) ((expired_expire _ _).absent _ fresh) computed).mp hs
  cases op with
  | payIn amount => exact fun c h => nomatch h
  | settleEpoch epoch cs es => exact key (outcome_settleEpoch ⟨t.store, epoch, cs, es⟩) hs
  | settleEpochFromCheques epoch paid cheques =>
    exact key (outcome_settleEpochFromCheques t.store epoch paid cheques) hs
  | claim epoch provider => exact fun c h => nomatch h

/-! ## What has been released -/

/-- What is held, and what was released and folded, was paid in or minted. -/
def Accounted (t : Trace) : Prop :=
  t.store.protocol.pool.val + t.store.pendingPaid.val + t.released
    ≤ t.paidIn + t.store.protocol.supply.minted.val + t.store.pendingPayouts.val

theorem accounted_exec (hb : Backed t.store) (ha : Accounted t) : Accounted (exec blake3 t op) := by
  have key : ∀ {paid s'}, Outcome blake3 t.store paid (op.settle t.store) s' →
      Accounted ⟨s', t.paidIn + paid, t.released⟩ := by
    intro paid s' ho
    unfold Accounted at ha ⊢
    generalize op.settle t.store = call at ho
    cases ho with
    | quiet _ _ protocol pendingPayouts pendingPaid =>
      rw [protocol, pendingPayouts]
      dsimp only
      omega
    | @close c record backed protocol pendingPayouts pendingPaid _ computed =>
      have hpo := (backed hb).pool
      have hlt := c.base.protocol.pool.isLt
      have hba : (c.base.backing record.issued).val
          = min (min (c.base.protocol.pool.val + c.base.pendingPaid.val) (2 ^ 64 - 1)
            + record.issued.val) (2 ^ 64 - 1) := rfl
      rw [← protocol, ← pendingPayouts] at ha
      dsimp only
      rw [pool_publish computed, minted_publish computed, val_satSub,
        show (c.base.publish c.epoch record).pendingPaid = 0 from rfl,
        show (c.base.publish c.epoch record).pendingPayouts = 0 from rfl, Fin.val_zero]
      omega
  cases op with
  | payIn amount =>
    unfold Accounted at ha ⊢
    simp only [exec, payIn, val_satAdd]
    omega
  | settleEpoch epoch cs es => exact key (outcome_settleEpoch ⟨t.store, epoch, cs, es⟩)
  | settleEpochFromCheques epoch paid cheques =>
    exact key (outcome_settleEpochFromCheques t.store epoch paid cheques)
  | claim epoch provider =>
    have hx := (hb.claim epoch provider).2
    have hp : (t.store.claim epoch provider).1.protocol = t.store.protocol
        ∧ (t.store.claim epoch provider).1.pendingPaid = t.store.pendingPaid := by
      rcases claim_cases t.store epoch provider with h | ⟨share, h, -, -⟩ <;> rw [h] <;>
        exact ⟨rfl, rfl⟩
    unfold Accounted at ha ⊢
    simp only [exec, hp.1, hp.2, hx]
    omega

end Call

/-! ## Whole runs -/

theorem backed_init : Backed Trace.init.store :=
  ⟨by simp [Trace.init, new, owed], fun k hk => by simp [Trace.init, new] at hk⟩

theorem accounted_init : Accounted Trace.init := by
  simp [Accounted, Trace.init, new]

/-- **A run is solvent throughout exactly when every epoch it settles covers the payouts that await
it** — the payouts since the last record, and what the pool's saturation drops of the mint, fit the
dust of the division. In such a run, what has been released never exceeds what was paid in and
minted. -/
theorem solvent_throughout_iff_covered (blake3 : Bytes → B32) (ops : List Op) :
    (EachState (exec blake3) .init (fun t => Solvent t.store) ops
        ↔ EachStep (exec blake3) .init CoveredCall ops)
      ∧ (EachStep (exec blake3) .init CoveredCall ops → EachState (exec blake3) .init
          (fun t => t.released ≤ t.paidIn + t.store.protocol.totalSupply.val) ops) := by
  constructor
  · exact eachState_iff_eachStep (C := CoveredCall) (G := fun t => Solvent t.store)
      (I := fun t => Backed t.store) backed_init (fun _ h => h.solvent)
      (fun _ _ h hc => backed_exec h hc) (fun _ _ h hs => covered_of_solvent_exec h hs)
  · refine eachState_of_invariant (C := CoveredCall)
      (I := fun t => Backed t.store ∧ Accounted t) ⟨backed_init, accounted_init⟩
      (fun _ _ h hc => ⟨backed_exec h.1 hc, accounted_exec h.1 h.2⟩) fun t ⟨hb, ha⟩ => ?_
    have hpool := hb.pool
    unfold Accounted at ha
    change _ ≤ _ + t.store.protocol.supply.minted.val
    omega

/-- A share is claimed between two closes: provider `7` draws its part of the first record, and the
second record divides the same tokens again. -/
def claimBetweenCloses : List Op :=
  [.payIn 1000, .settleEpoch 1 [⟨7, 60, 60⟩, ⟨8, 40, 40⟩] [], .claim 1 7,
    .settleEpoch 2 [⟨7, 1, 1⟩] []]

theorem claimBetweenCloses_not_solvent :
    ¬ Solvent (run (exec fun _ => 0) .init claimBetweenCloses).store
      ∧ let t := run (exec fun _ => 0) .init (claimBetweenCloses ++ [.claim 1 8, .claim 2 7])
        t.paidIn + t.store.protocol.totalSupply.val < t.released := by
  decide +kernel

end Zephcraft.Settlement
