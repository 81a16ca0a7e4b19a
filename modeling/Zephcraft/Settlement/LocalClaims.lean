import Zephcraft.Settlement.Claims

/-!
# Settlement/LocalClaims — what a local claim does to the next record

Two nodes settle and adopt alike, but each processes claims of its own. Their stores differ in the
claim marks, in the payouts that await a record and in the position they last committed to.
-/

namespace Zephcraft.Settlement

open Economy Reward List

namespace SettlementStore

/-- The store with other claims: other marks, other payouts, another committed position. -/
def withClaims (s : SettlementStore) (claimed : BTreeSet (U64 × B32)) (payouts : U64)
    (committed : EconomicSnapshot) : SettlementStore :=
  { s with claimed := claimed, pendingPayouts := payouts, committed := committed }

/-- The stores differ in their claims only. -/
def Apart (s r : SettlementStore) : Prop :=
  ∃ claimed payouts committed, r = s.withClaims claimed payouts committed

theorem Apart.refl (s : SettlementStore) : Apart s s := ⟨_, _, _, rfl⟩

theorem apart_withClaims (s : SettlementStore) (claimed : BTreeSet (U64 × B32)) (payouts : U64)
    (committed : EconomicSnapshot) : Apart s (s.withClaims claimed payouts committed) :=
  ⟨_, _, _, rfl⟩

/-! ## The loops do not look at the claims -/

variable {s r : SettlementStore} {t u : Tally}

theorem Apart.foldPaid (h : Apart s r) (epoch poolAdd : U64) (p : B32 × U64) :
    Apart (SettlementStore.foldPaid epoch (s, poolAdd) p).1
        (SettlementStore.foldPaid epoch (r, poolAdd) p).1
      ∧ (SettlementStore.foldPaid epoch (r, poolAdd) p).2
        = (SettlementStore.foldPaid epoch (s, poolAdd) p).2 := by
  obtain ⟨claimed, payouts, committed, rfl⟩ := h
  unfold SettlementStore.foldPaid
  simp only [withClaims]
  split <;> exact ⟨apart_withClaims _ _ _ _, rfl⟩

theorem Apart.foldl_foldPaid (epoch : U64) (paid : List (B32 × U64)) :
    ∀ {s r : SettlementStore} (_ : Apart s r) (poolAdd : U64),
      Apart (paid.foldl (SettlementStore.foldPaid epoch) (s, poolAdd)).1
        (paid.foldl (SettlementStore.foldPaid epoch) (r, poolAdd)).1
      ∧ (paid.foldl (SettlementStore.foldPaid epoch) (r, poolAdd)).2
        = (paid.foldl (SettlementStore.foldPaid epoch) (s, poolAdd)).2 := by
  induction paid with
  | nil => exact fun h _ => ⟨h, rfl⟩
  | cons p paid ih =>
    intro s r h poolAdd
    obtain ⟨hs, hadd⟩ := h.foldPaid epoch poolAdd p
    simp only [foldl_cons]
    rw [show SettlementStore.foldPaid epoch (r, poolAdd) p
      = ((SettlementStore.foldPaid epoch (r, poolAdd) p).1,
        (SettlementStore.foldPaid epoch (s, poolAdd) p).2) by rw [← hadd]]
    exact ih hs _

structure Tally.Apart (t u : Tally) : Prop where
  store : SettlementStore.Apart t.store u.store
  contrib : u.contrib = t.contrib
  spent : u.spent = t.spent

theorem Tally.Apart.allocateCheque (h : Tally.Apart t u) (epoch : U64) (c : BoardCheque) :
    Except.Rel SettlementStore.Apart Tally.Apart (SettlementStore.allocateCheque epoch t c)
      (SettlementStore.allocateCheque epoch u c) := by
  obtain ⟨t, contrib, spent⟩ := t
  obtain ⟨u, contrib', spent'⟩ := u
  obtain ⟨⟨claimed, payouts, committed, hu⟩, hc, hs⟩ := h
  obtain rfl : u = t.withClaims claimed payouts committed := hu
  obtain rfl : contrib' = contrib := hc
  obtain rfl : spent' = spent := hs
  have hd : SettlementStore.Apart (t.drawn epoch c)
      ((t.withClaims claimed payouts committed).drawn epoch c) := apart_withClaims _ _ _ _
  have hdr : draw epoch (t.withClaims claimed payouts committed).subs
      (t.withClaims claimed payouts committed).servedPairWm c
      = draw epoch t.subs t.servedPairWm c := rfl
  rw [allocateCheque_eq, allocateCheque_eq]
  dsimp only
  rw [hdr]
  split
  · exact .ok ⟨hd, rfl, rfl⟩
  · refine (bump_rel rfl _ hd).bind ?_
    rintro _ _ ⟨v, rfl, rfl⟩
    refine (bump_rel rfl _ hd).bind ?_
    rintro _ _ ⟨w, rfl, rfl⟩
    refine (bump_rel rfl _ hd).bind ?_
    rintro _ _ ⟨x, rfl, rfl⟩
    exact .ok ⟨apart_withClaims _ _ _ _, rfl, rfl⟩

theorem Apart.gather (h : Apart s r) (epoch : U64) (paid : List (B32 × U64))
    (cheques : List BoardCheque) :
    Except.Rel Apart (fun x y => Tally.Apart x.1 y.1 ∧ y.2 = x.2)
      (s.gather epoch paid cheques) (r.gather epoch paid cheques) := by
  obtain ⟨hf, hadd⟩ := h.foldl_foldPaid epoch paid 0
  have hs : Tally.Apart ⟨(paid.foldl (SettlementStore.foldPaid epoch) (s, 0)).1, ∅, ∅⟩
      ⟨(paid.foldl (SettlementStore.foldPaid epoch) (r, 0)).1, ∅, ∅⟩ := ⟨hf, rfl, rfl⟩
  have hl := List.foldlM_rel (f := SettlementStore.allocateCheque epoch)
    (g := SettlementStore.allocateCheque epoch) (l := chequeOrder cheques)
    (fun c _ t u htu => htu.allocateCheque epoch c) hs
  exact hl.bind fun t u htu => .ok ⟨htu, hadd⟩

/-! ## Closing an epoch -/

/-- Both stores find the epoch with the same surviving marks and the same payouts. -/
structure SameStanding (epoch : U64) (s r : SettlementStore) : Prop where
  marks : (r.expire epoch).claimed = (s.expire epoch).claimed
  payouts : r.pendingPayouts = s.pendingPayouts

instance (epoch : U64) (s r : SettlementStore) : Decidable (SameStanding epoch s r) :=
  decidable_of_iff ((r.expire epoch).claimed = (s.expire epoch).claimed
    ∧ r.pendingPayouts = s.pendingPayouts) ⟨fun h => ⟨h.1, h.2⟩, fun h => ⟨h.marks, h.payouts⟩⟩

theorem Apart.expire (h : Apart s r) (epoch : U64) :
    Apart (s.expire epoch) (r.expire epoch)
      ∧ (r.expire epoch).records = (s.expire epoch).records := by
  obtain ⟨claimed, payouts, committed, rfl⟩ := h
  have hrec : ((s.withClaims claimed payouts committed).expire epoch).records
      = (s.expire epoch).records := by
    refine Std.ExtTreeMap.ext_getElem? fun e => ?_
    rw [getElem?_expire, getElem?_expire]
    rfl
  refine ⟨?_, hrec⟩
  rw [expire_eq s, expire_eq (s.withClaims claimed payouts committed), hrec]
  exact apart_withClaims _ _ _ _

theorem Tally.Apart.base (h : Tally.Apart t u) (epoch poolAdd : U64) :
    SettlementStore.Apart (t.base epoch poolAdd) (u.base epoch poolAdd)
      ∧ (u.base epoch poolAdd).records = (t.base epoch poolAdd).records := by
  have hpay : SettlementStore.Apart (t.store.payIn poolAdd) (u.store.payIn poolAdd) := by
    obtain ⟨claimed, payouts, committed, hu⟩ := h.store
    rw [hu]
    exact apart_withClaims _ _ _ _
  exact hpay.expire epoch

theorem SameStanding.congr {epoch : U64} {s₁ r₁ : SettlementStore} (h : SameStanding epoch s r)
    (hs : s₁.money = s.money) (hr : r₁.money = r.money) : SameStanding epoch s₁ r₁ := by
  obtain ⟨-, hs, hs', hsp, -⟩ := Money.mk.injEq .. ▸ hs
  obtain ⟨-, hr, hr', hrp, -⟩ := Money.mk.injEq .. ▸ hr
  refine ⟨?_, by rw [hsp, hrp, h.payouts]⟩
  rw [(expire_congr hs hs' epoch).2, (expire_congr hr hr' epoch).2, h.marks]

theorem Tally.Apart.input (h : Tally.Apart t u) {epoch : U64} (poolAdd : U64)
    (hs : SameStanding epoch t.store u.store) :
    u.input epoch poolAdd = t.input epoch poolAdd := by
  obtain ⟨⟨claimed, payouts, committed, hb⟩, hrec⟩ := h.base epoch poolAdd
  have hm : (u.base epoch poolAdd).claimed = (t.base epoch poolAdd).claimed := by
    have hpay := fun v : Tally =>
      (expire_congr (s := v.store) (r := v.store.payIn poolAdd) rfl rfl epoch).2
    exact (hpay u).trans (hs.marks.trans (hpay t).symm)
  have hp : (u.base epoch poolAdd).pendingPayouts = (t.base epoch poolAdd).pendingPayouts := by
    have hpay : ∀ v : Tally, (v.base epoch poolAdd).pendingPayouts = v.store.pendingPayouts :=
      fun v => (expired_expire _ epoch).pendingPayouts
    rw [hpay, hpay, hs.payouts]
  rw [hb] at hm hp
  obtain rfl : claimed = (t.base epoch poolAdd).claimed := hm
  obtain rfl : payouts = (t.base epoch poolAdd).pendingPayouts := hp
  have hc : contributionsOf u = contributionsOf t := by
    obtain ⟨claimed, payouts, committed, hu⟩ := h.store
    rw [contributionsOf, contributionsOf, h.contrib, hu]
    rfl
  have hent : entitlementsOf u epoch = entitlementsOf t epoch := by
    obtain ⟨claimed, payouts, committed, hu⟩ := h.store
    rw [entitlementsOf, entitlementsOf, h.spent, hu]
    rfl
  rw [Tally.input, Tally.input, hb, hc, hent]
  rfl

/-- **A close that finds both stores with the same standing publishes the same record**, and leaves
them apart by their claims only, also where it panics. -/
theorem Apart.settle {blake3 : Bytes → B32} {epoch : U64} (h : Apart s r)
    (hs : s.records[epoch]? = none → SameStanding epoch s r) (paid : List (B32 × U64))
    (cheques : List BoardCheque) :
    Except.Rel Apart (fun x y => Apart x.1 y.1 ∧ y.2 = x.2)
      (s.settleEpochFromCheques blake3 epoch paid cheques)
      (r.settleEpochFromCheques blake3 epoch paid cheques) := by
  have hr : r.records = s.records := by
    obtain ⟨_, _, _, rfl⟩ := h
    rfl
  cases hf : s.records[epoch]? with
  | some existing =>
    simp only [settleEpochFromCheques, hr, hf]
    exact .ok ⟨h, rfl⟩
  | none =>
    have hf' : r.records[epoch]? = none := by rw [hr, hf]
    have hg := h.gather epoch paid cheques
    cases hgs : s.gather epoch paid cheques with
    | error s₁ =>
      cases hgr : r.gather epoch paid cheques with
      | ok y => rw [hgs, hgr] at hg; cases hg
      | error r₁ =>
        rw [hgs, hgr] at hg
        rw [settleEpochFromCheques_of_error hf hgs, settleEpochFromCheques_of_error hf' hgr]
        cases hg with
        | error h => exact .error h
    | ok x =>
      cases hgr : r.gather epoch paid cheques with
      | error r₁ => rw [hgs, hgr] at hg; cases hg
      | ok y =>
        obtain ⟨t, poolAdd⟩ := x
        obtain ⟨u, poolAdd'⟩ := y
        rw [hgs, hgr] at hg
        obtain ⟨htu, hadd⟩ : Tally.Apart t u ∧ poolAdd' = poolAdd := by
          cases hg with
          | ok h => exact h
        obtain rfl : poolAdd = poolAdd' := hadd.symm
        have hin := htu.input poolAdd ((hs hf).congr (money_gather.1 hgs) (money_gather.1 hgr))
        obtain ⟨claimed, payouts, committed, hb⟩ := (htu.base epoch poolAdd).1
        rw [settleEpochFromCheques_of_gather hf hgs,
          settleEpochFromCheques_of_gather hf' hgr, hin, hb]
        cases compute blake3 (t.input epoch poolAdd) with
        | error _ => exact .error (apart_withClaims _ _ _ _)
        | ok record => exact .ok ⟨⟨_, _, _, rfl⟩, rfl⟩

end SettlementStore

open SettlementStore

/-! ## Two nodes -/

def claimAll (s : SettlementStore) (claims : List (U64 × B32)) : SettlementStore :=
  claims.foldl (fun s k => (s.claim k.1 k.2).1) s

theorem claim_eq_withClaims (s : SettlementStore) (epoch : U64) (provider : B32) :
    ∃ claimed payouts, (s.claim epoch provider).1 = s.withClaims claimed payouts s.committed := by
  by_cases h : (s.claim epoch provider).2 = 0
  · exact ⟨s.claimed, s.pendingPayouts, claim_idle h⟩
  · exact ⟨_, _, (claim_released h).2.2⟩

theorem claimAll_eq_withClaims (s : SettlementStore) (claims : List (U64 × B32)) :
    ∃ claimed payouts, claimAll s claims = s.withClaims claimed payouts s.committed := by
  induction claims using reverseRecOn with
  | nil => exact ⟨s.claimed, s.pendingPayouts, rfl⟩
  | append_singleton claims k ih =>
    obtain ⟨claimed, payouts, ih⟩ := ih
    obtain ⟨claimed', payouts', hk⟩ := claim_eq_withClaims (claimAll s claims) k.1 k.2
    refine ⟨claimed', payouts', ?_⟩
    rw [claimAll, foldl_append, foldl_cons, foldl_nil]
    refine hk.trans ?_
    rw [ih]
    rfl

theorem SettlementStore.Apart.claimAll {s r : SettlementStore} (h : Apart s r)
    (mine theirs : List (U64 × B32)) :
    Apart (Settlement.claimAll s mine) (Settlement.claimAll r theirs) := by
  obtain ⟨claimed, payouts, hs⟩ := claimAll_eq_withClaims s mine
  obtain ⟨claimed', payouts', hr⟩ := claimAll_eq_withClaims r theirs
  obtain ⟨_, _, committed, rfl⟩ := h
  rw [hs, hr]
  exact ⟨claimed', payouts', committed, rfl⟩

/-- One round of two nodes: the claims that each processes on its own, then the call that both
make. -/
structure Round where
  mine : List (U64 × B32)
  theirs : List (U64 × B32)
  call : Call

def Round.step (blake3 : Bytes → B32) (p : SettlementStore × SettlementStore) (r : Round) :
    SettlementStore × SettlementStore :=
  (r.call.exec blake3 (claimAll p.1 r.mine), r.call.exec blake3 (claimAll p.2 r.theirs))

def Call.published (blake3 : Bytes → B32) (s : SettlementStore) : Call → Option RewardRecord
  | .settle epoch paid cheques =>
    SettlementStore.published (s.settleEpochFromCheques blake3 epoch paid cheques)
  | _ => none

/-- A call that settles an epoch finds both stores with the same standing. -/
def Call.FindsSame (s r : SettlementStore) : Call → Prop
  | .settle epoch _ _ => s.records[epoch]? = none → SameStanding epoch s r
  | _ => True

instance (s r : SettlementStore) : (c : Call) → Decidable (c.FindsSame s r)
  | .settle epoch _ _ =>
    inferInstanceAs (Decidable (s.records[epoch]? = none → SameStanding epoch s r))
  | .payIn _ | .claim _ _ | .adopt _ | .setIssuance _ _ | .restore _ => isTrue trivial

theorem apart_after {x y : Except SettlementStore (SettlementStore × RewardRecord)}
    (h : Except.Rel Apart (fun x y => Apart x.1 y.1 ∧ y.2 = x.2) x y) :
    Apart (after x) (after y) ∧ SettlementStore.published y = SettlementStore.published x := by
  cases h with
  | ok h => exact ⟨h.1, congrArg some h.2⟩
  | error h => exact ⟨h, rfl⟩

section Call

variable {blake3 : Bytes → B32} {s r : SettlementStore}

theorem SettlementStore.Apart.exec (h : Apart s r) {c : Call} (hc : c.FindsSame s r) :
    Apart (c.exec blake3 s) (c.exec blake3 r) := by
  cases c with
  | settle epoch paid cheques => exact (apart_after (h.settle hc paid cheques)).1
  | claim epoch provider => exact h.claimAll [(epoch, provider)] [(epoch, provider)]
  | adopt rec =>
    obtain ⟨_, _, _, rfl⟩ := h
    simp only [Call.exec, adoptCanonical]
    cases rec.checkpoint <;> exact ⟨_, _, _, rfl⟩
  | _ =>
    obtain ⟨_, _, _, rfl⟩ := h
    exact ⟨_, _, _, rfl⟩

theorem SettlementStore.Apart.published_eq (h : Apart s r) {c : Call} (hc : c.FindsSame s r) :
    c.published blake3 r = c.published blake3 s := by
  cases c with
  | settle epoch paid cheques => exact (apart_after (h.settle hc paid cheques)).2
  | _ => rfl

end Call

/-- **Two nodes that make the same calls publish the same records**, whatever claims each of them
processes in between, if every epoch they settle finds both with the same surviving claim marks and
the same payouts. -/
theorem records_agree_of_same_standing (blake3 : Bytes → B32) (s₀ : SettlementStore)
    (rounds : List Round)
    (h : Run.EachStep (Round.step blake3) (s₀, s₀)
      (fun p r => r.call.FindsSame (claimAll p.1 r.mine) (claimAll p.2 r.theirs)) rounds) :
    Run.EachStep (Round.step blake3) (s₀, s₀)
      (fun p r => r.call.published blake3 (claimAll p.2 r.theirs)
        = r.call.published blake3 (claimAll p.1 r.mine)) rounds :=
  Run.eachStep_of_invariant (I := fun p : SettlementStore × SettlementStore => Apart p.1 p.2)
    (.refl s₀) (fun _ _ hp hr => (hp.claimAll _ _).exec hr)
    (fun _ _ hp hr => (hp.claimAll _ _).published_eq hr) h

/-- Providers `7` and `8` serve account `9` in epoch 1. -/
def serveFirst : Call := .settle 1 [] [⟨7, 9, 30, 0⟩, ⟨8, 9, 10, 0⟩]

/-- …and provider `7` again in epoch 2. -/
def serveAgain : Call := .settle 2 [] [⟨7, 9, 50, 1⟩]

theorem records_agree_in_either_order :
    Run.EachStep (Round.step blake3) (.new, .new)
      (fun p r => r.call.published blake3 (claimAll p.2 r.theirs)
        = r.call.published blake3 (claimAll p.1 r.mine))
      [⟨[], [], serveFirst⟩, ⟨[(1, 7), (1, 8)], [(1, 8), (1, 7)], serveAgain⟩] :=
  records_agree_of_same_standing blake3 .new _ (by decide +kernel)

theorem claim_changes_next_record :
    let s := serveFirst.exec blake3 .new
    (serveAgain.published blake3 (claimAll s [(1, 7)])).map
        (fun r => (r.shares.map Share.amount, r.committedPool)) = some ([607639], 434028)
      ∧ (serveAgain.published blake3 (claimAll s [])).map
        (fun r => (r.shares.map Share.amount, r.committedPool)) = some ([347223], 694444)
      ∧ (serveAgain.published blake3 (claimAll s [(1, 7)])).map RewardRecord.stateHash
        ≠ (serveAgain.published blake3 (claimAll s [])).map RewardRecord.stateHash := by
  decide +kernel

end Zephcraft.Settlement
