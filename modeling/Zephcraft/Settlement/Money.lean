import Zephcraft.Reward.Issuance
import Zephcraft.Settlement.Allocation

/-!
# Settlement/Money — what each operation does to the money

Of the store's fifteen fields five hold money or earmarks: the protocol, the records, the claim
marks and the two pending amounts.
-/

namespace Zephcraft.Settlement

open Reward Token List Std.ExtTreeMap BTreeMap

namespace SettlementStore

/-- What payouts read and write. -/
structure Money where
  protocol : ProtocolState
  records : BTreeMap U64 RewardRecord
  claimed : BTreeSet (U64 × B32)
  pendingPayouts : U64
  pendingPaid : U64

variable (s : SettlementStore)

def money : Money :=
  ⟨s.protocol, s.records, s.claimed, s.pendingPayouts, s.pendingPaid⟩

/-! ## The loops leave the money alone -/

variable {s : SettlementStore} (epoch : U64)

theorem money_foldPaid (acc : SettlementStore × U64) (p : B32 × U64) :
    (foldPaid epoch acc p).1.money = acc.1.money := by
  unfold foldPaid
  dsimp only
  split <;> rfl

theorem money_foldl_foldPaid (paid : List (B32 × U64)) (acc : SettlementStore × U64) :
    (paid.foldl (foldPaid epoch) acc).1.money = acc.1.money := by
  induction paid generalizing acc with
  | nil => rfl
  | cons p paid ih => rw [foldl_cons, ih, money_foldPaid]

/-- The store a fallible step of the loop ends in. -/
def left : Except SettlementStore Tally → SettlementStore
  | .ok t => t.store
  | .error s => s

theorem money_left_allocateCheque (t : Tally) (c : BoardCheque) :
    (left (allocateCheque epoch t c)).money = t.store.money := by
  rw [allocateCheque_eq]
  dsimp only
  split
  · rfl
  · cases bump t.contrib c.provider (draw epoch t.store.subs t.store.servedPairWm c).2 with
    | error _ => rfl
    | ok contrib =>
      cases bump t.spent c.consumer (draw epoch t.store.subs t.store.servedPairWm c).2 with
      | error _ => rfl
      | ok spent =>
        cases bump (t.store.drawn epoch c).rewardable c.provider
          (draw epoch t.store.subs t.store.servedPairWm c).2 <;> rfl

theorem money_left_foldlM (cheques : List BoardCheque) (t : Tally) :
    (left (cheques.foldlM (allocateCheque epoch) t)).money = t.store.money := by
  induction cheques generalizing t with
  | nil => rfl
  | cons c cheques ih =>
    have hs := money_left_allocateCheque epoch t c
    rw [foldlM_cons]
    cases h : allocateCheque epoch t c with
    | error s => simpa only [h, bind, Except.bind] using hs
    | ok t' =>
      rw [h] at hs
      exact (ih t').trans hs

/-- **Gathering an epoch's payments and cheques moves no money**, whether it returns or panics. -/
theorem money_gather {epoch : U64} {paid : List (B32 × U64)} {cheques : List BoardCheque} :
    (∀ {t a}, s.gather epoch paid cheques = .ok (t, a) → t.store.money = s.money)
      ∧ ∀ {s'}, s.gather epoch paid cheques = .error s' → s'.money = s.money := by
  have hp := money_foldl_foldPaid epoch paid (s, 0)
  have hl := money_left_foldlM epoch (chequeOrder cheques)
    ⟨(paid.foldl (foldPaid epoch) (s, 0)).1, ∅, ∅⟩
  unfold gather
  cases h : (chequeOrder cheques).foldlM (allocateCheque epoch)
    ⟨(paid.foldl (foldPaid epoch) (s, 0)).1, ∅, ∅⟩ with
  | error s₁ =>
    rw [h] at hl
    refine ⟨fun h' => by simp [h, bind, Except.bind] at h', fun h' => ?_⟩
    obtain rfl : s₁ = _ := by simpa [h, bind, Except.bind] using h'
    exact hl.trans hp
  | ok t₁ =>
    rw [h] at hl
    refine ⟨fun h' => ?_, fun h' => by simp [h, bind, Except.bind, pure, Except.pure] at h'⟩
    obtain ⟨rfl, -⟩ : t₁ = _ ∧ _ := by
      simpa [h, bind, Except.bind, pure, Except.pure] using h'
    exact hl.trans hp

/-! ## What is owed -/

/-- The unclaimed shares of one record, added up. -/
def owedOf (claimed : BTreeSet (U64 × B32)) (e : U64) (rec : RewardRecord) : ℕ :=
  ((unclaimed claimed e rec).map fun x => x.amount.val).sum

/-- The unclaimed shares of all records, added up. -/
def owed : ℕ := s.records.total (owedOf s.claimed)

theorem owed_congr {s' : SettlementStore} (h : s.money = s'.money) : s.owed = s'.owed := by
  obtain ⟨-, hr, hc, -, -⟩ := Money.mk.injEq .. ▸ h
  rw [owed, owed, hr, hc]

theorem val_owedOutstanding (s : SettlementStore) :
    s.owedOutstanding.val = min s.owed (2 ^ 64 - 1) := by
  rw [owedOutstanding, Word.val_foldl_satAdd, Fin.val_zero, Nat.zero_add, owed, BTreeMap.total]
  congr 1
  induction s.records.toList with
  | nil => rfl
  | cons e l ih => simpa [owedOf, Function.comp_def] using ih

theorem sum_filter_add_le {α : Type*} {p q : α → Bool} (w : α → ℕ) (hpq : ∀ a, p a → q a)
    {l : List α} {x : α} (hx : x ∈ l) (hp : p x = false) (hq : q x = true) :
    ((l.filter p).map w).sum + w x ≤ ((l.filter q).map w).sum := by
  have hle : ∀ l : List α, ((l.filter p).map w).sum ≤ ((l.filter q).map w).sum := fun l =>
    ((monotone_filter_right l hpq).map w).sum_le_sum fun _ _ => Nat.zero_le _
  induction l with
  | nil => simp at hx
  | cons a l ih =>
    rcases mem_cons.mp hx with rfl | hx
    · have := hle l
      simp only [filter_cons, hp, hq, if_true, map_cons, sum_cons, Bool.false_eq_true, if_false]
      omega
    · have := ih hx
      have hpq := hpq a
      by_cases hpa : p a = true
      · simp only [filter_cons, hpa, hpq hpa, if_true, map_cons, sum_cons]
        omega
      · by_cases hqa : q a = true <;>
          simp only [filter_cons, hpa, hqa, if_true, map_cons, sum_cons,
            Bool.false_eq_true, if_false] <;> omega

theorem owedOf_insert_le (claimed : BTreeSet (U64 × B32)) (k : U64 × B32) (e : U64)
    (rec : RewardRecord) : owedOf (claimed.insert k) e rec ≤ owedOf claimed e rec := by
  refine ((monotone_filter_right _ fun a ha => ?_).map _).sum_le_sum fun _ _ => Nat.zero_le _
  simp only [Std.ExtTreeSet.contains_insert, decide_eq_true_eq, Bool.or_eq_true, not_or] at ha ⊢
  exact ha.2

theorem owedOf_insert_add_shareOf_le {claimed : BTreeSet (U64 × B32)} {e : U64}
    {provider : B32} (rec : RewardRecord) (h : claimed.contains (e, provider) = false) :
    owedOf (claimed.insert (e, provider)) e rec + (rec.shareOf provider).val
      ≤ owedOf claimed e rec := by
  cases hf : rec.shares.find? fun s => s.provider = provider with
  | none =>
    have h0 : rec.shareOf provider = 0 := by simp [RewardRecord.shareOf, hf]
    simpa [h0] using owedOf_insert_le claimed (e, provider) e rec
  | some x =>
    have hx : x.provider = provider := by simpa using find?_some hf
    have hs : rec.shareOf provider = x.amount := by simp [RewardRecord.shareOf, hf]
    rw [hs]
    refine sum_filter_add_le (fun x => x.amount.val) (fun a ha => ?_)
      (mem_of_find?_eq_some hf) ?_ ?_
    · simp only [Std.ExtTreeSet.contains_insert, decide_eq_true_eq, Bool.or_eq_true, not_or] at ha ⊢
      exact ha.2
    · simp [Std.ExtTreeSet.contains_insert, hx]
    · simp [hx, h]

/-! ## Expiry -/

/-- Every claim mark belongs to a record in the window. -/
def Recorded : Prop :=
  ∀ k, s.claimed.contains k = true → s.records.contains k.1 = true

theorem owed_dropRecord_le (s : SettlementStore) (e : U64) : (s.dropRecord e).owed ≤ s.owed := by
  refine le_of_eq_of_le ?_ (total_erase_le (owedOf s.claimed) s.records e)
  refine total_congr fun e' rec h => ?_
  have hne : e' ≠ e := by
    rintro rfl
    simp [dropRecord] at h
  have hm : unclaimed (s.dropRecord e).claimed e' rec = unclaimed s.claimed e' rec := by
    simp [unclaimed, dropRecord, hne]
  rw [owedOf, owedOf, hm]

theorem Recorded.dropRecord (h : s.Recorded) (e : U64) : (s.dropRecord e).Recorded := by
  intro k hk
  obtain ⟨hk, hne⟩ : s.claimed.contains k = true ∧ k.1 ≠ e := by
    simpa [SettlementStore.dropRecord] using hk
  simpa [SettlementStore.dropRecord, contains_erase, Ne.symm hne] using h k hk

/-- **What expiry does to the money**: it drops earmarks, and nothing else. -/
structure Expired (s s' : SettlementStore) : Prop where
  protocol : s'.protocol = s.protocol
  pendingPayouts : s'.pendingPayouts = s.pendingPayouts
  pendingPaid : s'.pendingPaid = s.pendingPaid
  owed : s'.owed ≤ s.owed
  recorded : s.Recorded → s'.Recorded
  absent : ∀ e : U64, s.records[e]? = none → s'.records[e]? = none
  schedule : s'.issuanceTokensPerDay = s.issuanceTokensPerDay

theorem expired_foldl (l : List U64) (s : SettlementStore) : Expired s (l.foldl dropRecord s) := by
  induction l generalizing s with
  | nil => exact ⟨rfl, rfl, rfl, le_rfl, id, fun _ h => h, rfl⟩
  | cons e l ih =>
    have h := ih (s.dropRecord e)
    refine ⟨h.protocol, h.pendingPayouts, h.pendingPaid, h.owed.trans (owed_dropRecord_le s e),
      fun hr => h.recorded (hr.dropRecord e), fun e' he' => h.absent e' ?_, h.schedule⟩
    simp [dropRecord, getElem?_erase, he']

theorem expired_expire (s : SettlementStore) (epoch : U64) : Expired s (s.expire epoch) :=
  expired_foldl _ s

/-! ## Publishing a record -/

/-- What the pool, the pending payments and the mint add up to when a record is closed. -/
def backing (issued : U64) : U64 :=
  (s.protocol.pool.satAdd s.pendingPaid).satAdd issued

theorem owed_publish {epoch : U64} (hr : s.Recorded) (h : s.records[epoch]? = none)
    (record : RewardRecord) :
    (s.publish epoch record).owed = s.owed + record.distributed := by
  have hm : ∀ p, s.claimed.contains (epoch, p) = false := fun p => by
    by_contra hc
    have := hr (epoch, p) (by simpa using hc)
    rw [contains_eq_isSome_getElem?, h] at this
    simp at this
  have hall : unclaimed s.claimed epoch record = record.shares :=
    filter_eq_self.mpr fun x _ => by simp [hm]
  have hins := total_insert_of_none (owedOf s.claimed) h record
  rw [show owedOf s.claimed epoch record = record.distributed by
    rw [owedOf, hall, RewardRecord.distributed]] at hins
  exact hins

theorem Recorded.publish (hr : s.Recorded) (epoch : U64) (record : RewardRecord) :
    (s.publish epoch record).Recorded := by
  intro k hk
  have := hr k hk
  simp [SettlementStore.publish, Std.ExtTreeMap.contains_insert, this]

section Publish

variable {blake3 : Bytes → B32} {s : SettlementStore} {epoch : U64}
  {contributions : List Contribution} {entitlements : List Entitlement} {record : RewardRecord}

theorem pool_publish (h : compute blake3 (s.rewardInput epoch contributions entitlements)
    = .ok record) :
    (s.publish epoch record).protocol.pool = (s.backing record.issued).satSub s.pendingPayouts :=
  committedPool_of_compute h

theorem minted_publish (h : compute blake3 (s.rewardInput epoch contributions entitlements)
    = .ok record) :
    (s.publish epoch record).protocol.supply.minted.val
      = s.protocol.supply.minted.val + record.issued.val := by
  refine (SupplyState.authorizeMint_of_le ?_).2.1
  rw [issued_of_compute h]
  exact issuanceFor_le_headroom _ _ _ _

end Publish

end SettlementStore

end Zephcraft.Settlement
