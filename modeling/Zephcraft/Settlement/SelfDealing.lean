import Zephcraft.Settlement.Entitled

/-!
# Settlement/SelfDealing — what a group that serves itself gets back

A group that pays, serves itself and is rewarded for it should get back no more than it paid. The
entitlement caps the **bytes** it is rewarded for; a share, though, is a part of the whole pool.
-/

namespace Zephcraft.Settlement

open Economy Reward SettlementStore Std.ExtTreeMap Run

/-! ## Payments and shares of a group -/

/-- The advance of a payer's total past what was seen of it. -/
def advance (s : SettlementStore) (p : B32 × U64) : U64 :=
  (s.paidWatermark[p.1]?).elim 0 fun w => p.2.satSub w

/-- The paid deltas of a group's members in a call. -/
def paidBy (S : B32 → Prop) [DecidablePred S] (epoch : U64) :
    SettlementStore → List (B32 × U64) → ℕ
  | _, [] => 0
  | s, p :: paid =>
    (if S p.1 then (advance s p).val else 0) + paidBy S epoch (foldPaid epoch (s, 0) p).1 paid

/-- The shares of a record that are a group's. -/
def sharesFor (S : B32 → Prop) [DecidablePred S] (record : RewardRecord) : ℕ :=
  ((record.shares.filter fun x => S x.provider).map fun x => x.amount.val).sum

/-- The balance that an epoch divides: what is held once the payments are in and the old records
have expired, and not earmarked. -/
def divided (s : SettlementStore) (i : Inputs) : U64 :=
  ((s.payIn (i.paid.foldl (foldPaid i.epoch) (s, 0)).2).expire i.epoch).unallocated

/-- A store, with what a group has paid into the pool and been allotted out of it so far. -/
structure Dealing where
  store : SettlementStore
  paid : ℕ
  allotted : ℕ

namespace Dealing

/-- A fresh store under governed parameters. -/
def init (g : Governed) : Dealing := ⟨g.fresh, 0, 0⟩

def newRecord (blake3 : Bytes → B32) (d : Dealing) (i : Inputs) : Option RewardRecord :=
  match d.store.records[i.epoch]? with
  | some _ => none
  | none => published (i.settle blake3 d.store)

/-- One epoch. Payments count where they come into the pool, once the cheques are allocated. -/
def step (blake3 : Bytes → B32) (S : B32 → Prop) [DecidablePred S] (d : Dealing)
    (i : Inputs) : Dealing where
  store := after (i.settle blake3 d.store)
  paid := d.paid + match d.store.records[i.epoch]?, d.store.gather i.epoch i.paid i.cheques with
    | none, .ok _ => paidBy S i.epoch d.store i.paid
    | _, _ => 0
  allotted := d.allotted + ((d.newRecord blake3 i).elim 0 (sharesFor S))

/-- No cheque names a server of the group, or what is divided is the group's own money: it has paid
that much more than it was allotted. -/
def Own (S : B32 → Prop) [DecidablePred S] (d : Dealing) (i : Inputs) : Prop :=
  (∀ q ∈ i.cheques, ¬ S q.provider)
    ∨ d.allotted + (divided d.store i).val ≤ d.paid + paidBy S i.epoch d.store i.paid
deriving Decidable

end Dealing

/-! ## One epoch -/

section Epoch

variable {blake3 : Bytes → B32} {S : B32 → Prop} [DecidablePred S] {s : SettlementStore}
  {epoch poolAdd : U64} {t : Tally} {record : RewardRecord}

theorem sharesFor_le_distributed (record : RewardRecord) :
    sharesFor S record ≤ record.distributed :=
  (List.filter_sublist.map _).sum_le_sum fun _ _ => Nat.zero_le _

theorem exists_cheque_of_share {i : Inputs}
    (hg : s.gather i.epoch i.paid i.cheques = .ok (t, poolAdd))
    (hc : compute blake3 (t.input i.epoch poolAdd) = .ok record) {x : Share}
    (hx : x ∈ record.shares) :
    ∃ q ∈ i.cheques, q.provider = x.provider := by
  have hea : ∀ p, t.contrib.contains p = true → ∃ q ∈ i.cheques, q.provider = p :=
    gather_invariant (I := fun t => ∀ p, t.contrib.contains p = true →
      ∃ q ∈ i.cheques, q.provider = p) hg (fun p hp => by simp at hp)
      fun q hq u u' hu hd p hp => (hd.earned p hp).elim (hu p) fun heq => ⟨q, hq, heq⟩
  obtain ⟨c, hco, hpr⟩ := List.mem_map.mp (List.mem_dedup.mp (provider_mem_of_compute hc hx))
  obtain ⟨e, he, rfl⟩ := List.mem_map.mp (show c ∈ t.contrib.toList.map _ from hco)
  have hrow : t.contrib[e.1]? = some e.2 := mem_toList_iff_getElem?_eq_some.mp he
  refine hpr ▸ hea e.1 ?_
  rw [contains_eq_isSome_getElem?, hrow]
  rfl

theorem sharesFor_eq_zero {i : Inputs} (hg : s.gather i.epoch i.paid i.cheques = .ok (t, poolAdd))
    (hc : compute blake3 (t.input i.epoch poolAdd) = .ok record)
    (h : ∀ q ∈ i.cheques, ¬ S q.provider) :
    sharesFor S record = 0 := by
  have hn : (record.shares.filter fun x => S x.provider) = [] := by
    refine List.filter_eq_nil_iff.mpr fun x hx hS => ?_
    obtain ⟨q, hq, heq⟩ := exists_cheque_of_share hg hc hx
    exact h q hq (heq ▸ of_decide_eq_true hS)
  rw [sharesFor, hn]
  rfl

/-- **A record divides the balance that is not earmarked**, no issuance being added. -/
theorem distributed_le_divided {i : Inputs} (hr : s.issuanceTokensPerDay = 0)
    (hg : s.gather i.epoch i.paid i.cheques = .ok (t, poolAdd))
    (hc : compute blake3 (t.input i.epoch poolAdd) = .ok record) :
    record.distributed ≤ (divided s i).val := by
  have hm := moved_of_gather.1 hg
  obtain ⟨-, rfl⟩ := gather_ok_iff.mp hg
  have his : record.issued = 0 := by
    rw [issued_of_compute hc]
    simp only [Tally.input, rewardInput, Tally.base]
    rw [expire_eq, payIn, hm]
    simp [issuanceFor, hr]
  have hp : record.pool = divided s i := by
    have hz : ∀ a : U64, a.satAdd 0 = a := fun a => by
      refine Fin.ext ?_
      rw [Word.val_satAdd_of_lt (by simp)]
      simp
    rw [pool_of_compute hc, his, hz]
    refine unallocated_expire_congr ?_ i.epoch
    rw [payIn, hm]
    rfl
  rw [← hp]
  exact distributed_le_pool hc

theorem Dealing.allotted_le_paid_step {d : Dealing} {i : Inputs}
    (hr : d.store.issuanceTokensPerDay = 0) (h : d.allotted ≤ d.paid) (hown : d.Own S i) :
    (d.step blake3 S i).allotted ≤ (d.step blake3 S i).paid := by
  unfold Dealing.step Dealing.newRecord Inputs.settle
  cases hf : d.store.records[i.epoch]? with
  | some existing => simpa using h
  | none =>
    cases hg : d.store.gather i.epoch i.paid i.cheques with
    | error s' =>
      rw [settleEpochFromCheques_of_error hf hg]
      simpa [published] using h
    | ok r =>
      obtain ⟨t, poolAdd⟩ := r
      rw [settleEpochFromCheques_of_gather hf hg]
      cases hc : compute blake3 (t.input i.epoch poolAdd) with
      | error _ => exact le_trans (by simpa [published] using h) (Nat.le_add_right _ _)
      | ok record =>
        simp only [published, Option.elim_some]
        rcases hown with hn | hle
        · rw [sharesFor_eq_zero hg hc hn]
          omega
        · have hs := (sharesFor_le_distributed (S := S) record).trans
            (distributed_le_divided hr hg hc)
          omega

theorem issuanceTokensPerDay_settle (i : Inputs) (s : SettlementStore) :
    (after (i.settle blake3 s)).issuanceTokensPerDay = s.issuanceTokensPerDay := by
  unfold Inputs.settle
  cases hf : s.records[i.epoch]? with
  | some existing => simp only [settleEpochFromCheques, hf, after]
  | none =>
    cases hg : s.gather i.epoch i.paid i.cheques with
    | error s' =>
      rw [settleEpochFromCheques_of_error hf hg, after, moved_of_gather.2 hg]
    | ok r =>
      obtain ⟨t, poolAdd⟩ := r
      have hb : (t.base i.epoch poolAdd).issuanceTokensPerDay = s.issuanceTokensPerDay := by
        rw [Tally.base, expire_eq, payIn, moved_of_gather.1 hg]
      rw [settleEpochFromCheques_of_gather hf hg]
      cases compute blake3 (t.input i.epoch poolAdd) <;> exact hb

end Epoch

/-- **A group gets back at most what it paid**, in every run without issuance in which each epoch
that rewards a server of the group divides the group's own money. -/
theorem allotted_le_paid_of_own (blake3 : Bytes → B32) (S : B32 → Prop) [DecidablePred S]
    (g : Governed) (hissuance : g.tokensPerDay = 0) (inputs : List Inputs)
    (hown : EachStep (Dealing.step blake3 S) (.init g) (Dealing.Own S) inputs) :
    EachState (Dealing.step blake3 S) (.init g) (fun d => d.allotted ≤ d.paid) inputs := by
  refine eachState_of_invariant
    (I := fun d : Dealing => d.store.issuanceTokensPerDay = 0 ∧ d.allotted ≤ d.paid)
    ⟨hissuance, le_rfl⟩ ?_ (fun _ h => h.2) hown
  rintro d i ⟨hrate, hle⟩ hi
  exact ⟨(issuanceTokensPerDay_settle i d.store).trans hrate,
    Dealing.allotted_le_paid_step hrate hle hi⟩

/-- A base unit buys a byte; no allowance, no issuance. -/
def steady : Governed := ⟨100000000, 4, 0, 0, 0, 0⟩

/-- Account `5` pays and serves itself; later account `3` pays and is served by provider `6`. -/
def selfServed : List Inputs :=
  [⟨1, [(5, 0)], []⟩, ⟨2, [(5, 100)], [⟨5, 5, 1000, 1⟩]⟩, ⟨3, [(3, 0)], []⟩,
    ⟨4, [(3, 50)], [⟨6, 3, 50, 2⟩]⟩]

theorem allotted_le_paid_of_own_selfServed :
    (run (Dealing.step blake3 (· = 5)) (.init steady) selfServed).allotted = 100
      ∧ EachState (Dealing.step blake3 (· = 5)) (.init steady) (fun d => d.allotted ≤ d.paid)
        selfServed :=
  ⟨by decide +kernel, allotted_le_paid_of_own blake3 (· = 5) steady rfl selfServed
    (by decide +kernel)⟩

/-- The same account, while account `3` pays a thousand and is served by nobody. -/
def sharedPool : List Inputs :=
  [⟨1, [(3, 0), (5, 0)], []⟩, ⟨2, [(3, 1000), (5, 10)], [⟨5, 5, 10, 0⟩]⟩]

theorem sharedPool_allots_others_money :
    (∀ i ∈ sharedPool, ∀ q ∈ i.cheques, q.provider = 5 → q.consumer = 5)
      ∧ (run (Dealing.step blake3 (· = 5)) (.init steady) sharedPool).paid = 10
      ∧ (run (Dealing.step blake3 (· = 5)) (.init steady) sharedPool).allotted = 1010 := by
  refine ⟨by simp [sharedPool], by decide +kernel, by decide +kernel⟩

end Zephcraft.Settlement
