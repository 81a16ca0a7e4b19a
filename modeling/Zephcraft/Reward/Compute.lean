import Zephcraft.Reward.Record

/-!
# Reward/Compute — the epoch's record, as a function of its input

Contributions are summed per provider, the pool — topped up by fresh issuance — is divided in the
ratio of the sums, and the resulting state is committed to.
-/

namespace Zephcraft.Reward

open List Option Std.ExtTreeMap Word

/-- One contribution added to its provider's row: bytes add up, the running total is the greatest
seen. -/
def addContribution (m : BTreeMap B32 (U128 × U64)) (c : Contribution) :
    Except Panic (BTreeMap B32 (U128 × U64)) := do
  let e := m.getD c.provider (0, 0)
  let bytes ← e.1.addOrPanic c.bytes.toU128
  return m.insert c.provider (bytes, max e.2 c.cumulativeBytes)

/-- The epoch's contributions by provider. -/
def byProvider (contributions : List Contribution) : Except Panic (BTreeMap B32 (U128 × U64)) :=
  contributions.foldlM addContribution ∅

/-- One provider's amount: its ratio of the pool, rounded down. -/
def shareAmount (distributable : U64) (total bytes : U128) : Except Panic U64 :=
  if total = 0 then return 0
  else do
    let product ← distributable.toU128.mulOrPanic bytes
    return truncate (product.val / total.val)

def sharesOf (distributable : U64) (total : U128) (providers : BTreeMap B32 (U128 × U64)) :
    Except Panic (List Share) :=
  providers.toList.mapM fun e => do
    let amount ← shareAmount distributable total e.2.1
    return ⟨e.1, amount, truncate e.2.1.val, e.2.2⟩

/-- The entitlements merged by consumer: what was spent adds up, what remains is the greatest. -/
def byConsumer (entitlements : List Entitlement) : List Entitlement :=
  let rows := entitlements.foldl (fun m e =>
    let row := m.getD e.consumer (0, 0)
    m.insert e.consumer (row.1.satAdd e.spent, max row.2 e.remaining))
    (∅ : BTreeMap B32 (U64 × U64))
  rows.toList.map fun e => ⟨e.1, e.2.1, e.2.2⟩

/-- The state the record commits to: the node's snapshot under the pool recurrence, made
canonical. -/
def settledState (input : RewardInput) (issued : U64) : EconomicSnapshot where
  pool := ((input.state.pool.satAdd input.paid).satAdd issued).satSub input.claimPayouts
  minted := input.cumulativeIssued.satAdd issued
  paidWatermarks := sortDedupByKey Prod.fst input.state.paidWatermarks
  servedWatermarks := sortDedupByKey Prod.fst input.state.servedWatermarks
  seedingNext := sortDedupByKey Prod.fst input.state.seedingNext
  claimed := sortDedupByKey id input.state.claimed

/-- The record of the epoch, once its issuance and its shares are known. -/
def recordOf (blake3 : Bytes → B32) (input : RewardInput) (issued : U64) (shares : List Share) :
    RewardRecord :=
  let state := settledState input issued
  { epoch := input.epoch
    checkpoint := if isCheckpoint input.epoch then some state else none
    paidMarks := sortDedupByKey Prod.fst input.paidMarks
    servedMarks := sortDedupByKey Prod.fst input.servedMarks
    committedPool := state.pool
    stateHash := state.stateHash blake3
    pool := input.pool.satAdd issued
    shares := shares
    entitlements := byConsumer input.entitlements
    issued := issued
    cumulativeIssued := input.cumulativeIssued.satAdd issued }

/-- The reward program: one epoch's input to its record. -/
def compute (blake3 : Bytes → B32) (input : RewardInput) : Except Panic RewardRecord := do
  let providers ← byProvider input.contributions
  let total ← sumOrPanic (providers.toList.map fun e => e.2.1)
  -- the schedule's clock is handed the pool here, not the epoch
  let issued := issuanceFor input.pool input.cumulativeIssued (0 < total) input.issuance
  let shares ← sharesOf (input.pool.satAdd issued) total providers
  return recordOf blake3 input issued shares

/-! ## What the contributions add up to -/

def RewardInput.contributed (input : RewardInput) : ℕ :=
  (input.contributions.map fun c => c.bytes.val).sum

variable {m : BTreeMap B32 (U128 × U64)} {distributable : U64} {total : U128}

theorem total_addContribution {m' : BTreeMap B32 (U128 × U64)} {c : Contribution}
    (h : addContribution m c = .ok m') :
    m'.total (fun _ v => v.1.val) = m.total (fun _ v => v.1.val) + c.bytes.val := by
  obtain ⟨bytes, hb, h⟩ := Except.bind_eq_ok.mp h
  obtain rfl : m.insert c.provider (bytes, _) = m' := by simpa [pure, Except.pure] using h
  have hb := addOrPanic_eq_ok.mp hb
  have hins := m.total_insert (fun _ v => v.1.val) c.provider
    (bytes, max (m.getD c.provider (0, 0)).2 c.cumulativeBytes)
  rw [getD_eq_getD_getElem?] at hb hins ⊢
  cases hm : m[c.provider]? with
  | none =>
    simp only [hm, getD_none, elim_none, Fin.val_zero, U64.val_toU128] at hb hins ⊢
    omega
  | some e =>
    simp only [hm, getD_some, elim_some, U64.val_toU128] at hb hins ⊢
    omega

theorem total_foldlM_addContribution {cs : List Contribution} {m' : BTreeMap B32 (U128 × U64)}
    (h : cs.foldlM addContribution m = .ok m') :
    m'.total (fun _ v => v.1.val)
      = m.total (fun _ v => v.1.val) + (cs.map fun c => c.bytes.val).sum := by
  induction cs generalizing m with
  | nil =>
    obtain rfl : m = m' := by simpa [pure, Except.pure] using h
    simp
  | cons c cs ih =>
    obtain ⟨m₁, h₁, h⟩ := Except.bind_eq_ok.mp (by simpa only [foldlM_cons] using h)
    rw [ih h, total_addContribution h₁, map_cons, sum_cons, Nat.add_assoc]

theorem total_byProvider {cs : List Contribution} (h : byProvider cs = .ok m) :
    m.total (fun _ v => v.1.val) = (cs.map fun c => c.bytes.val).sum := by
  simpa using total_foldlM_addContribution h

/-! ## What the entitlements add up to -/

/-- What a consumer spent, over rows of entitlements. -/
def spentBy (entitlements : List Entitlement) (c : B32) : ℕ :=
  ((entitlements.filter fun e => e.consumer = c).map fun e => e.spent.val).sum

theorem spentBy_rows (rows : BTreeMap B32 (U64 × U64)) (c : B32) :
    spentBy (rows.toList.map fun e => ⟨e.1, e.2.1, e.2.2⟩) c = (rows.getD c (0, 0)).1.val := by
  rw [spentBy, List.filter_map, List.map_map]
  change ((rows.toList.filter fun e => e.1 = c).map fun e => e.2.1.val).sum = _
  rw [BTreeMap.filter_toList_eq, getD_eq_getD_getElem?]
  cases rows[c]? <;> simp

theorem spentBy_byConsumer_le (entitlements : List Entitlement) (c : B32) :
    spentBy (byConsumer entitlements) c ≤ spentBy entitlements c := by
  have hf : ∀ (l : List Entitlement) (m : BTreeMap B32 (U64 × U64)), ((l.foldl (fun m e =>
        let row := m.getD e.consumer (0, 0)
        m.insert e.consumer (row.1.satAdd e.spent, max row.2 e.remaining)) m).getD c (0, 0)).1.val
        ≤ (m.getD c (0, 0)).1.val + spentBy l c := by
    intro l
    induction l with
    | nil => exact fun m => le_rfl
    | cons e l ih =>
      intro m
      refine (ih _).trans ?_
      rw [Std.ExtTreeMap.getD_insert]
      by_cases hc : e.consumer = c
      · subst hc
        simp only [Std.ReflCmp.compare_self, if_true, val_satAdd, spentBy, filter_cons,
          decide_true, map_cons, sum_cons]
        omega
      · simp [hc, spentBy]
  rw [byConsumer, spentBy_rows]
  simpa using hf entitlements ∅

/-! ## A record that was computed -/

theorem compute_eq_ok {blake3 : Bytes → B32} {input : RewardInput} {r : RewardRecord}
    (h : compute blake3 input = .ok r) :
    ∃ providers total shares, byProvider input.contributions = .ok providers
      ∧ total.val = input.contributed
      ∧ total.val = providers.total (fun _ v => v.1.val)
      ∧ sharesOf (input.pool.satAdd r.issued) total providers = .ok shares
      ∧ r.issued
        = issuanceFor input.pool input.cumulativeIssued (0 < input.contributed) input.issuance
      ∧ r = recordOf blake3 input r.issued shares := by
  obtain ⟨providers, hp, h⟩ := Except.bind_eq_ok.mp h
  obtain ⟨total, ht, h⟩ := Except.bind_eq_ok.mp h
  obtain ⟨shares, hs, h⟩ := Except.bind_eq_ok.mp h
  have hsum : total.val = providers.total fun _ v => v.1.val := by
    rw [sumOrPanic_eq_ok.mp ht, BTreeMap.total, List.map_map]
    rfl
  have hcon : total.val = input.contributed := hsum.trans (total_byProvider hp)
  have hpos : decide (0 < total) = decide (0 < input.contributed) := by
    rw [← hcon]
    rfl
  rw [hpos] at hs h
  obtain rfl : recordOf blake3 input _ shares = r := by simpa [pure, Except.pure] using h
  exact ⟨providers, total, shares, hp, hcon, hsum, hs, rfl, rfl⟩

section Computed

variable {blake3 : Bytes → B32} {input : RewardInput} {r : RewardRecord}

theorem issued_of_compute (h : compute blake3 input = .ok r) :
    r.issued
      = issuanceFor input.pool input.cumulativeIssued (0 < input.contributed) input.issuance := by
  obtain ⟨-, -, -, -, -, -, -, hi, -⟩ := compute_eq_ok h
  exact hi

theorem pool_of_compute (h : compute blake3 input = .ok r) :
    r.pool = input.pool.satAdd r.issued := by
  obtain ⟨-, -, shares, -, -, -, -, -, hr⟩ := compute_eq_ok h
  exact congrArg RewardRecord.pool hr

theorem committedPool_of_compute (h : compute blake3 input = .ok r) :
    r.committedPool
      = ((input.state.pool.satAdd input.paid).satAdd r.issued).satSub input.claimPayouts := by
  obtain ⟨-, -, shares, -, -, -, -, -, hr⟩ := compute_eq_ok h
  exact congrArg RewardRecord.committedPool hr

theorem marks_of_compute (h : compute blake3 input = .ok r) :
    r.paidMarks = sortDedupByKey Prod.fst input.paidMarks
      ∧ r.servedMarks = sortDedupByKey Prod.fst input.servedMarks := by
  obtain ⟨-, -, shares, -, -, -, -, -, hr⟩ := compute_eq_ok h
  exact ⟨congrArg RewardRecord.paidMarks hr, congrArg RewardRecord.servedMarks hr⟩

end Computed

/-! ## The shares -/

theorem val_shareAmount {amount : U64} {bytes : U128} (hle : bytes ≤ total)
    (h : shareAmount distributable total bytes = .ok amount) :
    amount.val = distributable.val * bytes.val / total.val := by
  unfold shareAmount at h
  split at h
  · rename_i h0
    obtain rfl : 0 = amount := by simpa [pure, Except.pure] using h
    simp [h0]
  · obtain ⟨product, hp, h⟩ := Except.bind_eq_ok.mp h
    obtain rfl : truncate (product.val / total.val) = amount := by
      simpa [pure, Except.pure] using h
    rw [val_truncate, mulOrPanic_eq_ok.mp hp, U64.val_toU128]
    refine Nat.mod_eq_of_lt (lt_of_le_of_lt ?_ distributable.isLt)
    exact Nat.div_le_of_le_mul ((Nat.mul_le_mul_left _ hle).trans_eq (Nat.mul_comm _ _))

def IsShareOf (distributable : U64) (total : U128) (e : B32 × U128 × U64) (s : Share) : Prop :=
  s.provider = e.1 ∧ s.amount.val = distributable.val * e.2.1.val / total.val

theorem forall₂_sharesOf {providers : BTreeMap B32 (U128 × U64)} {shares : List Share}
    (ht : total.val = providers.total fun _ v => v.1.val)
    (h : sharesOf distributable total providers = .ok shares) :
    List.Forall₂ (IsShareOf distributable total) providers.toList shares := by
  refine (forall₂_iff_get.mp (List.mapM_eq_ok.mp h)).elim fun hlen hget =>
    forall₂_iff_get.mpr ⟨hlen, fun i hi hi' => ?_⟩
  obtain ⟨amount, ha, hs⟩ := Except.bind_eq_ok.mp (hget i hi hi')
  have hrow := mem_toList_iff_getElem?_eq_some.mp
    (show (_, _) ∈ providers.toList from List.get_mem _ ⟨i, hi⟩)
  have hle : (providers.toList.get ⟨i, hi⟩).2.1 ≤ total := by
    rw [Fin.le_def, ht]
    exact BTreeMap.le_total (fun _ v => v.1.val) hrow
  obtain hs : _ = shares.get ⟨i, hi'⟩ := by simpa [pure, Except.pure] using hs
  rw [← hs]
  exact ⟨rfl, val_shareAmount hle ha⟩

theorem sum_amount_le {rows : List (B32 × U128 × U64)} {shares : List Share}
    (h : List.Forall₂ (IsShareOf distributable total) rows shares) :
    (shares.map fun s => s.amount.val).sum
      ≤ distributable.val * (rows.map fun e => e.2.1.val).sum / total.val := by
  induction h with
  | nil => simp
  | @cons e s rows shares hes _ ih =>
    simp only [map_cons, sum_cons, Nat.mul_add, hes.2]
    exact (Nat.add_le_add_left ih _).trans Nat.div_add_div_le_add_div

/-- **A record never hands out more than its pool**: what is left is the dust of the division. -/
theorem distributed_le_pool {blake3 : Bytes → B32} {input : RewardInput} {r : RewardRecord}
    (h : compute blake3 input = .ok r) : r.distributed ≤ r.pool.val := by
  obtain ⟨providers, total, shares, -, -, ht, hs, -, hr⟩ := compute_eq_ok h
  have hd : r.distributed = (shares.map fun s => s.amount.val).sum := by
    rw [hr, RewardRecord.distributed]
    rfl
  have hsum := sum_amount_le (forall₂_sharesOf ht hs)
  rw [← pool_of_compute h, show (providers.toList.map fun e => e.2.1.val).sum = total.val from
    ht.symm] at hsum
  rw [hd]
  exact hsum.trans (Nat.div_le_of_le_mul (Nat.mul_comm _ _).le)

end Zephcraft.Reward
