import Zephcraft.Foundations.Apportion
import Zephcraft.Foundations.Blake3
import Zephcraft.Reward.Division

/-!
# Reward/Shares — the shares are an exact split

The pool with the mint is divided in the ratio of what the providers contributed, rounded down.
Where every provider's bytes fit a `u64` no product overflows, so there is a record.
-/

namespace Zephcraft.Reward

open List Std.ExtTreeMap Apportion Word

section Computed

variable {blake3 : Bytes → B32} {input : RewardInput} {r : RewardRecord}

theorem contributed_lt (hc : input.contributions.length < 2 ^ 64) :
    input.contributed < 2 ^ 128 := by
  have hsum : input.contributed ≤ input.contributions.length * (2 ^ 64 - 1) := by
    have hle :=
      sum_le_card_nsmul (input.contributions.map fun c => c.bytes.val) (2 ^ 64 - 1) fun n hn => by
      obtain ⟨c, -, rfl⟩ := List.mem_map.mp hn
      exact Nat.le_pred_of_lt c.bytes.isLt
    simpa [RewardInput.contributed] using hle
  have hmul : input.contributions.length * (2 ^ 64 - 1) ≤ 2 ^ 64 * (2 ^ 64 - 1) :=
    Nat.mul_le_mul_right _ hc.le
  omega

theorem fits_of_contributedBy_lt (hc : input.contributions.length < 2 ^ 64)
    (hb : ∀ p ∈ input.providers, contributedBy input.contributions p < 2 ^ 64) : input.Fits := by
  refine ⟨contributed_lt hc, fun p hp => ?_⟩
  have hpo := input.distributable.isLt
  calc input.distributable.val * contributedBy input.contributions p
      ≤ (2 ^ 64 - 1) * (2 ^ 64 - 1) := Nat.mul_le_mul (by omega) (Nat.le_pred_of_lt (hb p hp))
    _ < 2 ^ 128 := by norm_num

theorem sum_contributedBy (h : compute blake3 input = .ok r) :
    (input.providers.map (contributedBy input.contributions)).sum = input.contributed := by
  obtain ⟨providers, total, -, hp, hcon, ht, -⟩ := compute_eq_ok h
  rw [← hcon, ht, BTreeMap.total_eq_sum_map _ (nodup_dedup _) (getElem?_byProvider hp)]
  exact congrArg List.sum (map_congr_left fun p _ => (val_getD_byProvider hp p).symm)

theorem pool_eq_distributable (h : compute blake3 input = .ok r) :
    r.pool = input.distributable := by
  rw [pool_of_compute h, issued_of_compute h]
  rfl

theorem allotted_eq_floors (h : compute blake3 input = .ok r) :
    input.providers.map input.allotted
      = floors r.pool.val (input.providers.map (contributedBy input.contributions)) := by
  rw [floors, sum_contributedBy h, List.map_map, pool_eq_distributable h]
  rfl

theorem amount_of_compute (h : compute blake3 input = .ok r) :
    (r.shares.map Share.provider).Perm input.providers ∧ ∀ x ∈ r.shares, x.amount.val
      = input.allotted x.provider := by
  obtain ⟨providers, total, shares, hp, hcon, ht, hs, hi, hr⟩ := compute_eq_ok h
  have hro := forall₂_sharesOf ht hs
  have hsh : r.shares = shares := congrArg RewardRecord.shares hr
  have hk : List.Forall₂ Eq (shares.map Share.provider) (providers.toList.map Prod.fst) := by
    rw [forall₂_map_left_iff, forall₂_map_right_iff]
    exact hro.flip.imp fun s e hes => hes.1
  rw [forall₂_eq_eq_eq] at hk
  refine ⟨?_, fun x hx => ?_⟩
  · rw [hsh, hk, RewardInput.providers,
      perm_ext_iff_of_nodup (BTreeMap.nodup_keys_toList providers) (nodup_dedup _)]
    intro p
    rw [List.mem_dedup, map_fst_toList_eq_keys, Std.ExtTreeMap.mem_keys,
      (getD_foldlM_addContribution hp p).2, or_iff_left not_mem_empty]
  · rw [hsh] at hx
    obtain ⟨i, hi', rfl⟩ := mem_iff_getElem.mp hx
    obtain ⟨hlen, hget⟩ := forall₂_iff_get.mp hro
    obtain ⟨hpr, ha⟩ := hget i (hlen ▸ hi') hi'
    have hrow := mem_toList_iff_getElem?_eq_some.mp
      (show (_, _) ∈ providers.toList from get_mem _ ⟨i, hlen ▸ hi'⟩)
    rw [List.get_eq_getElem] at hpr ha
    rw [ha, hcon, hi, RewardInput.allotted, hpr, ← val_getD_byProvider hp,
      ((getElem?_byProvider hp _ _).mp hrow).2]
    rfl

theorem poolRemaining_of_compute (h : compute blake3 input = .ok r) :
    ∃ rest, r.poolRemaining = .ok rest ∧ rest.val = r.pool.val - r.distributed := by
  have hd : ((r.shares.map Share.amount).map Fin.val).sum = r.distributed := by
    rw [List.map_map]
    rfl
  have hlt := (distributed_le_pool h).trans_lt r.pool.isLt
  obtain ⟨allocated, hsum⟩ := exists_sumOrPanic_eq_ok.mpr (hd.trans_lt hlt)
  refine ⟨r.pool.satSub allocated, Except.bind_eq_ok.mpr ⟨allocated, hsum, rfl⟩, ?_⟩
  rw [val_satSub, sumOrPanic_eq_ok.mp hsum, hd]

end Computed

/-- **The shares split the pool exactly**: each is the floor of its provider's ratio of the pool
with the mint, and they leave less than one unit a provider with bytes; without bytes nothing is
minted or handed out. -/
theorem shares_split_pool (blake3 : Bytes → B32) (input : RewardInput)
    (hcount : input.contributions.length < 2 ^ 64)
    (hbytes : ∀ p ∈ input.providers, contributedBy input.contributions p < 2 ^ 64) :
    ∃ r, compute blake3 input = .ok r
      ∧ r.pool.val = min (input.pool.val + r.issued.val) (2 ^ 64 - 1)
      ∧ (r.shares.map Share.provider).Perm input.providers
      ∧ (0 < input.contributed → (∀ x ∈ r.shares, x.amount.val
            = r.pool.val * contributedBy input.contributions x.provider / input.contributed)
          ∧ r.distributed ≤ r.pool.val
          ∧ r.pool.val - r.distributed
            < (input.providers.filter fun p => contributedBy input.contributions p ≠ 0).length)
      ∧ (∃ rest, r.poolRemaining = .ok rest ∧ rest.val = r.pool.val - r.distributed)
      ∧ (input.contributed = 0 → (∀ x ∈ r.shares, x.amount = 0) ∧ r.issued = 0) := by
  obtain ⟨r, h⟩ : ∃ r, compute blake3 input = .ok r :=
    exists_compute_eq_ok.mpr (fits_of_contributedBy_lt hcount hbytes)
  obtain ⟨hperm, hamount⟩ := amount_of_compute h
  refine ⟨r, h, by rw [pool_of_compute h, val_satAdd], hperm, fun hpos =>
    ⟨fun x hx => ?_, distributed_le_pool h, ?_⟩, poolRemaining_of_compute h, fun hzero =>
      ⟨fun x hx => Fin.ext ?_, ?_⟩⟩
  · rw [hamount x hx, RewardInput.allotted, pool_eq_distributable h]
  · have hsum := sum_contributedBy h
    have hdust : r.pool.val - (floors r.pool.val (input.providers.map _)).sum < _ :=
      sub_sum_floors_lt (hsum ▸ hpos)
    rw [← allotted_eq_floors h, ← distributed_of_compute h, filter_map, length_map] at hdust
    exact hdust
  · rw [hamount x hx, RewardInput.allotted, hzero, Nat.div_zero]
    rfl
  · rw [issued_of_compute h, hzero]
    rfl

/-- Three providers, one of which comes twice, and a pool that they cannot divide. -/
def threeProviders : RewardInput where
  epoch := 1
  pool := 100
  contributions := [⟨3, 2, 2⟩, ⟨1, 1, 5⟩, ⟨2, 3, 3⟩, ⟨1, 1, 4⟩, ⟨9, 0, 0⟩]
  entitlements := []
  cumulativeIssued := 0
  issuance := ⟨0, 1, 0⟩
  paidMarks := []
  servedMarks := []
  paid := 0
  claimPayouts := 0
  state := .empty

theorem shares_split_pool_threeProviders :
    ∃ r, compute blake3 threeProviders = .ok r
      ∧ (∀ x ∈ r.shares, x.amount.val = r.pool.val * contributedBy threeProviders.contributions
        x.provider / 7) ∧ r.pool.val - r.distributed < 3
      ∧ ∃ rest, r.poolRemaining = .ok rest ∧ rest.val = r.pool.val - r.distributed := by
  obtain ⟨r, h, -, -, hsplit, hrest, -⟩ := shares_split_pool blake3 threeProviders (by decide)
    fun p _ => (contributedBy_le threeProviders.contributions p).trans_lt (by decide)
  obtain ⟨hamounts, -, hdust⟩ := hsplit (by decide)
  exact ⟨r, h, hamounts, hdust, hrest⟩

end Zephcraft.Reward
