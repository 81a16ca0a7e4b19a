import Zephcraft.Foundations.Schedule
import Zephcraft.Reward.Compute

/-!
# Reward/Issuance — what a chain of records issues

`issuanceFor` pays a daily rate exactly: the difference of two floors of `clock · R / E`, which over
consecutive clocks telescopes.
-/

namespace Zephcraft.Reward

open Schedule List Word IssuanceParams

/-! ## One epoch -/

/-- What the schedule asks for at `clock`. -/
def IssuanceParams.scheduled (params : IssuanceParams) (clock : ℕ) : ℕ :=
  slot params.tokensPerDay.val params.epochsPerDay.val clock

/-- **Issuance is the scheduled amount, cut at the headroom** — the `as u64` of the source loses
nothing, since a slot never pays more than the daily rate. -/
theorem val_issuanceFor {params : IssuanceParams} (hE : 0 < params.epochsPerDay.val)
    (clock cumulativeIssued : U64) :
    (issuanceFor clock cumulativeIssued true params).val
      = min (params.scheduled clock.val) (params.totalCap.val - cumulativeIssued.val) := by
  have hlt : params.scheduled clock.val < 2 ^ 64 :=
    lt_of_le_of_lt (slot_le hE clock.val) params.tokensPerDay.isLt
  have hE' : params.epochsPerDay ≠ 0 := fun h => by simp [h] at hE
  unfold issuanceFor
  by_cases hR : params.tokensPerDay = 0
  · simp [hR, scheduled, slot]
  · simp only [Bool.not_true, hR, hE', decide_false, Bool.or_false, Bool.false_eq_true, if_false]
    change (ite (_ < _) _ _ : U64).val = _
    have hval : (truncate (params.scheduled clock.val) : U64).val
        = params.scheduled clock.val := Nat.mod_eq_of_lt hlt
    split
    · rename_i h
      have h : (truncate (params.scheduled clock.val) : U64).val
          < params.totalCap.val - cumulativeIssued.val := h
      rw [min_eq_left (hval ▸ h.le)]
      exact hval
    · rename_i h
      have h : ¬ (truncate (params.scheduled clock.val) : U64).val
          < params.totalCap.val - cumulativeIssued.val := h
      rw [min_eq_right (hval ▸ not_lt.mp h)]
      rfl

theorem issuanceFor_le_headroom (clock cumulativeIssued : U64) (hasContribution : Bool)
    (params : IssuanceParams) :
    (issuanceFor clock cumulativeIssued hasContribution params).val
      ≤ params.totalCap.val - cumulativeIssued.val := by
  unfold issuanceFor
  split
  · exact Nat.zero_le _
  · dsimp only
    split
    · rename_i h
      exact le_of_lt h
    · exact le_rfl

/-! ## A chain of records -/

/-- Records of consecutive epochs from `s` under one schedule, the issuance counter threaded from
each into the next; `cum` has been issued before the first. -/
inductive RecordChain (blake3 : Bytes → B32) (params : IssuanceParams) :
    ℕ → U64 → List (RewardInput × RewardRecord) → Prop
  | nil (s : ℕ) (cum : U64) : RecordChain blake3 params s cum []
  | cons {s : ℕ} {cum : U64} {input : RewardInput} {r : RewardRecord}
      {rest : List (RewardInput × RewardRecord)} (epoch : input.epoch.val = s)
      (threaded : input.cumulativeIssued = cum) (governed : input.issuance = params)
      (computed : compute blake3 input = .ok r)
      (next : RecordChain blake3 params (s + 1) r.cumulativeIssued rest) :
      RecordChain blake3 params s cum ((input, r) :: rest)

/-- The cap does not bind on an epoch: what the schedule asks for fits the headroom. -/
def CapSlack (params : IssuanceParams) (input : RewardInput) : Prop :=
  params.scheduled input.pool.val ≤ params.totalCap.val - input.cumulativeIssued.val
deriving Decidable

section Chain

variable {blake3 : Bytes → B32} {params : IssuanceParams} {s : ℕ} {cum : U64}
  {chain : List (RewardInput × RewardRecord)}

theorem RecordChain.map_issued (h : RecordChain blake3 params s cum chain)
    (hE : 0 < params.epochsPerDay.val) (hw : ∀ e ∈ chain, 0 < e.1.contributed)
    (hcap : ∀ e ∈ chain, CapSlack params e.1) :
    chain.map (fun e => e.2.issued.val)
      = (chain.map fun e => e.1.pool.val).map params.scheduled := by
  induction h with
  | nil => rfl
  | @cons s cum input r rest _ threaded governed computed _ ih =>
    simp only [forall_mem_cons] at hw hcap
    rw [map_cons, map_cons, map_cons, ih hw.2 hcap.2]
    congr 1
    have hs : params.scheduled input.pool.val
        ≤ params.totalCap.val - input.cumulativeIssued.val := hcap.1
    rw [issued_of_compute computed, decide_eq_true hw.1, governed, val_issuanceFor hE,
      min_eq_left hs]

/-- **A chain issues the exact schedule when, and only when, as many of its pools as of its epochs
land on a slot that rises**: over `n` epochs from `s` for the amount `⌊(s+n)R/E⌋ − ⌊sR/E⌋`, and over
a whole day of `E` epochs for the amount `R`. -/
theorem sum_issued_eq_schedule_iff (h : RecordChain blake3 params s cum chain)
    (hE : 0 < params.epochsPerDay.val) (hwork : ∀ e ∈ chain, 0 < e.1.contributed)
    (hcap : ∀ e ∈ chain, CapSlack params e.1) :
    let R := params.tokensPerDay.val
    let E := params.epochsPerDay.val
    let issued := (chain.map fun e => e.2.issued.val).sum
    let poolsAgree := (chain.map fun e => e.1.pool.val).countP (Rises R E)
      = ((List.range chain.length).map (s + ·)).countP (Rises R E)
    (issued = (s + chain.length) * R / E - s * R / E ↔ poolsAgree)
      ∧ (chain.length = E → (issued = R ↔ poolsAgree)) := by
  intro R E issued poolsAgree
  have key : issued = (s + chain.length) * R / E - s * R / E ↔ poolsAgree := by
    have := sum_slot_eq_iff (R := R) hE s (chain.map fun e => e.1.pool.val)
    rw [length_map] at this
    rw [show issued = ((chain.map fun e => e.1.pool.val).map (slot R E)).sum from
      congrArg List.sum (h.map_issued hE hwork hcap)]
    exact this
  refine ⟨key, fun hlen => ?_⟩
  rw [← key, hlen, Nat.add_mul, Nat.add_mul_div_left _ _ hE, Nat.add_sub_cancel_left]

end Chain

/-! ## Consecutive epochs under the cap -/

/-- The issuance counter after `n` calls for the epochs from `s` on, each with the counter the last
one left. -/
def issuedAfter (params : IssuanceParams) (s : ℕ) (cum : U64) : ℕ → U64
  | 0 => cum
  | n + 1 =>
    let cumulativeIssued := issuedAfter params s cum n
    cumulativeIssued.satAdd (issuanceFor (truncate (s + n)) cumulativeIssued true params)

/-- What the call for epoch `s + i` issues in that run. -/
def issuedAt (params : IssuanceParams) (s : ℕ) (cum : U64) (i : ℕ) : U64 :=
  issuanceFor (truncate (s + i)) (issuedAfter params s cum i) true params

section Telescope

variable {params : IssuanceParams} {s : ℕ} {cum : U64}

/-- The counter never saturates: the headroom is what keeps it under the cap. -/
theorem val_issuedAfter_succ (n : ℕ)
    (hcum : (issuedAfter params s cum n).val ≤ params.totalCap.val) :
    (issuedAfter params s cum (n + 1)).val = (issuedAfter params s cum n).val
      + (issuedAt params s cum n).val := by
  have hle := issuanceFor_le_headroom (truncate (s + n)) (issuedAfter params s cum n) true params
  have hcap := params.totalCap.isLt
  exact val_satAdd_of_lt (by omega)

/-- After `n` epochs the counter stands at the schedule's floor, cut at the cap. -/
theorem val_issuedAfter (hE : 0 < params.epochsPerDay.val) (hcum : cum.val ≤ params.totalCap.val)
    {n : ℕ} (hn : s + n ≤ 2 ^ 64) :
    (issuedAfter params s cum n).val = cum.val + min (params.totalCap.val - cum.val)
      ((s + n) * params.tokensPerDay.val / params.epochsPerDay.val
        - s * params.tokensPerDay.val / params.epochsPerDay.val) := by
  induction n with
  | zero => simp [issuedAfter]
  | succ n ih =>
    have ih := ih (by omega)
    have hsl : (issuedAt params s cum n).val = min (params.scheduled (s + n))
          (params.totalCap.val - (issuedAfter params s cum n).val) := by
      have he : (truncate (s + n) : U64).val = s + n := Nat.mod_eq_of_lt (by omega)
      rw [issuedAt, val_issuanceFor hE, he]
    have hs : s * params.tokensPerDay.val / params.epochsPerDay.val
        ≤ (s + n) * params.tokensPerDay.val / params.epochsPerDay.val :=
      Nat.div_le_div_right (Nat.mul_le_mul_right _ (Nat.le_add_right s n))
    have hm := div_mono (R := params.tokensPerDay.val) (E := params.epochsPerDay.val) (s + n)
    rw [val_issuedAfter_succ n (by omega), hsl, scheduled, slot, ← Nat.add_assoc]
    omega

theorem sum_issuedAt (hE : 0 < params.epochsPerDay.val) (hcum : cum.val ≤ params.totalCap.val)
    {n : ℕ} (hn : s + n ≤ 2 ^ 64) :
    cum.val + ((List.range n).map fun i => (issuedAt params s cum i).val).sum
      = (issuedAfter params s cum n).val := by
  induction n with
  | zero => rfl
  | succ n ih =>
    have hcap := val_issuedAfter hE hcum (show s + n ≤ 2 ^ 64 by omega)
    rw [range_succ, map_append, sum_append, ← Nat.add_assoc, ih (by omega),
      val_issuedAfter_succ n (by omega)]
    simp

/-- **The schedule telescopes under the cap**: `n` consecutive epochs from `s` issue what the floors
of the schedule differ by, cut at the headroom they start with. The counter never passes the cap,
and no epoch's scheduled amount is cut by the conversion to 64 bits. -/
theorem issuance_telescopes (hE : 0 < params.epochsPerDay.val)
    (hcum : cum.val ≤ params.totalCap.val) {n : ℕ} (hn : s + n ≤ 2 ^ 64) :
    ((List.range n).map fun i => (issuedAt params s cum i).val).sum
        = min (params.totalCap.val - cum.val)
          ((s + n) * params.tokensPerDay.val / params.epochsPerDay.val
            - s * params.tokensPerDay.val / params.epochsPerDay.val)
      ∧ (∀ i ≤ n, (issuedAfter params s cum i).val ≤ params.totalCap.val)
      ∧ ∀ i < n, params.scheduled (s + i) < 2 ^ 64 := by
  have hsum := sum_issuedAt hE hcum hn
  have hafter := val_issuedAfter hE hcum hn
  refine ⟨by omega, fun i hi => ?_, fun i _ => ?_⟩
  · have hi := val_issuedAfter hE hcum (show s + i ≤ 2 ^ 64 by omega)
    omega
  · exact lt_of_le_of_lt (slot_le hE (s + i)) params.tokensPerDay.isLt

end Telescope

/-- Three units a day over two epochs, with four left under the cap: the cap ends the third epoch's
pay. -/
theorem issuance_telescopes_fourLeft :
    ((List.range 3).map fun i => (issuedAt ⟨3, 2, 10⟩ 1 6 i).val).sum = 4 :=
  (issuance_telescopes (n := 3) (by decide) (by decide) (by decide)).1

/-! ## Half a unit an epoch

One unit a day over two epochs. With the pools `0` and `1` the day pays its unit; with the pools `1`
and `1` it pays two. -/

/-- An epoch with one byte contributed and nothing else to report. -/
def bareInput (params : IssuanceParams) (epoch pool cumulativeIssued : U64) : RewardInput where
  epoch := epoch
  pool := pool
  contributions := [⟨7, 1, 1⟩]
  entitlements := []
  cumulativeIssued := cumulativeIssued
  issuance := params
  paidMarks := []
  servedMarks := []
  paid := pool
  claimPayouts := 0
  state := .empty

/-- The record of a `bareInput` that issues `issued`. -/
def bareRecord (params : IssuanceParams) (epoch pool cumulativeIssued issued : U64) :
    RewardRecord :=
  recordOf (fun _ => 0) (bareInput params epoch pool cumulativeIssued) issued
    [⟨7, pool.satAdd issued, 1, 1⟩]

def unitADay : IssuanceParams := ⟨1, 2, 1000⟩

/-- Two epochs from the first, the pools being `p` and `q` and the issuance `i` and `j`. -/
def twoEpochs (p q i j : U64) : List (RewardInput × RewardRecord) :=
  [(bareInput unitADay 0 p 0, bareRecord unitADay 0 p 0 i),
    (bareInput unitADay 1 q i, bareRecord unitADay 1 q i j)]

theorem sum_issued_eq_schedule_iff_unitADay :
    RecordChain (fun _ => 0) unitADay 0 0 (twoEpochs 0 1 0 1)
      ∧ ((twoEpochs 0 1 0 1).map fun e => e.2.issued.val).sum = unitADay.tokensPerDay.val := by
  have hchain : RecordChain (fun _ => 0) unitADay 0 0 (twoEpochs 0 1 0 1) :=
    .cons rfl rfl rfl (by decide) (.cons rfl rfl rfl (by decide) (.nil _ _))
  refine ⟨hchain, ((sum_issued_eq_schedule_iff hchain (by decide) ?_ ?_).2 rfl).mpr (by decide)⟩
  · simp only [twoEpochs, forall_mem_cons]
    decide
  · simp only [twoEpochs, forall_mem_cons]
    decide

theorem pools_change_daily_issuance :
    RecordChain (fun _ => 0) unitADay 0 0 (twoEpochs 1 1 1 1)
      ∧ (∀ e ∈ twoEpochs 1 1 1 1, 0 < e.1.contributed ∧ CapSlack unitADay e.1)
      ∧ (twoEpochs 1 1 1 1).length = unitADay.epochsPerDay.val
      ∧ ((twoEpochs 1 1 1 1).map fun e => e.2.issued.val).sum = 2
      ∧ unitADay.tokensPerDay.val = 1 := by
  refine ⟨.cons rfl rfl rfl (by decide) (.cons rfl rfl rfl (by decide) (.nil _ _)), ?_,
    rfl, by decide, rfl⟩
  simp only [twoEpochs, forall_mem_cons]
  decide

end Zephcraft.Reward
