import Zephcraft.Reward.Compute

/-!
# Reward/Division — the division of an epoch's pool, read off its input

`compute` gathers its providers one contribution at a time and panics where a sum or a product does
not fit. Both what it hands out and whether it returns can be said of the input alone.
-/

namespace Zephcraft.Reward

open List Std.ExtTreeMap Word

/-- The bytes that `provider` contributed. -/
def contributedBy (contributions : List Contribution) (provider : B32) : ℕ :=
  ((contributions.filter fun c => c.provider = provider).map fun c => c.bytes.val).sum

namespace RewardInput

variable (input : RewardInput)

/-- What the schedule mints for the epoch. -/
def mint : U64 :=
  issuanceFor input.pool input.cumulativeIssued (0 < input.contributed) input.issuance

/-- What the epoch divides: its pool and its mint. -/
def distributable : U64 := input.pool.satAdd input.mint

def providers : List B32 :=
  (input.contributions.map Contribution.provider).dedup

/-- A provider's ratio of what is divided, rounded down. -/
def allotted (provider : B32) : ℕ :=
  input.distributable.val * contributedBy input.contributions provider / input.contributed

/-- What rounding leaves of the division. -/
def dust : ℕ :=
  input.distributable.val - (input.providers.map input.allotted).sum

/-- The bytes, and every product of the division, fit a `u128`. -/
def Fits : Prop :=
  input.contributed < 2 ^ 128 ∧ ∀ provider ∈ input.providers,
    input.distributable.val * contributedBy input.contributions provider < 2 ^ 128

end RewardInput

/-! ## The rows -/

theorem contributedBy_cons (c : Contribution) (cs : List Contribution) (p : B32) :
    contributedBy (c :: cs) p = (if c.provider = p then c.bytes.val else 0)
      + contributedBy cs p := by
  by_cases h : c.provider = p <;> simp [contributedBy, h]

theorem contributedBy_le (cs : List Contribution) (p : B32) :
    contributedBy cs p ≤ (cs.map fun c => c.bytes.val).sum :=
  (filter_sublist.map _).sum_le_sum fun _ _ => Nat.zero_le _

variable {m m' : BTreeMap B32 (U128 × U64)} {c : Contribution} {cs : List Contribution}

theorem getD_addContribution (h : addContribution m c = .ok m') (p : B32) :
    (m'.getD p (0, 0)).1.val = (m.getD p (0, 0)).1.val + (if c.provider = p then c.bytes.val else 0)
      ∧ (p ∈ m' ↔ c.provider = p ∨ p ∈ m) := by
  obtain ⟨bytes, hb, h⟩ := Except.bind_eq_ok.mp h
  obtain rfl : m.insert c.provider (bytes, _) = m' := by simpa [pure, Except.pure] using h
  have hb := addOrPanic_eq_ok.mp hb
  by_cases hp : c.provider = p
  · subst hp
    simpa using hb
  · simp [Std.ExtTreeMap.getD_insert, hp]

theorem exists_addContribution_eq_ok :
    (∃ m', addContribution m c = .ok m')
      ↔ (m.getD c.provider (0, 0)).1.val + c.bytes.val < 2 ^ 128 := by
  rw [addContribution, Except.exists_bind_pure_eq_ok, exists_addOrPanic_eq_ok, U64.val_toU128]

theorem getD_foldlM_addContribution (h : cs.foldlM addContribution m = .ok m') (p : B32) :
    (m'.getD p (0, 0)).1.val = (m.getD p (0, 0)).1.val + contributedBy cs p
      ∧ (p ∈ m' ↔ p ∈ cs.map Contribution.provider ∨ p ∈ m) := by
  induction cs generalizing m with
  | nil =>
    obtain rfl : m = m' := by simpa [pure, Except.pure] using h
    simp [contributedBy]
  | cons c cs ih =>
    obtain ⟨m₁, h₁, h⟩ := Except.bind_eq_ok.mp (by simpa only [foldlM_cons] using h)
    obtain ⟨hval, hmem⟩ := getD_addContribution h₁ p
    obtain ⟨hval', hmem'⟩ := ih h
    refine ⟨?_, ?_⟩
    · rw [hval', hval, contributedBy_cons, Nat.add_assoc]
    · rw [hmem', hmem, map_cons, mem_cons]
      grind

theorem exists_foldlM_addContribution_eq_ok :
    (∃ m', cs.foldlM addContribution m = .ok m') ↔ ∀ p ∈ cs.map Contribution.provider,
          (m.getD p (0, 0)).1.val + contributedBy cs p < 2 ^ 128 := by
  constructor
  · rintro ⟨m', h⟩ p -
    rw [← (getD_foldlM_addContribution h p).1]
    exact Fin.isLt _
  · intro h
    induction cs generalizing m with
    | nil => exact ⟨m, rfl⟩
    | cons c cs ih =>
      have hc := h c.provider (by simp)
      rw [contributedBy_cons, if_pos rfl] at hc
      obtain ⟨m₁, h₁⟩ := exists_addContribution_eq_ok.mpr
        (show (m.getD c.provider (0, 0)).1.val + c.bytes.val < 2 ^ 128 by omega)
      obtain ⟨m', h'⟩ := ih (m := m₁) fun p hp => by
        have := h p (.tail _ hp)
        rw [(getD_addContribution h₁ p).1]
        rw [contributedBy_cons] at this
        omega
      exact ⟨m', by rw [foldlM_cons]; exact Except.bind_eq_ok.mpr ⟨m₁, h₁, h'⟩⟩

/-! ## The record -/

theorem exists_shareAmount_eq_ok {distributable : U64} {total bytes : U128} (hle : bytes ≤ total) :
    (∃ amount, shareAmount distributable total bytes = .ok amount)
      ↔ distributable.val * bytes.val < 2 ^ 128 := by
  unfold shareAmount
  split
  · -- nothing was contributed, so the row is empty and the product is not formed
    rename_i h0
    have hb : bytes.val = 0 := by simpa [h0] using hle
    simp [hb, pure, Except.pure]
  · rw [Except.exists_bind_pure_eq_ok, exists_mulOrPanic_eq_ok, U64.val_toU128]

theorem exists_sharesOf_eq_ok {distributable : U64} {total : U128}
    (ht : total.val = m.total fun _ v => v.1.val) :
    (∃ shares, sharesOf distributable total m = .ok shares)
      ↔ ∀ (p : B32) (row : U128 × U64), m[p]? = some row →
        distributable.val * row.1.val < 2 ^ 128 := by
  rw [sharesOf, List.exists_mapM_eq_ok, Prod.forall]
  refine forall₂_congr fun p row => ?_
  rw [mem_toList_iff_getElem?_eq_some]
  refine imp_congr_right fun hrow => ?_
  have hle : row.1 ≤ total := by
    rw [Fin.le_def, ht]
    exact BTreeMap.le_total (fun _ v => v.1.val) hrow
  rw [Except.exists_bind_pure_eq_ok, exists_shareAmount_eq_ok hle]

theorem getElem?_byProvider (h : byProvider cs = .ok m) (p : B32) (row : U128 × U64) :
    m[p]? = some row ↔ p ∈ (cs.map Contribution.provider).dedup ∧ m.getD p (0, 0) = row := by
  have hmem : p ∈ m ↔ p ∈ cs.map Contribution.provider := by
    rw [(getD_foldlM_addContribution h p).2, or_iff_left not_mem_empty]
  rw [getD_eq_getD_getElem?, List.mem_dedup, ← hmem, mem_iff_isSome_getElem?]
  cases m[p]? <;> simp

theorem val_getD_byProvider (h : byProvider cs = .ok m) (p : B32) :
    (m.getD p (0, 0)).1.val = contributedBy cs p := by
  rw [(getD_foldlM_addContribution h p).1]
  simp

variable {blake3 : Bytes → B32} {input : RewardInput} {r : RewardRecord}

theorem distributed_of_compute (h : compute blake3 input = .ok r) :
    r.distributed = (input.providers.map input.allotted).sum := by
  obtain ⟨providers, total, shares, hp, hcon, ht, hs, hi, hr⟩ := compute_eq_ok h
  have hro := forall₂_sharesOf ht hs
  have hsum : r.distributed = providers.total fun _ row =>
      input.distributable.val * row.1.val / input.contributed := by
    rw [hr, RewardRecord.distributed, BTreeMap.total]
    refine congrArg List.sum (forall₂_eq_eq_eq ▸ ?_)
    rw [forall₂_map_left_iff, forall₂_map_right_iff]
    refine hro.flip.imp fun s e hes => ?_
    rw [hes.2, hcon, hi]
    rfl
  rw [hsum, BTreeMap.total_eq_sum_map _ (nodup_dedup _) (getElem?_byProvider hp)]
  refine congrArg List.sum (map_congr_left fun p _ => ?_)
  rw [val_getD_byProvider hp]
  rfl

theorem provider_mem_of_compute (h : compute blake3 input = .ok r) {x : Share} (hx : x ∈ r.shares) :
    x.provider ∈ input.providers := by
  obtain ⟨providers, total, shares, hp, -, ht, hs, -, hr⟩ := compute_eq_ok h
  obtain ⟨i, hi, rfl⟩ := mem_iff_getElem.mp (show x ∈ shares by rwa [hr] at hx)
  obtain ⟨hlen, hro⟩ := forall₂_iff_get.mp (forall₂_sharesOf ht hs)
  have hrow := (hro i (hlen ▸ hi) hi).1
  rw [List.get_eq_getElem, List.get_eq_getElem] at hrow
  rw [hrow]
  exact ((getElem?_byProvider hp _ _).mp (mem_toList_iff_getElem?_eq_some.mp
    (show (_, _) ∈ providers.toList from getElem_mem _))).1

theorem exists_compute_eq_ok : (∃ r, compute blake3 input = .ok r) ↔ input.Fits := by
  constructor
  · rintro ⟨r, h⟩
    obtain ⟨providers, total, shares, hp, hcon, hto, hs, hi, -⟩ := compute_eq_ok h
    refine ⟨hcon ▸ total.isLt, fun p hmem => ?_⟩
    rw [hi] at hs
    rw [← val_getD_byProvider hp]
    exact (exists_sharesOf_eq_ok hto).mp ⟨shares, hs⟩ p _
      ((getElem?_byProvider hp p _).mpr ⟨hmem, rfl⟩)
  · rintro ⟨hsum, hpr⟩
    obtain ⟨providers, hp⟩ : ∃ m, byProvider input.contributions = .ok m := by
      refine exists_foldlM_addContribution_eq_ok.mpr fun p _ => ?_
      simpa using (contributedBy_le input.contributions p).trans_lt hsum
    have hr := total_byProvider hp
    have hval : ((providers.toList.map fun e => e.2.1).map Fin.val).sum = input.contributed := by
      rw [List.map_map]
      exact hr
    obtain ⟨total, ht⟩ := exists_sumOrPanic_eq_ok.mpr (hval.trans_lt hsum)
    have hcon : total.val = input.contributed := (sumOrPanic_eq_ok.mp ht).trans hval
    have hpos : decide (0 < total) = decide (0 < input.contributed) := by
      rw [← hcon]
      rfl
    obtain ⟨shares, hs⟩ : ∃ shares, sharesOf input.distributable total providers = .ok shares := by
      refine (exists_sharesOf_eq_ok (hcon.trans hr.symm)).mpr fun p row hrow => ?_
      obtain ⟨hmem, rfl⟩ := (getElem?_byProvider hp p row).mp hrow
      rw [val_getD_byProvider hp]
      exact hpr p hmem
    refine ⟨recordOf blake3 input input.mint shares, Except.bind_eq_ok.mpr ⟨providers, hp,
      Except.bind_eq_ok.mpr ⟨total, ht, Except.bind_eq_ok.mpr ⟨shares, ?_, ?_⟩⟩⟩⟩
    · rw [hpos]
      exact hs
    · rw [hpos]
      rfl

end Zephcraft.Reward
