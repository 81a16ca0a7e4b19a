import Zephcraft.Token.Ledger

/-!
# Token/Conservation — value across chains

A transfer is debited on one chain and claimed on another, and the two chains fold apart. What ties
them together is that a claim names its transfer, a transfer names its recipient, and a recipient
claims a transfer once: so the accepted claims **inject** into the positions of transfers.
-/

namespace Zephcraft.Token

open Option Finset

namespace Ledger

variable (L : Ledger)

def accounts : Finset B32 := L.sequences.keys.toFinset

/-- The share an accepted reward claim credits. -/
def rewardCredit (account : B32) (nonce : ℕ) : ℕ :=
  match L.next account nonce with
  | some (.rewardClaim epoch, _) => (L.rewardShare epoch account).val
  | _ => 0

/-- The amount an accepted claim credits. -/
def claimCredit (account : B32) (nonce : ℕ) : ℕ :=
  match L.next account nonce with
  | some (.claim c, _) =>
    ((L.resolveDebit c.debitAccount c.debitNonce).map fun d => d.transfer.amount.val).getD 0
  | _ => 0

/-- The reward shares an account's chain credits. -/
def rewardCredits (account : B32) : ℕ :=
  ∑ m ∈ Finset.range (L.chain account).length, L.rewardCredit account m

/-- Every accepted claim's transfer was within the sender's balance, in the sender's own fold. -/
def Funded : Prop :=
  ∀ account nonce c state' t, L.next account nonce = some (.claim c, state') →
    L.opAt c.debitAccount c.debitNonce.val = some (.transfer t) →
      t.amount ≤ (L.stateAt c.debitAccount c.debitNonce.val).balance

/-- No claim gains its account more than the claimed position lost the sender. -/
def PairsConserve : Prop :=
  ∀ account nonce c, L.opAt account nonce = some (.claim c) →
    L.gain account nonce ≤ L.loss c.debitAccount c.debitNonce.val

variable {L}

/-! ## One position -/

variable {account : B32} {nonce : ℕ}

theorem resolveDebit_eq_some {nonce : U64} {d : ResolvedDebit} :
    L.resolveDebit account nonce = some d
      ↔ L.opAt account nonce.val = some (.transfer d.transfer) := by
  simp only [resolveDebit, bind_eq_bind, bind_eq_some_iff]
  constructor
  · rintro ⟨op, hop, h⟩
    cases op with
    | transfer t =>
      obtain rfl : ResolvedDebit.mk t = d := by simpa using h
      exact hop
    | _ => simp at h
  · exact fun h => ⟨_, h, rfl⟩

theorem gain_eq (account : B32) (nonce : ℕ) :
    L.gain account nonce = L.claimCredit account nonce + L.rewardCredit account nonce := by
  rw [gain, claimCredit, rewardCredit]
  cases h : L.next account nonce with
  | none => simp [stateAt_succ_of_none h]
  | some r =>
    obtain ⟨op, state'⟩ := r
    have hbal := balance_applyToken (next_eq_some.mp h).2
    rw [stateAt_succ_of_next h]
    cases op with
    | transfer _ | pay _ =>
      simp only [LedgerOp.debit, LedgerOp.credit] at hbal
      dsimp only
      omega
    | claim c =>
      simp only [LedgerOp.debit, LedgerOp.credit, resolve] at hbal
      dsimp only
      omega
    | rewardClaim epoch =>
      simp only [LedgerOp.debit, LedgerOp.credit, resolve, map_some, getD_some] at hbal
      dsimp only
      omega

theorem loss_of_funded {t : TransferOp} (hop : L.opAt account nonce = some (.transfer t))
    (hf : t.amount ≤ (L.stateAt account nonce).balance) :
    L.loss account nonce = t.amount.val := by
  have hn := next_of_opAt hop
  rcases eq_or_ne t.amount 0 with h0 | h0
  · rw [applyToken, spend_eq_none (.inl h0)] at hn
    rw [loss, stateAt_succ_of_none hn, h0, Nat.sub_self]
    rfl
  · rw [applyToken, spend_of_le h0 hf] at hn
    have hle : t.amount.val ≤ (L.stateAt account nonce).balance.val := hf
    rw [loss, stateAt_succ_of_next hn, Word.val_satSub]
    omega

theorem claim_resolves {c : ClaimOp} {state' : TokenState}
    (h : L.next account nonce = some (.claim c, state')) :
    ∃ t, L.opAt c.debitAccount c.debitNonce.val = some (.transfer t) ∧ t.toAccount = account
      ∧ L.claimCredit account nonce = t.amount.val := by
  obtain ⟨d, hd, hto, -, -, -⟩ := applyToken_claim.mp (next_eq_some.mp h).2
  have hd : L.resolveDebit c.debitAccount c.debitNonce = some d := hd
  refine ⟨d.transfer, resolveDebit_eq_some.mp hd, hto, ?_⟩
  rw [claimCredit, h]
  simp [hd]

theorem pairsConserve_iff_funded : L.PairsConserve ↔ L.Funded := by
  constructor
  · intro h account nonce c state' t hn hop
    obtain ⟨t', hop', -, hc⟩ := claim_resolves hn
    obtain rfl : t = t' := by simpa using hop.symm.trans hop'
    have hp := h account nonce c (next_eq_some.mp hn).1
    rw [gain_eq, hc, loss] at hp
    rw [Fin.le_def]
    omega
  · intro h account nonce c hop
    cases hn : L.next account nonce with
    | none =>
      rw [gain, stateAt_succ_of_none hn, Nat.sub_self]
      exact Nat.zero_le _
    | some r =>
      obtain ⟨op, state'⟩ := r
      obtain rfl : LedgerOp.claim c = op := Option.some.inj (hop.symm.trans (next_eq_some.mp hn).1)
      obtain ⟨t, htr, -, hc⟩ := claim_resolves hn
      rw [gain_eq, hc, loss_of_funded htr (h _ _ _ _ _ hn htr), rewardCredit, hn]
      exact le_rfl

/-! ## A transfer is claimed once -/

theorem processed_mono {k : B32 × U64} {m n : ℕ} (hmn : m ≤ n)
    (hk : (L.stateAt account m).processedClaims.contains k = true) :
    (L.stateAt account n).processedClaims.contains k = true := by
  induction n, hmn using Nat.le_induction with
  | base => exact hk
  | succ n _ ih =>
    cases hn : L.next account n with
    | none =>
      rw [stateAt_succ_of_none hn]
      exact ih
    | some r =>
      rw [stateAt_succ_of_next (show L.next account n = some (r.1, r.2) from hn)]
      exact processedClaims_applyToken (next_eq_some.mp hn).2 ih

theorem not_lt_of_same_claim {m n : ℕ} {c c' : ClaimOp} {s s' : TokenState}
    (h : L.next account m = some (.claim c, s)) (h' : L.next account n = some (.claim c', s'))
    (hacc : c.debitAccount = c'.debitAccount) (hn : c.debitNonce = c'.debitNonce) :
    ¬ m < n := by
  intro hlt
  obtain ⟨-, -, -, -, -, hs⟩ := applyToken_claim.mp (next_eq_some.mp h).2
  obtain ⟨-, -, -, hnew, -, -⟩ := applyToken_claim.mp (next_eq_some.mp h').2
  have hd : (L.stateAt account (m + 1)).processedClaims.contains
      (c'.debitAccount, c'.debitNonce) = true := by
    rw [stateAt_succ_of_next h, hs, hacc, hn]
    simp
  rw [processed_mono hlt hd] at hnew
  simp at hnew

/-! ## All positions -/

variable (L) in
def positions : Finset (Σ _ : B32, ℕ) :=
  L.accounts.sigma fun a => Finset.range (L.chain a).length

variable (L) in
/-- The position an accepted claim refers to. -/
def debitPosition (x : Σ _ : B32, ℕ) : Σ _ : B32, ℕ :=
  match L.next x.1 x.2 with
  | some (.claim c, _) => ⟨c.debitAccount, c.debitNonce.val⟩
  | _ => x

theorem mem_positions_of_opAt {op : LedgerOp} (h : L.opAt account nonce = some op) :
    ⟨account, nonce⟩ ∈ L.positions := by
  refine mem_sigma.mpr ⟨?_, mem_range.mpr (opAt_lt_length h)⟩
  simp only [opAt, bind_eq_bind, bind_eq_some_iff] at h
  obtain ⟨seq, hseq, -⟩ := h
  have hmem : account ∈ L.sequences := by
    rw [Std.ExtTreeMap.mem_iff_isSome_getElem?, hseq]
    rfl
  simpa [accounts] using hmem

theorem exists_claim_of_credit (h : L.claimCredit account nonce ≠ 0) :
    ∃ c s, L.next account nonce = some (.claim c, s) := by
  rw [claimCredit] at h
  split at h
  · rename_i c s hn
    exact ⟨c, s, hn⟩
  · exact absurd rfl h

theorem debitPosition_injOn : Set.InjOn L.debitPosition {x | L.claimCredit x.1 x.2 ≠ 0} := by
  rintro ⟨a, m⟩ hx ⟨b, n⟩ hy hxy
  obtain ⟨c, s, h⟩ := exists_claim_of_credit hx
  obtain ⟨c', s', h'⟩ := exists_claim_of_credit hy
  simp only [debitPosition, h, h', Sigma.mk.injEq, heq_eq_eq] at hxy
  obtain ⟨hacc, hval⟩ := hxy
  have hn : c.debitNonce = c'.debitNonce := Fin.ext hval
  obtain ⟨t, hop, hto, -⟩ := claim_resolves h
  obtain ⟨t', hop', hto', -⟩ := claim_resolves h'
  rw [hacc, hn, hop'] at hop
  obtain rfl : t' = t := by simpa using hop
  obtain rfl : a = b := hto.symm.trans hto'
  have hmn := not_lt_of_same_claim h h' hacc hn
  have hnm := not_lt_of_same_claim h' h hacc.symm hn.symm
  exact Sigma.ext rfl (heq_of_eq (Nat.le_antisymm (not_lt.mp hnm) (not_lt.mp hmn)))

/-- **What is claimed was lost by its senders**, when every claimed transfer was funded: claims
inject into the positions they refer to. -/
theorem sum_claimCredit_le_sum_loss (hF : L.Funded) :
    ∑ x ∈ L.positions, L.claimCredit x.1 x.2 ≤ ∑ x ∈ L.positions, L.loss x.1 x.2 := by
  classical
  let claims := L.positions.filter fun x => L.claimCredit x.1 x.2 ≠ 0
  have hl : ∀ x ∈ claims, L.debitPosition x ∈ L.positions
      ∧ L.claimCredit x.1 x.2 = L.loss (L.debitPosition x).1 (L.debitPosition x).2 := by
    intro x hx
    obtain ⟨c, s, h⟩ := exists_claim_of_credit (mem_filter.mp hx).2
    obtain ⟨t, hop, -, hc⟩ := claim_resolves h
    simp only [debitPosition, h]
    exact ⟨mem_positions_of_opAt hop, hc.trans (loss_of_funded hop (hF _ _ _ _ _ h hop)).symm⟩
  calc ∑ x ∈ L.positions, L.claimCredit x.1 x.2
      = ∑ x ∈ claims, L.claimCredit x.1 x.2 := (sum_filter_ne_zero _).symm
    _ = ∑ x ∈ claims, L.loss (L.debitPosition x).1 (L.debitPosition x).2 :=
        sum_congr rfl fun x hx => (hl x hx).2
    _ = ∑ y ∈ claims.image L.debitPosition, L.loss y.1 y.2 := by
        rw [sum_image]
        exact fun x hx y hy => debitPosition_injOn (mem_filter.mp hx).2 (mem_filter.mp hy).2
    _ ≤ ∑ x ∈ L.positions, L.loss x.1 x.2 := by
        refine sum_le_sum_of_subset fun y hy => ?_
        obtain ⟨x, hx, rfl⟩ := mem_image.mp hy
        exact (hl x hx).1

theorem sum_positions (f : B32 → ℕ → ℕ) :
    ∑ x ∈ L.positions, f x.1 x.2 = ∑ a ∈ L.accounts, ∑ m ∈ Finset.range (L.chain a).length, f a m :=
  sum_sigma _ _ _

/-- **Funded claims create nothing**: the balances are at most the reward shares credited. -/
theorem sum_balance_le (hF : L.Funded) :
    ∑ a ∈ L.accounts, (L.balance a).balance.val ≤ ∑ a ∈ L.accounts, L.rewardCredits a := by
  have hacc : ∑ a ∈ L.accounts, (L.balance a).balance.val + ∑ x ∈ L.positions, L.loss x.1 x.2
      = ∑ x ∈ L.positions, L.claimCredit x.1 x.2 + ∑ a ∈ L.accounts, L.rewardCredits a := by
    simp only [rewardCredits, ← sum_positions]
    rw [← sum_add_distrib, sum_positions L.loss, ← sum_add_distrib]
    simp only [← gain_eq]
    rw [sum_positions L.gain]
    exact sum_congr rfl fun a _ => by
      rw [balance_eq_stateAt, balance_add_sum_loss]
  have hc := sum_claimCredit_le_sum_loss hF
  omega

/-- **Value is conserved across chains exactly when every claimed transfer was funded**: the
balances stay within the reward shares credited, and no claim gains more than its transfer lost, if
and only if every transfer that an accepted claim refers to was within the sender's balance when the
sender's own fold reached it. -/
theorem conserved_iff_funded (L : Ledger) :
    (∑ a ∈ L.accounts, (L.balance a).balance.val ≤ ∑ a ∈ L.accounts, L.rewardCredits a
        ∧ L.PairsConserve)
      ↔ L.Funded :=
  ⟨fun h => pairsConserve_iff_funded.mp h.2,
    fun h => ⟨sum_balance_le h, pairsConserve_iff_funded.mpr h⟩⟩

/-! ## An overdraft, claimed

Account `7` holds nothing and transfers a hundred units to account `8`; its own fold rejects that.
Account `8` claims the transfer. -/

/-- Two one-write chains, the payload being one byte. -/
def overdraft : Ledger where
  decode payload := match payload with
    | [1] => some (.transfer ⟨8, 100, 0⟩)
    | [2] => some (.claim ⟨7, 0⟩)
    | _ => none
  sequences := (∅ : BTreeMap B32 (List Bytes)).insert 7 [[1]] |>.insert 8 [[2]]
  rewardShare _ _ := 0

theorem overdraft_creates_value :
    ∑ a ∈ overdraft.accounts, (overdraft.balance a).balance.val = 100
      ∧ ∑ a ∈ overdraft.accounts, overdraft.rewardCredits a = 0
      ∧ overdraft.gain 8 0 = 100 ∧ overdraft.loss 7 0 = 0 := by
  decide +kernel

end Ledger

end Zephcraft.Token
