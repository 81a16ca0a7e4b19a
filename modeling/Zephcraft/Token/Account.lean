import Zephcraft.Foundations.OrderedMap
import Zephcraft.Foundations.Word

/-!
# Token/Account — the account-chain transition

An account's state is the fold of its own ordered writes. One write is a transfer out, a claim of
someone else's transfer, a payment into the pool or a claim of a reward share; whatever the state
does not allow is rejected and changes nothing.
-/

namespace Zephcraft.Token

open Option

/-- A debit of the sender in favour of `toAccount`. -/
structure TransferOp where
  toAccount : B32
  amount : U64
  memo : B32
deriving DecidableEq

/-- A credit of the recipient with the transfer at a position of the sender's chain. -/
structure ClaimOp where
  debitAccount : B32
  debitNonce : U64
deriving DecidableEq

/-- An entry of an account's chain. -/
inductive LedgerOp where
  | transfer (t : TransferOp)
  | claim (c : ClaimOp)
  | pay (amount : U64)
  | rewardClaim (epoch : U64)
deriving DecidableEq

/-- An account's state: its balance and the two sets that make credits single-use. -/
structure TokenState where
  balance : U64
  processedClaims : BTreeSet (B32 × U64)
  claimedEpochs : BTreeSet U64

def TokenState.empty : TokenState := ⟨0, ∅, ∅⟩

/-- The sender's transfer a claim refers to, as the node resolved it. -/
structure ResolvedDebit where
  transfer : TransferOp

/-- The context a write needs beyond its own chain. -/
structure Resolved where
  debit : Option ResolvedDebit
  rewardShare : Option U64

/-- Take a positive amount from the balance, if it is there. -/
def TokenState.spend (state : TokenState) (amount : U64) : Option TokenState :=
  if amount = 0 then none
  else do
    let balance ← state.balance.checkedSub amount
    return { state with balance := balance }

/-- One write applied to `caller`'s state; `none` when it is rejected. -/
def applyToken (state : TokenState) (op : LedgerOp) (caller : B32) (resolved : Resolved) :
    Option TokenState :=
  match op with
  | .transfer t => state.spend t.amount
  | .claim c => do
    let d ← resolved.debit
    if d.transfer.toAccount ≠ caller then none
    else
      let key := (c.debitAccount, c.debitNonce)
      if state.processedClaims.contains key then none
      else
        let balance ← state.balance.checkedAdd d.transfer.amount
        return { state with
          balance := balance
          processedClaims := state.processedClaims.insert key }
  | .pay amount => state.spend amount
  | .rewardClaim epoch => do
    let share ← resolved.rewardShare
    if share = 0 then none
    else if state.claimedEpochs.contains epoch then none
    else
      let balance ← state.balance.checkedAdd share
      return { state with
        balance := balance
        claimedEpochs := state.claimedEpochs.insert epoch }

/-! ## What an accepted write did -/

section Accepted

variable {state state' : TokenState} {caller : B32} {resolved : Resolved}

theorem exists_balance_iff {P : U64 → Prop} {f : U64 → TokenState} (hf : ∀ b, (f b).balance = b) :
    (∃ b, P b ∧ f b = state') ↔ P state'.balance ∧ state' = f state'.balance := by
  constructor
  · rintro ⟨b, hb, rfl⟩
    rw [hf]
    exact ⟨hb, rfl⟩
  · rintro ⟨hb, hs⟩
    exact ⟨state'.balance, hb, hs.symm⟩

theorem spend_eq_some {amount : U64} :
    state.spend amount = some state'
      ↔ amount ≠ 0 ∧ state'.balance.val + amount.val = state.balance.val
        ∧ state' = { state with balance := state'.balance } := by
  simp only [TokenState.spend]
  split
  · simp_all
  · rename_i h
    simp only [bind_eq_bind, bind_eq_some_iff, Word.checkedSub_eq_some, ne_eq, h,
      not_false_eq_true, true_and, pure_def, Option.some.injEq]
    exact exists_balance_iff fun _ => rfl

theorem spend_of_le {amount : U64} (h0 : amount ≠ 0) (hle : amount ≤ state.balance) :
    state.spend amount = some { state with balance := state.balance.satSub amount } :=
  spend_eq_some.mpr ⟨h0, Nat.sub_add_cancel hle, rfl⟩

theorem spend_eq_none {amount : U64} (h : amount = 0 ∨ state.balance < amount) :
    state.spend amount = none := by
  refine eq_none_iff_forall_ne_some.mpr fun state' hs => ?_
  obtain ⟨h0, hb, -⟩ := spend_eq_some.mp hs
  rcases h with h | h
  · exact h0 h
  · rw [Fin.lt_def] at h
    omega

theorem applyToken_claim {c : ClaimOp} :
    applyToken state (.claim c) caller resolved = some state'
      ↔ ∃ d, resolved.debit = some d ∧ d.transfer.toAccount = caller
        ∧ state.processedClaims.contains (c.debitAccount, c.debitNonce) = false
        ∧ state'.balance.val = state.balance.val + d.transfer.amount.val
        ∧ state' = { state with
            balance := state'.balance
            processedClaims := state.processedClaims.insert (c.debitAccount, c.debitNonce) } := by
  simp only [applyToken, bind_eq_bind, bind_eq_some_iff]
  refine exists_congr fun d => and_congr_right fun _ => ?_
  by_cases hto : d.transfer.toAccount = caller
  · simp only [ne_eq, hto, not_true_eq_false, if_false, true_and]
    split
    · simp_all
    · rename_i hnew
      simp only [bind_eq_some_iff, Word.checkedAdd_eq_some, pure_def,
        Option.some.injEq, (Bool.not_eq_true _).mp hnew, true_and]
      exact exists_balance_iff fun _ => rfl
  · simp [hto]

theorem applyToken_rewardClaim {epoch : U64} :
    applyToken state (.rewardClaim epoch) caller resolved = some state'
      ↔ ∃ share, resolved.rewardShare = some share ∧ share ≠ 0
        ∧ state.claimedEpochs.contains epoch = false
        ∧ state'.balance.val = state.balance.val + share.val
        ∧ state' = { state with
            balance := state'.balance
            claimedEpochs := state.claimedEpochs.insert epoch } := by
  simp only [applyToken, bind_eq_bind, bind_eq_some_iff]
  refine exists_congr fun share => and_congr_right fun _ => ?_
  by_cases h0 : share = 0
  · simp [h0]
  · simp only [h0, if_false, ne_eq, not_false_eq_true, true_and]
    split
    · simp_all
    · rename_i hnew
      simp only [bind_eq_some_iff, Word.checkedAdd_eq_some, pure_def,
        Option.some.injEq, (Bool.not_eq_true _).mp hnew, true_and]
      exact exists_balance_iff fun _ => rfl

end Accepted

/-- What an accepted write takes from the balance. -/
def LedgerOp.debit : LedgerOp → ℕ
  | .transfer t => t.amount.val
  | .pay amount => amount.val
  | .claim _ | .rewardClaim _ => 0

/-- What an accepted write adds to the balance. -/
def LedgerOp.credit (resolved : Resolved) : LedgerOp → ℕ
  | .claim _ => (resolved.debit.map fun d => d.transfer.amount.val).getD 0
  | .rewardClaim _ => (resolved.rewardShare.map Fin.val).getD 0
  | .transfer _ | .pay _ => 0

theorem balance_applyToken {state state' : TokenState} {op : LedgerOp} {caller : B32}
    {resolved : Resolved} (h : applyToken state op caller resolved = some state') :
    state'.balance.val + op.debit = state.balance.val + op.credit resolved := by
  cases op with
  | transfer t => exact (spend_eq_some.mp h).2.1
  | pay amount => exact (spend_eq_some.mp h).2.1
  | claim c =>
    obtain ⟨d, hd, -, -, hb, -⟩ := applyToken_claim.mp h
    simpa [LedgerOp.debit, LedgerOp.credit, hd] using hb
  | rewardClaim epoch =>
    obtain ⟨share, hs, -, -, hb, -⟩ := applyToken_rewardClaim.mp h
    simpa [LedgerOp.debit, LedgerOp.credit, hs] using hb

theorem processedClaims_applyToken {state state' : TokenState} {op : LedgerOp} {caller : B32}
    {resolved : Resolved} {k : B32 × U64} (h : applyToken state op caller resolved = some state')
    (hk : state.processedClaims.contains k = true) :
    state'.processedClaims.contains k = true := by
  cases op with
  | transfer t =>
    rw [(spend_eq_some.mp h).2.2]
    exact hk
  | pay amount =>
    rw [(spend_eq_some.mp h).2.2]
    exact hk
  | claim c =>
    obtain ⟨-, -, -, -, -, hs⟩ := applyToken_claim.mp h
    rw [hs]
    simp [Std.ExtTreeSet.contains_insert, hk]
  | rewardClaim epoch =>
    obtain ⟨-, -, -, -, -, hs⟩ := applyToken_rewardClaim.mp h
    rw [hs]
    exact hk

end Zephcraft.Token
