import Zephcraft.Foundations.Codec
import Zephcraft.Token.Account

/-!
# Token/Ledger — folding committed chains into balances

Every account has a chain of committed payloads. A balance is the fold of the account's own chain; a
claim in it is resolved by looking at the payload the sender committed, whatever the sender's own
fold made of that payload.

A position of a chain is its nonce.
-/

namespace Zephcraft.Token

open List Option

/-- What the ledger service reads: the committed chains, how a payload decodes, and the reward share
of an epoch. -/
structure Ledger where
  decode : Bytes → Option LedgerOp
  sequences : BTreeMap B32 (List Bytes)
  rewardShare : U64 → B32 → U64

namespace Ledger

variable (L : Ledger) (account : B32) (nonce : ℕ)

/-- The write committed at a position of an account's chain. -/
def opAt : Option LedgerOp := do
  let seq ← L.sequences[account]?
  let payload ← seq[nonce]?
  L.decode payload

/-- The sender's transfer at a position, for a claim to check. -/
def resolveDebit (nonce : U64) : Option ResolvedDebit := do
  match ← L.opAt account nonce.val with
  | .transfer t => some ⟨t⟩
  | .claim _ | .pay _ | .rewardClaim _ => none

/-- The context of a write: a claim's debit, a reward claim's share. -/
def resolve : LedgerOp → Resolved
  | .claim c => ⟨L.resolveDebit c.debitAccount c.debitNonce, none⟩
  | .rewardClaim epoch => ⟨none, some (L.rewardShare epoch account)⟩
  | .transfer _ | .pay _ => ⟨none, none⟩

/-- The write a payload makes on a state, and the state after it; `none` for a payload that does not
decode and for a write that is rejected. -/
def write (state : TokenState) (payload : Bytes) : Option (LedgerOp × TokenState) := do
  let op ← L.decode payload
  let state' ← applyToken state op account (L.resolve account op)
  return (op, state')

def applyPayload (state : TokenState) (payload : Bytes) : TokenState :=
  match L.write account state payload with
  | some (_, state') => state'
  | none => state

/-- An account's committed chain, empty if it has none. -/
def chain : List Bytes := L.sequences.getD account []

/-- The state an account's chain folds to. -/
def balance : TokenState :=
  match L.sequences[account]? with
  | none => .empty
  | some seq => seq.foldl (L.applyPayload account) .empty

def stateAt : TokenState :=
  ((L.chain account).take nonce).foldl (L.applyPayload account) .empty

/-- The accepted write at a position, and the state after it. -/
def next : Option (LedgerOp × TokenState) := do
  let payload ← (L.chain account)[nonce]?
  L.write account (L.stateAt account nonce) payload

/-- What the write at a position adds to the balance. -/
def gain : ℕ :=
  (L.stateAt account (nonce + 1)).balance.val - (L.stateAt account nonce).balance.val

/-- What the write at a position takes from the balance. -/
def loss : ℕ :=
  (L.stateAt account nonce).balance.val - (L.stateAt account (nonce + 1)).balance.val

variable {L}

/-! ## Positions -/

variable {nonce : ℕ} {op : LedgerOp} (account : B32)

theorem chain_eq : L.chain account = L.sequences[account]?.getD [] :=
  Std.ExtTreeMap.getD_eq_getD_getElem?

theorem balance_eq_stateAt : L.balance account = L.stateAt account (L.chain account).length := by
  rw [balance, stateAt, take_length, chain_eq]
  cases L.sequences[account]? <;> rfl

@[simp] theorem stateAt_zero : L.stateAt account 0 = .empty := rfl

theorem opAt_eq (nonce : ℕ) : L.opAt account nonce = (L.chain account)[nonce]?.bind L.decode := by
  rw [opAt, chain_eq]
  cases L.sequences[account]? <;> rfl

theorem opAt_lt_length {account : B32} (h : L.opAt account nonce = some op) :
    nonce < (L.chain account).length := by
  rw [opAt_eq, bind_eq_some_iff] at h
  obtain ⟨payload, hp, -⟩ := h
  exact (List.getElem?_eq_some_iff.mp hp).1

theorem next_eq_some {account : B32} {state' : TokenState} :
    L.next account nonce = some (op, state') ↔ L.opAt account nonce = some op
        ∧ applyToken (L.stateAt account nonce) op account (L.resolve account op) = some state' := by
  rw [opAt_eq, next]
  cases (L.chain account)[nonce]? with
  | none => simp
  | some payload =>
    simp only [bind_eq_bind, bind_some, write, bind_eq_some_iff,
      Option.pure_def, Option.some.injEq, Prod.mk.injEq]
    constructor
    · rintro ⟨op', hop, s', hs, rfl, rfl⟩
      exact ⟨hop, hs⟩
    · rintro ⟨hop, hs⟩
      exact ⟨op, hop, state', hs, rfl, rfl⟩

theorem next_of_opAt {account : B32} (h : L.opAt account nonce = some op) :
    L.next account nonce
      = (applyToken (L.stateAt account nonce) op account (L.resolve account op)).map (op, ·) := by
  refine Option.ext fun ⟨op', state'⟩ => ?_
  rw [next_eq_some, h]
  simp only [Option.some.injEq, map_eq_some_iff, Prod.mk.injEq]
  constructor
  · rintro ⟨rfl, happ⟩
    exact ⟨state', happ, rfl, rfl⟩
  · rintro ⟨_, happ, rfl, rfl⟩
    exact ⟨rfl, happ⟩

/-- **The fold, position by position**: the accepted write's state, or the state unchanged. -/
theorem stateAt_succ (nonce : ℕ) :
    L.stateAt account (nonce + 1)
      = ((L.next account nonce).map Prod.snd).getD (L.stateAt account nonce) := by
  rw [stateAt, take_add_one, foldl_append]
  change (L.chain account)[nonce]?.toList.foldl (L.applyPayload account) (L.stateAt account nonce)
    = _
  rw [next]
  cases (L.chain account)[nonce]? with
  | none => rfl
  | some payload =>
    simp only [toList_some, foldl_cons, foldl_nil, applyPayload, bind_eq_bind, bind_some]
    cases L.write account (L.stateAt account nonce) payload <;> rfl

theorem stateAt_succ_of_next {account : B32} {state' : TokenState}
    (h : L.next account nonce = some (op, state')) :
    L.stateAt account (nonce + 1) = state' := by
  rw [stateAt_succ, h]
  rfl

theorem stateAt_succ_of_none {account : B32} (h : L.next account nonce = none) :
    L.stateAt account (nonce + 1) = L.stateAt account nonce := by
  rw [stateAt_succ, h]
  rfl

theorem balance_add_sum_loss (n : ℕ) :
    (L.stateAt account n).balance.val + ∑ m ∈ Finset.range n, L.loss account m
      = ∑ m ∈ Finset.range n, L.gain account m := by
  induction n with
  | zero => simp [TokenState.empty]
  | succ n ih =>
    rw [Finset.sum_range_succ, Finset.sum_range_succ, gain, loss]
    omega

end Ledger

end Zephcraft.Token
