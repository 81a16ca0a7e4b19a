import Zephcraft.Foundations.Run
import Zephcraft.Token.Ledger

/-!
# Token/PaidTotal — the cached scan of payments against the fold

`paidTotal` adds up the payments committed on an account's chain, remembering how far it has read.
The remembering is sound: since chains only grow, a read always returns the saturating sum of all
payments committed so far (`val_paidTotal`).
-/

namespace Zephcraft.Token

open List Option Run

namespace Ledger

/-- For each account scanned: the next position to read, and the total so far. -/
abbrev PaidScan := BTreeMap B32 (ℕ × U64)

def scanPay (decode : Bytes → Option LedgerOp) (acc : ℕ × U64) (payload : Bytes) : ℕ × U64 :=
  match decode payload with
  | some (.pay amount) => (acc.1 + 1, acc.2.satAdd amount)
  | _ => (acc.1 + 1, acc.2)

variable (L : Ledger)

/-- An account's cumulative payments: the cached total, brought up to date from the positions past
it. -/
def paidTotal (cache : PaidScan) (account : B32) : PaidScan × U64 :=
  match L.sequences[account]? with
  | none => (cache, (cache.getD account (0, 0)).2)
  | some seq =>
    let entry := cache.getD account (0, 0)
    let entry := (seq.drop entry.1).foldl (scanPay L.decode) entry
    (cache.insert account entry, entry.2)

/-- The payment a payload commits to, if it is one. -/
def payOf (decode : Bytes → Option LedgerOp) (payload : Bytes) : ℕ :=
  match decode payload with
  | some (.pay amount) => amount.val
  | _ => 0

variable (account : B32)

/-- The payments committed on an account's chain. -/
def committedPays : ℕ :=
  ((L.chain account).map (payOf L.decode)).sum

/-- The payment at a position, if the fold accepts it. -/
def acceptedPay (nonce : ℕ) : ℕ :=
  match L.next account nonce with
  | some (.pay amount, _) => amount.val
  | _ => 0

/-- The payments the fold of an account's chain debits. -/
def acceptedPays : ℕ :=
  ∑ m ∈ Finset.range (L.chain account).length, L.acceptedPay account m

/-! ## The scan -/

theorem foldl_scanPay (decode : Bytes → Option LedgerOp) (payloads : List Bytes) (acc : ℕ × U64) :
    (payloads.foldl (scanPay decode) acc).1 = acc.1 + payloads.length
      ∧ (payloads.foldl (scanPay decode) acc).2.val
        = min (acc.2.val + (payloads.map (payOf decode)).sum) (2 ^ 64 - 1) := by
  induction payloads generalizing acc with
  | nil =>
    have := acc.2.isLt
    simp only [foldl_nil, length_nil, Nat.add_zero, map_nil, sum_nil, true_and]
    omega
  | cons p payloads ih =>
    obtain ⟨h1, h2⟩ := ih (scanPay decode acc p)
    have hs : (scanPay decode acc p).1 = acc.1 + 1
        ∧ (scanPay decode acc p).2.val = min (acc.2.val + payOf decode p) (2 ^ 64 - 1) := by
      have := acc.2.isLt
      unfold scanPay payOf
      split
      · exact ⟨rfl, rfl⟩
      · exact ⟨rfl, by dsimp only; omega⟩
    rw [foldl_cons, length_cons, map_cons, sum_cons]
    omega

/-- Every cached entry is the scan of a prefix of its account's chain. -/
def ScanOf (cache : PaidScan) : Prop :=
  ∀ account entry, cache[account]? = some entry → entry.1 ≤ (L.chain account).length ∧ entry.2.val
      = min (((L.chain account).take entry.1).map (payOf L.decode)).sum (2 ^ 64 - 1)

variable {L : Ledger} {cache : PaidScan}

theorem ScanOf.getD (h : ScanOf L cache) (account : B32) :
    (cache.getD account (0, 0)).1 ≤ (L.chain account).length ∧ (cache.getD account (0, 0)).2.val
        = min (((L.chain account).take (cache.getD account (0, 0)).1).map (payOf L.decode)).sum
          (2 ^ 64 - 1) := by
  rw [Std.ExtTreeMap.getD_eq_getD_getElem?]
  cases hc : cache[account]? with
  | none => simp
  | some entry => exact h account entry hc

theorem paidTotal_spec (h : ScanOf L cache) (account : B32) :
    (L.paidTotal cache account).2.val = min (L.committedPays account) (2 ^ 64 - 1)
      ∧ ScanOf L (L.paidTotal cache account).1 := by
  obtain ⟨hle, ht⟩ := h.getD account
  unfold paidTotal committedPays
  cases hseq : L.sequences[account]? with
  | none =>
    rw [chain_eq, hseq, getD_none] at ht ⊢
    exact ⟨by simpa using ht, h⟩
  | some seq =>
    have hc : L.chain account = seq := by rw [chain_eq, hseq, getD_some]
    rw [hc] at hle ht ⊢
    obtain ⟨hn, hsum⟩ := foldl_scanPay L.decode (seq.drop (cache.getD account (0, 0)).1)
      (cache.getD account (0, 0))
    have hs : ((seq.take (cache.getD account (0, 0)).1).map (payOf L.decode)).sum
        + ((seq.drop (cache.getD account (0, 0)).1).map (payOf L.decode)).sum
        = (seq.map (payOf L.decode)).sum := by
      rw [← sum_append, ← map_append, take_append_drop]
    rw [length_drop] at hn
    refine ⟨by dsimp only; omega, fun a entry ha => ?_⟩
    rcases eq_or_ne account a with rfl | hne
    · obtain rfl : _ = entry := by simpa using ha
      rw [hc]
      refine ⟨by omega, ?_⟩
      rw [hsum, take_of_length_le (by omega)]
      omega
    · rw [BTreeMap.getElem?_insert_of_ne _ hne] at ha
      exact h a entry ha

/-! ## Committed against accepted -/

def committedPay (nonce : ℕ) : ℕ :=
  ((L.chain account)[nonce]?.map (payOf L.decode)).getD 0

theorem sum_map_eq_sum_range {α : Type*} (f : α → ℕ) (l : List α) :
    (l.map f).sum = ∑ m ∈ Finset.range l.length, (l[m]?.map f).getD 0 := by
  induction l with
  | nil => rfl
  | cons a l ih => simp [Finset.sum_range_succ', ih, Nat.add_comm]

variable {nonce : ℕ} (account : B32)

theorem committedPays_eq :
    L.committedPays account
      = ∑ m ∈ Finset.range (L.chain account).length, L.committedPay account m :=
  sum_map_eq_sum_range _ _

/-- No payment on the account's chain exceeds the balance the fold reaches it with. -/
def NoOverdraft : Prop :=
  ∀ nonce amount, L.opAt account nonce = some (.pay amount) →
    amount ≤ (L.stateAt account nonce).balance

theorem committedPay_of_opAt {account : B32} {amount : U64}
    (h : L.opAt account nonce = some (.pay amount)) :
    L.committedPay account nonce = amount.val := by
  rw [opAt_eq, bind_eq_some_iff] at h
  obtain ⟨payload, hp, hd⟩ := h
  simp [committedPay, hp, payOf, hd]

theorem committedPay_of_not_pay {account : B32}
    (h : ∀ amount, L.opAt account nonce ≠ some (.pay amount)) :
    L.committedPay account nonce = 0 := by
  rw [committedPay]
  cases hp : (L.chain account)[nonce]? with
  | none => rfl
  | some payload =>
    rw [map_some, getD_some, payOf]
    split
    · rename_i amount hd
      exact absurd (by rw [opAt_eq, hp]; exact hd) (h amount)
    · rfl

theorem acceptedPay_of_not_pay {account : B32}
    (h : ∀ amount, L.opAt account nonce ≠ some (.pay amount)) :
    L.acceptedPay account nonce = 0 := by
  rw [acceptedPay]
  split
  · rename_i amount s hn
    exact absurd (next_eq_some.mp hn).1 (h amount)
  · rfl

theorem acceptedPay_of_opAt {account : B32} {amount : U64}
    (h : L.opAt account nonce = some (.pay amount)) :
    L.acceptedPay account nonce
      = if amount ≤ (L.stateAt account nonce).balance then amount.val else 0 := by
  rw [acceptedPay, next_of_opAt h]
  by_cases hle : amount ≤ (L.stateAt account nonce).balance
  · rcases eq_or_ne amount 0 with rfl | h0
    · simp [applyToken, spend_eq_none]
    · simp [applyToken, spend_of_le h0 hle, hle]
  · simp [applyToken, spend_eq_none (.inr (not_le.mp hle)), hle]

theorem acceptedPay_spec (nonce : ℕ) :
    L.acceptedPay account nonce ≤ L.committedPay account nonce
      ∧ (L.acceptedPay account nonce = L.committedPay account nonce
        ↔ ∀ amount, L.opAt account nonce = some (.pay amount) →
          amount ≤ (L.stateAt account nonce).balance) := by
  by_cases hpay : ∃ amount, L.opAt account nonce = some (.pay amount)
  · obtain ⟨amount, hop⟩ := hpay
    rw [committedPay_of_opAt hop, acceptedPay_of_opAt hop, hop]
    simp only [Option.some.injEq, LedgerOp.pay.injEq, forall_eq']
    split
    · rename_i hle
      exact ⟨le_rfl, fun _ => hle, fun _ => rfl⟩
    · -- an overdraft is of a positive amount
      rename_i hgt
      have hpos : 0 < amount.val := Nat.pos_of_ne_zero fun h => hgt (Fin.le_def.mpr (by omega))
      exact ⟨Nat.zero_le _, fun h => absurd h hpos.ne, fun h => absurd h hgt⟩
  · have hno : ∀ amount, L.opAt account nonce ≠ some (.pay amount) := fun a h => hpay ⟨a, h⟩
    rw [committedPay_of_not_pay hno, acceptedPay_of_not_pay hno]
    exact ⟨le_rfl, fun _ amount h => absurd h (hno amount), fun _ => rfl⟩

theorem acceptedPays_le : L.acceptedPays account ≤ L.committedPays account := by
  rw [committedPays_eq]
  exact Finset.sum_le_sum fun m _ => (acceptedPay_spec account m).1

theorem acceptedPays_eq_iff : L.acceptedPays account = L.committedPays account
    ↔ L.NoOverdraft account := by
  rw [committedPays_eq, acceptedPays,
    Finset.sum_eq_sum_iff_of_le fun m _ => (acceptedPay_spec account m).1]
  constructor
  · intro h nonce amount hop
    exact (acceptedPay_spec account nonce).2.mp
      (h nonce (Finset.mem_range.mpr (opAt_lt_length hop))) amount hop
  · exact fun h m _ => (acceptedPay_spec account m).2.mpr (h m)

/-! ## Reads interleaved with growth -/

/-- A service: the ledger it reads and its cache. -/
structure Service where
  ledger : Ledger
  cache : PaidScan

/-- A payload is committed to an account's chain, or an account's total is read. -/
inductive Event where
  | commit (account : B32) (payload : Bytes)
  | read (account : B32)

def Service.step (s : Service) : Event → Service
  | .commit account payload =>
    { s with ledger := { s.ledger with
        sequences := s.ledger.sequences.insert account (s.ledger.chain account ++ [payload]) } }
  | .read account => { s with cache := (s.ledger.paidTotal s.cache account).1 }

theorem scanOf_step {s : Service} (h : ScanOf s.ledger s.cache) (e : Event) :
    ScanOf (s.step e).ledger (s.step e).cache := by
  cases e with
  | read account => exact (paidTotal_spec h account).2
  | commit account payload =>
    intro a entry ha
    obtain ⟨hle, ht⟩ := h a entry ha
    rcases eq_or_ne account a with rfl | hne
    · have hc : (s.step (.commit account payload)).ledger.chain account
          = s.ledger.chain account ++ [payload] := by
        simp [Service.step, chain]
      rw [hc, take_append_of_le_length hle]
      exact ⟨by simpa using hle.trans (Nat.le_succ _), ht⟩
    · have hc : (s.step (.commit account payload)).ledger.chain a = s.ledger.chain a := by
        simp [Service.step, chain, Std.ExtTreeMap.getD_insert, hne]
      rw [hc]
      exact ⟨hle, ht⟩

/-- The committed payments are the accepted ones and fit a `u64`, or the accepted ones are exactly
what the sum saturates at. -/
def PaysHonoured : Prop :=
  (L.NoOverdraft account ∧ L.committedPays account < 2 ^ 64)
    ∨ (L.acceptedPays account = 2 ^ 64 - 1 ∧ 2 ^ 64 ≤ L.committedPays account)

/-- What a read says of the account it reads. -/
def ReadIs (P : Ledger → B32 → U64 → Prop) (s : Service) (e : Event) : Prop :=
  ∀ account, e = .read account → P s.ledger account (s.ledger.paidTotal s.cache account).2

/-- **Every read, in every run, returns what the fold debits exactly when no payment overdraws** —
or when the debits happen to be what the sum saturates at. -/
theorem paidTotal_eq_acceptedPays_iff (L : Ledger) (events : List Event) :
    EachStep Service.step ⟨L, ∅⟩ (ReadIs fun ledger account total =>
        total.val = ledger.acceptedPays account ↔ ledger.PaysHonoured account) events := by
  intro pre e _ account _
  have hscan : ScanOf (run Service.step ⟨L, ∅⟩ pre).ledger (run Service.step ⟨L, ∅⟩ pre).cache :=
    invariant (C := fun _ _ => True) (I := fun s : Service => ScanOf s.ledger s.cache)
      (fun a entry h => by simp at h) (fun _ e h _ => scanOf_step h e) fun _ _ _ => trivial
  have hval := (paidTotal_spec hscan account).1
  have hle := acceptedPays_le (L := (run Service.step ⟨L, ∅⟩ pre).ledger) account
  rw [PaysHonoured, ← acceptedPays_eq_iff, hval]
  omega

/-- One payment of five, on an account that holds nothing. -/
def paidFromNothing : Ledger where
  decode _ := some (.pay 5)
  sequences := (∅ : BTreeMap B32 (List Bytes)).insert 7 [[]]
  rewardShare _ _ := 0

theorem paidFromNothing_counts_rejected_pay :
    (paidFromNothing.paidTotal ∅ 7).2.val = 5 ∧ paidFromNothing.acceptedPays 7 = 0
      ∧ (paidFromNothing.balance 7).balance.val = 0 := by
  decide +kernel

end Ledger

end Zephcraft.Token
