import Zephcraft.Noded.ChequeService

/-!
# Noded/Metering — what the meter and the two gates compute

The calls of the cheque service, taken apart: what is metered from a provider goes into its pending
bytes, and when these reach the credit band into a cheque; the gates compare what the book and the
issuer say.
-/

namespace Zephcraft.Noded.ChequeService

open Zephcraft.Core Settlement Cheque Std.ExtTreeMap LockedCall Mutex

variable {S : SigScheme}

/-- The bytes of a provider that no cheque acknowledges yet. -/
def pendingFrom (s : ChequeService S) (provider : B32) : U64 := s.pending.value.getD provider 0

/-- What the issuer has acknowledged to a provider. -/
def owedTo (s : ChequeService S) (provider : B32) : U64 := s.issuer.value.owedTo provider

/-- What the latest cheque of a consumer acknowledges. -/
def latestFrom (s : ChequeService S) (consumer : B32) : U64 :=
  ((s.book.value.latestFrom consumer).map ServingCheque.cumulativeBytes).getD 0

/-- The bytes are counted, in the tier of the node. -/
def counted (s : ChequeService S) (bytes : U64) : ChequeService S :=
  if 0 < s.myPaid then { s with paidConsumed := s.paidConsumed + bytes }
    else { s with consumed := s.consumed + bytes }

variable {s : ChequeService S} {provider : B32} {bytes ts acc : U64}

theorem counted_fields (s : ChequeService S) (bytes : U64) : (s.counted bytes).identity = s.identity
    ∧ (s.counted bytes).issuer = s.issuer ∧ (s.counted bytes).book = s.book
    ∧ (s.counted bytes).pending = s.pending ∧ (s.counted bytes).peerPaid = s.peerPaid
    ∧ (s.counted bytes).peerGrant = s.peerGrant ∧ (s.counted bytes).grant = s.grant
    ∧ (s.counted bytes).myPaid = s.myPaid := by
  rw [counted]
  split <;> simp

@[simp] theorem counted_identity : (s.counted bytes).identity = s.identity :=
  (counted_fields s bytes).1

@[simp] theorem counted_issuer : (s.counted bytes).issuer = s.issuer := (counted_fields s bytes).2.1

@[simp] theorem counted_pending : (s.counted bytes).pending = s.pending :=
  (counted_fields s bytes).2.2.2.1

/-! ## The meter -/

/-- What the meter does to the pending bytes: kept, or taken out for a cheque. -/
def accrue (provider : B32) (bytes : U64) (pending : BTreeMap B32 U64) :
    Except Panic (BTreeMap B32 U64 × Option U64) := do
  let acc ← (pending.getD provider 0).addOrPanic bytes
  if creditBand ≤ acc then return (pending.insert provider 0, some acc)
    else return (pending.insert provider acc, none)

theorem exec_onBytesReceived (s : ChequeService S) (provider : B32) (bytes ts : U64) :
    (onBytesReceived provider bytes ts).exec s =
      match s.pending.withLock (accrue provider bytes) with
      | (pending, .error e) => (.error e, { s.counted bytes with pending })
      | (pending, .ok none) => (.ok none, { s.counted bytes with pending })
      | (pending, .ok (some additional)) =>
        let issued := s.issuer.modify (·.issue S s.identity provider additional ts)
        (issued.2.map some, { s.counted bytes with pending, issuer := issued.1 }) := by
  have hc : (onBytesReceived provider bytes ts).exec s = ((do
      let crossed ← withPending (accrue provider bytes)
      match crossed with
      | some additional =>
        let identity := (← get).identity
        let cheque ← withIssuer (·.issue S identity provider additional ts)
        return some cheque
      | none => return none) :
        LockedCall (ChequeService S) (Option ServingCheque)).exec (s.counted bytes) := by
    rw [onBytesReceived, counted]
    by_cases hp : 0 < s.myPaid <;> simp [exec_bind, hp] <;> rfl
  rw [hc, exec_bind, withPending, exec_locked, counted_pending]
  rcases s.pending.withLock (accrue provider bytes) with ⟨pending, _ | _ | additional⟩
  · rfl
  · rfl
  · simp [exec_bind, withIssuer]

theorem exec_onBytesReceived_snd (s : ChequeService S) (provider : B32) (bytes ts : U64) :
    ∃ pending issuer, ((onBytesReceived provider bytes ts).exec s).2
      = { s.counted bytes with pending, issuer } := by
  rw [exec_onBytesReceived]
  rcases s.pending.withLock (accrue provider bytes) with ⟨pending, _ | _ | additional⟩
  · exact ⟨pending, (s.counted bytes).issuer, rfl⟩
  · exact ⟨pending, (s.counted bytes).issuer, rfl⟩
  · exact ⟨pending, _, rfl⟩

theorem accrue_of_lt {pending : BTreeMap B32 U64}
    (hacc : (pending.getD provider 0).addOrPanic bytes = .ok acc)
    (hlt : acc < creditBand) :
    accrue provider bytes pending = .ok (pending.insert provider acc, none) := by
  rw [accrue, hacc]
  exact if_neg (not_le.mpr hlt)

theorem accrue_of_le {pending : BTreeMap B32 U64}
    (hacc : (pending.getD provider 0).addOrPanic bytes = .ok acc)
    (hle : creditBand ≤ acc) :
    accrue provider bytes pending = .ok (pending.insert provider 0, some acc) := by
  rw [accrue, hacc]
  exact if_pos hle

theorem exec_onBytesReceived_of_lt (ts : U64) (hp : s.pending.poisoned = false)
    (hacc : (s.pendingFrom provider).addOrPanic bytes = .ok acc) (hlt : acc < creditBand) :
    ∃ s', (onBytesReceived provider bytes ts).exec s = (.ok none, s') ∧ s'.identity = s.identity
      ∧ s'.pending.poisoned = false ∧ s'.issuer = s.issuer ∧ s'.pendingFrom provider = acc := by
  rw [exec_onBytesReceived, withLock, hp, accrue_of_lt hacc hlt]
  exact ⟨_, rfl, counted_identity, rfl, counted_issuer, by simp [pendingFrom]⟩

theorem exec_onBytesReceived_of_le (ts : U64) (hp : s.pending.poisoned = false)
    (hi : s.issuer.poisoned = false) (hacc : (s.pendingFrom provider).addOrPanic bytes = .ok acc)
    (hle : creditBand ≤ acc) :
    ∃ s', (onBytesReceived provider bytes ts).exec s
        = (.ok (some (.sign S s.identity provider ((s.owedTo provider).satAdd acc) ts)), s')
      ∧ s'.identity = s.identity ∧ s'.pending.poisoned = false ∧ s'.issuer.poisoned = false
      ∧ s'.pendingFrom provider = 0 ∧ s'.owedTo provider = (s.owedTo provider).satAdd acc := by
  rw [exec_onBytesReceived, withLock, hp, accrue_of_le hacc hle]
  simp only [Mutex.modify, withLock, hi, Bool.false_eq_true, if_false, ChequeIssuer.issue]
  exact ⟨_, rfl, counted_identity, rfl, rfl, by simp [pendingFrom],
    by simp [owedTo, ChequeIssuer.owedTo]⟩

/-! ## What is metered is pending or acknowledged -/

theorem getD_insert (m : BTreeMap B32 U64) (k a : B32) (v : U64) :
    (m.insert k v).getD a 0 = if k = a then v else m.getD a 0 := by
  rw [getD_eq_getD_getElem?, BTreeMap.getElem?_insert, getD_eq_getD_getElem?]
  split <;> rfl

theorem accrue_eq_ok {pending pending' : BTreeMap B32 U64} {additional : Option U64} (peer : B32)
    (h : accrue provider bytes pending = .ok (pending', additional)) :
    (pending'.getD peer 0).val + (if provider = peer then (additional.getD 0).val else 0)
      = (pending.getD peer 0).val + if provider = peer then bytes.val else 0 := by
  cases hacc : (pending.getD provider 0).addOrPanic bytes with
  | error p =>
    rw [accrue, hacc] at h
    cases h
  | ok acc =>
    have hval := Word.addOrPanic_eq_ok.mp hacc
    rcases lt_or_ge acc creditBand with hlt | hle
    · rw [accrue_of_lt hacc hlt] at h
      cases h
      rw [getD_insert]
      split
      · simp_all
      · rfl
    · rw [accrue_of_le hacc hle] at h
      cases h
      rw [getD_insert]
      split
      · simp_all
      · rfl

theorem owedTo_issue_le (issuer : ChequeIssuer) (identity : S.Secret) (additional : U64)
    (peer : B32) :
    ((issuer.issue S identity provider additional ts).1.owedTo peer).val
      ≤ (issuer.owedTo peer).val + if provider = peer then additional.val else 0 := by
  rw [ChequeIssuer.owedTo, ChequeIssuer.issue, getD_insert, ChequeIssuer.owedTo]
  split
  · rename_i hp
    rw [← hp, Word.val_satAdd]
    exact min_le_left _ _
  · exact Nat.le_add_right _ _

/-- **The meter adds to what is pending and acknowledged no more than what it was told.** -/
theorem pending_add_owed_le (s : ChequeService S) (provider peer : B32) (bytes ts : U64) :
    ((((onBytesReceived provider bytes ts).exec s).2.pendingFrom peer).val
        + (((onBytesReceived provider bytes ts).exec s).2.owedTo peer).val)
      ≤ (s.pendingFrom peer).val + (s.owedTo peer).val + if provider = peer then bytes.val
        else 0 := by
  rw [exec_onBytesReceived]
  cases hp : s.pending.poisoned with
  | true =>
    rw [withLock_of_poisoned hp]
    simp only [pendingFrom, owedTo, counted_issuer]
    exact Nat.le_add_right _ _
  | false =>
    rw [withLock, hp]
    cases ha : accrue provider bytes s.pending.value with
    | error p =>
      simp only [Bool.false_eq_true, if_false, pendingFrom, owedTo, counted_issuer]
      exact Nat.le_add_right _ _
    | ok accrued =>
      obtain ⟨pending, _ | additional⟩ := accrued
      · have hs := accrue_eq_ok peer ha
        simp only [Bool.false_eq_true, if_false, pendingFrom, owedTo, counted_issuer]
        simp only [Option.getD_none, Fin.val_zero, ite_self, add_zero] at hs
        omega
      · have hs := accrue_eq_ok peer ha
        have his : ((s.issuer.value.issue S s.identity provider additional ts).1.owedTo peer).val
            ≤ _ :=
          owedTo_issue_le s.issuer.value s.identity additional peer
        simp only [Bool.false_eq_true, if_false, pendingFrom, owedTo]
        simp only [Option.getD_some] at hs
        -- an issuer that is poisoned loses the bytes
        cases hi : s.issuer.poisoned with
        | true =>
          rw [Mutex.modify, withLock_of_poisoned hi]
          dsimp only
          omega
        | false =>
          rw [value_modify hi]
          omega

/-! ## What a step can do to the accounts -/

/-- What only the meter and the setters write. -/
structure Accounts where
  issuer : Mutex ChequeIssuer
  pending : Mutex (BTreeMap B32 U64)
  consumed : U64
  myPaid : U64
  peerPaid : Mutex (BTreeMap B32 U64)
  grant : U64
  peerGrant : U64

def accounts (s : ChequeService S) : Accounts :=
  ⟨s.issuer, s.pending, s.consumed, s.myPaid, s.peerPaid, s.grant, s.peerGrant⟩

theorem keeps_accounts_shouldServe (peer : B32) (bytes : U64) :
    (shouldServe peer bytes : LockedCall (ChequeService S) Bool).Keeps accounts := by
  refine LockedCall.Keeps.bind (fun s => ?_) fun peerPaid => .ite (keeps_pure true) ?_
  · simp [accounts, withPeerPaid]
  · refine LockedCall.Keeps.bind (fun _ => rfl) fun servedToPeer =>
      LockedCall.Keeps.bind (fun s => ?_) fun peerServedMe =>
      keeps_get.bind fun s => keeps_pure _
    simp [accounts, withIssuer]

theorem keeps_accounts_reciprocityAdmits (bytes : U64) :
    (reciprocityAdmits bytes : LockedCall (ChequeService S) Bool).Keeps accounts :=
  keeps_get.bind fun _ => .ite (keeps_pure true) (keeps_get.bind fun _ => keeps_get.bind fun _ =>
      LockedCall.Keeps.bind (fun _ => rfl) fun _ => keeps_pure _)

theorem keeps_accounts_pinAdmits (bytes : U64) :
    (pinAdmits bytes : LockedCall (ChequeService S) Bool).Keeps accounts :=
  keeps_get.bind fun _ => LockedCall.Keeps.bind (fun _ => rfl) fun _ => keeps_get.bind fun _ =>
    .ite (LockedCall.Keeps.bind (fun _ => rfl) fun _ => keeps_pure true) (keeps_pure false)

theorem keeps_accounts_reciprocitySnapshot :
    (reciprocitySnapshot : LockedCall (ChequeService S) Reciprocity).Keeps accounts :=
  LockedCall.Keeps.bind (fun _ => rfl) fun _ => keeps_get.bind fun _ => keeps_pure _

theorem accounts_step (s : ChequeService S) (e : Event) :
    (s.step e).accounts = s.accounts ∨ (∃ provider bytes ts, e = .onBytesReceived provider bytes ts)
      ∨ (∃ paid, e = .setMyPaid paid) ∨ (∃ peer paid, e = .setPeerPaid peer paid)
      ∨ (∃ grant, e = .setGrant grant) ∨ ∃ grant, e = .setPeerGrant grant := by
  cases e with
  | receive c => exact .inl rfl
  | loadCheques cheques => exact .inl rfl
  | onBytesReceived provider bytes ts => exact .inr (.inl ⟨provider, bytes, ts, rfl⟩)
  | totalEarned => exact .inl rfl
  | pinAdmits bytes => exact .inl (keeps_accounts_pinAdmits bytes s)
  | shouldServe peer bytes => exact .inl (keeps_accounts_shouldServe peer bytes s)
  | reciprocityAdmits bytes => exact .inl (keeps_accounts_reciprocityAdmits bytes s)
  | reciprocitySnapshot => exact .inl (keeps_accounts_reciprocitySnapshot s)
  | servingProof => exact .inl rfl
  | setMyPaid paid => exact .inr (.inr (.inl ⟨paid, rfl⟩))
  | setPeerPaid peer paid => exact .inr (.inr (.inr (.inl ⟨peer, paid, rfl⟩)))
  | setGrant grant => exact .inr (.inr (.inr (.inr (.inl ⟨grant, rfl⟩))))
  | setPeerGrant grant => exact .inr (.inr (.inr (.inr (.inr ⟨grant, rfl⟩))))
  | setStorageGrant grant => exact .inl rfl

theorem worth_le_step (s : ChequeService S) (e : Event) :
    s.book.value.worth ≤ (s.step e).book.value.worth := by
  rcases book_step s e with ⟨hb, -⟩ | ⟨hb, -⟩ | hb
  · rw [hb]
  · rw [hb, value_read]
  · rw [hb]
    cases hp : s.book.poisoned with
    | false =>
      rw [value_modify hp]
      exact ChequeBook.worth_le_recordAll _ _
    | true => rw [Mutex.modify, withLock_of_poisoned hp]

/-! ## The gates -/

theorem shouldServe_eq_true {peer : B32} (hp : s.peerPaid.value.getD peer 0 = 0)
    (h : ((shouldServe peer bytes).exec s).1 = .ok true) :
    (s.latestFrom peer).satAdd bytes ≤ (s.owedTo peer).satAdd s.peerGrant := by
  -- a poisoned lock ends the call
  cases hpe : s.peerPaid.poisoned <;> cases hb : s.book.poisoned <;> cases his :
    s.issuer.poisoned <;>
    simp [shouldServe, exec_bind, withPeerPaid, readBook, withIssuer, Mutex.modify, Mutex.read,
      withLock, Except.map, hpe, hb, his, hp] at h
  exact h

theorem reciprocityAdmits_eq_true (hp : s.myPaid = 0)
    (h : ((reciprocityAdmits bytes).exec s).1 = .ok true) :
    ∃ earned, s.book.value.totalEarned = .ok earned ∧ s.consumed.satAdd bytes
      ≤ earned.satAdd s.grant := by
  cases hb : s.book.poisoned <;> cases he : s.book.value.totalEarned <;>
    simp [reciprocityAdmits, exec_bind, totalEarned, readBook, Mutex.read, withLock, Except.map, hb,
      he, hp] at h
  exact ⟨_, rfl, h⟩

end Zephcraft.Noded.ChequeService
