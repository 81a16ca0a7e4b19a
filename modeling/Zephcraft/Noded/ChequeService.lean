import Zephcraft.Cheque.Book
import Zephcraft.Foundations.Mutex
import Zephcraft.Foundations.Run

/-!
# Noded/ChequeService — the gates that read the cheque book

A node's cheque service takes cheques from whoever sends them, and four calls read what the book is
worth: the measurement itself, the fetch gate, the pin gate and the dashboard. The sum is a checked
addition, taken while the book is locked.
-/

namespace Zephcraft.Noded

open Zephcraft.Core Settlement Cheque List LockedCall Mutex Run

/-- The bytes of one provider that make a cheque due. -/
def creditBand : U64 := 4 * 1024 * 1024

def defaultColdStartGrant : U64 := 2 ^ 30

def defaultPeerGrant : U64 := 256 * 1024 * 1024

def defaultStorageGrant : U64 := 256 * 1024 * 1024

/-- The dashboard's view of a node's standing. -/
structure Reciprocity where
  earned : U64
  consumed : U64
  paidConsumed : U64
  paid : U64
  grant : U64
  peerGrant : U64
  storageGrant : U64
  pinned : U64

/-- The cheques of a node. -/
structure ChequeService (S : SigScheme) where
  identity : S.Secret
  issuer : Mutex ChequeIssuer
  book : Mutex ChequeBook
  /-- Bytes fetched from each provider since its last cheque. -/
  pending : Mutex (BTreeMap B32 U64)
  consumed : U64
  paidConsumed : U64
  grant : U64
  peerGrant : U64
  pinned : U64
  storageGrant : U64
  myPaid : U64
  peerPaid : Mutex (BTreeMap B32 U64)

namespace ChequeService

variable {S : SigScheme} {α β : Type}

def new (identity : S.Secret) : ChequeService S where
  identity := identity
  issuer := ⟨.new, false⟩
  book := ⟨.new (S.nodeId identity), false⟩
  pending := ⟨∅, false⟩
  consumed := 0
  paidConsumed := 0
  grant := defaultColdStartGrant
  peerGrant := defaultPeerGrant
  pinned := 0
  storageGrant := defaultStorageGrant
  myPaid := 0
  peerPaid := ⟨∅, false⟩

def readBook (f : ChequeBook → Except Panic β) : LockedCall (ChequeService S) β :=
  .locked book (fun s book => { s with book }) (·.read f)

def modifyBook (f : ChequeBook → ChequeBook × β) : LockedCall (ChequeService S) β :=
  .locked book (fun s book => { s with book }) (·.modify f)

def withIssuer (f : ChequeIssuer → ChequeIssuer × β) : LockedCall (ChequeService S) β :=
  .locked issuer (fun s issuer => { s with issuer }) (·.modify f)

def withPending (f : BTreeMap B32 U64 → Except Panic (BTreeMap B32 U64 × β)) :
    LockedCall (ChequeService S) β :=
  .locked pending (fun s pending => { s with pending }) (·.withLock f)

def withPeerPaid (f : BTreeMap B32 U64 → BTreeMap B32 U64 × β) : LockedCall (ChequeService S) β :=
  .locked peerPaid (fun s peerPaid => { s with peerPaid }) (·.modify f)

/-! ## The calls -/

/-- The bytes this node has been shown to have served. -/
def totalEarned : LockedCall (ChequeService S) U64 := readBook ChequeBook.totalEarned

/-- May this node pin `bytes` more? If so they are accounted. -/
def pinAdmits (bytes : U64) : LockedCall (ChequeService S) Bool := do
  let pinned := (← get).pinned
  let earned ← totalEarned
  let budget := earned.satAdd (← get).storageGrant
  if pinned.satAdd bytes ≤ budget then
    modify fun s => { s with pinned := s.pinned + bytes }  -- an atomic `fetch_add` wraps
    return true
  else
    return false

/-- Should this node serve `peer` another `bytes`? -/
def shouldServe (peer : B32) (bytes : U64) : LockedCall (ChequeService S) Bool := do
  let peerPaid ← withPeerPaid fun m => (m, m.getD peer 0)
  if 0 < peerPaid then
    return true
  let servedToPeer ← readBook fun book =>
    .ok (((book.latestFrom peer).map ServingCheque.cumulativeBytes).getD 0)
  let peerServedMe ← withIssuer fun issuer => (issuer, issuer.owedTo peer)
  let grant := (← get).peerGrant
  return servedToPeer.satAdd bytes ≤ peerServedMe.satAdd grant

/-- May this node fetch `bytes`? A paid user is not gated, and reads no book. -/
def reciprocityAdmits (bytes : U64) : LockedCall (ChequeService S) Bool := do
  if 0 < (← get).myPaid then
    return true
  let consumed := (← get).consumed
  let grant := (← get).grant
  let earned ← totalEarned
  return consumed.satAdd bytes ≤ earned.satAdd grant

def reciprocitySnapshot : LockedCall (ChequeService S) Reciprocity := do
  let earned ← totalEarned
  let s ← get
  return ⟨earned, s.consumed, s.paidConsumed, s.myPaid, s.grant, s.peerGrant, s.storageGrant,
    s.pinned⟩

def servingProof : LockedCall (ChequeService S) (List ServingCheque) :=
  readBook fun book => .ok book.cheques

/-- Merge recovered cheques into the book, under one lock. -/
def loadCheques (cheques : List ServingCheque) : LockedCall (ChequeService S) Unit :=
  modifyBook fun book => (book.recordAll S cheques, ())

/-- What `serve` does with one inbound cheque. -/
def receive (c : ServingCheque) : LockedCall (ChequeService S) Bool :=
  modifyBook fun book => book.record S c

/-- Account a piece fetched from `provider`; returns the cheque to push, when one is due. -/
def onBytesReceived (provider : B32) (bytes ts : U64) :
    LockedCall (ChequeService S) (Option ServingCheque) := do
  if 0 < (← get).myPaid then
    modify fun s => { s with paidConsumed := s.paidConsumed + bytes }
  else
    modify fun s => { s with consumed := s.consumed + bytes }
  let crossed ← withPending fun pending => do
    let acc ← (pending.getD provider 0).addOrPanic bytes
    if creditBand ≤ acc then
      return (pending.insert provider 0, some acc)
    else
      return (pending.insert provider acc, none)
  match crossed with
  | some additional =>
    let identity := (← get).identity
    let cheque ← withIssuer (·.issue S identity provider additional ts)
    return some cheque
  | none => return none

/-- Refresh what a peer has paid into the pool. -/
def setPeerPaid (peer : B32) (paid : U64) : LockedCall (ChequeService S) Unit :=
  withPeerPaid fun m => (m.insert peer paid, ())

/-! ## Runs -/

/-- Calls of the service. -/
inductive Event where
  | receive (c : ServingCheque)
  | loadCheques (cheques : List ServingCheque)
  | onBytesReceived (provider : B32) (bytes ts : U64)
  | totalEarned
  | pinAdmits (bytes : U64)
  | shouldServe (peer : B32) (bytes : U64)
  | reciprocityAdmits (bytes : U64)
  | reciprocitySnapshot
  | servingProof
  | setMyPaid (paid : U64)
  | setPeerPaid (peer : B32) (paid : U64)
  | setGrant (grant : U64)
  | setPeerGrant (grant : U64)
  | setStorageGrant (grant : U64)

def step (s : ChequeService S) : Event → ChequeService S
  | .receive c => ((receive c).exec s).2
  | .loadCheques cheques => ((loadCheques cheques).exec s).2
  | .onBytesReceived provider bytes ts => ((onBytesReceived provider bytes ts).exec s).2
  | .totalEarned => (totalEarned.exec s).2
  | .pinAdmits bytes => ((pinAdmits bytes).exec s).2
  | .shouldServe peer bytes => ((shouldServe peer bytes).exec s).2
  | .reciprocityAdmits bytes => ((reciprocityAdmits bytes).exec s).2
  | .reciprocitySnapshot => (reciprocitySnapshot.exec s).2
  | .servingProof => (servingProof.exec s).2
  | .setMyPaid paid => { s with myPaid := paid }
  | .setPeerPaid peer paid => ((setPeerPaid peer paid).exec s).2
  | .setGrant grant => { s with grant }
  | .setPeerGrant grant => { s with peerGrant := grant }
  | .setStorageGrant grant => { s with storageGrant := grant }

/-- The cheques an event hands to the book. -/
def Event.cheques : Event → List ServingCheque
  | .receive c => [c]
  | .loadCheques cheques => cheques
  | _ => []

/-! ## What a step can do to the book -/

variable (bytes : U64) (s : ChequeService S)

theorem returns_totalEarned :
    totalEarned.Returns s ↔ s.book.poisoned = false ∧ ∃ total, s.book.value.totalEarned
      = .ok total :=
  exists_read_eq_ok

/-- A call that measures and then does what cannot fail and leaves the book alone: it returns
exactly when the measurement does, and leaves the book as the measurement does. -/
structure Measures (c : LockedCall (ChequeService S) α) (s : ChequeService S) : Prop where
  returns_iff : c.Returns s ↔ totalEarned.Returns s
  book : (c.exec s).2.book = (s.book.read ChequeBook.totalEarned).1

theorem measures_pinAdmits : Measures (pinAdmits bytes) s := by
  rcases h : s.book.read ChequeBook.totalEarned with ⟨book, _ | earned⟩
  · constructor <;> simp [LockedCall.Returns, pinAdmits, totalEarned, readBook, exec_bind, h]
  · by_cases hle : s.pinned.satAdd bytes ≤ earned.satAdd s.storageGrant
    all_goals
      constructor <;>
        simp [LockedCall.Returns, pinAdmits, totalEarned, readBook, exec_bind, Except.map, h, hle]

theorem measures_reciprocitySnapshot : Measures reciprocitySnapshot s := by
  rcases h : s.book.read ChequeBook.totalEarned with ⟨book, _ | earned⟩ <;>
    constructor <;> simp [LockedCall.Returns, reciprocitySnapshot, totalEarned, readBook, exec_bind,
      Except.map, h]

theorem measures_reciprocityAdmits {s : ChequeService S} (hp : s.myPaid = 0) :
    Measures (reciprocityAdmits bytes) s := by
  rcases h : s.book.read ChequeBook.totalEarned with ⟨book, _ | earned⟩ <;>
    constructor <;>
      simp [LockedCall.Returns, reciprocityAdmits, totalEarned, readBook, exec_bind, Except.map, h,
        hp]

theorem reciprocityAdmits_of_paid {s : ChequeService S} (hp : 0 < s.myPaid) :
    (reciprocityAdmits bytes).exec s = (.ok true, s) := by
  simp [reciprocityAdmits, exec_bind, hp]

theorem keeps_book_shouldServe (peer : B32) (bytes : U64) :
    (shouldServe peer bytes : LockedCall (ChequeService S) Bool).Keeps book := by
  refine LockedCall.Keeps.bind (fun _ => rfl) fun peerPaid => .ite (keeps_pure true) ?_
  refine LockedCall.Keeps.bind (fun s => read_ok s.book _) fun servedToPeer => ?_
  exact LockedCall.Keeps.bind (fun _ => rfl) fun peerServedMe => keeps_get.bind fun s => fun _ =>
    rfl

theorem keeps_book_onBytesReceived (provider : B32) (bytes ts : U64) :
    (onBytesReceived provider bytes ts : LockedCall (ChequeService S) _).Keeps book := by
  refine keeps_get.bind fun s => ?_
  refine LockedCall.Keeps.ite ?_ ?_
  all_goals
    refine LockedCall.Keeps.bind (fun _ => rfl) fun _ => LockedCall.Keeps.bind (fun _ => rfl)
      fun crossed => ?_
    cases crossed with
    | none => exact keeps_pure none
    | some additional =>
      exact keeps_get.bind fun s => LockedCall.Keeps.bind (fun _ => rfl) fun _ => keeps_pure _

/-- **A step does one of three things to the book**: nothing, one measurement, or the recording of
the cheques the event carries. -/
theorem book_step (e : Event) :
    ((s.step e).book = s.book ∧ e.cheques = [])
      ∨ ((s.step e).book = (s.book.read ChequeBook.totalEarned).1 ∧ e.cheques = [])
      ∨ (s.step e).book = (s.book.modify fun book => (book.recordAll S e.cheques, ())).1 := by
  cases e with
  | receive c =>
    exact .inr (.inr (modify_congr (f := fun b : ChequeBook => b.record S c)
      (g := fun b => (b.recordAll S [c], ())) (fun _ => rfl) s.book))
  | loadCheques cheques => exact .inr (.inr rfl)
  | onBytesReceived provider bytes ts => exact .inl ⟨keeps_book_onBytesReceived provider bytes ts s,
    rfl⟩
  | totalEarned => exact .inr (.inl ⟨rfl, rfl⟩)
  | pinAdmits bytes => exact .inr (.inl ⟨(measures_pinAdmits bytes s).book, rfl⟩)
  | shouldServe peer bytes => exact .inl ⟨keeps_book_shouldServe peer bytes s, rfl⟩
  | reciprocityAdmits bytes =>
    rcases eq_or_ne s.myPaid 0 with hp | hp
    · exact .inr (.inl ⟨(measures_reciprocityAdmits bytes hp).book, rfl⟩)
    · exact .inl ⟨by rw [step, reciprocityAdmits_of_paid bytes (Fin.pos_of_ne_zero hp)], rfl⟩
  | reciprocitySnapshot => exact .inr (.inl ⟨(measures_reciprocitySnapshot s).book, rfl⟩)
  | servingProof => exact .inl ⟨read_ok s.book _, rfl⟩
  | setMyPaid paid => exact .inl ⟨rfl, rfl⟩
  | setPeerPaid peer paid => exact .inl ⟨rfl, rfl⟩
  | setGrant grant => exact .inl ⟨rfl, rfl⟩
  | setPeerGrant grant => exact .inl ⟨rfl, rfl⟩
  | setStorageGrant grant => exact .inl ⟨rfl, rfl⟩

/-! ## The invariant -/

/-- A sound book holds what it was given, and a poisoned one was given more than a `u64` counts. -/
structure Kept (S : SigScheme) (me : B32) (given : List ServingCheque)
    (book : Mutex ChequeBook) : Prop where
  sound : book.poisoned = false → book.value.Holds S me given
  poisoned : book.poisoned = true → 2 ^ 64 ≤ shown (given.filter (backs S me))

variable {me : B32} {given : List ServingCheque} {book : Mutex ChequeBook}

theorem Kept.read (h : Kept S me given book) :
    Kept S me given (book.read ChequeBook.totalEarned).1 := by
  refine ⟨fun hp => ?_, fun hp => ?_⟩
  · rw [value_read]
    exact h.sound ((poisoned_read _ _).mp hp).1
  · cases hb : book.poisoned with
    | true => exact h.poisoned hb
    | false =>
      refine not_lt.mp fun hlt => ?_
      have hs := (poisoned_read book ChequeBook.totalEarned).mpr
        ⟨hb, (h.sound hb).exists_totalEarned.mpr hlt⟩
      rw [hp] at hs
      exact Bool.noConfusion hs

theorem Kept.record (h : Kept S me given book) (cheques : List ServingCheque) :
    Kept S me (given ++ cheques) (book.modify fun b => (b.recordAll S cheques, ())).1 := by
  refine ⟨fun hp => ?_, fun hp => ?_⟩ <;> rw [poisoned_modify] at hp
  · rw [value_modify hp]
    exact (h.sound hp).recordAll cheques
  · rw [filter_append]
    exact (h.poisoned hp).trans (shown_append_le _ _)

theorem Kept.step {s : ChequeService S} (h : Kept S me given s.book) (e : Event) :
    Kept S me (given ++ e.cheques) (s.step e).book := by
  rcases book_step s e with ⟨hb, hnil⟩ | ⟨hb, hnil⟩ | hb
  · rw [hb, hnil, append_nil]
    exact h
  · rw [hb, hnil, append_nil]
    exact h.read
  · rw [hb]
    exact h.record e.cheques

def chequesOf (events : List Event) : List ServingCheque := events.flatMap Event.cheques

theorem kept_run (identity : S.Secret) (events : List Event) :
    Kept S (S.nodeId identity) (chequesOf events) (run step (new identity) events).book := by
  induction events using reverseRecOn with
  | nil => exact ⟨fun _ => ChequeBook.holds_new S _, fun h => Bool.noConfusion h⟩
  | append_singleton events e ih =>
    rw [run_concat, chequesOf, flatMap_append, flatMap_singleton]
    exact ih.step e

/-! ## When the gates return -/

/-- The four calls that measure come back, whatever they are asked. -/
structure GatesReturn (s : ChequeService S) : Prop where
  totalEarned : totalEarned.Returns s
  reciprocityAdmits : ∀ bytes, (reciprocityAdmits bytes).Returns s
  pinAdmits : ∀ bytes, (pinAdmits bytes).Returns s
  reciprocitySnapshot : reciprocitySnapshot.Returns s

theorem gatesReturn_iff : s.GatesReturn ↔ ChequeService.totalEarned.Returns s := by
  refine ⟨GatesReturn.totalEarned, fun h => ⟨h, fun bytes => ?_, fun bytes => ?_, ?_⟩⟩
  · rcases eq_or_ne s.myPaid 0 with hp | hp
    · exact (measures_reciprocityAdmits bytes hp).returns_iff.mpr h
    · exact ⟨true, by rw [reciprocityAdmits_of_paid bytes (Fin.pos_of_ne_zero hp)]⟩
  · exact (measures_pinAdmits bytes s).returns_iff.mpr h
  · exact (measures_reciprocitySnapshot s).returns_iff.mpr h

/-- **The gates return exactly when what the consumers signed adds up to a `u64`.** The run may hold
any calls of the service beside the cheques: one that overflowed earlier has poisoned the book, and
the sum it met is still too large. -/
theorem gates_return_iff (identity : S.Secret) (events : List Event) :
    (run step (new identity) events).GatesReturn
      ↔ shown ((chequesOf events).filter (backs S (S.nodeId identity))) < 2 ^ 64 := by
  have hkept := kept_run identity events
  rw [gatesReturn_iff, returns_totalEarned]
  constructor
  · rintro ⟨hp, htotal⟩
    exact (hkept.sound hp).exists_totalEarned.mp htotal
  · intro hlt
    have hp : (run step (new identity) events).book.poisoned = false :=
      Bool.eq_false_iff.mpr fun hp => absurd hlt (not_lt.mpr (hkept.poisoned hp))
    exact ⟨hp, (hkept.sound hp).exists_totalEarned.mpr hlt⟩

/-- Two consumers of node 1, each signing for half of what a `u64` holds. -/
def twoHalves : List Event :=
  [.receive (.sign .transparent (2 : B32) 1 (2 ^ 63) 10),
    .receive (.sign .transparent (3 : B32) 1 (2 ^ 63) 11)]

/-- **Two valid cheques disable a node.** The next measurement panics, and after it neither gate nor
the recording of a further cheque gets past the lock. -/
theorem twoHalves_disable :
    let s := run step (new (S := .transparent) (1 : B32)) twoHalves
    (totalEarned.exec s).1 = .error (.panicked .overflow) ∧ ¬ s.GatesReturn
      ∧ ((receive (.sign .transparent (4 : B32) 1 1 12)).exec (totalEarned.exec s).2).1
          = .error .poisoned
      ∧ ((shouldServe (4 : B32) 1).exec (totalEarned.exec s).2).1 = .error .poisoned := by
  have hpanic : (totalEarned.exec (run step (new (S := .transparent) (1 : B32)) twoHalves)).1
      = .error (.panicked .overflow) := by
    decide +kernel
  refine ⟨hpanic, fun h => ?_, by decide +kernel, by decide +kernel⟩
  obtain ⟨total, htotal⟩ := h.totalEarned
  exact absurd (hpanic.symm.trans htotal) (by simp)

end ChequeService

end Zephcraft.Noded
