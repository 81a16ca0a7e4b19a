import Zephcraft.Com.Quorum
import Zephcraft.Foundations.OrderedMap

/-!
# Com/Sequencer — per-account nonces, ordered by a quorum

A write claims a nonce of an account and carries the account owner's signature; quorum members sign
it to order it; a write with enough member signatures is a commit, and an account's commits form a
sequence in which nonce and position agree.
-/

namespace Zephcraft.Com

open Zephcraft.Core

/-- An authored write. -/
structure SequencedWrite where
  account : B32
  nonce : U64
  payload : Bytes
  ownerSig : Bytes
deriving DecidableEq

def authoredBytes (account : B32) (nonce : U64) (payload : Bytes) : Bytes :=
  ascii "craftec/sequencer-owner/1" ++ account.toBytes ++ nonce.toLeBytes ++ payload

namespace SequencedWrite

/-- The write's wire encoding: fixed-size account, variable-width nonce, length-prefixed strings. -/
def encode (w : SequencedWrite) : Bytes :=
  w.account.toBytes
    ++ (varint w.nonce.val ++ (lengthPrefixed w.payload ++ lengthPrefixed w.ownerSig))

def signingBytes (w : SequencedWrite) : Bytes := ascii "craftec/sequencer/1" ++ w.encode

def slot (w : SequencedWrite) : B32 × U64 := (w.account, w.nonce)

theorem signingBytes_injective : Function.Injective signingBytes := by
  have hc := prefixCode_toBytes.pair
    (prefixCode_varint.pair (prefixCode_lengthPrefixed.pair prefixCode_lengthPrefixed))
  intro w w' h
  have ht : (w.account, w.nonce.val, w.payload, w.ownerSig)
      = (w'.account, w'.nonce.val, w'.payload, w'.ownerSig) :=
    hc.injective (List.append_cancel_left h)
  obtain ⟨account, nonce, payload, sig⟩ := w
  obtain ⟨account', nonce', payload', sig'⟩ := w'
  simpa [Fin.ext_iff] using ht

section

variable (S : SigScheme)

def author (identity : S.Secret) (nonce : U64) (payload : Bytes) : SequencedWrite :=
  let account := S.nodeId identity
  ⟨account, nonce, payload, S.sign identity (authoredBytes account nonce payload)⟩

/-- Did the account owner sign this write? -/
def ownerAuthentic (w : SequencedWrite) : Bool :=
  S.verifyBytes w.account (authoredBytes w.account w.nonce w.payload) w.ownerSig

def sign (w : SequencedWrite) (identity : S.Secret) : MemberSignature :=
  ⟨S.nodeId identity, S.sign identity w.signingBytes⟩

@[simp] theorem ownerAuthentic_author (identity : S.Secret) (nonce : U64) (payload : Bytes) :
    (author S identity nonce payload).ownerAuthentic S = true :=
  S.verifyBytes_sign identity _

end

end SequencedWrite

/-- A write and the member signatures collected for it. -/
@[ext] structure SequencedCommit where
  write : SequencedWrite
  signatures : List MemberSignature
deriving DecidableEq

namespace SequencedCommit

/-- Is the write owner-authentic and ordered by a threshold of an intersection-sized quorum? -/
def authorizes (c : SequencedCommit) (S : SigScheme) (q : Quorum) : Bool :=
  c.write.ownerAuthentic S && q.isIntersectionSized
    && q.threshold ≤ q.countSigners S c.write.signingBytes c.signatures

end SequencedCommit

/-- The commits of an account. -/
structure AccountSequence where
  account : B32
  commits : List SequencedCommit
deriving DecidableEq

namespace AccountSequence

def new (account : B32) : AccountSequence := ⟨account, []⟩

def nextNonce (s : AccountSequence) : U64 := Word.truncate s.commits.length

/-- Append a commit that is this account's, claims the next nonce and is authorized; `none` for one
that is refused. -/
def append (s : AccountSequence) (S : SigScheme) (c : SequencedCommit) (q : Quorum) :
    Option AccountSequence :=
  if c.write.account = s.account ∧ c.write.nonce = s.nextNonce ∧ c.authorizes S q then
    some { s with commits := s.commits ++ [c] }
  else none

/-- Is every commit this account's, in its place and authorized? -/
def verify (s : AccountSequence) (S : SigScheme) (q : Quorum) : Bool :=
  s.commits.zipIdx.all fun e =>
    e.1.write.account = s.account && e.1.write.nonce = (Word.truncate e.2 : U64)
      && e.1.authorizes S q

end AccountSequence

/-! ## The signing side -/

/-- A quorum member, with the write it has signed at each slot. -/
structure SequencerMember (S : SigScheme) where
  identity : S.Secret
  signed : BTreeMap (B32 × U64) SequencedWrite

namespace SequencerMember

variable {S : SigScheme}

def new (identity : S.Secret) : SequencerMember S := ⟨identity, ∅⟩

/-- Sign a write, unless it is not the owner's or another write was signed at its slot. -/
def sign (m : SequencerMember S) (w : SequencedWrite) :
    SequencerMember S × Option MemberSignature :=
  if w.ownerAuthentic S then
    match m.signed[w.slot]? with
    | some prev =>
      if prev = w then ({ m with signed := m.signed.insert w.slot w }, some (w.sign S m.identity))
      else (m, none)
    | none => ({ m with signed := m.signed.insert w.slot w }, some (w.sign S m.identity))
  else (m, none)

end SequencerMember

/-! ## What a commit can contain -/

/-- **Unforgeability, for one commit**: a valid signature of one of the given `signers` over the
commit's write is a signature that signer released — for a write that encodes the same. -/
def SequencedCommit.Unforged (c : SequencedCommit) (S : SigScheme) (signers : B32 → Prop)
    (released : List (B32 × SequencedWrite)) : Prop :=
  ∀ s ∈ c.signatures, signers s.member → S.verifyBytes s.member c.write.signingBytes s.signature →
      ∃ r ∈ released, r.1 = s.member ∧ r.2.signingBytes = c.write.signingBytes

instance (c : SequencedCommit) (S : SigScheme) (signers : B32 → Prop)
    [DecidablePred signers] (released : List (B32 × SequencedWrite)) :
    Decidable (c.Unforged S signers released) :=
  inferInstanceAs (Decidable (∀ s ∈ c.signatures, _))

theorem SequencedCommit.authorizes_iff {c : SequencedCommit} {S : SigScheme} {q : Quorum} :
    c.authorizes S q ↔ c.write.ownerAuthentic S ∧ q.isIntersectionSized
      ∧ q.threshold ≤ (q.signers S c.write.signingBytes c.signatures).card := by
  simp only [authorizes, Bool.and_eq_true, decide_eq_true_eq, and_assoc]
  rfl

theorem SequencedCommit.Unforged.released_of_mem_signers {c : SequencedCommit} {S : SigScheme}
    {signers : B32 → Prop} {released : List (B32 × SequencedWrite)}
    (h : c.Unforged S signers released) {q : Quorum} {m : B32}
    (hm : m ∈ q.signers S c.write.signingBytes c.signatures) (hs : signers m) :
    (m, c.write) ∈ released := by
  obtain ⟨-, s, hmem, rfl, hv⟩ := Quorum.mem_signers.mp hm
  obtain ⟨⟨_, w⟩, hr, rfl, hb⟩ := h s hmem hs hv
  exact SequencedWrite.signingBytes_injective hb ▸ hr

end Zephcraft.Com
