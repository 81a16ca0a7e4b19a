import Zephcraft.Com.Sequencer

/-!
# Noded/SequenceStore — a node's account sequences and its signed-set

A node keeps the committed sequence of every `(owner, program, account)` it has seen, and — as a
quorum member — which write it has signed at each `(owner, program, account, nonce)`, by the hash of
the bytes it signed.
-/

namespace Zephcraft.Noded

open Zephcraft.Core Com

/-- A program's chain: `(owner, program)`. -/
abbrev Chain := B32 × B32

abbrev SeqKey := B32 × B32 × B32

/-- The non-equivocation key: `(owner, program, account, nonce)`. -/
abbrev SignedKey := B32 × B32 × B32 × U64

/-- The signed-set: the hash of what was signed at each key. -/
abbrev SignedSet := BTreeMap SignedKey B32

/-- The key a write is signed under on a chain. -/
def signedKey (chain : Chain) (w : SequencedWrite) : SignedKey :=
  (chain.1, chain.2, w.account, w.nonce)

/-- Enter a hash at a key; `none` if another one is there. -/
def SignedSet.enter (signed : SignedSet) (key : SignedKey) (h : B32) : Option SignedSet :=
  match signed[key]? with
  | some prev => if prev = h then some (signed.insert key h) else none
  | none => some (signed.insert key h)

/-- Does `longer` have all of `base`'s commits in front? -/
def extendsSequence (base longer : AccountSequence) : Bool :=
  base.commits.length ≤ longer.commits.length
    && (base.commits.zip longer.commits).all fun e => e.1 = e.2

/-- The store of one node; `signedFile` is what is on disk. -/
structure SequenceStore (S : SigScheme) where
  identity : S.Secret
  sequences : BTreeMap SeqKey AccountSequence
  signed : SignedSet
  signedFile : SignedSet

namespace SequenceStore

variable {S : SigScheme}

def new (identity : S.Secret) : SequenceStore S := ⟨identity, ∅, ∅, ∅⟩

variable (s : SequenceStore S)

def me : B32 := S.nodeId s.identity

/-- May this node order the write under the quorum? -/
def mayOrder (q : Quorum) (w : SequencedWrite) : Bool :=
  q.isMember s.me && q.isIntersectionSized && w.ownerAuthentic S

/-- Add this node's ordering signature to a write of `chain`, unless its quorum does not ask for it
or another write was signed at the key. -/
def signWriteLocally (blake3 : Bytes → B32) (quorum : Option Quorum)
    (chain : Chain) (w : SequencedWrite) : SequenceStore S × Option MemberSignature :=
  match quorum with
  | none => (s, none)
  | some q =>
    if s.mayOrder q w then
      match s.signed.enter (signedKey chain w) (blake3 w.signingBytes) with
      | none => (s, none)
      | some signed => ({ s with signed := signed, signedFile := signed },
        some (w.sign S s.identity))
    else (s, none)

/-- Append a collected commit to its account's sequence on `chain`; `none` if it is refused. What
peers hold has been adopted before. -/
def submit (quorum : Option Quorum) (chain : Chain) (c : SequencedCommit) :
    Option (SequenceStore S) := do
  let q ← quorum
  let key : SeqKey := (chain.1, chain.2, c.write.account)
  let seq ← (s.sequences.getD key (.new c.write.account)).append S c q
  return { s with sequences := s.sequences.insert key seq }

/-- Take over a fetched sequence that verifies and extends what is held; the answer says whether it
is held now. -/
def adopt (key : SeqKey) (fetched : AccountSequence) (q : Quorum) : SequenceStore S × Bool :=
  if fetched.account ≠ key.2.2 ∨ ¬ fetched.verify S q then (s, false)
  else
    let cur := s.sequences[key]?
    let curLen := cur.elim 0 AccountSequence.nextNonce
    if cur.any fun c => ¬ extendsSequence c fetched then (s, false)
    else if curLen < fetched.nextNonce then
      ({ s with sequences := s.sequences.insert key fetched }, true)
    else (s, true)

end SequenceStore

/-! ## Signing, by its outcome -/

theorem SignedSet.enter_eq_some {signed signed' : SignedSet} {key : SignedKey} {h : B32} :
    signed.enter key h = some signed'
      ↔ signed.insert key h = signed' ∧ ∀ prev, signed[key]? = some prev → prev = h := by
  rw [SignedSet.enter]
  split
  · rename_i prev hp
    split
    · rename_i heq
      simp [hp, heq]
    · rename_i hne
      simp [hp, hne]
  · rename_i hn
    simp [hn]

namespace SequenceStore

variable {S : SigScheme}

/-- **A refusal changes nothing; a signature was asked for by an intersection-sized quorum with this
node in it, on an authentic write, and its hash is entered at the key.** -/
theorem signWriteLocally_cases (s : SequenceStore S) (blake3 : Bytes → B32)
    (quorum : Option Quorum) (chain : Chain) (w : SequencedWrite) :
    s.signWriteLocally blake3 quorum chain w = (s, none)
      ∨ ∃ q signed, quorum = some q ∧ s.mayOrder q w
        ∧ s.signed.enter (signedKey chain w) (blake3 w.signingBytes) = some signed
        ∧ s.signWriteLocally blake3 quorum chain w
          = ({ s with signed := signed, signedFile := signed }, some (w.sign S s.identity)) := by
  cases quorum with
  | none => exact .inl rfl
  | some q =>
    by_cases hmay : s.mayOrder q w
    · cases he : s.signed.enter (signedKey chain w) (blake3 w.signingBytes) with
      | none => exact .inl (by simp [signWriteLocally, hmay, he])
      | some signed =>
        exact .inr ⟨q, signed, rfl, hmay, rfl, by simp [signWriteLocally, hmay, he]⟩
    · exact .inl (by simp [signWriteLocally, hmay])

theorem isSome_signWriteLocally {s : SequenceStore S} {blake3 : Bytes → B32} {q : Quorum}
    (chain : Chain) {w : SequencedWrite} (hmay : s.mayOrder q w)
    (hf : ∀ prev, s.signed[signedKey chain w]? = some prev → prev = blake3 w.signingBytes) :
    (s.signWriteLocally blake3 (some q) chain w).2.isSome := by
  simp [signWriteLocally, hmay, SignedSet.enter_eq_some.mpr ⟨rfl, hf⟩]

theorem mayOrder_iff {s : SequenceStore S} {q : Quorum} {w : SequencedWrite} :
    s.mayOrder q w ↔ s.me ∈ q.members ∧ q.isIntersectionSized ∧ w.ownerAuthentic S := by
  simp [mayOrder, Quorum.isMember, and_assoc]

end SequenceStore

end Zephcraft.Noded
