import Zephcraft.Com.Quorum

/-!
# Com/Attestation — statements that a quorum authorizes

A quorum authorizes an action at its next number: a statement of the app, which is bytes, or a
change of its own members and threshold.
-/

namespace Zephcraft.Com

open Zephcraft.Core Word

/-- What a proposal asks. -/
inductive AttestAction where
  | statement (bytes : Bytes)
  | addMember (member : B32)
  | removeMember (member : B32)
  | setThreshold (threshold : U64)
deriving DecidableEq

/-- A change of the member set. -/
inductive MemberChange where
  | add (member : B32)
  | remove (member : B32)
  | setThreshold (threshold : U64)

namespace AttestAction

/-- The wire encoding: the number of the variant, and its field. -/
def encode : AttestAction → Bytes
  | statement bytes => varint 0 ++ lengthPrefixed bytes
  | addMember member => varint 1 ++ member.toBytes
  | removeMember member => varint 2 ++ member.toBytes
  | setThreshold threshold => varint 3 ++ varint threshold.val

theorem prefixCode_encode : PrefixCode encode := by
  intro a b s t h
  cases a <;> cases b <;> simp only [encode, List.append_assoc] at h <;>
    obtain ⟨htag, h⟩ := prefixCode_varint h <;> first | omega | skip
  · obtain ⟨rfl, rfl⟩ := prefixCode_lengthPrefixed h
    exact ⟨rfl, rfl⟩
  · obtain ⟨rfl, rfl⟩ := prefixCode_toBytes h
    exact ⟨rfl, rfl⟩
  · obtain ⟨rfl, rfl⟩ := prefixCode_toBytes h
    exact ⟨rfl, rfl⟩
  · obtain ⟨hval, rfl⟩ := prefixCode_varint h
    obtain rfl := Fin.ext hval
    exact ⟨rfl, rfl⟩

/-- The membership change an action makes; a statement makes none. -/
def memberChange : AttestAction → Option MemberChange
  | statement _ => none
  | addMember member => some (.add member)
  | removeMember member => some (.remove member)
  | setThreshold threshold => some (.setThreshold threshold)

end AttestAction

/-- An action at a number. -/
structure AttestProposal where
  action : AttestAction
  seq : U64
deriving DecidableEq

namespace AttestProposal

def signingBytes (p : AttestProposal) : Bytes :=
  ascii "craftec/attest/1" ++ (p.action.encode ++ varint p.seq.val)

def sign (S : SigScheme) (p : AttestProposal) (identity : S.Secret) : MemberSignature :=
  ⟨S.nodeId identity, S.sign identity p.signingBytes⟩

theorem signingBytes_injective : Function.Injective signingBytes := by
  rintro ⟨action, seq⟩ ⟨action', seq'⟩ h
  have hp : (action, seq.val) = (action', seq'.val) :=
    (AttestAction.prefixCode_encode.pair prefixCode_varint).injective (List.append_cancel_left h)
  obtain ⟨rfl, hval⟩ := Prod.mk.inj hp
  obtain rfl := Fin.ext hval
  rfl

end AttestProposal

/-- A proposal and the signatures that were collected for it. -/
structure Attestation where
  proposal : AttestProposal
  signatures : List MemberSignature

namespace Quorum

/-- The quorum one number on, with a membership change. -/
def advance (q : Quorum) (seq : U64) : Option MemberChange → Quorum
  | none => { q with seq := seq }
  | some (.add member) => ⟨canonical (q.members ++ [member]), q.threshold, seq,
    pairwise_canonical _⟩
  | some (.remove member) =>
    ⟨q.members.filter (· ≠ member), min q.threshold (max (q.members.filter (· ≠ member)).length 1),
      seq, q.sorted.filter _⟩
  | some (.setThreshold threshold) =>
    ⟨q.members, max 1 (min threshold.val (max q.members.length 1)), seq, q.sorted⟩

@[simp] theorem advance_seq (q : Quorum) (seq : U64) (change : Option MemberChange) :
    (q.advance seq change).seq = seq := by
  rcases change with _ | _ | _ | _ <;> rfl

/-! ### What a quorum decides

Governance and the programs' quorums decide alike: a proposal with the next number and enough
signatures of members passes, and may change the quorum. -/

section Decide

variable (S : SigScheme) (seq : U64) (msg : Bytes) (sigs : List MemberSignature)

/-- Does what is proposed have the next number, and enough signatures? -/
def approves (q : Quorum) : Except Panic Bool := do
  let next ← q.seq.addOrPanic 1
  pure (seq = next && q.threshold ≤ q.countSigners S msg sigs)

/-- The advanced quorum, or nothing if it does not pass. -/
def enact (change : Option MemberChange) (q : Quorum) : Except Panic (Option Quorum) := do
  if ← q.approves S seq msg sigs then
    let next ← q.seq.addOrPanic 1
    pure (some (q.advance next change))
  else pure none

variable {S seq msg sigs} {change : Option MemberChange} {q q' : Quorum}

theorem approves_eq_true : q.approves S seq msg sigs = .ok true
    ↔ seq.val = q.seq.val + 1 ∧ q.threshold ≤ (q.signers S msg sigs).card := by
  rw [approves, Except.bind_eq_ok]
  constructor
  · rintro ⟨next, hn, h⟩
    have hval := addOrPanic_eq_ok.mp hn
    have hb := Except.ok.inj h
    rw [Bool.and_eq_true, decide_eq_true_eq, decide_eq_true_eq] at hb
    exact ⟨hb.1 ▸ hval, hb.2⟩
  · rintro ⟨hseq, hc⟩
    refine ⟨seq, addOrPanic_eq_ok.mpr hseq, congrArg Except.ok ?_⟩
    rw [Bool.and_eq_true, decide_eq_true_eq, decide_eq_true_eq]
    exact ⟨rfl, hc⟩

/-- **What passing does**: the quorum takes the number of the proposal, and its change. -/
theorem enact_eq_some : q.enact S seq msg sigs change = .ok (some q')
    ↔ q.approves S seq msg sigs = .ok true ∧ q' = q.advance seq change := by
  rw [enact, Except.bind_eq_ok]
  constructor
  · rintro ⟨passes, hp, h⟩
    cases passes with
    | false => cases h
    | true =>
      obtain ⟨next, hn, h⟩ := Except.bind_eq_ok.mp h
      have hval := addOrPanic_eq_ok.mp hn
      have hseq : seq = next := Fin.ext ((approves_eq_true.mp hp).1.trans hval.symm)
      exact ⟨hp, hseq ▸ (Option.some.inj (Except.ok.inj h)).symm⟩
  · rintro ⟨hp, rfl⟩
    have hn : q.seq.addOrPanic 1 = .ok seq := addOrPanic_eq_ok.mpr (approves_eq_true.mp hp).1
    refine ⟨true, hp, ?_⟩
    rw [if_pos rfl]
    exact Except.bind_eq_ok.mpr ⟨seq, hn, rfl⟩

end Decide

end Quorum

namespace Attestation

variable (S : SigScheme)

/-- Does it target the next number, with enough signatures? -/
def authorizes (att : Attestation) (q : Quorum) : Except Panic Bool :=
  q.approves S att.proposal.seq att.proposal.signingBytes att.signatures

/-- The advanced quorum, or nothing if it is not authorized. -/
def applyTo (att : Attestation) (q : Quorum) : Except Panic (Option Quorum) :=
  q.enact S att.proposal.seq att.proposal.signingBytes att.signatures
    att.proposal.action.memberChange

variable {S} {att : Attestation} {q : Quorum}

/-- **What an authorized attestation is**: its number is the next, and a threshold of the members
signed it. -/
theorem authorizes_eq_true : att.authorizes S q = .ok true ↔ att.proposal.seq.val = q.seq.val + 1
      ∧ q.threshold ≤ (q.signers S att.proposal.signingBytes att.signatures).card :=
  Quorum.approves_eq_true

/-- **What an attestation does**: authorized, it advances the quorum to its own number. -/
theorem applyTo_eq_some {q' : Quorum} : att.applyTo S q = .ok (some q')
    ↔ att.authorizes S q = .ok true
      ∧ q' = q.advance att.proposal.seq att.proposal.action.memberChange :=
  Quorum.enact_eq_some

theorem exists_applyTo_eq_some : (∃ q', att.applyTo S q = .ok (some q'))
    ↔ att.authorizes S q = .ok true := by
  simp only [applyTo_eq_some, exists_and_left, exists_eq, and_true]

end Attestation

/-- A genesis quorum, and the attestations that extend it. -/
structure QuorumChain where
  genesis : Quorum
  attestations : List Attestation

namespace QuorumChain

variable (S : SigScheme)

/-- The quorum the chain folds to from `q`; nothing if an attestation does not extend what is before
it. -/
def fold (q : Quorum) : List Attestation → Except Panic (Option Quorum)
  | [] => pure (some q)
  | att :: rest => do
    match ← att.applyTo S q with
    | none => pure none
    | some next => fold next rest

def current (chain : QuorumChain) : Except Panic (Option Quorum) :=
  fold S chain.genesis chain.attestations

/-- Append an attestation if it extends the chain. -/
def append (chain : QuorumChain) (att : Attestation) : Except Panic (Bool × QuorumChain) := do
  match ← chain.current S with
  | none => pure (false, chain)
  | some q =>
    match ← att.applyTo S q with
    | none => pure (false, chain)
    | some _ => pure (true, { chain with attestations := chain.attestations ++ [att] })

variable {S} {chain : QuorumChain} {att : Attestation}

theorem exists_append_eq_true : (∃ chain', chain.append S att = .ok (true, chain'))
    ↔ ∃ q, chain.current S = .ok (some q) ∧ att.authorizes S q = .ok true := by
  simp only [append, Except.bind_eq_ok, ← Attestation.exists_applyTo_eq_some]
  constructor
  · rintro ⟨chain', folded, hc, h⟩
    cases folded with
    | none => cases h
    | some q =>
      obtain ⟨applied, ha, h⟩ := Except.bind_eq_ok.mp h
      cases applied with
      | none => cases h
      | some q' => exact ⟨q, hc, q', ha⟩
  · rintro ⟨q, hc, q', ha⟩
    refine ⟨{ chain with attestations := chain.attestations ++ [att] }, some q, hc, ?_⟩
    exact Except.bind_eq_ok.mpr ⟨some q', ha, rfl⟩

end QuorumChain

end Zephcraft.Com
