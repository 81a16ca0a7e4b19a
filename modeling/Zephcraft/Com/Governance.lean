import Zephcraft.Com.Agreement
import Zephcraft.Com.Attestation
import Zephcraft.Foundations.Replay

/-!
# Com/Governance — the chain of approvals

The governors are a quorum. They decide which programs and values the network runs with, and who
governs; what a threshold of them has signed is an approval, and the approvals form a chain that
anyone can check from its genesis.
-/

namespace Zephcraft.Com

open Zephcraft.Core Quorum Replay

/-- An `i64`. -/
abbrev I64 := { v : ℤ // -2 ^ 63 ≤ v ∧ v < 2 ^ 63 }

/-- Signed integers are numbered from zero outwards before they are written. -/
def zigzag (v : ℤ) : ℕ := if 0 ≤ v then (2 * v).toNat else (-2 * v - 1).toNat

theorem zigzag_injective : Function.Injective zigzag := by
  intro v w h
  unfold zigzag at h
  split at h <;> split at h <;> omega

/-- A change of what the network runs with. -/
inductive GovAction where
  | setProgram (name : Bytes) (cid : B32)
  | setConfig (key : Bytes) (value : I64)
  | addGovernor (governor : B32)
  | removeGovernor (governor : B32)
  | setThreshold (threshold : U64)
deriving DecidableEq

namespace GovAction

/-- The wire encoding: the number of the variant, and its fields. -/
def encode : GovAction → Bytes
  | setProgram name cid => varint 0 ++ (lengthPrefixed name ++ cid.toBytes)
  | setConfig key value => varint 1 ++ (lengthPrefixed key ++ varint (zigzag value.val))
  | addGovernor governor => varint 2 ++ governor.toBytes
  | removeGovernor governor => varint 3 ++ governor.toBytes
  | setThreshold threshold => varint 4 ++ varint threshold.val

theorem prefixCode_encode : PrefixCode encode := by
  intro a b s t h
  cases a <;> cases b <;> simp only [encode, List.append_assoc] at h <;>
    obtain ⟨htag, h⟩ := prefixCode_varint h <;> first | omega | skip
  · obtain ⟨rfl, hcid⟩ := prefixCode_lengthPrefixed h
    obtain ⟨rfl, rfl⟩ := prefixCode_toBytes hcid
    exact ⟨rfl, rfl⟩
  · obtain ⟨rfl, hr⟩ := prefixCode_lengthPrefixed h
    obtain ⟨hv, rfl⟩ := prefixCode_varint hr
    obtain rfl := Subtype.ext (zigzag_injective hv)
    exact ⟨rfl, rfl⟩
  · obtain ⟨rfl, rfl⟩ := prefixCode_toBytes h
    exact ⟨rfl, rfl⟩
  · obtain ⟨rfl, rfl⟩ := prefixCode_toBytes h
    exact ⟨rfl, rfl⟩
  · obtain ⟨hval, rfl⟩ := prefixCode_varint h
    obtain rfl := Fin.ext hval
    exact ⟨rfl, rfl⟩

/-- The change of the governors that an action makes. -/
def memberChange : GovAction → Option MemberChange
  | addGovernor governor => some (.add governor)
  | removeGovernor governor => some (.remove governor)
  | setThreshold threshold => some (.setThreshold threshold)
  | setProgram _ _ | setConfig _ _ => none

end GovAction

/-- An action at a number. -/
structure GovernanceProposal where
  action : GovAction
  seq : U64
deriving DecidableEq

namespace GovernanceProposal

def signingBytes (p : GovernanceProposal) : Bytes :=
  ascii "craftec/gov/1" ++ (p.action.encode ++ varint p.seq.val)

def sign (S : SigScheme) (p : GovernanceProposal) (identity : S.Secret) : MemberSignature :=
  ⟨S.nodeId identity, S.sign identity p.signingBytes⟩

theorem signingBytes_injective : Function.Injective signingBytes := by
  rintro ⟨action, seq⟩ ⟨action', seq'⟩ h
  have hp : (action, seq.val) = (action', seq'.val) :=
    (GovAction.prefixCode_encode.pair prefixCode_varint).injective (List.append_cancel_left h)
  obtain ⟨rfl, hval⟩ := Prod.mk.inj hp
  obtain rfl := Fin.ext hval
  rfl

end GovernanceProposal

/-- A proposal and the signatures that were collected for it. -/
structure GovernanceApproval where
  proposal : GovernanceProposal
  signatures : List MemberSignature

abbrev GovernanceSet := Quorum

namespace GovernanceApproval

variable (S : SigScheme) (a : GovernanceApproval) (set : GovernanceSet)

/-- The advanced set, or nothing if it is not authorized. -/
def applyTo : Except Panic (Option GovernanceSet) :=
  set.enact S a.proposal.seq a.proposal.signingBytes a.signatures a.proposal.action.memberChange

end GovernanceApproval

/-- A genesis set, and the approvals that extend it. -/
structure GovernanceChain where
  genesis : GovernanceSet
  approvals : List GovernanceApproval

namespace GovernanceChain

variable (S : SigScheme)

def seq (chain : GovernanceChain) : Except Panic U64 :=
  chain.genesis.seq.addOrPanic (Word.truncate chain.approvals.length)

/-- What was decided, without the signatures. -/
def proposals (chain : GovernanceChain) : List GovernanceProposal :=
  chain.approvals.map GovernanceApproval.proposal

variable {S} {chain chain' : GovernanceChain} {a : GovernanceApproval} {set : GovernanceSet}

theorem seq_replay {genesis : GovernanceSet} {approvals : List GovernanceApproval}
    (h : replay (GovernanceApproval.applyTo S) genesis approvals = .ok (some set)) :
    set.seq.val = genesis.seq.val + approvals.length := by
  induction approvals generalizing genesis with
  | nil =>
    cases h
    rfl
  | cons a approvals ih =>
    obtain ⟨next, ha, hr⟩ := replay_cons.mp h
    obtain ⟨hp, rfl⟩ := enact_eq_some.mp ha
    have hn := (approves_eq_true.mp hp).1
    rw [ih hr, advance_seq, hn, List.length_cons]
    omega

theorem seq_eq_ok {n : U64} (h : chain.seq = .ok n) (hlen : chain.approvals.length < 2 ^ 64) :
    n.val = chain.genesis.seq.val + chain.approvals.length := by
  have hval := Word.addOrPanic_eq_ok.mp h
  rwa [Word.val_truncate, Nat.mod_eq_of_lt hlen] at hval

end GovernanceChain

/-! ## Chains that governors stand behind -/

abbrev SignatureLog := List (B32 × GovernanceProposal)

section Backed

variable (S : SigScheme) (log : SignatureLog)

/-- The signatures of governors that an approval counts were all given: their governor has signed
those bytes. -/
def Vouched (set : GovernanceSet) (a : GovernanceApproval) : Prop :=
  ∀ m ∈ set.signers S a.proposal.signingBytes a.signatures,
    ∃ e ∈ log, e.1 = m ∧ e.2.signingBytes = a.proposal.signingBytes

theorem vouched_iff {set : GovernanceSet} {a : GovernanceApproval} : Vouched S log set a
    ↔ ∀ s ∈ a.signatures, s.member ∈ set.members
      → S.verifyBytes s.member a.proposal.signingBytes s.signature →
      ∃ e ∈ log, e.1 = s.member ∧ e.2.signingBytes = a.proposal.signingBytes := by
  constructor
  · exact fun h s hs hm hv => h s.member (Quorum.mem_signers.mpr ⟨hm, s, hs, rfl, hv⟩)
  · intro h m hm
    obtain ⟨hme, s, hs, rfl, hv⟩ := Quorum.mem_signers.mp hm
    exact h s hs hme hv

instance decidableVouchedApproval (set : GovernanceSet) (a : GovernanceApproval) :
    Decidable (Vouched S log set a) :=
  decidable_of_iff _ (vouched_iff S log).symm

/-- What holds of the set an approval leads to, if it is authorized. -/
def Then (P : GovernanceSet → Prop) : Except Panic (Option GovernanceSet) → Prop
  | .ok (some next) => P next
  | _ => True

instance decidableThen (P : GovernanceSet → Prop) [DecidablePred P] : DecidablePred (Then P)
  | .ok (some next) => inferInstanceAs (Decidable (P next))
  | .ok none => isTrue trivial
  | .error _ => isTrue trivial

/-- …along approvals, each by the set that the ones before it have left. -/
def VouchedAlong : List GovernanceApproval → GovernanceSet → Prop
  | [], _ => True
  | a :: rest, set => Vouched S log set a ∧ Then (VouchedAlong rest) (a.applyTo S set)

/-- Every set that approves one of the approvals is a majority one. -/
def SizedAlong : List GovernanceApproval → GovernanceSet → Prop
  | [], _ => True
  | a :: rest, set => set.isIntersectionSized ∧ Then (SizedAlong rest) (a.applyTo S set)

instance decidableVouchedAlong : ∀ approvals, DecidablePred (VouchedAlong S log approvals)
  | [] => fun _ => isTrue trivial
  | a :: rest => fun set =>
    have := decidableVouchedAlong rest
    inferInstanceAs
      (Decidable (Vouched S log set a ∧ Then (VouchedAlong S log rest) (a.applyTo S set)))

instance decidableSizedAlong : ∀ approvals, DecidablePred (SizedAlong S approvals)
  | [] => fun _ => isTrue trivial
  | a :: rest => fun set =>
    have := decidableSizedAlong rest
    inferInstanceAs
      (Decidable (set.isIntersectionSized ∧ Then (SizedAlong S rest) (a.applyTo S set)))

/-- A chain of approvals that majority sets stand behind. -/
structure Backed (set : GovernanceSet) (approvals : List GovernanceApproval) : Prop where
  valid : ∃ last, replay (GovernanceApproval.applyTo S) set approvals = .ok (some last)
  vouched : VouchedAlong S log approvals set
  sized : SizedAlong S approvals set

/-- No governor has signed two proposals of one number. -/
def OneEach : Prop := ∀ e ∈ log, ∀ e' ∈ log, e.1 = e'.1 → e.2.seq = e'.2.seq → e.2 = e'.2
deriving Decidable

variable {S log} {set next : GovernanceSet} {a : GovernanceApproval}
  {l l' : List GovernanceApproval}

theorem Backed.length_lt (h : Backed S log set l) : l.length < 2 ^ 64 := by
  obtain ⟨last, hl⟩ := h.valid
  have hseq := GovernanceChain.seq_replay hl
  have hlt := last.seq.isLt
  omega

theorem vouchedAlong_cons (ha : a.applyTo S set = .ok (some next)) :
    VouchedAlong S log (a :: l) set ↔ Vouched S log set a ∧ VouchedAlong S log l next := by
  rw [VouchedAlong, ha]
  rfl

theorem sizedAlong_cons (ha : a.applyTo S set = .ok (some next)) :
    SizedAlong S (a :: l) set ↔ set.isIntersectionSized ∧ SizedAlong S l next := by
  rw [SizedAlong, ha]
  rfl

theorem backed_cons : Backed S log set (a :: l) ↔ Vouched S log set a ∧ set.isIntersectionSized
    ∧ ∃ next, a.applyTo S set = .ok (some next) ∧ Backed S log next l := by
  constructor
  · rintro ⟨⟨last, hl⟩, hvo, hsi⟩
    obtain ⟨next, ha, hr⟩ := replay_cons.mp hl
    obtain ⟨hv, hvr⟩ := (vouchedAlong_cons ha).mp hvo
    obtain ⟨hs, hsr⟩ := (sizedAlong_cons ha).mp hsi
    exact ⟨hv, hs, next, ha, ⟨last, hr⟩, hvr, hsr⟩
  · rintro ⟨hv, hs, next, ha, ⟨last, hr⟩, hvr, hsr⟩
    exact ⟨⟨last, replay_cons.mpr ⟨next, ha, hr⟩⟩, (vouchedAlong_cons ha).mpr ⟨hv, hvr⟩,
      (sizedAlong_cons ha).mpr ⟨hs, hsr⟩⟩

theorem proposal_eq_of_vouched {a' : GovernanceApproval} {next' : GovernanceSet}
    (hone : OneEach log) (hs : set.isIntersectionSized) (hv : Vouched S log set a)
    (hv' : Vouched S log set a') (ha : a.applyTo S set = .ok (some next))
    (ha' : a'.applyTo S set = .ok (some next')) :
    a.proposal = a'.proposal := by
  obtain ⟨hseq, hc⟩ := approves_eq_true.mp (enact_eq_some.mp ha).1
  obtain ⟨hseq', hc'⟩ := approves_eq_true.mp (enact_eq_some.mp ha').1
  obtain ⟨m, hm, -⟩ := exists_shared_outside (d := ∅) hs (set.signers_subset S _ _)
    (set.signers_subset S _ _) hc hc' (by simp)
  obtain ⟨hm, hm'⟩ := Finset.mem_inter.mp hm
  obtain ⟨⟨m, p⟩, hp, rfl, hb⟩ := hv m hm
  obtain ⟨⟨m', p'⟩, hp', hmm, hb'⟩ := hv' m hm'
  obtain rfl := GovernanceProposal.signingBytes_injective hb
  obtain rfl := GovernanceProposal.signingBytes_injective hb'
  exact hone _ hp _ hp' hmm.symm (Fin.ext (hseq.trans hseq'.symm))

/-- One of the two lists goes on where the other stops. -/
def Comparable {α : Type} (l l' : List α) : Prop := l <+: l' ∨ l' <+: l

theorem comparable_of_backed (hone : OneEach log) (h : Backed S log set l)
    (h' : Backed S log set l') :
    Comparable (l.map GovernanceApproval.proposal) (l'.map GovernanceApproval.proposal) := by
  induction l generalizing set l' with
  | nil => exact .inl (List.nil_prefix)
  | cons a l ih =>
    cases l' with
    | nil => exact .inr (List.nil_prefix)
    | cons a' l' =>
      obtain ⟨hv, hs, next, ha, hr⟩ := backed_cons.mp h
      obtain ⟨hv', -, next', ha', hr'⟩ := backed_cons.mp h'
      have hsa := proposal_eq_of_vouched hone hs hv hv' ha ha'
      obtain ⟨-, rfl⟩ := enact_eq_some.mp ha
      obtain ⟨-, rfl⟩ := enact_eq_some.mp ha'
      rw [hsa] at hr
      rw [List.map_cons, List.map_cons, hsa]
      exact (ih hr hr').imp (fun hp => List.cons_prefix_cons.mpr ⟨rfl, hp⟩)
        fun hp => List.cons_prefix_cons.mpr ⟨rfl, hp⟩

end Backed

end Zephcraft.Com
