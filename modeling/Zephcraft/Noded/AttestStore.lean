import Zephcraft.Com.Attestation

/-!
# Noded/AttestStore — the chains of many programs

A node keeps a chain for each owner and program. A statement is proposed for a chain, members cosign
it, and the owner appends what was collected.
-/

namespace Zephcraft.Noded

open Zephcraft.Core Com Finset Quorum

abbrev ChainKey := B32 × B32

/-- A node's chains. -/
structure AttestStore (S : SigScheme) where
  identity : S.Secret
  chains : ChainKey → Option QuorumChain

namespace AttestStore

variable {S : SigScheme} (store : AttestStore S)

/-- The node is the owner of the programs whose quorums it declares. -/
def owner : B32 := S.nodeId store.identity

/-- Declare the quorum of a program, once. -/
def bootstrap (program : B32) (members : List B32) (threshold : ℕ) : AttestStore S :=
  match store.chains (store.owner, program) with
  | some _ => store
  | none =>
    let chain : QuorumChain := ⟨.genesis members threshold, []⟩
    { store with chains := Function.update store.chains (store.owner, program) (some chain) }

/-- Append an attestation to the chain of one of the node's programs. -/
def submit (program : B32) (att : Attestation) : Except Panic (Bool × AttestStore S) :=
  match store.chains (store.owner, program) with
  | none => .ok (false, store)
  | some chain => do
    let (accepted, chain') ← chain.append S att
    pure (accepted,
      { store with chains := Function.update store.chains (store.owner, program) (some chain') })

def Accepts (program : B32) (att : Attestation) : Prop :=
  ∃ store', store.submit program att = .ok (true, store')

variable {store}

theorem accepts_iff {program : B32} {att : Attestation} : store.Accepts program att
    ↔ ∃ chain q, store.chains (store.owner, program) = some chain ∧ chain.current S = .ok (some q)
      ∧ att.authorizes S q = .ok true := by
  rw [Accepts, submit]
  cases store.chains (store.owner, program) with
  | none => simp
  | some chain =>
    simp only [Except.bind_eq_ok, Option.some.injEq, exists_and_left, exists_eq_left']
    rw [← QuorumChain.exists_append_eq_true]
    constructor
    · rintro ⟨store', ⟨accepted, chain'⟩, ha, h⟩
      obtain ⟨rfl, -⟩ := Prod.mk.inj (Except.ok.inj h)
      exact ⟨chain', ha⟩
    · rintro ⟨chain', ha⟩
      exact ⟨_, (true, chain'), ha, rfl⟩

end AttestStore

/-! ## Signatures for one chain, on another -/

section Foreign

variable (S : SigScheme)

/-- A member has signed a proposal, for a chain. -/
structure Given where
  key : ChainKey
  signer : S.Secret
  proposal : AttestProposal

variable {S}

def Given.signature (g : Given S) : MemberSignature := g.proposal.sign S g.signer

/-- No signature stands for a proposal other than the one it was made for. -/
def Genuine (given : List (Given S)) : Prop :=
  ∀ g ∈ given, ∀ p : AttestProposal,
    S.verifyBytes (S.nodeId g.signer) p.signingBytes g.signature.signature = true → p = g.proposal

/-- An attestation put together from signatures that were given for the chain of `key`. -/
def Assembled (given : List (Given S)) (key : ChainKey) (att : Attestation) : Prop :=
  ∀ s ∈ att.signatures, ∃ g ∈ given, g.key = key ∧ s = g.signature

/-- The members of `q` that have signed `p` for the chain of `key`. -/
def backers (given : List (Given S)) (key : ChainKey) (q : Quorum) (p : AttestProposal) :
    Finset B32 :=
  q.body.filter fun m => ∃ g ∈ given, g.key = key ∧ g.proposal = p ∧ S.nodeId g.signer = m

/-- The signatures given for a chain on a proposal, collected. -/
def collect (given : List (Given S)) (key : ChainKey) (p : AttestProposal) : Attestation :=
  ⟨p, (given.filter fun g => g.key = key ∧ g.proposal = p).map Given.signature⟩

theorem assembled_collect (given : List (Given S)) (key : ChainKey) (p : AttestProposal) :
    Assembled given key (collect given key p) := by
  intro s hs
  obtain ⟨g, hg, rfl⟩ := List.mem_map.mp hs
  obtain ⟨hmem, hkey⟩ := List.mem_filter.mp hg
  exact ⟨g, hmem, (of_decide_eq_true hkey).1, rfl⟩

theorem backers_subset_signers (given : List (Given S)) (key : ChainKey) (q : Quorum)
    (p : AttestProposal) :
    backers given key q p ⊆ q.signers S p.signingBytes (collect given key p).signatures := by
  intro m hm
  obtain ⟨hb, g, hg, hkey, rfl, rfl⟩ := mem_filter.mp hm
  refine Quorum.mem_signers.mpr ⟨mem_body.mp hb, g.signature, ?_, rfl, ?_⟩
  · exact List.mem_map_of_mem (List.mem_filter.mpr ⟨hg, by simp [hkey]⟩)
  · exact S.verifyBytes_sign _ _

theorem signers_subset_backers {given : List (Given S)} {key : ChainKey} {att : Attestation}
    (hge : Genuine given) (hatt : Assembled given key att) (q : Quorum) :
    q.signers S att.proposal.signingBytes att.signatures ⊆ backers given key q att.proposal := by
  intro m hm
  obtain ⟨hme, s, hs, rfl, hv⟩ := Quorum.mem_signers.mp hm
  obtain ⟨g, hg, hkey, rfl⟩ := hatt s hs
  have hp := hge g hg att.proposal hv
  exact mem_filter.mpr ⟨mem_body.mpr hme, g, hg, hkey, hp.symm, rfl⟩

/-- **Signatures for one chain are worth nothing on another exactly when** fewer than a threshold of
the other's members have signed, for the one, a proposal with the other's next number. -/
theorem foreign_attestations_rejected_iff (given : List (Given S)) (hgenuine : Genuine given)
    (key : ChainKey) (store : AttestStore S) (program : B32) :
    (∀ att, Assembled given key att → ¬ store.Accepts program att)
      ↔ ∀ chain q, store.chains (store.owner, program) = some chain → chain.current S = .ok (some q)
        → ∀ p : AttestProposal, p.seq.val = q.seq.val + 1
        → (backers given key q p).card < q.threshold := by
  simp only [AttestStore.accepts_iff, Attestation.authorizes_eq_true]
  constructor
  · intro h chain q hchain hcurrent p hseq
    by_contra hle
    refine h (collect given key p) (assembled_collect given key p) ⟨chain, q, hchain, hcurrent,
      hseq, ?_⟩
    exact (not_lt.mp hle).trans (card_le_card (backers_subset_signers given key q p))
  · rintro h att hatt ⟨chain, q, hchain, hcurrent, hseq, hcount⟩
    have hfew := h chain q hchain hcurrent att.proposal hseq
    have hle := card_le_card (signers_subset_backers hgenuine hatt q)
    omega

end Foreign

/-! ## Two programs of one owner -/

/-- The statement that members are asked to sign. -/
def approval : AttestProposal := ⟨.statement [7], 1⟩

/-- A scheme in which the signatures of `approval` stand for nothing else. -/
def marking : SigScheme where
  Secret := B32
  nodeId k := k
  sign k msg := k.toBytes ++ leBytes 32 (if msg = approval.signingBytes then 0 else 1)
  verify key msg sig :=
    sig = key.toBytes ++ leBytes 32 (if msg = approval.signingBytes then 0 else 1)
  length_sign k msg := by simp [B32.toBytes]
  verify_sign k msg := by simp

/-- An owner of two programs, with the quorums of both. -/
def ownerOf (S : SigScheme) (identity : S.Secret) (first second : List B32) : AttestStore S :=
  (AttestStore.bootstrap ⟨identity, fun _ => none⟩ 1 first 2).bootstrap 2 second 2

/-- Two members of the first program's quorum sign the statement. -/
def signedForFirst (S : SigScheme) (owner : B32) (signers : List S.Secret) (p : AttestProposal) :
    List (Given S) :=
  signers.map fun signer => ⟨(owner, 1), signer, p⟩

theorem genuine_marking (signers : List B32) :
    Genuine (signedForFirst marking 9 signers approval) := by
  intro g hg p hv
  obtain ⟨signer, -, rfl⟩ := List.mem_map.mp hg
  obtain ⟨-, hv⟩ := (Bool.and_eq_true _ _).mp hv
  have hs : leBytes 32 (if approval.signingBytes = approval.signingBytes then 0 else 1)
      = leBytes 32 (if p.signingBytes = approval.signingBytes then 0 else 1) :=
    List.append_cancel_left (of_decide_eq_true hv)
  by_contra hne
  have hb : p.signingBytes ≠ approval.signingBytes :=
    fun h => hne (AttestProposal.signingBytes_injective h)
  rw [if_pos rfl, if_neg hb] at hs
  exact absurd hs (by decide)

def firstTwo : List B32 := [1, 2]

/-- Quorums that share one member, of two that are needed. -/
theorem foreign_attestations_rejected_iff_oneShared :
    Genuine (signedForFirst marking 9 firstTwo approval)
      ∧ ∀ att, Assembled (signedForFirst marking 9 firstTwo approval) (9, 1) att →
        ¬ (ownerOf marking (9 : B32) [1, 2, 3] [1, 4, 5]).Accepts 2 att := by
  refine ⟨genuine_marking firstTwo,
    (foreign_attestations_rejected_iff _ (genuine_marking firstTwo) (9, 1) _ 2).mpr ?_⟩
  intro chain q hchain hcurrent p _
  obtain rfl : (⟨.genesis [1, 4, 5] 2, []⟩ : QuorumChain) = chain := Option.some.inj hchain
  obtain rfl : Quorum.genesis [1, 4, 5] 2 = q := Option.some.inj (Except.ok.inj hcurrent)
  have hshared :
      backers (signedForFirst marking 9 firstTwo approval) (9, 1) (.genesis [1, 4, 5] 2) p
        ⊆ {1} := by
    intro m hm
    obtain ⟨hbody, g, hg, -, -, rfl⟩ := mem_filter.mp hm
    obtain ⟨signer, hsigner, rfl⟩ := List.mem_map.mp hg
    have hmember : signer ∈ ([1, 4, 5] : List B32) := mem_canonical.mp (mem_body.mp hbody)
    rcases List.mem_pair.mp hsigner with rfl | rfl
    · exact mem_singleton_self _
    · exact absurd hmember (by decide +kernel)
  exact (card_le_card hshared).trans_lt (by decide +kernel)

/-- **What was signed for the first program authorizes the second**: a statement, and a new
member. -/
theorem signed_for_first_accepted_by_second :
    (Assembled (signedForFirst .transparent 9 firstTwo approval) (9, 1)
        (collect (signedForFirst .transparent 9 firstTwo approval) (9, 1) approval)
      ∧ (ownerOf .transparent (9 : B32) [1, 2, 3] [1, 2, 4]).Accepts 2
        (collect (signedForFirst .transparent 9 firstTwo approval) (9, 1) approval))
    ∧ Assembled (signedForFirst .transparent 9 firstTwo ⟨.addMember 6, 1⟩) (9, 1)
        (collect (signedForFirst .transparent 9 firstTwo ⟨.addMember 6, 1⟩) (9, 1) ⟨.addMember 6,
          1⟩)
      ∧ (ownerOf .transparent (9 : B32) [1, 2, 3] [1, 2, 4]).Accepts 2
        (collect (signedForFirst .transparent 9 firstTwo ⟨.addMember 6, 1⟩) (9, 1)
          ⟨.addMember 6, 1⟩) := by
  refine ⟨⟨assembled_collect _ _ _, ?_⟩, assembled_collect _ _ _, ?_⟩
  · refine AttestStore.accepts_iff.mpr ⟨⟨.genesis [1, 2, 4] 2, []⟩, .genesis [1, 2, 4] 2, rfl, rfl,
      ?_⟩
    exact Attestation.authorizes_eq_true.mpr ⟨rfl, by decide +kernel⟩
  · refine AttestStore.accepts_iff.mpr ⟨⟨.genesis [1, 2, 4] 2, []⟩, .genesis [1, 2, 4] 2, rfl, rfl,
      ?_⟩
    exact Attestation.authorizes_eq_true.mpr ⟨rfl, by decide +kernel⟩

end Zephcraft.Noded
