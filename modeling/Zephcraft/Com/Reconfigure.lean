import Zephcraft.Com.Attestation
import Zephcraft.Foundations.Replay

/-!
# Com/Reconfigure — a quorum that amends itself

A quorum adds and removes its own members and sets its own threshold, each time by an attestation it
authorizes. Every change clamps the threshold to what the members can reach — but to no less than
one, and the last member can be removed.
-/

namespace Zephcraft.Com

open Zephcraft.Core List Finset Attestation Quorum Replay

variable {S : SigScheme}

/-! ## Chains, one attestation at a time -/

namespace QuorumChain

variable {q q' : Quorum} {atts pre : List Attestation} {att : Attestation}

theorem fold_eq_replay (q : Quorum) (atts : List Attestation) :
    fold S q atts = replay (fun att q => att.applyTo S q) q atts := by
  induction atts generalizing q with
  | nil => rfl
  | cons att atts ih =>
    rw [fold, replay]
    congr 1
    funext applied
    cases applied with
    | none => rfl
    | some next => exact ih next

theorem fold_concat : fold S q (atts ++ [att]) = .ok (some q')
    ↔ ∃ p, fold S q atts = .ok (some p) ∧ att.applyTo S p = .ok (some q') := by
  simp only [fold_eq_replay, replay_concat]

theorem exists_fold_of_prefix (hpre : pre <+: atts) (h : fold S q atts = .ok (some q')) :
    ∃ p, fold S q pre = .ok (some p) := by
  rw [fold_eq_replay] at h ⊢
  exact exists_replay_of_prefix hpre h

end QuorumChain

/-! ## Quorums that can act -/

namespace Quorum

variable {q q' : Quorum} {seq : U64} {att : Attestation}

/-- The members can reach the threshold, and there is one to reach. -/
structure Attainable (q : Quorum) : Prop where
  pos : 1 ≤ q.threshold
  le : q.threshold ≤ q.members.length

/-- The quorum can act: the members can reach the threshold, and whatever they all sign at the next
number is authorized. -/
structure Acts (S : SigScheme) (q : Quorum) : Prop where
  attainable : q.Attainable
  authorizes :
    ∃ next : U64, next.val = q.seq.val + 1
      ∧ ∀ (action : AttestAction) (sigs : List MemberSignature),
    (∀ m ∈ q.members, ∃ s ∈ sigs, s.member = m
      ∧ S.verifyBytes m (AttestProposal.signingBytes ⟨action, next⟩) s.signature)
      → Attestation.authorizes S ⟨⟨action, next⟩, sigs⟩ q = .ok true

/-- The attestation removes the only member. -/
def DropsLast (q : Quorum) (att : Attestation) : Prop :=
  ∃ m, att.proposal.action = .removeMember m ∧ q.members = [m]

theorem attainable_genesis {ids : List B32} (hne : ids ≠ []) (k : ℕ) :
    (genesis ids k).Attainable := by
  obtain ⟨m, hm⟩ := exists_mem_of_ne_nil ids hne
  have hpos : 0 < (canonical ids).length := length_pos_of_mem (mem_canonical.mpr hm)
  constructor <;> dsimp only [genesis] <;> omega

theorem Attainable.members_ne_nil (h : q.Attainable) : q.members ≠ [] :=
  ne_nil_of_length_pos (h.pos.trans h.le)

theorem filter_members_eq_nil {m : B32} (h : q.members ≠ []) :
    q.members.filter (· ≠ m) = [] ↔ q.members = [m] := by
  rw [filter_eq_nil_iff]
  refine ⟨fun hall => ?_, fun hone a ha => by simpa [hone] using ha⟩
  have hs : ∀ a ∈ q.members, a = m := fun a ha => by simpa using hall a ha
  have hr := eq_replicate_of_mem hs
  have hle : q.members.length ≤ 1 := by
    have hn := q.nodup_members
    rw [hr] at hn
    exact nodup_replicate.mp hn
  have hlen : q.members.length = 1 := le_antisymm hle (length_pos_of_ne_nil h)
  rw [hr, hlen, replicate_one]

theorem length_le_canonical_concat (q : Quorum) (m : B32) :
    q.members.length ≤ (canonical (q.members ++ [m])).length := by
  rw [← card_body, ← toFinset_card_of_nodup ((pairwise_canonical _).imp ne_of_lt)]
  refine card_le_card fun a ha => mem_toFinset.mpr (mem_canonical.mpr ?_)
  exact mem_append_left _ (mem_body.mp ha)

/-- **One change**: the threshold stays within reach unless the last member goes. -/
theorem attainable_advance_iff (h : q.Attainable) :
    (q.advance seq att.proposal.action.memberChange).Attainable ↔ ¬ q.DropsLast att := by
  have hpos := h.pos
  have hle := h.le
  rw [DropsLast]
  cases att.proposal.action with
  | statement bytes => exact ⟨fun _ => by simp, fun _ => ⟨hpos, hle⟩⟩
  | addMember m =>
    have hg := q.length_le_canonical_concat m
    exact ⟨fun _ => by simp, fun _ => ⟨hpos, hle.trans hg⟩⟩
  | removeMember m =>
    have hnil := filter_members_eq_nil (m := m) h.members_ne_nil
    constructor
    · rintro hn ⟨m', hm, hone⟩
      obtain rfl := AttestAction.removeMember.inj hm
      exact hn.members_ne_nil (hnil.mpr hone)
    · intro hk
      have hl : 0 < (q.members.filter (· ≠ m)).length :=
        length_pos_of_ne_nil fun he => hk ⟨m, rfl, hnil.mp he⟩
      constructor <;> dsimp only [advance, AttestAction.memberChange] <;> omega
  | setThreshold threshold =>
    refine ⟨fun _ => by simp, fun _ => ?_⟩
    constructor <;> dsimp only [advance, AttestAction.memberChange] <;> omega

/-- **A quorum that can reach its threshold acts** as long as there is a next number. -/
theorem acts_iff : q.Acts S ↔ q.Attainable ∧ q.seq.val + 1 < 2 ^ 64 := by
  constructor
  · rintro ⟨ha, next, hn, -⟩
    exact ⟨ha, hn ▸ next.isLt⟩
  · rintro ⟨ha, hlt⟩
    refine ⟨ha, ⟨q.seq.val + 1, hlt⟩, rfl, fun action sigs hs => ?_⟩
    refine authorizes_eq_true.mpr ⟨rfl, ha.le.trans ?_⟩
    rw [← card_body]
    refine card_le_card fun m hm => mem_signers.mpr ⟨mem_body.mp hm, hs m (mem_body.mp hm)⟩

end Quorum

/-! ## Along a chain -/

namespace QuorumChain

variable {ids : List B32} {k : ℕ} {atts : List Attestation} {q : Quorum}

theorem seq_fold (h : fold S (.genesis ids k) atts = .ok (some q)) : q.seq.val = atts.length := by
  induction atts using reverseRecOn generalizing q with
  | nil =>
    cases h
    rfl
  | append_singleton atts att ih =>
    obtain ⟨p, hp, ha⟩ := fold_concat.mp h
    obtain ⟨hau, rfl⟩ := applyTo_eq_some.mp ha
    rw [advance_seq, (authorizes_eq_true.mp hau).1, ih hp, length_append, length_singleton]

/-- No attestation of the chain removes the last member of the quorum it is applied to. -/
def KeepsLast (S : SigScheme) (q : Quorum) (atts : List Attestation) : Prop :=
  ∀ pre att p, pre ++ [att] <+: atts → fold S q pre = .ok (some p) → ¬ p.DropsLast att

theorem attainable_fold_iff (hne : ids ≠ []) (h : fold S (.genesis ids k) atts = .ok (some q)) :
    (∀ pre p, pre <+: atts → fold S (.genesis ids k) pre = .ok (some p) → p.Attainable)
      ↔ KeepsLast S (.genesis ids k) atts := by
  constructor
  · intro hall pre att p hpre hp
    obtain ⟨p', hp'⟩ := exists_fold_of_prefix hpre h
    obtain ⟨p₀, hp₀, ha⟩ := fold_concat.mp hp'
    cases hp.symm.trans hp₀
    obtain ⟨-, rfl⟩ := applyTo_eq_some.mp ha
    have hb := hall pre p ((prefix_append pre [att]).trans hpre) hp
    exact (attainable_advance_iff hb).mp (hall _ _ hpre hp')
  · intro hk pre
    induction pre using reverseRecOn with
    | nil =>
      intro p _ hp
      cases hp
      exact attainable_genesis hne k
    | append_singleton pre att ih =>
      intro p' hpre hp'
      obtain ⟨p, hp, ha⟩ := fold_concat.mp hp'
      obtain ⟨-, rfl⟩ := applyTo_eq_some.mp ha
      have hb := ih p ((prefix_append pre [att]).trans hpre) hp
      exact (attainable_advance_iff hb).mpr (hk pre att p hpre hp)

/-- **Along a chain of authorized attestations every quorum can act exactly when** none of them
removes the last member, and the numbers have not run out. -/
theorem quorum_acts_iff (hne : ids ≠ [])
    (h : (QuorumChain.mk (.genesis ids k) atts).current S = .ok (some q)) :
    (∀ pre p, pre <+: atts → fold S (.genesis ids k) pre = .ok (some p) → p.Acts S)
      ↔ KeepsLast S (.genesis ids k) atts ∧ atts.length + 1 < 2 ^ 64 := by
  rw [← attainable_fold_iff hne h]
  constructor
  · intro hall
    refine ⟨fun pre p hpre hp => (hall pre p hpre hp).attainable, ?_⟩
    have hlast := (acts_iff.mp (hall atts q prefix_rfl h)).2
    rwa [seq_fold h] at hlast
  · rintro ⟨hall, hlen⟩ pre p hpre hp
    have hle := hpre.length_le
    refine acts_iff.mpr ⟨hall pre p hpre hp, ?_⟩
    rw [seq_fold hp]
    omega

end QuorumChain

/-! ## One member -/

/-- An attestation under the signatures of the given members. -/
def attestedBy (action : AttestAction) (seq : U64) (members : List B32) : Attestation :=
  ⟨⟨action, seq⟩, members.map fun m => AttestProposal.sign .transparent ⟨action, seq⟩ m⟩

/-- Three members become two, which state something. -/
def threeToTwo : List Attestation :=
  [attestedBy (.removeMember 3) 1 [1, 2, 3], attestedBy (.statement [7]) 2 [1, 2]]

theorem quorum_acts_iff_threeMembers :
    (QuorumChain.mk (.genesis [1, 2, 3] 3) threeToTwo).current .transparent
      = .ok (some ⟨[1, 2], 2, 2, by decide⟩)
    ∧ ∀ pre p, pre <+: threeToTwo →
      QuorumChain.fold .transparent (.genesis [1, 2, 3] 3) pre = .ok (some p)
        → p.Acts .transparent := by
  have hfold : (QuorumChain.mk (.genesis [1, 2, 3] 3) threeToTwo).current .transparent
      = .ok (some ⟨[1, 2], 2, 2, by decide⟩) := by decide +kernel
  refine ⟨hfold, (QuorumChain.quorum_acts_iff (by decide) hfold).mpr ⟨?_, by decide⟩⟩
  rintro pre att p hpre hp ⟨m, haction, hone⟩
  have hpos := hpre.length_le
  rcases pre with _ | ⟨first, rest⟩
  · cases hp
    have hthree : (Quorum.genesis [1, 2, 3] 3).members.length = 3 := by decide +kernel
    rw [hone] at hthree
    cases hthree
  · obtain ⟨rfl, hrest⟩ := cons_prefix_cons.mp hpre
    rcases rest with _ | ⟨second, rest⟩
    · obtain ⟨rfl, -⟩ := cons_prefix_cons.mp hrest
      cases haction
    · simp [threeToTwo] at hpos

/-- **A quorum of one removes itself**: the chain is valid, and nothing can follow. -/
theorem last_member_removed :
    ∃ q : Quorum, (QuorumChain.mk (.genesis [1] 1) [attestedBy (.removeMember 1) 1 [1]]).current
      .transparent = .ok (some q) ∧ q.members = [] ∧ q.threshold = 1 ∧ ∀ att : Attestation,
      att.authorizes .transparent q ≠ .ok true := by
  refine ⟨⟨[], 1, 1, List.Pairwise.nil⟩, by decide +kernel, rfl, rfl, fun att hauth => ?_⟩
  obtain ⟨-, hcount⟩ := authorizes_eq_true.mp hauth
  have hnone := card_le_card (signers_subset ⟨[], 1, 1, List.Pairwise.nil⟩ .transparent
    att.proposal.signingBytes att.signatures)
  rw [card_body] at hnone
  exact absurd (hcount.trans hnone) (by decide)

end Zephcraft.Com
