import Zephcraft.Noded.Network

/-!
# Noded/Conflict — when two writes can both be ordered

A conflict on a chain is a pair of commits at one slot, with different writes, each authorized by a
quorum the chain has at some epoch.
-/

namespace Zephcraft.Noded

open Zephcraft.Core Com List Finset Fleet SequencedWrite SequencedCommit Quorum

variable {F : Fleet}

/-- The commit of a write under the signatures of the given nodes. -/
def Fleet.commitBy (F : Fleet) (w : SequencedWrite) (nodes : List F.Node) : SequencedCommit :=
  ⟨w, nodes.map fun n => w.sign F.S (F.secret n)⟩

theorem Fleet.unforged_commitBy {w : SequencedWrite} {nodes : List F.Node}
    {released : List (B32 × SequencedWrite)} (signers : B32 → Prop)
    (h : ∀ n ∈ nodes, (F.id n, w) ∈ released) :
    (F.commitBy w nodes).Unforged F.S signers released := by
  intro s hs _ _
  obtain ⟨n, hn, rfl⟩ := List.mem_map.mp hs
  exact ⟨(F.id n, w), h n hn, rfl, rfl⟩

theorem Fleet.authorizes_commitBy {w : SequencedWrite} {node : B32 → F.Node} {q : Quorum}
    {a : Finset B32} (ha : w.ownerAuthentic F.S) (hs : q.isIntersectionSized)
    (hsub : a ⊆ q.body) (hk : q.threshold ≤ a.card) (hn : ∀ m ∈ a, F.id (node m) = m) :
    (F.commitBy w (a.toList.map node)).authorizes F.S q := by
  refine authorizes_iff.mpr ⟨ha, hs, hk.trans (card_le_card fun m hm => ?_)⟩
  have hsi : w.sign F.S (F.secret (node m)) ∈ (F.commitBy w (a.toList.map node)).signatures :=
    List.mem_map_of_mem (List.mem_map_of_mem (mem_toList.mpr hm))
  have hv : F.S.verifyBytes (F.id (node m)) w.signingBytes
      (w.sign F.S (F.secret (node m))).signature := F.S.verifyBytes_sign _ _
  rw [hn m hm] at hv
  exact Quorum.mem_signers.mpr ⟨mem_body.mp (hsub hm), _, hsi, hn m hm, hv⟩

theorem Fleet.exists_staffing {a : Finset B32} (hne : a.Nonempty)
    (h : ∀ m ∈ a, ∃ n, F.id n = m) : ∃ node : B32 → F.Node, ∀ m ∈ a, F.id (node m) = m := by
  obtain ⟨m₀, hm₀⟩ := hne
  have : Nonempty F.Node := (h m₀ hm₀).nonempty
  choose! node hnode using h
  exact ⟨node, hnode⟩

namespace Network

variable (N : Network F)

/-- **No conflict on the chain after the run**: commits at one slot that quorums of the chain
authorize carry one write. -/
def Agrees (requests : List (Solicit F)) (chain : Chain) : Prop :=
  ∀ e e' q q', N.quorumFor e chain = some q → N.quorumFor e' chain = some q' →
    ∀ c c' : SequencedCommit, c.Unforged F.S (· ∈ q.members) (N.signatures requests) →
      c'.Unforged F.S (· ∈ q'.members) (N.signatures requests) →
      c.authorizes F.S q → c'.authorizes F.S q' → c.write.slot = c'.write.slot → c.write = c'.write

open scoped Classical in
/-- **No room for a conflict**: two thresholds of the chain's quorums do not fit beside each other,
the straddling members they share counted twice. -/
def NoRoom (chain : Chain) : Prop :=
  ∀ e e' q q', N.quorumFor e chain = some q → N.quorumFor e' chain = some q' →
    q.isIntersectionSized → q'.isIntersectionSized →
    q.threshold ≤ q.body.card → q'.threshold ≤ q'.body.card →
      (q.body ∪ q'.body).card + ((q.body ∩ q'.body).filter N.Straddles).card
        < q.threshold + q'.threshold

variable {N}

variable {requests : List (Solicit F)} {w : SequencedWrite} {chain : Chain} {a : Finset B32}

theorem exists_release {m : B32} (h : (m, w) ∈ N.signatures requests) :
    ∃ r ∈ (N.after requests).released, F.id r.node = m ∧ r.write = w := by
  obtain ⟨r, hr, heq⟩ := List.mem_map.mp h
  exact ⟨r, hr, (Prod.ext_iff.mp heq).1, (Prod.ext_iff.mp heq).2⟩

theorem straddles_of_signatures (hf : CollisionFree requests) {m : B32} {w' : SequencedWrite}
    (hw : (m, w) ∈ N.signatures requests) (hw' : (m, w') ∈ N.signatures requests)
    (hsl : w.slot = w'.slot) (hne : w ≠ w') :
    N.Straddles m := by
  obtain ⟨r, hr, rfl, rfl⟩ := exists_release hw
  obtain ⟨r', hr', hid, rfl⟩ := exists_release hw'
  have hno : r'.node = r.node := F.id_injective hid
  have hs := N.sound_after requests
  refine ⟨r.chain, r'.chain, fun hc => hne ?_, hs.eligible r hr, hid ▸ hs.eligible r' hr'⟩
  refine write_eq_of_key_eq hf hr hr' hno.symm ?_
  obtain ⟨ha, hn⟩ := Prod.ext_iff.mp hsl
  simp only [SequencedWrite.slot] at ha hn
  rw [signedKey, signedKey, hc, ha, hn]

theorem agrees_of_noRoom (h : N.NoRoom chain) (hf : CollisionFree requests) :
    N.Agrees requests chain := by
  classical
  intro e e' q q' hq hq' c c' hc hc' ha ha' hsl
  obtain ⟨-, hsi, hk⟩ := authorizes_iff.mp ha
  obtain ⟨-, hs', hk'⟩ := authorizes_iff.mp ha'
  have hsub := q.signers_subset F.S c.write.signingBytes c.signatures
  have hsub' := q'.signers_subset F.S c'.write.signingBytes c'.signatures
  by_contra hne
  have hlt := h e e' q q' hq hq' hsi hs' (hk.trans (card_le_card hsub))
    (hk'.trans (card_le_card hsub'))
  have hs : q.signers F.S c.write.signingBytes c.signatures
      ∩ q'.signers F.S c'.write.signingBytes c'.signatures
      ⊆ (q.body ∩ q'.body).filter N.Straddles := by
    intro m hm
    obtain ⟨hm, hm'⟩ := mem_inter.mp hm
    refine Finset.mem_filter.mpr ⟨mem_inter.mpr ⟨hsub hm, hsub' hm'⟩, ?_⟩
    exact straddles_of_signatures hf (hc.released_of_mem_signers hm (Quorum.mem_signers.mp hm).1)
      (hc'.released_of_mem_signers hm' (Quorum.mem_signers.mp hm').1) hsl hne
  have hr := Intersection.card_add_card_le hsub hsub' hs
  rw [inter_eq_right.mpr (Finset.filter_subset _ _)] at hr
  omega

/-! ## Bringing a conflict about -/

/-- The quorum of the chain at that epoch asks for the member's signature. -/
def Asks (N : Network F) (m : B32) (at_ : U64 × Chain) : Prop :=
  ∃ q, N.quorumFor at_.1 at_.2 = some q ∧ q.isIntersectionSized ∧ m ∈ q.members

theorem exists_plan {e e' : U64} {q q' : Quorum} {b : Finset B32}
    (hq : N.quorumFor e chain = some q) (hq' : N.quorumFor e' chain = some q')
    (hs : q.isIntersectionSized) (hs' : q'.isIntersectionSized)
    (ha : a ⊆ q.body) (hb : b ⊆ q'.body) (hab : ∀ m ∈ a, m ∈ b → N.Straddles m) :
    ∃ p p' : B32 → U64 × Chain, ∀ m, (m ∈ a → N.Asks m (p m)) ∧ (m ∈ b → N.Asks m (p' m))
      ∧ (m ∈ a → m ∈ b → (p m).2 ≠ (p' m).2) := by
  have hp : ∀ m, ∃ p p' : U64 × Chain, (m ∈ a → N.Asks m p) ∧ (m ∈ b → N.Asks m p')
      ∧ (m ∈ a → m ∈ b → p.2 ≠ p'.2) := by
    intro m
    by_cases hbo : m ∈ a ∧ m ∈ b
    · obtain ⟨chain₁, chain₂, hne, ⟨e₁, q₁, h₁⟩, ⟨e₂, q₂, h₂⟩⟩ := hab m hbo.1 hbo.2
      exact ⟨(e₁, chain₁), (e₂, chain₂), fun _ => ⟨q₁, h₁⟩, fun _ => ⟨q₂, h₂⟩, fun _ _ => hne⟩
    · exact ⟨(e, chain), (e', chain), fun hm => ⟨q, hq, hs, mem_body.mp (ha hm)⟩,
        fun hm => ⟨q', hq', hs', mem_body.mp (hb hm)⟩,
        fun hma hmb => absurd ⟨hma, hmb⟩ hbo⟩
  choose p p' h using hp
  exact ⟨p, p', h⟩

/-- The solicitations of a group: each member, where the plan puts it, for the same write. -/
noncomputable def solicitations (node : B32 → F.Node) (plan : B32 → U64 × Chain)
    (w : SequencedWrite) (a : Finset B32) : List (Solicit F) :=
  a.toList.map fun m => ⟨(plan m).1, node m, (plan m).2, w⟩

theorem mem_solicitations {node : B32 → F.Node} {plan : B32 → U64 × Chain} {r : Solicit F} :
    r ∈ solicitations node plan w a ↔ ∃ m ∈ a, ⟨(plan m).1, node m, (plan m).2, w⟩ = r := by
  simp [solicitations]

section TwoGroups

variable {node : B32 → F.Node} {p p' : B32 → U64 × Chain} {w w' : SequencedWrite} {a b : Finset B32}

theorem consistent_solicitations (hn : ∀ m ∈ a ∪ b, F.id (node m) = m)
    (hch : ∀ m ∈ a, m ∈ b → (p m).2 ≠ (p' m).2) :
    Consistent (solicitations node p w a ++ solicitations node p' w' b) := by
  have hc : ∀ m ∈ a, ∀ m' ∈ b, node m = node m' → signedKey (p m).2 w ≠ signedKey (p' m').2 w' := by
    intro m hm m' hm' heq hkey
    obtain rfl : m = m' := by
      rw [← hn m (Finset.mem_union_left b hm), heq, hn m' (Finset.mem_union_right a hm')]
    simp only [signedKey, Prod.mk.injEq] at hkey
    exact hch m hm hm' (Prod.ext hkey.1 hkey.2.1)
  intro x hx y hy heq hkey
  rcases mem_append.mp hx with hx | hx <;> rcases mem_append.mp hy with hy | hy <;>
    obtain ⟨m, hm, rfl⟩ := mem_solicitations.mp hx <;>
    obtain ⟨m', hm', rfl⟩ := mem_solicitations.mp hy
  · rfl
  · exact absurd hkey (hc m hm m' hm' heq)
  · exact absurd hkey.symm (hc m' hm' m hm heq.symm)
  · rfl

theorem collisionFree_solicitations (hsep : F.blake3 w.signingBytes ≠ F.blake3 w'.signingBytes) :
    CollisionFree (solicitations node p w a ++ solicitations node p' w' b) := by
  intro x hx y hy hh
  rcases mem_append.mp hx with hx | hx <;> rcases mem_append.mp hy with hy | hy <;>
    obtain ⟨m, hm, rfl⟩ := mem_solicitations.mp hx <;>
    obtain ⟨m', hm', rfl⟩ := mem_solicitations.mp hy
  exacts [rfl, absurd hh hsep, absurd hh.symm hsep, rfl]

theorem mem_signatures_of_solicitations {requests : List (Solicit F)}
    (hsub : ∀ r ∈ solicitations node p w a, r ∈ requests)
    (hc : Consistent requests) (hno : ∀ m ∈ a, F.id (node m) = m)
    (ha : ∀ m ∈ a, N.Asks m (p m)) (hau : w.ownerAuthentic F.S) {n : F.Node}
    (hn : n ∈ a.toList.map node) :
    (F.id n, w) ∈ N.signatures requests := by
  obtain ⟨m, hm, rfl⟩ := List.mem_map.mp hn
  have hm := mem_toList.mp hm
  obtain ⟨q, hq, hs, hmem⟩ := ha m hm
  exact N.mem_signatures_of_consistent hc (r := ⟨(p m).1, node m, (p m).2, w⟩)
    (hsub _ (mem_solicitations.mpr ⟨m, hm, rfl⟩)) hq hs (by rwa [hno m hm]) hau

end TwoGroups

/-- **Two thresholds that share straddling members only can be brought to order two writes.** -/
theorem exists_conflict {e e' : U64} {q q' : Quorum} {b : Finset B32}
    (hq : N.quorumFor e chain = some q) (hq' : N.quorumFor e' chain = some q')
    (hs : q.isIntersectionSized) (hs' : q'.isIntersectionSized)
    (ha : a ⊆ q.body) (hb : b ⊆ q'.body) (hka : q.threshold ≤ a.card) (hkb : q'.threshold ≤ b.card)
    (hab : ∀ m ∈ a, m ∈ b → N.Straddles m) :
    ∃ requests, CollisionFree requests ∧ ¬ N.Agrees requests chain := by
  obtain ⟨p, p', hp⟩ := exists_plan hq hq' hs hs' ha hb hab
  have hne : (a ∪ b).Nonempty :=
    (card_pos.mp ((Quorum.threshold_pos hs).trans_le hka)).mono subset_union_left
  obtain ⟨node, hno⟩ := exists_staffing hne fun m hm =>
    (mem_union.mp hm).elim (fun h => N.staffed e chain q hq m (mem_body.mp (ha h)))
      fun h => N.staffed e' chain q' hq' m (mem_body.mp (hb h))
  have hnod : ∀ m ∈ a, F.id (node m) = m := fun m hm => hno m (Finset.mem_union_left b hm)
  have hnodeb : ∀ m ∈ b, F.id (node m) = m := fun m hm => hno m (Finset.mem_union_right a hm)
  obtain ⟨key, nonce, payload, payload', hsep⟩ := F.separates
  have hc : Consistent (solicitations node p (.author F.S key nonce payload) a
      ++ solicitations node p' (.author F.S key nonce payload') b) :=
    consistent_solicitations hno fun m hma hmb => (hp m).2.2 hma hmb
  refine ⟨solicitations node p (.author F.S key nonce payload) a
      ++ solicitations node p' (.author F.S key nonce payload') b,
    collisionFree_solicitations hsep, fun hag =>
      hsep (congrArg (fun w : SequencedWrite => F.blake3 w.signingBytes) ?_)⟩
  refine hag e e' q q' hq hq' (F.commitBy _ (a.toList.map node))
    (F.commitBy _ (b.toList.map node)) (unforged_commitBy _ fun n hn => ?_)
    (unforged_commitBy _ fun n hn => ?_) ?_ ?_ rfl
  · exact mem_signatures_of_solicitations (fun r hr => mem_append_left _ hr) hc hnod
      (fun m hm => (hp m).1 hm) (ownerAuthentic_author ..) hn
  · exact mem_signatures_of_solicitations (fun r hr => mem_append_right _ hr) hc hnodeb
      (fun m hm => (hp m).2.1 hm) (ownerAuthentic_author ..) hn
  · exact authorizes_commitBy (ownerAuthentic_author ..) hs ha hka hnod
  · exact authorizes_commitBy (ownerAuthentic_author ..) hs' hb hkb hnodeb

/-- **A chain is free of conflicts in every run exactly when there is no room for one.** -/
theorem agrees_iff_noRoom (N : Network F) (chain : Chain) :
    (∀ requests, CollisionFree requests → N.Agrees requests chain) ↔ N.NoRoom chain := by
  classical
  refine ⟨fun h e e' q q' hq hq' hs hs' hk hk' => ?_, fun h _ => agrees_of_noRoom h⟩
  by_contra hr
  obtain ⟨a, ha, b, hb, hka, hkb, hab⟩ := (Intersection.exists_groups_iff q.body q'.body
    ((q.body ∩ q'.body).filter N.Straddles) q.threshold q'.threshold).mpr ⟨hk, hk', by
      rw [inter_eq_right.mpr (Finset.filter_subset _ _)]
      omega⟩
  obtain ⟨requests, hf, hc⟩ := exists_conflict hq hq' hs hs' ha hb hka.ge hkb.ge
    fun m hma hmb => (Finset.mem_filter.mp (hab (mem_inter.mpr ⟨hma, hmb⟩))).2
  exact hc (h requests hf)

/-! ## One chain by itself -/

/-- The network as far as it serves one chain. -/
def only (N : Network F) (chain : Chain) : Network F where
  quorumFor e chain' := if chain' = chain then N.quorumFor e chain' else none
  staffed e chain' q hq := by
    split at hq
    · exact N.staffed e chain' q hq
    · cases hq

@[simp] theorem quorumFor_only (N : Network F) (chain : Chain) (e : U64) :
    (N.only chain).quorumFor e chain = N.quorumFor e chain := if_pos rfl

theorem solicit_only_of_ne {r : Solicit F} (h : r.chain ≠ chain) (st : NetState F) :
    (N.only chain).solicit st r = st := by
  have hnone : (N.only chain).quorumFor r.epoch r.chain = none := if_neg h
  rw [solicit, hnone]
  simp [SequenceStore.signWriteLocally]

/-- Solicitations for other chains change nothing in it. -/
theorem after_only (N : Network F) (chain : Chain) (requests : List (Solicit F)) :
    (N.only chain).after requests = N.after (requests.filter fun r => r.chain = chain) := by
  induction requests using reverseRecOn with
  | nil => rfl
  | append_singleton requests r ih =>
    rw [after, Run.run_concat, ← after, ih, filter_append]
    by_cases hr : r.chain = chain
    · have hquorum : (N.only chain).quorumFor r.epoch r.chain = N.quorumFor r.epoch r.chain :=
        if_pos hr
      rw [List.filter_singleton, decide_eq_true hr, cond_true, after, after, Run.run_concat,
        solicit, solicit, hquorum]
    · rw [solicit_only_of_ne hr, List.filter_singleton, decide_eq_false hr, cond_false, append_nil]

theorem agrees_only (N : Network F) (chain : Chain) (requests : List (Solicit F)) :
    (N.only chain).Agrees requests chain
      ↔ N.Agrees (requests.filter fun r => r.chain = chain) chain := by
  simp only [Agrees, quorumFor_only, signatures, after_only]

theorem not_straddles_only (m : B32) : ¬ (N.only chain).Straddles m := by
  have ho : ∀ {chain'}, (N.only chain).Eligible chain' m → chain' = chain := by
    rintro chain' ⟨e, q, hq, -⟩
    by_contra hne
    exact absurd ((if_neg hne).symm.trans hq) (by simp)
  rintro ⟨chain₁, chain₂, hne, h₁, h₂⟩
  exact hne ((ho h₁).trans (ho h₂).symm)

/-- No run of solicitations for the chain brings it into conflict. -/
def AgreesAlone (N : Network F) (chain : Chain) : Prop :=
  ∀ requests, CollisionFree requests → (∀ r ∈ requests, r.chain = chain) → N.Agrees requests chain

/-- **A chain is free of conflicts in every run of its own exactly when two thresholds never fit
beside each other** in the union of two of its quorums. -/
theorem agrees_alone_iff (N : Network F) (chain : Chain) :
    N.AgreesAlone chain
      ↔ ∀ e e' q q', N.quorumFor e chain = some q → N.quorumFor e' chain = some q' →
        q.isIntersectionSized → q'.isIntersectionSized → q.threshold ≤ q.body.card
          → q'.threshold ≤ q'.body.card → (q.body ∪ q'.body).card < q.threshold + q'.threshold := by
  classical
  have hnoRoom := (N.only chain).agrees_iff_noRoom chain
  simp only [NoRoom, quorumFor_only, filter_false_of_mem fun m _ => not_straddles_only m,
    card_empty, Nat.add_zero] at hnoRoom
  rw [← hnoRoom]
  constructor
  · intro h requests hfree
    refine (agrees_only N chain requests).mpr (h _ ?_ fun r hr =>
      of_decide_eq_true (List.mem_filter.mp hr).2)
    exact fun a ha b hb => hfree a (List.mem_filter.mp ha).1 b (List.mem_filter.mp hb).1
  · intro h requests hfree hchain
    have hag := (agrees_only N chain requests).mp (h requests hfree)
    rwa [List.filter_eq_self.mpr fun r hr => decide_eq_true (hchain r hr)] at hag

end Network

end Zephcraft.Noded
