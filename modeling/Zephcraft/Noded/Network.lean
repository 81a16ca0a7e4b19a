import Zephcraft.Foundations.Run
import Zephcraft.Noded.SequenceStore

/-!
# Noded/Network — honest members under solicitation

Every member of every quorum is a node that signs only through `signWriteLocally`, and is solicited
in any order, at any epoch, for any chain and write. What limits a node is its signed-set: **one
hash per** `(owner, program, account, nonce)`.
-/

namespace Zephcraft.Noded

open Zephcraft.Core Com List SequenceStore SequencedWrite

/-- The nodes, each with its own key, and the primitives they share. Some key can author two writes
at one slot that the hash tells apart. -/
structure Fleet where
  S : SigScheme
  blake3 : Bytes → B32
  Node : Type
  decEq : DecidableEq Node
  secret : Node → S.Secret
  id_injective : Function.Injective fun n => S.nodeId (secret n)
  separates : ∃ key nonce payload payload',
    blake3 (author S key nonce payload).signingBytes
      ≠ blake3 (author S key nonce payload').signingBytes

instance (F : Fleet) : DecidableEq F.Node := F.decEq

def Fleet.id (F : Fleet) (n : F.Node) : B32 := F.S.nodeId (F.secret n)

/-- A quorum for each chain at each epoch, all of its members nodes of the fleet. -/
structure Network (F : Fleet) where
  quorumFor : U64 → Chain → Option Quorum
  staffed : ∀ e chain q, quorumFor e chain = some q → ∀ m ∈ q.members, ∃ n, F.id n = m

/-- A node is asked, at an epoch, to order a write of a chain. -/
structure Solicit (F : Fleet) where
  epoch : U64
  node : F.Node
  chain : Chain
  write : SequencedWrite

/-- The hash tells the solicited writes apart. -/
def CollisionFree {F : Fleet} (requests : List (Solicit F)) : Prop :=
  ∀ a ∈ requests, ∀ b ∈ requests,
    F.blake3 a.write.signingBytes = F.blake3 b.write.signingBytes → a.write = b.write

/-- No node is asked for two writes under one key. -/
def Consistent {F : Fleet} (requests : List (Solicit F)) : Prop :=
  ∀ a ∈ requests, ∀ b ∈ requests, a.node = b.node →
    signedKey a.chain a.write = signedKey b.chain b.write → a.write = b.write

/-- A signature a node has given out: for which chain, on which write. -/
structure Release (F : Fleet) where
  node : F.Node
  chain : Chain
  write : SequencedWrite

/-- The stores of all nodes, and every signature given out so far. -/
structure NetState (F : Fleet) where
  stores : F.Node → SequenceStore F.S
  released : List (Release F)

namespace Network

variable {F : Fleet} (N : Network F)

def init : NetState F := ⟨fun n => .new (F.secret n), []⟩

def solicit (st : NetState F) (r : Solicit F) : NetState F :=
  let (store, sig) := (st.stores r.node).signWriteLocally F.blake3 (N.quorumFor r.epoch r.chain)
    r.chain r.write
  ⟨Function.update st.stores r.node store,
    if sig.isSome then ⟨r.node, r.chain, r.write⟩ :: st.released else st.released⟩

/-- The state after a run of solicitations. -/
def after (requests : List (Solicit F)) : NetState F := Run.run N.solicit init requests

/-- What an observer of the signatures sees: who signed which write. -/
def signatures (requests : List (Solicit F)) : List (B32 × SequencedWrite) :=
  (N.after requests).released.map fun r => (F.id r.node, r.write)

/-- A node may be asked to sign for the chain, at some epoch. -/
def Eligible (chain : Chain) (m : B32) : Prop :=
  ∃ e q, N.quorumFor e chain = some q ∧ q.isIntersectionSized ∧ m ∈ q.members

/-- A node may be asked to sign for two chains. -/
def Straddles (m : B32) : Prop :=
  ∃ chain chain', chain ≠ chain' ∧ N.Eligible chain m ∧ N.Eligible chain' m

/-! ## What a run leaves behind -/

/-- **The invariant of a run**: nodes keep their keys; every released signature is entered in its
node's signed-set, was asked for and was the node's to give; and nothing but solicited writes is
entered anywhere. -/
structure Sound (requests : List (Solicit F)) (st : NetState F) : Prop where
  identity : ∀ n, (st.stores n).identity = F.secret n
  held : ∀ r ∈ st.released, (st.stores r.node).signed[signedKey r.chain r.write]?
    = some (F.blake3 r.write.signingBytes)
  eligible : ∀ r ∈ st.released, N.Eligible r.chain (F.id r.node)
  asked : ∀ r ∈ st.released, ∃ a ∈ requests, a.write = r.write
  entered : ∀ n key h, (st.stores n).signed[key]? = some h →
    ∃ a ∈ requests, a.node = n ∧ signedKey a.chain a.write = key ∧ F.blake3 a.write.signingBytes = h

variable {N}

variable {requests : List (Solicit F)} {st : NetState F}

theorem Sound.mono {requests' : List (Solicit F)} (h : N.Sound requests st)
    (hsub : ∀ a ∈ requests, a ∈ requests') :
    N.Sound requests' st where
  identity := h.identity
  held := h.held
  eligible := h.eligible
  asked r hr := (h.asked r hr).imp fun a ha => ⟨hsub a ha.1, ha.2⟩
  entered n key g hg := (h.entered n key g hg).imp fun a ha => ⟨hsub a ha.1, ha.2⟩

theorem released_solicit (N : Network F) (st : NetState F) (r : Solicit F) :
    (N.solicit st r).released
      = if ((st.stores r.node).signWriteLocally F.blake3 (N.quorumFor r.epoch r.chain) r.chain
          r.write).2.isSome then ⟨r.node, r.chain, r.write⟩ :: st.released else st.released :=
  rfl

/-- **A solicitation, by its outcome**: it is refused, or the node was eligible, held nothing else
at the key, and enters the hash there and nowhere else. -/
theorem solicit_cases (h : N.Sound requests st) (r : Solicit F) :
    N.solicit st r = st ∨ N.Eligible r.chain (F.id r.node)
        ∧ (∀ prev, (st.stores r.node).signed[signedKey r.chain r.write]? = some prev →
            prev = F.blake3 r.write.signingBytes)
        ∧ (∀ n, ((N.solicit st r).stores n).identity = (st.stores n).identity)
        ∧ (∀ n key, ((N.solicit st r).stores n).signed[key]?
            = if n = r.node ∧ signedKey r.chain r.write = key then
                some (F.blake3 r.write.signingBytes)
              else (st.stores n).signed[key]?)
        ∧ (N.solicit st r).released = ⟨r.node, r.chain, r.write⟩ :: st.released := by
  rcases (st.stores r.node).signWriteLocally_cases F.blake3 (N.quorumFor r.epoch r.chain) r.chain
    r.write with hr | ⟨q, signed, hq, hmay, he, hs⟩
  · exact .inl (by simp [solicit, hr])
  · obtain ⟨hmem, hsi, -⟩ := mayOrder_iff.mp hmay
    rw [SequenceStore.me, h.identity] at hmem
    obtain ⟨rfl, hf⟩ := SignedSet.enter_eq_some.mp he
    refine .inr ⟨⟨r.epoch, q, hq, hsi, hmem⟩, hf, fun n => ?_, fun n key => ?_,
      by simp [solicit, hs]⟩ <;>
    · by_cases hn : n = r.node
      · subst hn
        simp [solicit, hs, BTreeMap.getElem?_insert]
      · simp [solicit, hs, hn]

theorem Sound.solicit (h : N.Sound requests st) (r : Solicit F) :
    N.Sound (requests ++ [r]) (N.solicit st r) := by
  have hm : N.Sound (requests ++ [r]) st := h.mono fun a ha => mem_append_left [r] ha
  rcases solicit_cases h r with hsa | ⟨he, hf, hid, hs, hre⟩
  · rwa [hsa]
  have hr : r ∈ requests ++ [r] := mem_append_right _ (mem_singleton_self r)
  refine ⟨fun n => (hid n).trans (h.identity n), fun a ha => ?_, fun a ha => ?_, fun a ha => ?_,
    fun n key g hg => ?_⟩
  · rw [hs]
    rcases mem_cons.mp (hre ▸ ha) with rfl | ha
    · simp
    · split
      · rename_i hkey
        have hold := h.held a ha
        rw [hkey.1, ← hkey.2] at hold
        exact congrArg some (hf _ hold).symm
      · exact h.held a ha
  · rcases mem_cons.mp (hre ▸ ha) with rfl | ha
    exacts [he, h.eligible a ha]
  · rcases mem_cons.mp (hre ▸ ha) with rfl | ha
    exacts [⟨r, hr, rfl⟩, hm.asked a ha]
  · rw [hs] at hg
    split at hg
    · rename_i hkey
      exact ⟨r, hr, hkey.1.symm, hkey.2, Option.some.inj hg⟩
    · exact hm.entered n key g hg

theorem sound_after (N : Network F) (requests : List (Solicit F)) :
    N.Sound requests (N.after requests) := by
  induction requests using reverseRecOn with
  | nil => exact ⟨fun _ => rfl, by simp [after, init], by simp [after, init], by simp [after, init],
      by simp [after, init, SequenceStore.new]⟩
  | append_singleton requests r ih =>
    rw [after, Run.run_concat]
    exact ih.solicit r

theorem write_eq_of_key_eq (hf : CollisionFree requests) {r r' : Release F}
    (hr : r ∈ (N.after requests).released) (hr' : r' ∈ (N.after requests).released)
    (hn : r.node = r'.node) (hkey : signedKey r.chain r.write = signedKey r'.chain r'.write) :
    r.write = r'.write := by
  have hs := N.sound_after requests
  have h := hs.held r hr
  rw [hn, hkey, hs.held r' hr'] at h
  obtain ⟨a, ha, hw⟩ := hs.asked r hr
  obtain ⟨a', ha', hw'⟩ := hs.asked r' hr'
  rw [← hw, ← hw'] at h ⊢
  exact hf a ha a' ha' (Option.some.inj h).symm

/-! ## What a run can bring about -/

/-- **A node gives what it can**: consistent solicitations are answered, wherever the quorum of the
epoch allows it. -/
theorem released_of_consistent (N : Network F) (hco : Consistent requests) {r : Solicit F}
    (hr : r ∈ requests) {q : Quorum} (hq : N.quorumFor r.epoch r.chain = some q)
    (hsiz : q.isIntersectionSized) (hmem : F.id r.node ∈ q.members)
    (ha : r.write.ownerAuthentic F.S) :
    ⟨r.node, r.chain, r.write⟩ ∈ (N.after requests).released := by
  induction requests using reverseRecOn with
  | nil => simp at hr
  | append_singleton requests a ih =>
    have hsub : ∀ b ∈ requests, b ∈ requests ++ [a] := fun b hb => mem_append_left [a] hb
    have hs := N.sound_after requests
    rw [after, Run.run_concat]
    rcases mem_append.mp hr with hr | hr
    · -- answered earlier, and a release is never taken back
      have hold := ih (fun b hb c hc => hco b (hsub b hb) c (hsub c hc)) hr
      rcases solicit_cases hs a with hsa | ⟨-, -, -, -, hre⟩
      · rwa [← hsa] at hold
      · rw [← after, hre]
        exact mem_cons_of_mem _ hold
    · -- the last one: its key is free, or holds this write
      obtain rfl := mem_singleton.mp hr
      have hmay : ((N.after requests).stores r.node).mayOrder q r.write :=
        mayOrder_iff.mpr ⟨by rw [SequenceStore.me, hs.identity]; exact hmem, hsiz, ha⟩
      have hsi := isSome_signWriteLocally r.chain hmay
        fun prev hp => by
          obtain ⟨b, hb, hn, hkey, hh⟩ := hs.entered r.node _ prev hp
          rw [← hh, hco b (hsub b hb) r (mem_append_right _ hr) hn hkey]
      rw [← hq] at hsi
      rw [← after, released_solicit, if_pos hsi]
      exact (.head _)

theorem mem_signatures_of_consistent (N : Network F) (hc : Consistent requests) {r : Solicit F}
    (hr : r ∈ requests) {q : Quorum} (hq : N.quorumFor r.epoch r.chain = some q)
    (hs : q.isIntersectionSized) (hmem : F.id r.node ∈ q.members)
    (ha : r.write.ownerAuthentic F.S) :
    (F.id r.node, r.write) ∈ N.signatures requests :=
  mem_map.mpr ⟨_, N.released_of_consistent hc hr hq hs hmem ha, rfl⟩

end Network

end Zephcraft.Noded
