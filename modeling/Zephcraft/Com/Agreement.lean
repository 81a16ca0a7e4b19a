import Zephcraft.Com.Sequencer
import Zephcraft.Foundations.Run

/-!
# Com/Agreement — at most one write per slot

Members that sign only through `SequencerMember.sign` never sign two writes at one slot. Two
thresholds of a quorum share more members than the sizing tolerates to be byzantine, so some shared
member is honest — and it signed one write.
-/

namespace Zephcraft.Com

open Zephcraft.Core Finset Function SequencedCommit

/-! ## One member -/

namespace SequencerMember

variable {S : SigScheme}

/-- **Signing, by its outcome**: a refusal changes nothing, and a signature goes with the write
entered at its slot, which held nothing else. -/
theorem sign_cases (m : SequencerMember S) (w : SequencedWrite) :
    m.sign w = (m, none)
      ∨ m.sign w = ({ m with signed := m.signed.insert w.slot w }, some (w.sign S m.identity))
        ∧ ∀ prev, m.signed[w.slot]? = some prev → prev = w := by
  rw [sign]
  split
  · split
    · rename_i prev hpr
      split
      · rename_i heq
        exact .inr ⟨rfl, fun p hp => by rw [← heq]; exact Option.some.inj (hp.symm.trans hpr)⟩
      · exact .inl rfl
    · rename_i hn
      exact .inr ⟨rfl, fun p hp => by simp [hn] at hp⟩
  · exact .inl rfl

end SequencerMember

/-! ## A committee of members -/

/-- The members that sign through the kernel, and what they have signed: who, and which write. -/
structure Committee (S : SigScheme) where
  members : B32 → SequencerMember S
  released : List (B32 × SequencedWrite)

namespace Committee

variable {S : SigScheme}

def new (identity : B32 → S.Secret) : Committee S := ⟨fun m => .new (identity m), []⟩

/-- One request: member `r.1` is asked to sign `r.2`. -/
def request (k : Committee S) (r : B32 × SequencedWrite) : Committee S :=
  let (m, sig) := (k.members r.1).sign r.2
  ⟨Function.update k.members r.1 m, if sig.isSome then r :: k.released else k.released⟩

/-- The committee after a run of requests. -/
def after (identity : B32 → S.Secret) (requests : List (B32 × SequencedWrite)) : Committee S :=
  Run.run request (new identity) requests

/-- Every released signature is on the write its member holds at the slot. -/
def Held (k : Committee S) : Prop :=
  ∀ m w, (m, w) ∈ k.released → (k.members m).signed[w.slot]? = some w

theorem Held.request {k : Committee S} (h : k.Held) (r : B32 × SequencedWrite) :
    (k.request r).Held := by
  obtain ⟨m₀, w₀⟩ := r
  rcases (k.members m₀).sign_cases w₀ with hr | ⟨hs, hf⟩
  · simpa [Held, Committee.request, hr] using h
  · intro m w hw
    simp only [Committee.request, hs, Option.isSome_some, if_true, List.mem_cons,
      Prod.mk.injEq] at hw ⊢
    rcases hw with ⟨rfl, rfl⟩ | hw
    · rw [update_self, BTreeMap.getElem?_insert_self]
    · have hold := h m w hw
      by_cases hm : m = m₀
      · subst hm
        rw [update_self, BTreeMap.getElem?_insert]
        split
        · rename_i hsl
          exact congrArg some (hf w (hsl ▸ hold)).symm
        · exact hold
      · rw [update_of_ne hm]
        exact hold

theorem held_after (identity : B32 → S.Secret) (requests : List (B32 × SequencedWrite)) :
    (after identity requests).Held :=
  Run.always (I := fun k : Committee S => k.Held) (fun _ _ h => absurd h (List.not_mem_nil))
    fun _ r h => h.request r

end Committee

/-! ## Agreement -/

theorem Quorum.exists_shared_outside {q : Quorum} {a b d : Finset B32}
    (hs : q.isIntersectionSized) (ha : a ⊆ q.body) (hb : b ⊆ q.body)
    (hka : q.threshold ≤ a.card) (hkb : q.threshold ≤ b.card)
    (hd : (q.body ∩ d).card ≤ q.byzantineTolerance) : ∃ m ∈ a ∩ b, m ∉ d := by
  by_contra hall
  have hsub : a ∩ b ⊆ d := fun m hm => by
    by_contra hmd
    exact hall ⟨m, hm, hmd⟩
  have hr := Intersection.card_add_card_le ha hb hsub
  rw [union_idempotent, inter_self] at hr
  have hs := Quorum.isIntersectionSized_iff.mp hs
  rw [byzantineTolerance, ← card_body] at hd
  omega

/-- **Byzantine agreement of the kernel**: if no more members than the quorum tolerates sign
arbitrarily and the others sign only what `SequencerMember.sign` gives them, then over any run of
requests two authorized commits at one slot carry the same write. -/
theorem authorized_writes_agree (S : SigScheme) (identity : B32 → S.Secret) (q : Quorum)
    (byzantine : Finset B32) (hbyz : (q.body ∩ byzantine).card ≤ q.byzantineTolerance)
    (requests : List (B32 × SequencedWrite)) (c c' : SequencedCommit)
    (hc : c.Unforged S (fun m => m ∈ q.members ∧ m ∉ byzantine)
      (Committee.after identity requests).released)
    (hc' : c'.Unforged S (fun m => m ∈ q.members ∧ m ∉ byzantine)
      (Committee.after identity requests).released)
    (ha : c.authorizes S q) (ha' : c'.authorizes S q) (hslot : c.write.slot = c'.write.slot) :
    c.write = c'.write := by
  obtain ⟨-, hsized, hk⟩ := authorizes_iff.mp ha
  obtain ⟨-, -, hk'⟩ := authorizes_iff.mp ha'
  obtain ⟨m, hm, hhonest⟩ := Quorum.exists_shared_outside hsized (q.signers_subset S _ _)
    (q.signers_subset S _ _) hk hk' hbyz
  obtain ⟨hm, hm'⟩ := mem_inter.mp hm
  have hmem : m ∈ q.members := (Quorum.mem_signers.mp hm).1
  have hheld := Committee.held_after identity requests
  have hw := hheld m _ (hc.released_of_mem_signers hm ⟨hmem, hhonest⟩)
  have hw' := hheld m _ (hc'.released_of_mem_signers hm' ⟨hmem, hhonest⟩)
  rw [hslot] at hw
  exact Option.some.inj (hw.symm.trans hw')

/-- A one-byte write by account 9, ordered by four members of which one may be byzantine. -/
def ordered : SequencedWrite := .author .transparent (9 : B32) 0 [1]

/-- …and its commit under the signatures of the given members. -/
def orderedBy (members : List B32) : SequencedCommit :=
  ⟨ordered, members.map fun m => ordered.sign .transparent m⟩

theorem authorized_writes_agree_of_four :
    (orderedBy [1, 2, 3]).authorizes .transparent (.genesis [1, 2, 3, 4] 3)
      ∧ (orderedBy [2, 1, 4]).authorizes .transparent (.genesis [1, 2, 3, 4] 3)
      ∧ (orderedBy [1, 2, 3]).write = (orderedBy [2, 1, 4]).write :=
  have ha : (orderedBy [1, 2, 3]).authorizes .transparent (.genesis [1, 2, 3, 4] 3) := by
    decide +kernel
  have ha' : (orderedBy [2, 1, 4]).authorizes .transparent (.genesis [1, 2, 3, 4] 3) := by
    decide +kernel
  ⟨ha, ha', authorized_writes_agree .transparent id _ {4} (by decide +kernel)
    [(1, ordered), (2, ordered), (3, ordered)] _ _ (by decide +kernel) (by decide +kernel) ha ha'
    rfl⟩

end Zephcraft.Com
