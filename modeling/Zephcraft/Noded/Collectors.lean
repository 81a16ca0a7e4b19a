import Zephcraft.Noded.Adoption

/-!
# Noded/Collectors — two collectors of one write

Ordering is leaderless: any node may collect the signatures of a write, and it stops at the first
`threshold` of them it gets. So two honest collectors commit the same write under different
signature sets.
-/

namespace Zephcraft.Noded

open Zephcraft.Core Com List

namespace SequenceStore

variable {S : SigScheme}

/-! ## Collecting -/

/-- Ask one member: this node signs locally, the others are solicited. -/
def askMember (blake3 : Bytes → B32) (q : Quorum) (chain : Chain) (w : SequencedWrite)
    (solicitMember : B32 → Option MemberSignature) (s : SequenceStore S) (member : B32) :
    SequenceStore S × Option MemberSignature :=
  if member = s.me then s.signWriteLocally blake3 (some q) chain w else (s, solicitMember member)

/-- One turn of the collecting loop; nobody is asked once the threshold is reached. -/
def gatherStep (blake3 : Bytes → B32) (q : Quorum) (chain : Chain) (w : SequencedWrite)
    (solicitMember : B32 → Option MemberSignature)
    (st : SequenceStore S × List MemberSignature) (member : B32) :
    SequenceStore S × List MemberSignature :=
  if q.threshold ≤ st.2.length then st
  else
    let (s, sig) := st.1.askMember blake3 q chain w solicitMember member
    match sig with
    | some x => if st.2.any fun y => y.member = x.member then (s, st.2) else (s, st.2 ++ [x])
    | none => (s, st.2)

/-- Gather the threshold of signatures for a write and submit the commit; the answer says whether it
was committed. -/
def collect (blake3 : Bytes → B32) (q : Quorum) (chain : Chain) (w : SequencedWrite)
    (solicitMember : B32 → Option MemberSignature) (s : SequenceStore S) :
    SequenceStore S × Bool :=
  let (s, sigs) := q.members.foldl (gatherStep blake3 q chain w solicitMember) (s, [])
  if sigs.length < q.threshold then (s, false)
  else match s.submit (some q) chain ⟨w, sigs⟩ with
    | some s => (s, true)
    | none => (s, false)

end SequenceStore

/-! ## Taking over a longer sequence -/

theorem extendsSequence_iff {base longer : AccountSequence} :
    extendsSequence base longer ↔ base.commits <+: longer.commits := by
  obtain ⟨_, commits⟩ := base
  obtain ⟨_, commits'⟩ := longer
  simp only [extendsSequence, Bool.and_eq_true, decide_eq_true_eq]
  induction commits generalizing commits' with
  | nil => simp
  | cons c commits ih =>
    cases commits' with
    | nil => simp
    | cons c' commits' =>
      rw [cons_prefix_cons, ← ih]
      simp only [length_cons, Nat.add_le_add_iff_right, zip_cons_cons, all_cons,
        Bool.and_eq_true, decide_eq_true_eq]
      tauto

theorem signatures_eq_of_prefix {base longer : List SequencedCommit} (h : base <+: longer) {i : ℕ}
    {c c' : SequencedCommit} (hc : base[i]? = some c) (hc' : longer[i]? = some c') :
    c.signatures = c'.signatures := by
  obtain ⟨rest, rfl⟩ := h
  have hi : i < base.length := (List.getElem?_eq_some_iff.mp hc).1
  rw [getElem?_append_left hi, hc] at hc'
  rw [Option.some.inj hc']

theorem prefix_iff_same_signatures {base longer : List SequencedCommit}
    (hlen : base.length ≤ longer.length)
    (hw : ∀ (i : ℕ) (c c' : SequencedCommit), base[i]? = some c → longer[i]? = some c' →
      c.write = c'.write) :
    base <+: longer ↔ ∀ (i : ℕ) (c c' : SequencedCommit), base[i]? = some c → longer[i]? = some c' →
      c.signatures = c'.signatures := by
  refine ⟨fun h i c c' => signatures_eq_of_prefix h, fun hs => ?_⟩
  refine prefix_iff_getElem?.mpr fun i hi => ?_
  have hc : base[i]? = some base[i] := getElem?_eq_getElem hi
  have hc' : longer[i]? = some longer[i] := getElem?_eq_getElem (hi.trans_le hlen)
  rw [hc']
  exact congrArg some (SequencedCommit.ext (hw i _ _ hc hc') (hs i _ _ hc hc')).symm

/-- No two writes were authorized at one slot, of all the commits that ever were. -/
def OneWritePerSlot (S : SigScheme) (q : Quorum) (ever : List SequencedCommit) : Prop :=
  ∀ c ∈ ever, ∀ c' ∈ ever, c.authorizes S q → c'.authorizes S q → c.write.slot = c'.write.slot →
    c.write = c'.write
deriving Decidable

theorem OneWritePerSlot.write_eq {S : SigScheme} {q : Quorum} {ever : List SequencedCommit}
    (h : OneWritePerSlot S q ever) {base longer : AccountSequence} (hb : base.commits ⊆ ever)
    (hl : longer.commits ⊆ ever) (hv : base.verify S q) (hv' : longer.verify S q)
    (hac : base.account = longer.account) {i : ℕ} {c c' : SequencedCommit}
    (hc : base.commits[i]? = some c) (hc' : longer.commits[i]? = some c') : c.write = c'.write := by
  obtain ⟨ha, hn, hau⟩ := verify_iff.mp hv i c hc
  obtain ⟨ha', hn', hau'⟩ := verify_iff.mp hv' i c' hc'
  refine h c (hb (mem_of_getElem? hc)) c' (hl (mem_of_getElem? hc')) hau hau' ?_
  simp [SequencedWrite.slot, ha, ha', hn, hn', hac]

/-- **The same signatures, or a fork.** A node that holds a verified sequence takes over a longer
verified one of the same account exactly when, at every nonce it holds, the two collectors chose the
same signatures — with one write per slot, and so with no fork to refuse. -/
theorem adopts_iff_same_signatures {S : SigScheme} (q : Quorum) (ever : List SequencedCommit)
    (hone : OneWritePerSlot S q ever) (s : SequenceStore S) (key : SeqKey)
    (base longer : AccountSequence) (hheld : s.sequences[key]? = some base)
    (hbase : base.commits ⊆ ever) (hlonger : longer.commits ⊆ ever)
    (haccount : base.account = key.2.2) (haccount' : longer.account = key.2.2)
    (hv : base.verify S q) (hv' : longer.verify S q)
    (hlen : base.commits.length < longer.commits.length) (hmax : longer.commits.length < 2 ^ 64) :
    ((s.adopt key longer q).2 = true ∧ (s.adopt key longer q).1.sequences[key]? = some longer)
      ↔ ∀ (i : ℕ) (c c' : SequencedCommit), base.commits[i]? = some c →
          longer.commits[i]? = some c' → c.signatures = c'.signatures := by
  have hext := prefix_iff_same_signatures hlen.le fun i c c' hc hc' =>
    hone.write_eq hbase hlonger hv hv' (haccount.trans haccount'.symm) hc hc'
  rw [← hext, ← extendsSequence_iff]
  have hnonce : base.nextNonce < longer.nextNonce := by
    rw [Fin.lt_def, AccountSequence.nextNonce, AccountSequence.nextNonce, Word.val_truncate,
      Word.val_truncate, Nat.mod_eq_of_lt hmax, Nat.mod_eq_of_lt (hlen.trans hmax)]
    exact hlen
  simp only [SequenceStore.adopt, haccount', hv', hheld]
  by_cases h : extendsSequence base longer <;> simp [h, hnonce]

/-! ## Three members, two collectors -/

def twoOfThree : Quorum := .genesis [1, 2, 3] 2

/-- The writes of account 9, one a nonce. -/
def nthWrite (n : U64) : SequencedWrite := .author .transparent (9 : B32) n [Word.truncate n.val]

/-- The members that are not `absent` answer a solicitation. -/
def answers (absent : List B32) (w : SequencedWrite) (m : B32) : Option MemberSignature :=
  if m ∈ absent then none else some (w.sign .transparent m)

/-- `node` collects the write of nonce `n` while some members are away. -/
def collectNth (s : SequenceStore .transparent) (n : U64) (absent : List B32) :
    SequenceStore .transparent :=
  (s.collect blake3 twoOfThree (7, 8) (nthWrite n) (answers absent (nthWrite n))).1

/-- Node 1 has collected the write at nonce 0; everybody answered. -/
def nodeOne : SequenceStore .transparent := collectNth (.new (1 : B32)) 0 []

/-- Node 3 has collected the writes at nonces 0 and 1; for the first, some members were away. -/
def nodeThree (absent : List B32) : SequenceStore .transparent :=
  collectNth (collectNth (.new (3 : B32)) 0 absent) 1 []

def heldBy (s : SequenceStore .transparent) : AccountSequence := s.sequences.getD (7, 8, 9) (.new 9)

/-- With the same members answering, the shorter history gives way to the longer one. -/
theorem adopts_iff_same_signatures_nodeThree :
    (nodeOne.adopt (7, 8, 9) (heldBy (nodeThree [])) twoOfThree).2 = true
      ∧ (nodeOne.adopt (7, 8, 9) (heldBy (nodeThree [])) twoOfThree).1.sequences[((7, 8,
        9) : SeqKey)]? = some (heldBy (nodeThree [])) := by
  have hprefix : (heldBy nodeOne).commits <+: (heldBy (nodeThree [])).commits := by decide +kernel
  exact (adopts_iff_same_signatures twoOfThree
    ((heldBy nodeOne).commits ++ (heldBy (nodeThree [])).commits)
      (by decide +kernel) nodeOne (7, 8, 9) (heldBy nodeOne) (heldBy (nodeThree []))
        (by decide +kernel) (by simp) (by simp) (by decide +kernel)
    (by decide +kernel) (by decide +kernel) (by decide +kernel) (by decide +kernel)
    (by decide +kernel)).mpr fun _ _ _ => signatures_eq_of_prefix hprefix

/-- **Another collector's signatures read as a fork.** With member 2 away, node 3 commits the same
write at nonce 0 under other signatures; both histories verify, no slot has two writes, and node 1
refuses the longer one. -/
theorem other_collector_refused :
    (heldBy nodeOne).verify .transparent twoOfThree
      ∧ (heldBy (nodeThree [2])).verify .transparent twoOfThree
      ∧ OneWritePerSlot .transparent twoOfThree
          ((heldBy nodeOne).commits ++ (heldBy (nodeThree [2])).commits)
      ∧ (heldBy nodeOne).commits.length = 1 ∧ (heldBy (nodeThree [2])).commits.length = 2
      ∧ (nodeOne.adopt (7, 8, 9) (heldBy (nodeThree [2])) twoOfThree).2 = false := by
  decide +kernel

end Zephcraft.Noded
