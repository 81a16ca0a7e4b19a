import Zephcraft.Noded.EpochCommittee

/-!
# Noded/Adoption — reading a history under a later committee

A sequence grows by commits that the committee of the day authorized. A node that takes it over
later verifies **every** commit under the committee of *its* day. So a history stays readable, in
every run, exactly as long as the committee never changes.
-/

namespace Zephcraft.Noded

open Zephcraft.Core Com List Finset Network Quorum SequencedWrite Fleet Run

/-- What happens on a chain: a node is solicited, a collected commit is submitted to a node, a node
takes over another's sequence of an account. -/
inductive Event (F : Fleet) where
  | solicit (r : Solicit F)
  | submit (node : F.Node) (epoch : U64) (commit : SequencedCommit)
  | sync (node source : F.Node) (epoch : U64) (account : B32)

def Event.epoch {F : Fleet} : Event F → U64
  | solicit r => r.epoch
  | submit _ epoch _ => epoch
  | sync _ _ epoch _ => epoch

/-- The key of an account's sequence on a chain. -/
def seqKey (chain : Chain) (account : B32) : SeqKey := (chain.1, chain.2, account)

namespace Network

variable {F : Fleet} (N : Network F) (chain : Chain)

def step (st : NetState F) : Event F → NetState F
  | .solicit r => N.solicit st r
  | .submit n epoch c =>
    match (st.stores n).submit (N.quorumFor epoch chain) chain c with
    | none => st
    | some store => { st with stores := Function.update st.stores n store }
  | .sync n source epoch account =>
    match N.quorumFor epoch chain, (st.stores source).sequences[seqKey chain account]? with
    | some q, some fetched =>
      if q.isIntersectionSized then
        let (store, _) := (st.stores n).adopt (seqKey chain account) fetched q
        { st with stores := Function.update st.stores n store }
      else st
    | _, _ => st

def afterEvents (events : List (Event F)) : NetState F :=
  run (N.step chain) init events

/-- A submitted commit holds no forged signature of the committee it is submitted under. -/
def Assembled (st : NetState F) : Event F → Prop
  | .submit _ epoch c => ∀ q, N.quorumFor epoch chain = some q →
      c.Unforged F.S (· ∈ q.members) (st.released.map fun r => (F.id r.node, r.write))
  | _ => True

/-- **A run of honest nodes**: time does not run backwards, and no signature is forged. -/
structure HonestRun (chain : Chain) (events : List (Event F)) : Prop where
  monotone : (events.map Event.epoch).Pairwise (· ≤ ·)
  assembled : EachStep (N.step chain) init (N.Assembled chain) events

/-- **The history is readable**: from the end of the run on, a node that holds nothing of an account
takes over the sequence any node holds. -/
def Readable (events : List (Event F)) : Prop :=
  ∀ n account seq, ((N.afterEvents chain events).stores n).sequences[seqKey chain account]?
    = some seq → ∀ epoch, (∀ ev ∈ events, ev.epoch ≤ epoch) → ∀ q, N.quorumFor epoch chain = some q
      → ∀ fresh : SequenceStore F.S, fresh.sequences[seqKey chain account]? = none →
        (fresh.adopt (seqKey chain account) seq q).2 = true

end Network

/-! ## Verified sequences -/

variable {S : SigScheme}

theorem verify_iff {seq : AccountSequence} {q : Quorum} :
    seq.verify S q ↔ ∀ (i : ℕ) (c : SequencedCommit), seq.commits[i]? = some c →
      c.write.account = seq.account ∧ c.write.nonce = Word.truncate i ∧ c.authorizes S q := by
  simp only [AccountSequence.verify, all_eq_true, Bool.and_eq_true, decide_eq_true_eq, and_assoc]
  constructor
  · intro h i c hc
    exact h (c, i) (mk_mem_zipIdx_iff_getElem?.mpr hc)
  · rintro h ⟨c, i⟩ hmem
    exact h i c (mk_mem_zipIdx_iff_getElem?.mp hmem)

theorem adopt_fresh {s : SequenceStore S} {key : SeqKey} (hf : s.sequences[key]? = none)
    (seq : AccountSequence) (q : Quorum) :
    (s.adopt key seq q).2 = true ↔ seq.account = key.2.2 ∧ seq.verify S q := by
  rw [SequenceStore.adopt, hf]
  by_cases h : seq.account = key.2.2 ∧ seq.verify S q
  · simp only [h, ne_eq, not_true_eq_false, or_self, if_false, Option.any_none, Bool.false_eq_true]
    split <;> simp
  · rw [if_pos (by tauto)]
    simp only [Bool.false_eq_true, false_iff]
    exact h

theorem submit_eq_some {s s' : SequenceStore S} {quorum : Option Quorum} {chain : Chain}
    {c : SequencedCommit} (h : s.submit quorum chain c = some s') :
    ∃ q base, quorum = some q
      ∧ s.sequences.getD (seqKey chain c.write.account) (.new c.write.account) = base
      ∧ c.write.account = base.account ∧ c.write.nonce = base.nextNonce ∧ c.authorizes S q
      ∧ s'.sequences = s.sequences.insert (seqKey chain c.write.account)
          { base with commits := base.commits ++ [c] } := by
  obtain ⟨q, hq, h⟩ := Option.bind_eq_some_iff.mp h
  obtain ⟨seq, hseq, h⟩ := Option.bind_eq_some_iff.mp h
  cases h
  rw [AccountSequence.append] at hseq
  split at hseq
  · rename_i hok
    cases hseq
    exact ⟨q, _, hq, rfl, hok.1, hok.2.1, hok.2.2, rfl⟩
  · simp at hseq

theorem sequences_adopt (s : SequenceStore S) (key : SeqKey) (fetched : AccountSequence)
    (q : Quorum) :
    (s.adopt key fetched q).1.sequences = s.sequences
      ∨ (s.adopt key fetched q).1.sequences = s.sequences.insert key fetched := by
  rw [SequenceStore.adopt]
  split
  · exact .inl rfl
  · dsimp only
    split
    · exact .inl rfl
    · split
      exacts [.inr rfl, .inl rfl]

namespace Network

variable {F : Fleet} {N : Network F} {chain : Chain}

theorem sequences_solicit (N : Network F) (st : NetState F) (r : Solicit F) (n : F.Node) :
    ((N.solicit st r).stores n).sequences = (st.stores n).sequences := by
  by_cases hn : n = r.node
  · subst hn
    rcases (st.stores r.node).signWriteLocally_cases F.blake3 (N.quorumFor r.epoch r.chain) r.chain
      r.write with h | ⟨_, _, -, -, -, h⟩ <;> simp [solicit, h]
  · simp [solicit, hn]

/-! ## How histories grow -/

/-- Every commit of the sequence is in its place and was authorized by the committee of an epoch in
which something happened. -/
def Ordered (N : Network F) (chain : Chain) (events : List (Event F)) (account : B32)
    (seq : AccountSequence) : Prop :=
  seq.account = account ∧ ∀ (i : ℕ) (c : SequencedCommit), seq.commits[i]? = some c →
    c.write.account = seq.account ∧ c.write.nonce = Word.truncate i
      ∧ ∃ ev ∈ events, ∃ q, N.quorumFor ev.epoch chain = some q ∧ c.authorizes F.S q

/-- Every sequence of the chain, at every node, is ordered. -/
def AllOrdered (N : Network F) (chain : Chain) (events : List (Event F)) (st : NetState F) : Prop :=
  ∀ n account seq, (st.stores n).sequences[seqKey chain account]? = some seq →
    N.Ordered chain events account seq

variable {events : List (Event F)} {account : B32} {seq : AccountSequence} {q : Quorum}

theorem Ordered.mono (h : N.Ordered chain events account seq) (ev : Event F) :
    N.Ordered chain (events ++ [ev]) account seq := by
  refine ⟨h.1, fun i c hc => ?_⟩
  obtain ⟨ha, hn, ev', hev', hq⟩ := h.2 i c hc
  exact ⟨ha, hn, ev', mem_append_left _ hev', hq⟩

theorem Ordered.concat (h : N.Ordered chain events account seq) {ev : Event F} (hev : ev ∈ events)
    {c : SequencedCommit} (hq : N.quorumFor ev.epoch chain = some q)
    (ha : c.write.account = seq.account) (hn : c.write.nonce = seq.nextNonce)
    (hau : c.authorizes F.S q) :
    N.Ordered chain events account { seq with commits := seq.commits ++ [c] } := by
  refine ⟨h.1, fun i c' hc' => ?_⟩
  rcases lt_or_ge i seq.commits.length with hlt | hge
  · rw [getElem?_append_left hlt] at hc'
    exact h.2 i c' hc'
  · rw [getElem?_append_right hge] at hc'
    obtain ⟨hi, rfl⟩ : i - seq.commits.length = 0 ∧ c = c' := by
      rcases hi : i - seq.commits.length with _ | k <;> simp_all
    obtain rfl : i = seq.commits.length := by omega
    exact ⟨ha, hn, ev, hev, q, hq, hau⟩

theorem AllOrdered.write {st : NetState F} (h : N.AllOrdered chain events st) {n : F.Node}
    {store : SequenceStore F.S} (hseq : N.Ordered chain events account seq)
    (hs : store.sequences = (st.stores n).sequences
      ∨ store.sequences = (st.stores n).sequences.insert (seqKey chain account) seq) :
    N.AllOrdered chain events { st with stores := Function.update st.stores n store } := by
  intro n' account' seq' hseq'
  dsimp only at hseq'
  by_cases hn : n' = n
  · subst hn
    rw [Function.update_self] at hseq'
    rcases hs with hsa | hins
    · rw [hsa] at hseq'
      exact h n' account' seq' hseq'
    · rw [hins, BTreeMap.getElem?_insert] at hseq'
      split at hseq'
      · rename_i hkey
        cases hseq'
        obtain rfl : account = account' := congrArg (fun k => k.2.2) hkey
        exact hseq
      · exact h n' account' seq' hseq'
  · rw [Function.update_of_ne hn] at hseq'
    exact h n' account' seq' hseq'

theorem AllOrdered.step {st : NetState F} (h : N.AllOrdered chain events st) (ev : Event F) :
    N.AllOrdered chain (events ++ [ev]) (N.step chain st ev) := by
  have hm : N.AllOrdered chain (events ++ [ev]) st := fun n account seq hseq =>
    (h n account seq hseq).mono ev
  have hev : ev ∈ events ++ [ev] := mem_append_right _ (List.mem_singleton_self ev)
  cases ev with
  | solicit r =>
    intro n account seq hseq
    rw [Network.step, sequences_solicit] at hseq
    exact hm n account seq hseq
  | submit n epoch c =>
    rw [Network.step]
    split
    · exact hm
    · rename_i store hs
      obtain ⟨q, base, hq, hb, ha, hn, hau, hins⟩ := submit_eq_some hs
      have ho : N.Ordered chain (events ++ [.submit n epoch c]) c.write.account base := by
        rw [Std.ExtTreeMap.getD_eq_getD_getElem?] at hb
        cases hcur : (st.stores n).sequences[seqKey chain c.write.account]? with
        | none =>
          rw [hcur] at hb
          subst hb
          exact ⟨rfl, by simp [AccountSequence.new]⟩
        | some cur =>
          rw [hcur] at hb
          subst hb
          exact hm n _ _ hcur
      exact hm.write (ho.concat hev hq ha hn hau) (.inr hins)
  | sync n source epoch account =>
    rw [Network.step]
    split
    · rename_i q fetched _ hf
      split
      · exact hm.write (hm source account fetched hf) (sequences_adopt ..)
      · exact hm
    · exact hm

theorem allOrdered_afterEvents (N : Network F) (chain : Chain) (events : List (Event F)) :
    N.AllOrdered chain events (N.afterEvents chain events) := by
  induction events using reverseRecOn with
  | nil => intro n account seq hseq; simp [afterEvents, init, SequenceStore.new] at hseq
  | append_singleton events ev ih =>
    rw [afterEvents, run_concat]
    exact ih.step ev

def Constant (N : Network F) (chain : Chain) : Prop :=
  ∀ e e' q q', e ≤ e' → N.quorumFor e chain = some q → N.quorumFor e' chain = some q' → q = q'

theorem readable_of_constant (h : N.Constant chain) (events : List (Event F)) :
    N.Readable chain events := by
  intro n account seq hseq epoch hl q hq fresh hf
  obtain ⟨hac, hco⟩ := N.allOrdered_afterEvents chain events n account seq hseq
  refine (adopt_fresh hf seq q).mpr ⟨hac, verify_iff.mpr fun i c hc => ?_⟩
  obtain ⟨ha, hn, ev, hev, q₀, hq₀, hau⟩ := hco i c hc
  obtain rfl := h ev.epoch epoch q₀ q (hl ev hev) hq₀ hq
  exact ⟨ha, hn, hau⟩

/-! ## A history that is not -/

theorem sequences_after (N : Network F) (requests : List (Solicit F)) (n : F.Node) :
    ((N.after requests).stores n).sequences = ∅ :=
  always (I := fun st : NetState F => (st.stores n).sequences = ∅) rfl fun st r h =>
    (N.sequences_solicit st r n).trans h

theorem afterEvents_solicit (N : Network F) (chain : Chain) (requests : List (Solicit F)) :
    N.afterEvents chain (requests.map .solicit) = N.after requests :=
  foldl_map

theorem submit_first {S : SigScheme} {s : SequenceStore S} {c : SequencedCommit}
    (he : s.sequences = ∅) (hn : c.write.nonce = 0) (hau : c.authorizes S q) :
    ∃ s', s.submit (some q) chain c = some s'
      ∧ s'.sequences[seqKey chain c.write.account]? = some ⟨c.write.account, [c]⟩ := by
  refine ⟨{ s with
    sequences := s.sequences.insert (seqKey chain c.write.account) ⟨c.write.account, [c]⟩ }, ?_,
    BTreeMap.getElem?_insert_self ..⟩
  have ha : (AccountSequence.new c.write.account).append S c q = some ⟨c.write.account, [c]⟩ :=
    if_pos ⟨rfl, hn, hau⟩
  simp [SequenceStore.submit, he, ha, seqKey]

/-- Solicitations at one epoch, then the commit they were for, submitted to a node. -/
def collection (requests : List (Solicit F)) (n : F.Node) (epoch : U64) (c : SequencedCommit) :
    List (Event F) :=
  requests.map .solicit ++ [.submit n epoch c]

section Collection

variable {requests : List (Solicit F)} {n : F.Node} {e e' : U64} {q q' : Quorum}
  {c : SequencedCommit}

theorem epoch_collection (he : ∀ r ∈ requests, r.epoch = e) {ev : Event F}
    (hev : ev ∈ collection requests n e c) : ev.epoch = e := by
  rcases mem_append.mp hev with hev | hev
  · obtain ⟨r, hr, rfl⟩ := List.mem_map.mp hev
    exact he r hr
  · rw [List.mem_singleton.mp hev]
    rfl

theorem honestRun_collection (he : ∀ r ∈ requests, r.epoch = e) (hq : N.quorumFor e chain = some q)
    (hu : c.Unforged F.S (· ∈ q.members) (N.signatures requests)) :
    N.HonestRun chain (collection requests n e c) := by
  refine ⟨pairwise_map.mpr (pairwise_iff_forall_sublist.mpr fun hsub => ?_),
    eachStep_concat.mpr ⟨fun pre ev hpre => ?_, fun q₀ hq₀ => ?_⟩⟩
  · rw [epoch_collection he (hsub.subset (by simp)), epoch_collection he (hsub.subset (by simp))]
  · have hev : ev ∈ requests.map Event.solicit :=
      hpre.subset (mem_append_right pre (List.mem_singleton_self ev))
    obtain ⟨r, -, rfl⟩ := List.mem_map.mp hev
    trivial
  · cases hq.symm.trans hq₀
    rw [← afterEvents, afterEvents_solicit]
    exact hu

theorem sequence_collection (hq : N.quorumFor e chain = some q) (hn : c.write.nonce = 0)
    (ha : c.authorizes F.S q) :
    ((N.afterEvents chain (collection requests n e c)).stores n).sequences[seqKey chain
      c.write.account]? = some ⟨c.write.account, [c]⟩ := by
  obtain ⟨s', hs, hseq⟩ := submit_first (N.sequences_after requests n) hn ha
  rw [collection, afterEvents, run_concat, ← afterEvents, afterEvents_solicit, Network.step, hq, hs]
  simpa using hseq

theorem not_readable_collection (he : e ≤ e') (hep : ∀ r ∈ requests, r.epoch = e)
    (hq : N.quorumFor e chain = some q) (hq' : N.quorumFor e' chain = some q')
    (hn : c.write.nonce = 0) (hau : c.authorizes F.S q) (hnot : ¬ c.authorizes F.S q') :
    ¬ N.Readable chain (collection requests n e c) := by
  intro hr
  have hnew : (SequenceStore.new (F.secret n)).sequences[seqKey chain c.write.account]? = none := by
    simp [SequenceStore.new]
  have ha := hr n c.write.account _ (sequence_collection hq hn hau) e'
    (fun ev hev => (epoch_collection hep hev).trans_le he) q' hq' (.new (F.secret n)) hnew
  exact hnot (verify_iff.mp ((adopt_fresh hnew _ q').mp ha).2 0 c rfl).2.2

end Collection

theorem signers_commitBy_subset {w : SequencedWrite} {nodes : List F.Node} {a : Finset B32}
    (h : ∀ n ∈ nodes, F.id n ∈ a) (q : Quorum) (msg : Bytes) :
    q.signers F.S msg (F.commitBy w nodes).signatures ⊆ a ∩ q.body := by
  intro m hm
  refine mem_inter.mpr ⟨?_, q.signers_subset _ _ _ hm⟩
  obtain ⟨-, s, hs, rfl, -⟩ := Quorum.mem_signers.mp hm
  obtain ⟨n, hn, rfl⟩ := List.mem_map.mp hs
  exact h n hn

/-- **A threshold of one committee that is none of a later one** can leave a commit nobody reads
then. -/
theorem exists_unreadable {e e' : U64} {q' : Quorum} {a : Finset B32} (he : e ≤ e')
    (hq : N.quorumFor e chain = some q) (hq' : N.quorumFor e' chain = some q')
    (hs : q.isIntersectionSized) (ha : a ⊆ q.body) (hk : q.threshold ≤ a.card)
    (hfew : (a ∩ q'.body).card < q'.threshold) :
    ∃ events, N.HonestRun chain events ∧ ¬ N.Readable chain events := by
  have hne : a.Nonempty := card_pos.mp ((Quorum.threshold_pos hs).trans_le hk)
  obtain ⟨m₀, -⟩ := id hne
  obtain ⟨node, hno⟩ := exists_staffing hne fun m hm =>
    N.staffed e chain q hq m (mem_body.mp (ha hm))
  obtain ⟨key, -⟩ := F.separates
  have hc : Consistent (solicitations node (fun _ => (e, chain)) (.author F.S key 0 []) a) := by
    rintro x hx y hy - -
    obtain ⟨_, -, rfl⟩ := mem_solicitations.mp hx
    obtain ⟨_, -, rfl⟩ := mem_solicitations.mp hy
    rfl
  have hep : ∀ r ∈ solicitations node (fun _ => (e, chain)) (.author F.S key 0 []) a,
      r.epoch = e := by
    intro r hr
    obtain ⟨_, -, rfl⟩ := mem_solicitations.mp hr
    rfl
  refine ⟨collection _ (node m₀) e (F.commitBy _ (a.toList.map node)),
    honestRun_collection hep hq (unforged_commitBy _ fun n hn =>
      mem_signatures_of_solicitations (fun _ hr => hr) hc hno
        (fun m hm => ⟨q, hq, hs, mem_body.mp (ha hm)⟩)
        (ownerAuthentic_author ..) hn),
    not_readable_collection he hep hq hq' rfl ?_ fun hau => ?_⟩
  · exact authorizes_commitBy (ownerAuthentic_author ..) hs ha hk hno
  · refine absurd ((SequencedCommit.authorizes_iff.mp hau).2.2.trans (card_le_card
      (signers_commitBy_subset (fun n hn => ?_) q' _))) (not_le.mpr hfew)
    obtain ⟨m, hm, rfl⟩ := List.mem_map.mp hn
    rw [hno m (mem_toList.mp hm)]
    exact mem_toList.mp hm

end Network

/-! ## Committees of a census -/

namespace Census

variable {F : Fleet} {census : Census F} {program : B32}

theorem exists_mem_not_mem {e e' : U64} {q q' : Quorum} (hq : census.committee program e = some q)
    (hq' : census.committee program e' = some q') (hne : q ≠ q') : ∃ m ∈ q.body, m ∉ q'.body := by
  obtain ⟨hlen, ht, hseq⟩ := size_committeeFor census.nodup_eligible hq
  obtain ⟨hlen', ht', hseq'⟩ := size_committeeFor census.nodup_eligible hq'
  by_contra hall
  have hsub : q.body ⊆ q'.body := fun m hm => by
    by_contra hm'
    exact hall ⟨m, hm, hm'⟩
  have hc : q'.body.card ≤ q.body.card := by rw [card_body, card_body, hlen, hlen']
  exact hne (ext_body (eq_of_subset_of_card_le hsub hc) (ht.trans ht'.symm) (hseq.trans hseq'.symm))

/-- **A history stays readable, in every run of honest nodes, exactly when the committee never
changes.** -/
theorem history_readable_iff_committee_constant (F : Fleet) (census : Census F)
    (declared : Network F) (program : B32) :
    (∀ events, (census.network declared).HonestRun (F.anchored program) events →
      (census.network declared).Readable (F.anchored program) events)
      ↔ ∀ e e' q q', e ≤ e' → census.committee program e = some q →
        census.committee program e' = some q' → q = q' := by
  constructor
  · intro h e e' q q' he hq hq'
    by_contra hne
    obtain ⟨m, hm, hm'⟩ := exists_mem_not_mem hq hq' hne
    obtain ⟨hsized, hk⟩ := sized_committeeFor hq
    have hpos := Quorum.threshold_pos hsized
    -- a threshold with a member that the later committee lacks
    obtain ⟨a, hma, ha, hcard⟩ := exists_subsuperset_card_eq
      (singleton_subset_iff.mpr hm) ((card_singleton m).trans_le hpos) hk
    have hfew : (a ∩ q'.body).card < q'.threshold := by
      have hlost : a ∩ q'.body ⊆ a.erase m := fun x hx => by
        obtain ⟨hxa, hxq⟩ := mem_inter.mp hx
        exact mem_erase.mpr ⟨fun h => hm' (h ▸ hxq), hxa⟩
      have hle := card_le_card hlost
      rw [card_erase_of_mem (singleton_subset_iff.mp hma)] at hle
      have hthreshold : q.threshold = q'.threshold :=
        (size_committeeFor census.nodup_eligible hq).2.1.trans
          (size_committeeFor census.nodup_eligible hq').2.1.symm
      omega
    obtain ⟨events, hhonest, hunreadable⟩ := exists_unreadable he
      ((quorumFor_network e).trans hq) ((quorumFor_network e').trans hq') hsized ha hcard.ge hfew
    exact hunreadable (h events hhonest)
  · intro h events _
    refine readable_of_constant (fun e e' q q' he hq hq' => ?_) events
    rw [quorumFor_network] at hq hq'
    exact h e e' q q' he hq hq'

end Census

/-- Three members of the committee at epoch 0 order account 9's first write. -/
def orderedAtZero : List (Event openFleet) :=
  collection (solicitAll [4, 5, 6] 0 1) (4 : B32) 0
    (openFleet.commitBy (Programs.firstWrite 1) ([4, 5, 6] : List B32))

/-- **A commit of epoch 0 is lost to every node that holds nothing at epoch 4** — all six nodes
honest. -/
theorem sixNodes_lose_history :
    (sixNodes.network noneDeclared).HonestRun (openFleet.anchored 7) orderedAtZero
      ∧ ¬ (sixNodes.network noneDeclared).Readable (openFleet.anchored 7) orderedAtZero := by
  have hepoch : ∀ r ∈ solicitAll [4, 5, 6] 0 1, r.epoch = 0 := fun r hr => by
    obtain ⟨_, -, rfl⟩ := List.mem_map.mp hr
    rfl
  have hcons : Consistent (solicitAll [4, 5, 6] 0 1) := consistent_of_writes (by decide +kernel)
  refine ⟨honestRun_collection hepoch quorumFor_sixNodes_zero ?_,
    not_readable_collection (by decide) hepoch quorumFor_sixNodes_zero
      quorumFor_sixNodes_four rfl (by decide +kernel) (by decide +kernel)⟩
  exact unforged_commitBy _ fun n hn => mem_signatures_of_consistent _ hcons
    (r := ⟨0, n, openFleet.anchored 7, Programs.firstWrite 1⟩)
      (List.mem_map_of_mem hn) quorumFor_sixNodes_zero
    (by decide +kernel) (mem_canonical.mpr (List.mem_cons_of_mem 3 hn))
    (ownerAuthentic_author ..)

end Zephcraft.Noded
