import Zephcraft.Noded.Programs

/-!
# Noded/EpochCommittee — a committee drawn anew each epoch

The committee of a program at an epoch is the low end of the eligible nodes in the order of a hash
over program, epoch and node. It orders the writes of every anchored program: one whose owner is the
sentinel made of its id.
-/

namespace Zephcraft.Noded

open Zephcraft.Core Com List Finset Quorum Programs Network SequencedWrite

/-- The committee size and threshold, where enough nodes are eligible. -/
def nDefault : ℕ := 4
def kDefault : ℕ := 3

variable (blake3 : Bytes → B32) (program : B32)

def rendezvous (epoch : U64) (id : B32) : B32 :=
  blake3 (ascii "craftec/epoch-committee/1" ++ program.toBytes ++ epoch.toLeBytes ++ id.toBytes)

/-- The committee of a program at an epoch. -/
def committeeFor (epoch : U64) (eligible : List B32) : Option Quorum :=
  if eligible = [] then none
  else
    let ids := eligible.insertionSort fun a b =>
      rendezvous blake3 program epoch a ≤ rendezvous blake3 program epoch b
    let n := max (min nDefault ids.length) 1
    let k := max (min kDefault n) (n / 2 + 1)
    some (.genesis (ids.take n) k)

section

variable {blake3 : Bytes → B32} {program : B32} {epoch : U64} {eligible : List B32} {q : Quorum}

theorem mem_eligible_of_committeeFor (h : committeeFor blake3 program epoch eligible = some q)
    {m : B32} (hm : m ∈ q.members) : m ∈ eligible := by
  rw [committeeFor] at h
  split at h
  · simp at h
  · cases h
    exact (mem_insertionSort _).mp (mem_of_mem_take (mem_canonical.mp hm))

theorem sized_committeeFor (h : committeeFor blake3 program epoch eligible = some q) :
    q.isIntersectionSized ∧ q.threshold ≤ q.body.card := by
  rw [committeeFor] at h
  split at h
  · simp at h
  · rename_i hne
    cases h
    have hpos := length_pos_iff.mpr hne
    refine sized_genesis (fun hnil => ?_) ?_
    · have := congrArg List.length hnil
      simp only [length_take, length_insertionSort, length_nil] at this
      omega
    · simp only [length_take, length_insertionSort]
      omega

theorem size_committeeFor (hn : eligible.Nodup)
    (h : committeeFor blake3 program epoch eligible = some q) :
    q.members.length = min 4 eligible.length ∧ q.threshold = min 3 eligible.length ∧ q.seq = 0 := by
  rw [committeeFor] at h
  split at h
  · simp at h
  · rename_i hne
    cases h
    have hpos := length_pos_iff.mpr hne
    have hlen : ∀ n, (Quorum.canonical ((eligible.insertionSort fun a b =>
        rendezvous blake3 program epoch a ≤ rendezvous blake3 program epoch b).take n)).length
        = min n eligible.length := fun n => by
      rw [length_canonical_of_nodup, length_take, length_insertionSort]
      exact ((perm_insertionSort _ _).nodup_iff.mpr hn).sublist (take_sublist _ _)
    dsimp only [Quorum.genesis]
    rw [hlen, length_insertionSort, nDefault, kDefault]
    exact ⟨by omega, by omega, rfl⟩

end

/-! ## Anchored programs -/

/-- The account of a program for a seed; nobody has a key for it. -/
def pda (seed : Bytes) : B32 :=
  blake3 (ascii "craftec/pda/v1" ++ program.toBytes ++ seed)

/-- The sentinel owner of an anchored program. -/
def anchorOwner : B32 :=
  pda blake3 program (ascii "craftec/anchor-owner/1")

/-- The chain of an anchored program. -/
def Fleet.anchored (F : Fleet) (program : B32) : Chain := (anchorOwner F.blake3 program, program)

/-! ## Safety across epochs -/

/-- A converged census: distinct nodes, listed alike by everyone. -/
structure Census (F : Fleet) where
  nodes : List F.Node
  nodup : nodes.Nodup

namespace Census

variable {F : Fleet} (census : Census F)

/-- The keys the committees are drawn from. -/
def eligible : List B32 := census.nodes.map F.id

theorem nodup_eligible : census.eligible.Nodup := census.nodup.map F.id_injective

/-- The committee of a program at an epoch. -/
def committee (program : B32) (epoch : U64) : Option Quorum :=
  committeeFor F.blake3 program epoch census.eligible

/-- The quorums that `AnchorAwareQuorumSource` finds: the committees of the census for every
anchored program, and what their owners have declared for the others. -/
def network (declared : Network F) : Network F where
  quorumFor epoch chain :=
    if chain.1 = anchorOwner F.blake3 chain.2 then census.committee chain.2 epoch
      else declared.quorumFor epoch chain
  staffed e chain q hq m hm := by
    split at hq
    · exact (List.mem_map.mp (mem_eligible_of_committeeFor hq hm)).imp fun _ h => h.2
    · exact declared.staffed e chain q hq m hm

/-- **The committees overlap**: no two thresholds fit beside each other in the union of two of
them. -/
def CommitteesOverlap (program : B32) : Prop :=
  ∀ e e' q q', census.committee program e = some q → census.committee program e' = some q' →
    (q.body ∪ q'.body).card < q.threshold + q'.threshold

open scoped Classical in
/-- **…and would if the members that may be asked to sign for two chains counted twice**, where two
committees share them. -/
def CommitteesOverlapTwice (declared : Network F) (program : B32) : Prop :=
  ∀ e e' q q', census.committee program e = some q → census.committee program e' = some q' →
    (q.body ∪ q'.body).card + ((q.body ∩ q'.body).filter (census.network declared).Straddles).card
      < q.threshold + q'.threshold

variable {census} {declared : Network F} {program : B32}

@[simp] theorem quorumFor_network (epoch : U64) :
    (census.network declared).quorumFor epoch (F.anchored program)
      = census.committee program epoch :=
  if_pos rfl

theorem noRoom_iff_committeesOverlapTwice :
    (census.network declared).NoRoom (F.anchored program)
      ↔ census.CommitteesOverlapTwice declared program := by
  simp only [Network.NoRoom, CommitteesOverlapTwice, quorumFor_network]
  refine ⟨fun h e e' q q' hq hq' => ?_, fun h e e' q q' hq hq' _ _ _ _ => h e e' q q' hq hq'⟩
  obtain ⟨hs, hk⟩ := sized_committeeFor hq
  obtain ⟨hs', hk'⟩ := sized_committeeFor hq'
  exact h e e' q q' hq hq' hs hs' hk hk'

theorem agrees_alone_iff_committeesOverlap :
    (census.network declared).AgreesAlone (F.anchored program)
      ↔ census.CommitteesOverlap program := by
  rw [agrees_alone_iff]
  simp only [CommitteesOverlap, quorumFor_network]
  refine ⟨fun h e e' q q' hq hq' => ?_, fun h e e' q q' hq hq' _ _ _ _ => h e e' q q' hq hq'⟩
  obtain ⟨hs, hk⟩ := sized_committeeFor hq
  obtain ⟨hs', hk'⟩ := sized_committeeFor hq'
  exact h e e' q q' hq hq' hs hs' hk hk'

/-- **Rotation keeps a slot to one write, in every run, exactly when the committees overlap**: as
they are where the nodes are solicited for the program alone, and with the straddling members twice
where they are solicited for any. -/
theorem rotation_safe_iff_committeesOverlap (F : Fleet) (census : Census F) (declared : Network F)
    (program : B32) :
    ((census.network declared).AgreesAlone (F.anchored program) ↔ census.CommitteesOverlap program)
      ∧ ((∀ requests, CollisionFree requests
        → (census.network declared).Agrees requests (F.anchored program))
        ↔ census.CommitteesOverlapTwice declared program) :=
  ⟨agrees_alone_iff_committeesOverlap, ((census.network declared).agrees_iff_noRoom _).trans
    noRoom_iff_committeesOverlapTwice⟩

theorem body_subset_eligible {e : U64} {q : Quorum} (hq : census.committee program e = some q) :
    q.body ⊆ census.eligible.toFinset :=
  fun _ hm => mem_toFinset.mpr (mem_eligible_of_committeeFor hq (mem_body.mp hm))

theorem committeesOverlap_of_length_le_five (hlen : census.nodes.length ≤ 5) (program : B32) :
    census.CommitteesOverlap program := by
  intro e e' q q' hq hq'
  have hsub := union_subset (body_subset_eligible hq) (body_subset_eligible hq')
  have hc := (card_le_card hsub).trans (toFinset_card_le _)
  have hpos : census.eligible ≠ [] := fun h => by simp [h, committee, committeeFor] at hq
  have := length_pos_iff.mpr hpos
  have hmap : census.eligible.length = census.nodes.length := length_map _
  rw [(size_committeeFor census.nodup_eligible hq).2.1,
    (size_committeeFor census.nodup_eligible hq').2.1]
  omega

/-- **In a census of up to four nodes everyone straddles**: each sits in every committee of every
anchored program. -/
theorem straddles_of_length_le_four (hlen : census.nodes.length ≤ 4) {m : B32}
    (hm : m ∈ census.eligible) :
    (census.network declared).Straddles m := by
  have hne : census.eligible ≠ [] := ne_nil_of_mem hm
  have heligible : ∀ program, (census.network declared).Eligible (F.anchored program) m :=
    fun program => by
    obtain ⟨q, hq⟩ : ∃ q, census.committee program 0 = some q := ⟨_, if_neg hne⟩
    refine ⟨0, q, (quorumFor_network 0).trans hq, (sized_committeeFor hq).1, mem_body.mp ?_⟩
    -- a committee of as many members as there are nodes is all of them
    have hall : q.body = census.eligible.toFinset := by
      refine eq_of_subset_of_card_le (body_subset_eligible hq) ?_
      rw [card_body, (size_committeeFor census.nodup_eligible hq).1, eligible, length_map,
        Nat.min_eq_right hlen]
      exact (toFinset_card_le _).trans_eq (length_map _)
    exact hall ▸ mem_toFinset.mpr hm
  exact ⟨F.anchored 0, F.anchored 1, fun h => absurd (Prod.mk.inj h).2 (by decide), heligible 0,
    heligible 1⟩

/-- **A small census is safe for one program and for no two**: with up to five nodes no run of
solicitations for an anchored program orders two writes at a slot, and with one to four nodes some
run that solicits for others too does. -/
theorem small_census_agrees_alone (F : Fleet) (census : Census F) (declared : Network F)
    (program : B32) (hlen : census.nodes.length ≤ 5) :
    (census.network declared).AgreesAlone (F.anchored program)
      ∧ (census.nodes ≠ [] → census.nodes.length ≤ 4 → ∃ requests, CollisionFree requests
          ∧ ¬ (census.network declared).Agrees requests (F.anchored program)) := by
  classical
  refine ⟨agrees_alone_iff_committeesOverlap.mpr (committeesOverlap_of_length_le_five hlen program),
    fun hne hfour => ?_⟩
  by_contra hsafe
  push Not at hsafe
  have hoverlap := noRoom_iff_committeesOverlapTwice.mp
    (((census.network declared).agrees_iff_noRoom (F.anchored program)).mp hsafe)
  obtain ⟨q, hq⟩ : ∃ q, census.committee program 0 = some q :=
    ⟨_, if_neg (by simpa [eligible] using hne)⟩
  have hlt := hoverlap 0 0 q q hq hq
  have hall : q.body.filter (census.network declared).Straddles = q.body :=
    filter_true_of_mem fun m hm =>
    straddles_of_length_le_four hfour (mem_toFinset.mp (body_subset_eligible hq hm))
  rw [union_idempotent, inter_self, hall] at hlt
  have hk := (sized_committeeFor hq).2
  omega

end Census

/-! ## Six nodes -/

def sixNodes : Census openFleet where
  nodes := ([1, 2, 3, 4, 5, 6] : List B32)
  nodup := (by decide +kernel : ([1, 2, 3, 4, 5, 6] : List B32).Nodup)

/-- Nobody has declared a quorum. -/
def noneDeclared : Network openFleet := ⟨fun _ _ => none, fun _ _ _ h => by cases h⟩

/-- The nodes are asked, at an epoch, to order a first write of account 9 on the anchored program
7. -/
def solicitAll (nodes : List B32) (epoch : U64) (payload : Byte) : List (Solicit openFleet) :=
  nodes.map (⟨epoch, ·, openFleet.anchored 7, firstWrite payload⟩)

/-- Three members of the committee at epoch 0 order one write, three of the committee at epoch 4
another. -/
def acrossEpochs : List (Solicit openFleet) := solicitAll [4, 5, 6] 0 1 ++ solicitAll [1, 2, 3] 4 2

def fourNodes : Census openFleet where
  nodes := ([1, 2, 3, 4] : List B32)
  nodup := (by decide +kernel : ([1, 2, 3, 4] : List B32).Nodup)

theorem small_census_agrees_alone_four :
    (fourNodes.network noneDeclared).AgreesAlone (openFleet.anchored 7)
      ∧ ∃ requests, CollisionFree requests ∧ ¬ (fourNodes.network noneDeclared).Agrees requests
        (openFleet.anchored 7) := by
  obtain ⟨halone, hapart⟩ :=
    Census.small_census_agrees_alone openFleet fourNodes noneDeclared 7 (by decide)
  exact ⟨halone, hapart (by decide) (by decide)⟩

theorem quorumFor_sixNodes_zero :
    (sixNodes.network noneDeclared).quorumFor 0 (openFleet.anchored 7)
      = some (.genesis [3, 4, 5, 6] 3) :=
  (Census.quorumFor_network 0).trans (by decide +kernel)

theorem quorumFor_sixNodes_four :
    (sixNodes.network noneDeclared).quorumFor 4 (openFleet.anchored 7)
      = some (.genesis [1, 2, 3, 6] 3) :=
  (Census.quorumFor_network 4).trans (by decide +kernel)

theorem consistent_of_writes {F : Fleet} {requests : List (Solicit F)}
    (h : ∀ a ∈ requests, ∀ b ∈ requests, a.node = b.node → a.write = b.write) :
    Consistent requests :=
  fun a ha b hb hn _ => h a ha b hb hn

/-- **Two committees of one census order two writes at one slot**, every node honest. -/
theorem sixNodes_order_two_writes :
    CollisionFree acrossEpochs ∧ (∀ r ∈ acrossEpochs, r.chain = openFleet.anchored 7)
      ∧ ¬ (sixNodes.network noneDeclared).Agrees acrossEpochs (openFleet.anchored 7) := by
  have hcons : Consistent acrossEpochs := consistent_of_writes (by decide +kernel)
  refine ⟨by unfold CollisionFree; decide +kernel, ?_, fun h => ?_⟩
  · refine forall_mem_append.mpr ⟨?_, ?_⟩ <;>
    · intro r hr
      obtain ⟨_, -, rfl⟩ := List.mem_map.mp hr
      rfl
  have heq := h 0 4 _ _ quorumFor_sixNodes_zero quorumFor_sixNodes_four
    (openFleet.commitBy (firstWrite 1) ([4, 5, 6] : List B32))
    (openFleet.commitBy (firstWrite 2) ([1, 2, 3] : List B32))
    (Fleet.unforged_commitBy _ fun n hn => mem_signatures_of_consistent _ hcons
      (r := ⟨0, n, openFleet.anchored 7, firstWrite 1⟩)
      (mem_append_left _ (List.mem_map_of_mem hn)) quorumFor_sixNodes_zero (by decide +kernel)
      (mem_canonical.mpr (List.mem_cons_of_mem 3 hn))
      (ownerAuthentic_author ..))
    (Fleet.unforged_commitBy _ fun n hn => mem_signatures_of_consistent _ hcons
      (r := ⟨4, n, openFleet.anchored 7, firstWrite 2⟩)
      (mem_append_right _ (List.mem_map_of_mem hn)) quorumFor_sixNodes_four (by decide +kernel)
      (mem_canonical.mpr (mem_append_left [(6 : B32)] hn))
      (ownerAuthentic_author ..))
    (by decide +kernel) (by decide +kernel) (by decide +kernel)
  exact absurd heq (by decide +kernel)

end Zephcraft.Noded
