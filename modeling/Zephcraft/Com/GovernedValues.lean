import Zephcraft.Com.Governance
import Zephcraft.Com.QuorumVec
import Zephcraft.Com.Registry
import Zephcraft.Foundations.SortedVec

/-!
# Com/GovernedValues — the programs and values that a chain has decided

The program registry and the config registry are not stored: they are replayed from the approvals,
each at the number it has in the chain.
-/

namespace Zephcraft.Com

open Zephcraft.Core List GovAction GovernanceChain Replay SortedVec

/-! ## The registries -/

/-- A name, what it stands for, and a version. -/
structure VersionedRow (β : Type) where
  name : Bytes
  value : β
  version : U64

/-- Rows in the order of their names, as the source keeps programs and config values. -/
structure VersionedRows (β : Type) where
  rows : List (VersionedRow β)

namespace VersionedRows

variable {β : Type} (B : BinarySearch) (reg : VersionedRows β)

def empty : VersionedRows β := ⟨[]⟩

def resolve (name : Bytes) : Option β :=
  match B.search (fun r => compare r.name name) reg.rows with
  | .ok i => reg.rows[i]?.map VersionedRow.value
  | .error _ => none

/-- Set a value; the version must strictly increase for a name that is there. -/
def set (name : Bytes) (value : β) (version : U64) : Except Rejection (VersionedRows β) :=
  match B.search (fun r => compare r.name name) reg.rows with
  | .ok i =>
    if reg.rows[i]?.any (version ≤ ·.version) then .error .staleVersion
    else .ok ⟨reg.rows.set i ⟨name, value, version⟩⟩
  | .error i => .ok ⟨reg.rows.insertIdx i ⟨name, value, version⟩⟩

variable {B reg} {name : Bytes} {value : β} {version : U64}

theorem resolve_eq :
    reg.resolve B name = (SortedVec.lookup B VersionedRow.name reg.rows name).map
      VersionedRow.value := by
  rw [resolve, SortedVec.lookup, find]
  cases B.search (fun r => compare r.name name) reg.rows <;> rfl

theorem set_eq : reg.set B name value version
    = match upsert B VersionedRow.name VersionedRow.version reg.rows ⟨name, value, version⟩ with
      | some rows => .ok ⟨rows⟩
      | none => .error .staleVersion := by
  rw [set, upsert, find]
  cases B.search (fun r => compare r.name name) reg.rows with
  | error i => rfl
  | ok i =>
    dsimp only
    split <;> rfl

end VersionedRows

/-- The canonical program of each network-owned name. -/
abbrev ProgramRegistryState := VersionedRows B32

/-- The value of each protocol config key. -/
abbrev ConfigRegistryState := VersionedRows I64

/-! ## The chain -/

namespace GovAction

def program : GovAction → Option (Bytes × B32)
  | setProgram name cid => some (name, cid)
  | _ => none

/-- The config value that an action sets. -/
def config : GovAction → Option (Bytes × I64)
  | setConfig key value => some (key, value)
  | _ => none

end GovAction

/-- The advanced set, or nothing if the approval is not authorized. -/
def GovernanceApproval.applyToVec (B : BinarySearch) (S : SigScheme) (a : GovernanceApproval)
    (set : QuorumVec) :
    Except Panic (Option QuorumVec) :=
  set.enact B S a.proposal.seq a.proposal.signingBytes a.signatures a.proposal.action.memberChange

/-- A genesis set and the approvals that extend it, decoded from anywhere. -/
structure GovernanceChainVec where
  genesis : QuorumVec
  approvals : List GovernanceApproval

namespace GovernanceChainVec

variable {β : Type} (B : BinarySearch) (S : SigScheme) (chain : GovernanceChainVec)

/-- The governors the chain has come to, if every approval extends what is before it. -/
def current : Except Panic (Option QuorumVec) :=
  replay (GovernanceApproval.applyToVec B S) chain.genesis chain.approvals

/-- Replay the changes over a registry, each at its number; a change that is refused is passed
over. -/
def replayChanges (change : GovAction → Option (Bytes × β)) (seq : U64) (reg : VersionedRows β) :
    List GovernanceApproval → Except Panic (VersionedRows β)
  | [] => pure reg
  | a :: rest => do
    let seq ← seq.addOrPanic 1
    match change a.proposal.action with
    | some (name, value) =>
      match reg.set B name value seq with
      | .ok next => replayChanges change seq next rest
      | .error _ => replayChanges change seq reg rest
    | none => replayChanges change seq reg rest

/-- The program registry derived from the chain. -/
def programRegistry : Except Panic ProgramRegistryState :=
  replayChanges B program chain.genesis.seq .empty chain.approvals

/-- The config registry derived from the chain. -/
def configRegistry : Except Panic ConfigRegistryState :=
  replayChanges B config chain.genesis.seq .empty chain.approvals

/-- What the last change of a name has set it to. -/
def lastChange (change : GovAction → Option (Bytes × β)) (name : Bytes)
    (approvals : List GovernanceApproval) : Option β :=
  (approvals.filterMap fun a => (change a.proposal.action).filter (·.1 = name)).getLast?.map
    Prod.snd

variable {B S} {change : GovAction → Option (Bytes × β)} {approvals pre : List GovernanceApproval}
  {a : GovernanceApproval}

/-! ## Replaying the changes of a valid chain -/

theorem val_seq_of_applyToVec {set set' : QuorumVec} (h : a.applyToVec B S set = .ok (some set')) :
    set'.seq.val = set.seq.val + 1 :=
  Word.addOrPanic_eq_ok.mp (QuorumVec.seq_enact h)

/-- The rows are sorted, none is newer than the number that was come to, and they say what was set
last. -/
structure Replayed (B : BinarySearch) (change : GovAction → Option (Bytes × β))
    (approvals : List GovernanceApproval) (seq : U64) (reg : VersionedRows β) : Prop where
  sorted : SortedVec.Sorted VersionedRow.name reg.rows
  versions : ∀ r ∈ reg.rows, r.version ≤ seq
  last : ∀ name, reg.resolve B name = lastChange change name approvals

theorem replayed_empty (B : BinarySearch) (change : GovAction → Option (Bytes × β)) (seq : U64) :
    Replayed B change [] seq .empty := by
  refine ⟨sorted_nil, by simp [VersionedRows.empty], fun name => ?_⟩
  rw [VersionedRows.resolve_eq]
  exact congrArg (Option.map VersionedRow.value) ((sorted_nil.lookup_eq_none B).mpr (by simp))

theorem lastChange_concat (name : Bytes) : lastChange change name (approvals ++ [a])
    = match change a.proposal.action with
      | some (name', value) => if name' = name then some value else lastChange change name approvals
      | none => lastChange change name approvals := by
  rw [lastChange, filterMap_append]
  cases h : change a.proposal.action with
  | none => simp [h, lastChange]
  | some p =>
    obtain ⟨name', value⟩ := p
    dsimp only
    split
    · rename_i hn
      simp [h, hn]
    · rename_i hn
      simp [h, hn, lastChange]

/-- **A change at the next number is never refused**, and it is then what was set last. -/
theorem Replayed.set {seq next : U64} {reg : VersionedRows β} {name : Bytes} {value : β}
    (h : Replayed B change approvals seq reg) (hn : seq < next)
    (ha : change a.proposal.action = some (name, value)) :
    ∃ reg', reg.set B name value next = .ok reg' ∧ Replayed B change (approvals
      ++ [a]) next reg' := by
  rw [VersionedRows.set_eq]
  cases hup : upsert B VersionedRow.name VersionedRow.version reg.rows ⟨name, value, next⟩ with
  | none =>
    obtain ⟨held, hh, hle⟩ := h.sorted.upsert_eq_none.mp hup
    have hold := h.versions held ((h.sorted.lookup_eq_some B).mp hh).1
    exact absurd (hn.trans_le (hle.trans hold)) (lt_irrefl seq)
  | some rows =>
    obtain ⟨hs, hmem⟩ := h.sorted.of_upsert hup
    refine ⟨⟨rows⟩, rfl, hs, fun r hr => ?_, fun name' => ?_⟩
    · rcases (hmem r).mp hr with rfl | ⟨hr, -⟩
      · exact le_rfl
      · exact (h.versions r hr).trans hn.le
    · rw [VersionedRows.resolve_eq, h.sorted.lookup_upsert hup, lastChange_concat, ha, ← h.last,
        VersionedRows.resolve_eq]
      dsimp only
      split <;> rfl

theorem Replayed.skip {seq next : U64} {reg : VersionedRows β}
    (h : Replayed B change approvals seq reg) (hn : seq < next)
    (ha : change a.proposal.action = none) : Replayed B change (approvals ++ [a]) next reg :=
  ⟨h.sorted, fun r hr => (h.versions r hr).trans hn.le, fun name => by rw [lastChange_concat, ha,
    h.last]⟩

theorem replayChanges_of_current {set last : QuorumVec} {reg : VersionedRows β}
    (hv : replay (GovernanceApproval.applyToVec B S) set approvals = .ok (some last))
    (h : Replayed B change pre set.seq reg) :
    ∃ reg', replayChanges B change set.seq reg approvals = .ok reg'
      ∧ Replayed B change (pre ++ approvals) last.seq reg' := by
  induction approvals generalizing set pre reg with
  | nil =>
    cases hv
    exact ⟨reg, rfl, by rwa [append_nil]⟩
  | cons a approvals ih =>
    obtain ⟨next, hap, hr⟩ := replay_cons.mp hv
    have hn : set.seq.addOrPanic 1 = .ok next.seq := QuorumVec.seq_enact hap
    have hlt : set.seq < next.seq := Fin.lt_def.mpr (by rw [val_seq_of_applyToVec hap]; omega)
    rw [append_cons]
    simp only [replayChanges, hn, bind, Except.bind]
    cases ha : change a.proposal.action with
    | none => exact ih hr (h.skip hlt ha)
    | some p =>
      obtain ⟨reg', hset, hreg'⟩ := h.set hlt ha
      simp only [hset]
      exact ih hr hreg'

theorem exists_replayed {chain : GovernanceChainVec} {last : QuorumVec}
    (hv : chain.current B S = .ok (some last)) (change : GovAction → Option (Bytes × β))
    (hpre : pre <+: chain.approvals) :
    ∃ seq reg, seq.val = chain.genesis.seq.val + pre.length
      ∧ replayChanges B change chain.genesis.seq .empty pre = .ok reg
      ∧ Replayed B change pre seq reg := by
  obtain ⟨set, hset⟩ := exists_replay_of_prefix hpre hv
  obtain ⟨reg, hreg, hr⟩ :=
    replayChanges_of_current hset (replayed_empty B change chain.genesis.seq)
  refine ⟨set.seq, reg, ?_, hreg, hr⟩
  clear hreg hr hpre hv
  generalize chain.genesis = genesis at hset
  induction pre generalizing genesis with
  | nil =>
    cases hset
    rfl
  | cons a pre ih =>
    obtain ⟨next, ha, hre⟩ := replay_cons.mp hset
    rw [ih next hre, length_cons, val_seq_of_applyToVec ha]
    omega

/-- **Governed values are the last approved ones.** The registries of a valid chain resolve every
name to what the last approval that set it has set it to, and a name that none has set to nothing;
and when the replay comes to an approval, the registry that the ones before it have left does not
refuse its change. -/
theorem governed_values_are_last_approved (B : BinarySearch) (S : SigScheme)
    (chain : GovernanceChainVec) {last : QuorumVec} (hvalid : chain.current B S = .ok (some last)) :
    (∃ programs, chain.programRegistry B = .ok programs
      ∧ ∀ name, programs.resolve B name = lastChange program name chain.approvals)
    ∧ (∃ values, chain.configRegistry B = .ok values
      ∧ ∀ key, values.resolve B key = lastChange config key chain.approvals)
    ∧ ∀ pre a, pre ++ [a] <+: chain.approvals
      → ∀ seq : U64, seq.val = chain.genesis.seq.val + (pre ++ [a]).length →
      (∀ name cid, a.proposal.action = .setProgram name cid → ∃ before after,
        programRegistry B ⟨chain.genesis, pre⟩ = .ok before ∧ before.set B name cid seq = .ok after)
      ∧ ∀ key value, a.proposal.action = .setConfig key value → ∃ before after,
        configRegistry B ⟨chain.genesis, pre⟩ = .ok before
          ∧ before.set B key value seq = .ok after := by
  refine ⟨?_, ?_, fun pre a hpre seq hseq => ?_⟩
  · obtain ⟨_, programs, -, hprograms, h⟩ := exists_replayed hvalid program prefix_rfl
    exact ⟨programs, hprograms, h.last⟩
  · obtain ⟨_, values, -, hvalues, h⟩ := exists_replayed hvalid config prefix_rfl
    exact ⟨values, hvalues, h.last⟩
  · have hbefore := (prefix_append pre [a]).trans hpre
    have hlt : ∀ {now : U64}, now.val = chain.genesis.seq.val + pre.length → now < seq :=
      fun hnow =>
      Fin.lt_def.mpr (by rw [hnow, hseq, length_append, length_singleton]; omega)
    refine ⟨fun name cid ha => ?_, fun key value ha => ?_⟩
    · obtain ⟨now, reg, hnow, hreg, h⟩ := exists_replayed hvalid program hbefore
      have hchange : program a.proposal.action = some (name, cid) := by rw [ha]; rfl
      obtain ⟨after, hset, -⟩ := h.set (hlt hnow) hchange
      exact ⟨reg, after, hreg, hset⟩
    · obtain ⟨now, reg, hnow, hreg, h⟩ := exists_replayed hvalid config hbefore
      have hchange : config a.proposal.action = some (key, value) := by rw [ha]; rfl
      obtain ⟨after, hset, -⟩ := h.set (hlt hnow) hchange
      exact ⟨reg, after, hreg, hset⟩

end GovernanceChainVec

/-! ## Two governors -/

/-- An approval under the signatures of the given governors. -/
def approvedWith (action : GovAction) (seq : U64) (governors : List B32) : GovernanceApproval :=
  ⟨⟨action, seq⟩, governors.map fun m => GovernanceProposal.sign .transparent ⟨action, seq⟩ m⟩

/-- A program is set, then one of its governors leaves, and the other sets the program anew. -/
def setTwice : GovernanceChainVec where
  genesis := .genesis [2, 1] 2
  approvals :=
    [approvedWith (.setProgram (ascii "reward") 7) 1 [1, 2], approvedWith (.removeGovernor 2) 2 [2,
      1], approvedWith (.setProgram (ascii "reward") 8) 3 [1]]

theorem governed_values_are_last_approved_setTwice :
    ∃ programs values, setTwice.programRegistry .halving = .ok programs
      ∧ setTwice.configRegistry .halving = .ok values
      ∧ programs.resolve .halving (ascii "reward") = some 8
      ∧ values.resolve .halving (ascii "shard_bits") = none := by
  have hvalid : setTwice.current .halving .transparent = .ok (some ⟨[1], 1, 3⟩) := by decide +kernel
  obtain ⟨⟨programs, hprograms, hlast⟩, ⟨values, hvalues, hlast'⟩, -⟩ :=
    GovernanceChainVec.governed_values_are_last_approved .halving .transparent setTwice hvalid
  refine ⟨programs, values, hprograms, hvalues, ?_, ?_⟩
  · rw [hlast]
    decide +kernel
  · rw [hlast']
    decide +kernel

/-! ## Two chains of one genesis -/

/-- **A longer chain only goes on where a shorter one stops**, if majorities stand behind both and
no governor has signed two proposals of one number. -/
theorem longer_chain_extends (S : SigScheme) (log : SignatureLog) (hone : OneEach log)
    (chain chain' : GovernanceChain) (hgenesis : chain.genesis = chain'.genesis)
    (h : Backed S log chain.genesis chain.approvals)
    (h' : Backed S log chain'.genesis chain'.approvals) (n n' : U64)
    (hn : chain.seq = .ok n) (hn' : chain'.seq = .ok n') (hle : n ≤ n') :
    chain.proposals <+: chain'.proposals := by
  have hlen := seq_eq_ok hn h.length_lt
  have hlen' := seq_eq_ok hn' h'.length_lt
  rw [← hgenesis] at h' hlen'
  rcases comparable_of_backed hone h h' with hp | hp
  · exact hp
  · have hle' : chain.approvals.length ≤ chain'.approvals.length := by
      rw [Fin.le_def] at hle
      omega
    rw [proposals, ← hp.eq_of_length_le (by simpa using hle')]
    exact prefix_rfl

/-- Of three governors, two set the threshold; and two set it, and all add a fourth. -/
def oneApproval : GovernanceChain :=
  ⟨.genesis [1, 2, 3] 2, [approvedWith (.setThreshold 3) 1 [1, 2]]⟩

def twoApprovals : GovernanceChain := ⟨.genesis [1, 2, 3] 2,
  [approvedWith (.setThreshold 3) 1 [2, 3], approvedWith (.addGovernor 4) 2 [1, 2, 3]]⟩

theorem longer_chain_extends_twoApprovals : oneApproval.proposals <+: twoApprovals.proposals :=
  longer_chain_extends .transparent ([1, 2, 3].flatMap fun m => [(m, ⟨.setThreshold 3, 1⟩),
    (m, ⟨.addGovernor 4, 2⟩)]) (by decide +kernel) _ _ rfl
    ⟨⟨⟨[1, 2, 3], 3, 1, by decide⟩, by decide +kernel⟩, by decide +kernel, by decide +kernel⟩
    ⟨⟨⟨[1, 2, 3, 4], 3, 2, by decide⟩, by decide +kernel⟩, by decide +kernel, by decide +kernel⟩
    1 2 (by decide +kernel) (by decide +kernel) (by decide)

end Zephcraft.Com
