import Zephcraft.Noded.HeadRegistry

/-!
# Noded/HeadKinds — do the kinds of the registry mix?

An owner registers a head for a kind, but the kind is **not** among the bytes that are signed: it is
a field of the message. So whoever has seen a head may deliver it for another kind, and the node
that gets it cannot tell.
-/

namespace Zephcraft.Noded

open Zephcraft.Core Com List Run

/-- Where a node gets the state of a shard from: from another node, or from a peer that says what it
likes. -/
inductive Origin where
  | node (source : B32)
  | peer (state : List HeadEntry)

def Origin.foreign : Origin → List HeadEntry
  | node _ => []
  | peer state => state

/-- The nodes of a network, and the record of what the owners signed, and for which kind. -/
structure HeadNet where
  shards : B32 → Shards
  signed : List (Byte × Head)

namespace HeadNet

section Network

variable (S : SigScheme) (blake3 : Bytes → B32)

/-- The network before anything was registered. -/
def start : HeadNet := ⟨fun _ _ => ∅, []⟩

/-- What happens in a network. A registration may be lost on its way to the writer of the shard. -/
inductive Action where
  | register (identity : S.Secret) (rtype : Byte) (name : Bytes) (cid : B32) (version : U64)
      (bits : ℕ) (writer : Option B32)
  | submit (target : B32) (rtype : Byte) (bits : ℕ) (sub : HeadSubmission)
  | pushState (target : B32) (busy : Bool) (sk : ShardKey) (origin : Origin)
  | ensureCurrent (target : B32) (sk : ShardKey) (origins : List Origin)
  | sweepGeneration (target : B32) (held : List ShardKey) (newBits : ℕ)
  | gcGeneration (target : B32) (doomed : List ShardKey)

variable (net : HeadNet)

def stateOf (sk : ShardKey) : Origin → List HeadEntry
  | .node source => ((net.shards source sk).sqlState S).entries
  | .peer state => state

variable {S}

/-- What an action does to the tables of which node. -/
def event : Action S → Option (B32 × Shards.Event)
  | .register identity rtype name cid version bits writer =>
    writer.map (·, .submit rtype bits (.sign S identity name cid version))
  | .submit target rtype bits sub => some (target, .submit rtype bits sub)
  | .pushState target busy sk origin => some (target, .pushState busy sk (net.stateOf S sk origin))
  | .ensureCurrent target sk origins =>
    some (target, .ensureCurrent sk (origins.map (net.stateOf S sk)))
  | .sweepGeneration target held newBits => some (target, .sweepGeneration held newBits)
  | .gcGeneration target doomed => some (target, .gcGeneration doomed)

def Action.signs : Action S → List (Byte × Head)
  | register identity rtype name cid version _ _ =>
    [(rtype, (HeadSubmission.sign S identity name cid version).entry.head)]
  | _ => []

def step (a : Action S) : HeadNet where
  shards := match net.event a with
    | none => net.shards
    | some (target, e) => Function.update net.shards target ((net.shards target).step S blake3 e)
  signed := net.signed ++ a.signs

/-- The heads that peers bring in, each with the kind the message is for. -/
def Action.foreign : Action S → List (Byte × HeadEntry)
  | submit _ rtype _ sub => [(rtype, sub.entry)]
  | pushState _ _ sk origin => origin.foreign.map (sk.rtype, ·)
  | ensureCurrent _ sk origins => (origins.flatMap Origin.foreign).map (sk.rtype, ·)
  | _ => []

/-- Signatures are unforgeable: a head that a peer brings and that verifies was signed before. -/
def Unforged (a : Action S) : Prop :=
  ∀ x ∈ a.foreign, x.2.verify S → x.2.Vouched (net.signed.map Prod.snd)

/-- A peer delivers what an owner signed for the kind it was signed for. -/
def KindKept (a : Action S) : Prop :=
  ∀ x ∈ a.foreign, x.2.verify S → x.2.head ∈ net.signed.map Prod.snd → (x.1, x.2.head) ∈ net.signed

instance (net : HeadNet) (a : Action S) : Decidable (net.Unforged a) :=
  List.decidableBAll (fun x : Byte × HeadEntry => x.2.verify S
    → x.2.Vouched (net.signed.map Prod.snd)) _

instance (net : HeadNet) (a : Action S) : Decidable (net.KindKept a) :=
  List.decidableBAll (fun x : Byte × HeadEntry => x.2.verify S →
    x.2.head ∈ net.signed.map Prod.snd → (x.1, x.2.head) ∈ net.signed) _

variable (S) in
/-- **The kinds stay apart**: what a node resolves for a kind was signed for that kind. -/
def KindsApart : Prop :=
  ∀ (node : B32) (sk : ShardKey) (owner : B32) (name : Bytes) (e : HeadEntry),
    (net.shards node sk).sqlResolve S owner name = some e → (sk.rtype, e.head) ∈ net.signed

/-! ## The invariant -/

variable {blake3} {net : HeadNet} {a : Action S}

variable (S) in
/-- Every head in a table was signed for the table's kind. -/
def Kept : Prop :=
  ∀ node, Shards.Holds S (fun rtype e => (rtype, e.head) ∈ net.signed) (net.shards node)

theorem Kept.kindsApart (h : net.Kept S) : net.KindsApart S := fun node sk _ _ _ hres =>
  ((h node sk).sqlResolve hres).1.2

theorem Kept.of_mem_stateOf (h : net.Kept S) {sk : ShardKey} {origin : Origin} {e : HeadEntry}
    (he : e ∈ net.stateOf S sk origin) :
    e ∈ origin.foreign ∨ (sk.rtype, e.head) ∈ net.signed := by
  cases origin with
  | node source => exact .inr ((h source sk).of_mem_entries he).2
  | peer state => exact .inl he

/-- **Where the heads an action brings come from**: from a peer, or they were signed for their
kind. -/
theorem Kept.of_mem_carried (h : net.Kept S) {target : B32} {e : Shards.Event}
    (hev : net.event a = some (target, e)) {x : Byte × HeadEntry} (hx : x ∈ e.carried) :
    x ∈ a.foreign ∨ (x.1, x.2.head) ∈ (net.step blake3 a).signed := by
  cases a with
  | register identity rtype name cid version bits writer =>
    obtain ⟨writer, -, hp⟩ := Option.map_eq_some_iff.mp hev
    cases hp
    obtain rfl := mem_singleton.mp hx
    exact .inr (mem_append_right _ (mem_singleton.mpr rfl))
  | submit target rtype bits sub =>
    cases hev
    exact .inl hx
  | pushState target busy sk origin =>
    cases hev
    obtain ⟨e, he, rfl⟩ := mem_map.mp hx
    refine (h.of_mem_stateOf he).imp (fun hf => mem_map.mpr ⟨e, hf, rfl⟩) ?_
    exact mem_append_left _
  | ensureCurrent target sk origins =>
    cases hev
    obtain ⟨e, he, rfl⟩ := mem_map.mp hx
    obtain ⟨state, hs, he⟩ := mem_flatten.mp he
    obtain ⟨origin, ho, rfl⟩ := mem_map.mp hs
    refine (h.of_mem_stateOf he).imp (fun hf => mem_map.mpr ⟨e, ?_, rfl⟩) ?_
    · exact mem_flatMap.mpr ⟨origin, ho, hf⟩
    · exact mem_append_left _
  | sweepGeneration target held newBits =>
    cases hev
    simp [Shards.Event.carried] at hx
  | gcGeneration target doomed =>
    cases hev
    simp [Shards.Event.carried] at hx

theorem Kept.step (h : net.Kept S) (hu : net.Unforged a) (hk : net.KindKept a) :
    (net.step blake3 a).Kept S := by
  have hg : ∀ node, Shards.Holds S (fun rtype e => (rtype, e.head) ∈ (net.step blake3 a).signed)
      (net.shards node) := fun node =>
    (h node).mono fun rtype e he => mem_append_left _ he
  intro node
  rw [HeadNet.step]
  cases hev : net.event a with
  | none => exact hg node
  | some pair =>
    obtain ⟨target, e⟩ := pair
    dsimp only
    by_cases hn : node = target
    · subst hn
      rw [Function.update_self]
      refine (hg node).step fun x hx hv => ?_
      have hc : x ∈ a.foreign ∨ (x.1, x.2.head) ∈ (net.step blake3 a).signed :=
        h.of_mem_carried hev hx
      rcases hc with hf | hs
      · exact mem_append_left _ (hk x hf hv (hu x hf hv).mem)
      · exact hs
    · rw [Function.update_of_ne hn]
      exact hg node

/-- **When the kinds stay apart**: in every run in which signatures are unforgeable and no peer
delivers a head for a kind it was not signed for. -/
theorem kinds_apart (S : SigScheme) (blake3 : Bytes → B32) (actions : List (Action S))
    (hunforged : EachStep (step blake3) start Unforged actions)
    (hkept : EachStep (step blake3) start KindKept actions) :
    EachState (step blake3) start (KindsApart S) actions := by
  have hstart : start.Kept S := fun _ => Shards.holds_empty _
  refine eachState_of_invariant (C := fun net a => net.Unforged a ∧ net.KindKept a) hstart
    (fun net a h hC => h.step hC.1 hC.2) (fun net h => h.kindsApart) fun pre a hp => ?_
  exact ⟨hunforged pre a hp, hkept pre a hp⟩

end Network

def registerAt (rtype : Byte) (cid : B32) (version : U64) : Action .transparent :=
  .register (5 : B32) rtype (ascii "app") cid version 8 (some 1)

/-- A manifest and a database root of one name, replicated to a second node. -/
theorem kinds_apart_replicated : EachState (step blake3) start (KindsApart .transparent)
    [registerAt rtManifest 200 1, registerAt rtDbroot 100 2,
      .pushState 2 false ⟨rtManifest, 8, shardOf blake3 5 (ascii "app") 8⟩ (.node 1)] :=
  kinds_apart .transparent blake3 _ (by decide +kernel) (by decide +kernel)

/-- **A database root becomes the manifest.** Owner 5 registers a manifest at version 1 and a
database root at version 2, under one name. A peer submits the root again, as a manifest. No
signature is forged, and what node 1 now resolves as the manifest is the root, which the owner never
signed as one. -/
theorem dbroot_becomes_manifest :
    let actions := [registerAt rtManifest 200 1, registerAt rtDbroot 100 2,
      .submit 1 rtManifest 8 (.sign .transparent (5 : B32) (ascii "app") 100 2)]
    let net := run (step blake3) start actions
    let root := (HeadSubmission.sign .transparent (5 : B32) (ascii "app") 100 2).entry
    EachStep (step blake3) start Unforged actions
      ∧ (net.shards 1 ⟨rtManifest, 8, shardOf blake3 5 (ascii "app") 8⟩).sqlResolve .transparent 5
          (ascii "app") = some root
      ∧ (rtDbroot, root.head) ∈ net.signed ∧ (rtManifest, root.head) ∉ net.signed := by
  decide +kernel

end HeadNet

end Zephcraft.Noded
