import Zephcraft.Noded.HeadAdvance
import Zephcraft.Noded.HeadElection

/-!
# Noded/HeadRegistry — the shards of a node

Programs, database roots and manifests are registered through one substrate: each `(kind,
generation, shard)` is a table of its own, and a message says for which of them it is.
-/

namespace Zephcraft.Noded

open Zephcraft.Core Com List HeadTable

def rtProgram : Byte := 0

def rtDbroot : Byte := 1

def rtManifest : Byte := 2

/-- The number that little-endian bytes spell. -/
def ofLeBytes (bytes : Bytes) : ℕ := bytes.foldr (fun b n => b.val + 256 * n) 0

/-- The shard of a key: the low `bits` of its hash. -/
def shardOf (blake3 : Bytes → B32) (owner : B32) (name : Bytes) (bits : ℕ) : U64 :=
  Word.truncate (ofLeBytes ((blake3 (owner.toBytes ++ name)).toBytes.take 8) % 2 ^ bits)

/-- The heads of a batch that go to one shard of a new generation. -/
def rebucketEntries (blake3 : Bytes → B32) (entries : List HeadEntry) (newBits : ℕ) (shard : U64) :
    List HeadEntry :=
  entries.filter fun e => shardOf blake3 e.owner e.name newBits = shard

abbrev Shards := ShardKey → HeadTable

namespace Shards

variable (S : SigScheme) (blake3 : Bytes → B32) (s : Shards)

/-- Serve a submission, under the kind and generation the message names. There is no reply when the
generation is too large to shift by. -/
def submit (rtype : Byte) (bits : ℕ) (sub : HeadSubmission) : Shards × Option SubmitResp :=
  if 64 ≤ bits then (s, none)
  else
    let sk : ShardKey := ⟨rtype, bits, shardOf blake3 sub.owner sub.name bits⟩
    match (s sk).advanceLocal S sub with
    | .ok t => (Function.update s sk t, some .submitAck)
    | .error e => (s, some (.err e))

/-- Serve a pushed state; a node under memory pressure sheds it. -/
def pushState (busy : Bool) (sk : ShardKey) (state : List HeadEntry) : Shards :=
  if busy then s else Function.update s sk ((s sk).sqlMerge S state)

/-- The takeover merge of a shard this node has become the writer of. -/
def ensureCurrent (sk : ShardKey) (fetched : List (List HeadEntry)) : Shards :=
  Function.update s sk ((s sk).takeover S fetched)

/-- Merge the heads of a shard into the shards of its kind in another generation. -/
def sweepShard (rtype : Byte) (entries : List HeadEntry) (newBits : ℕ) : Shards := fun sk =>
  if sk.rtype = rtype ∧ sk.bits = newBits then
    let group := rebucketEntries blake3 entries newBits sk.shard
    (s sk).sqlMerge S (RegistryState.empty.mergeEntries S group).entries
  else s sk

/-- Carry the held shards of a generation over into another one. All of them are read first. -/
def sweepGeneration (held : List ShardKey) (newBits : ℕ) : Shards :=
  (held.map fun sk => (sk.rtype, ((s sk).sqlState S).entries)).foldl
    (fun s batch => s.sweepShard S blake3 batch.1 batch.2 newBits) s

/-- Drop the held shards of a drained generation. -/
def gcGeneration (doomed : List ShardKey) : Shards := fun sk =>
  if sk ∈ doomed then ∅ else s sk

/-- What happens to the tables of a node. -/
inductive Event where
  | submit (rtype : Byte) (bits : ℕ) (sub : HeadSubmission)
  | pushState (busy : Bool) (sk : ShardKey) (state : List HeadEntry)
  | ensureCurrent (sk : ShardKey) (fetched : List (List HeadEntry))
  | sweepGeneration (held : List ShardKey) (newBits : ℕ)
  | gcGeneration (doomed : List ShardKey)

def step : Event → Shards
  | .submit rtype bits sub => (s.submit S blake3 rtype bits sub).1
  | .pushState busy sk state => s.pushState S busy sk state
  | .ensureCurrent sk fetched => s.ensureCurrent S sk fetched
  | .sweepGeneration held newBits => s.sweepGeneration S blake3 held newBits
  | .gcGeneration doomed => s.gcGeneration doomed

/-- The heads that come in from outside, each with the kind it comes in for. -/
def Event.carried : Event → List (Byte × HeadEntry)
  | submit rtype _ sub => [(rtype, sub.entry)]
  | pushState _ sk state => state.map (sk.rtype, ·)
  | ensureCurrent sk fetched => fetched.flatten.map (sk.rtype, ·)
  | sweepGeneration _ _ => []
  | gcGeneration _ => []

/-! ## What the tables hold -/

/-- Every head in a table verifies, and has the property that its kind asks for. -/
def Holds (P : Byte → HeadEntry → Prop) (s : Shards) : Prop :=
  ∀ sk, HeadTable.Written (fun e => e.verify S ∧ P sk.rtype e) (s sk)

variable {S blake3} {P Q : Byte → HeadEntry → Prop} {s : Shards}

theorem holds_empty (P : Byte → HeadEntry → Prop) : Holds S P fun _ => ∅ := fun _ =>
  written_empty _

theorem Holds.mono (h : Holds S P s) (hPQ : ∀ rtype e, P rtype e → Q rtype e) : Holds S Q s :=
  fun sk =>
  (h sk).mono fun e he => ⟨he.1, hPQ _ e he.2⟩

theorem Holds.update (h : Holds S P s) {sk : ShardKey} {t : HeadTable}
    (ht : HeadTable.Written (fun e => e.verify S ∧ P sk.rtype e) t) :
    Holds S P (Function.update s sk t) := by
  intro sk'
  by_cases hsk : sk' = sk
  · subst hsk
    rwa [Function.update_self]
  · rw [Function.update_of_ne hsk]
    exact h sk'

theorem Holds.sqlMerge (h : Holds S P s) (sk : ShardKey) {es : List HeadEntry}
    (hes : ∀ e ∈ es, e.verify S → P sk.rtype e) :
    HeadTable.Written (fun e => e.verify S ∧ P sk.rtype e) ((s sk).sqlMerge S es) :=
  (h sk).sqlMerge fun e he hv _ => ⟨hv, hes e he hv⟩

theorem Holds.submit (h : Holds S P s) (rtype : Byte) (bits : ℕ) {sub : HeadSubmission}
    (hsub : sub.verify S → P rtype sub.entry) : Holds S P (s.submit S blake3 rtype bits sub).1 := by
  unfold Shards.submit
  split
  · exact h
  · dsimp only
    split
    · rename_i t hok
      obtain ⟨hv, -, hup⟩ := advanceLocal_eq_ok.mp hok
      exact h.update ((h _).sqlUpsert (e := sub.entry) (fun _ => ⟨hv, hsub hv⟩) hup)
    · exact h

theorem Holds.ensureCurrent (h : Holds S P s) (sk : ShardKey) {fetched : List (List HeadEntry)}
    (hes : ∀ e ∈ fetched.flatten, e.verify S → P sk.rtype e) :
    Holds S P (s.ensureCurrent S sk fetched) := by
  refine h.update ?_
  have hsk := h sk
  generalize s sk = t at hsk
  -- the replicas' states are merged one after another
  unfold HeadTable.takeover
  induction fetched generalizing t with
  | nil => exact hsk
  | cons es fetched ih =>
    simp only [flatten_cons, mem_append] at hes
    exact ih (fun e he => hes e (.inr he)) _ (hsk.sqlMerge fun e he hv _ =>
      ⟨hv, hes e (.inl he) hv⟩)

theorem Holds.sweepShard (h : Holds S P s) {rtype : Byte} {entries : List HeadEntry}
    (hes : ∀ e ∈ entries, P rtype e) (newBits : ℕ) :
    Holds S P (s.sweepShard S blake3 rtype entries newBits) := by
  intro sk
  rw [Shards.sweepShard]
  split
  · rename_i hsk
    refine h.sqlMerge sk fun e he _ => ?_
    have hmem := (mem_filter.mp (RegistryState.mem_of_mem_mergeEntries he)).1
    exact hsk.1 ▸ hes e hmem
  · exact h sk

theorem Holds.sweepGeneration (h : Holds S P s) (held : List ShardKey) (newBits : ℕ) :
    Holds S P (s.sweepGeneration S blake3 held newBits) := by
  have hr : ∀ batch ∈ held.map fun sk => (sk.rtype, ((s sk).sqlState S).entries),
      ∀ e ∈ batch.2, P batch.1 e := by
    intro batch hba e he
    obtain ⟨sk, -, rfl⟩ := mem_map.mp hba
    exact ((h sk).of_mem_entries he).2
  unfold Shards.sweepGeneration
  generalize held.map (fun sk => (sk.rtype, ((s sk).sqlState S).entries)) = batches at hr
  induction batches generalizing s with
  | nil => exact h
  | cons batch batches ih =>
    exact ih (h.sweepShard (hr batch (.head _)) newBits) fun b hb =>
      hr b (.tail batch hb)

theorem Holds.step (h : Holds S P s) {e : Event}
    (hin : ∀ x ∈ e.carried, x.2.verify S → P x.1 x.2) : Holds S P (s.step S blake3 e) := by
  cases e with
  | submit rtype bits sub =>
    exact h.submit rtype bits (hin (rtype, sub.entry) (by simp [Event.carried]))
  | pushState busy sk state =>
    simp only [Event.carried, forall_mem_map] at hin
    rw [Shards.step, Shards.pushState]
    split
    · exact h
    · exact h.update (h.sqlMerge sk hin)
  | ensureCurrent sk fetched =>
    simp only [Event.carried, forall_mem_map] at hin
    exact h.ensureCurrent sk hin
  | sweepGeneration held newBits => exact h.sweepGeneration held newBits
  | gcGeneration doomed =>
    intro sk
    rw [Shards.step, Shards.gcGeneration]
    split
    · exact written_empty _
    · exact h sk

end Shards

end Zephcraft.Noded
