import Zephcraft.Noded.HeadRegistry

/-!
# Noded/HeadResolve — whose head does a node resolve?

A node that asks for `(kind, owner, name)` reads its own table, if it is a replica of the shard, and
otherwise asks the writer and the other replicas, in that order; what they say is kept for a while.
A head out of a table is the one asked for.
-/

namespace Zephcraft.Noded

open Zephcraft.Core Com List Function

/-- How long a resolved head is kept, in milliseconds. -/
def resolveCacheTtlMs : ℕ := 3000

/-- The shard-count exponent of a fresh network. -/
def defaultShardBits : ℕ := 8

def maxShardBits : ℕ := 12

def resolveShardBits (governed : Option ℤ) : ℕ :=
  match governed with
  | some v => (max 1 (min v maxShardBits)).toNat
  | none => defaultShardBits

/-- What is resolved. -/
structure Question where
  rtype : Byte
  owner : B32
  name : Bytes
deriving DecidableEq

/-- The head of a question with a content id and a version. -/
def Question.head (q : Question) (value : B32 × U64) : Head := ⟨q.owner, q.name, value.1, value.2⟩

/-- Resolved values, each with the time it expires at. -/
abbrev ResolveCache := Question → Option ((B32 × U64) × ℕ)

namespace ResolveCache

def get (cache : ResolveCache) (q : Question) (now : ℕ) : Option (B32 × U64) :=
  match cache q with
  | some (entry, expiry) => if now < expiry then some entry else none
  | none => none

def put (cache : ResolveCache) (q : Question) (entry : B32 × U64) (now : ℕ) : ResolveCache :=
  Function.update cache q (some (entry, now + resolveCacheTtlMs))

def invalidate (cache : ResolveCache) (q : Question) : ResolveCache := Function.update cache q none

end ResolveCache

/-- What a node sees while it asks around at one generation. A member has no answer when it has no
address, when the request fails, and when it has no head. -/
structure View where
  census : List B32
  now : ℕ
  answer : B32 → Option HeadEntry

/-- What a node reads in the course of one resolution: the governed exponent, the census and the
clock for the cache, a view for each generation it asks at, and the clock when it keeps the
result. -/
structure Readings where
  governed : Option ℤ
  census : List B32
  now : ℕ
  atBits : ℕ → View
  putAt : ℕ

/-- A node that resolves heads. -/
structure RegistryNode where
  shards : Shards
  cache : ResolveCache

namespace RegistryNode

section Resolution

variable (S : SigScheme) (blake3 : Bytes → B32) (selfId : B32)

def start : RegistryNode := ⟨fun _ => ∅, fun _ => none⟩

variable (bits : ℕ)

/-- The shard of a question at a generation. -/
def shardKey (q : Question) : ShardKey := ⟨q.rtype, bits, shardOf blake3 q.owner q.name bits⟩

/-- Is this node one of a shard's replicas? -/
def isReplica (sk : ShardKey) (census : List B32) : Bool :=
  selfId ∈ replicas blake3 sk (eligible selfId census)

/-- The nodes that are asked, in order: the writer, then the other replicas. -/
def targets (sk : ShardKey) (view : View) : List B32 :=
  let elig := eligible selfId view.census
  let writer := writerOf blake3 sk elig (effectiveEpoch view.now) selfId
  (replicas blake3 sk elig).foldl
    (fun targets id => if id ≠ selfId ∧ id ∉ targets then targets ++ [id] else targets)
    (if writer ≠ selfId then [writer] else [])

variable (node : RegistryNode)

/-- The head in the node's own table, if it is a replica. -/
def ownHead (q : Question) (view : View) : Option HeadEntry :=
  let sk := shardKey blake3 bits q
  if isReplica blake3 selfId sk view.census then (node.shards sk).sqlResolve S q.owner q.name
    else none

def verifiedAnswer (q : Question) (view : View) : Option HeadEntry :=
  (targets blake3 selfId (shardKey blake3 bits q) view).findSome? fun t =>
    (view.answer t).filter (HeadEntry.verify S)

def resolveAtBits (q : Question) (view : View) : Option (B32 × U64) :=
  match node.ownHead S blake3 selfId bits q view with
  | some entry => some (entry.cid, entry.version)
  | none => (verifiedAnswer S blake3 selfId bits q view).map fun entry => (entry.cid, entry.version)

def adjacent : List ℕ :=
  [(bits + (2 ^ 32 - 1)) % 2 ^ 32, bits + 1].filter fun alt => (1 ≤ alt ∧ alt ≤ maxShardBits)
    ∧ alt ≠ bits

/-- The generations a resolution tries, in order. -/
def generations (r : Readings) : List ℕ :=
  resolveShardBits r.governed :: adjacent (resolveShardBits r.governed)

/-- The kept value that a resolution would use; a replica uses none. -/
def cached (r : Readings) (q : Question) : Option (B32 × U64) :=
  if isReplica blake3 selfId (shardKey blake3 (resolveShardBits r.governed) q) r.census then none
  else node.cache.get q r.now

/-- Resolve a question to a content id and a version. -/
def resolveEntry (r : Readings) (q : Question) : Option (B32 × U64) × RegistryNode :=
  let bits := resolveShardBits r.governed
  match node.cached blake3 selfId r q with
  | some entry => (some entry, node)
  | none =>
    match node.resolveAtBits S blake3 selfId bits q (r.atBits bits) with
    | some entry =>
      if isReplica blake3 selfId (shardKey blake3 bits q) r.census then (some entry, node)
      else (some entry, { node with cache := node.cache.put q entry r.putAt })
    | none =>
      ((adjacent bits).findSome? fun alt => node.resolveAtBits S blake3 selfId alt q (r.atBits alt),
        node)

/-- What happens to a node: its tables change, it registers a head of its own, it resolves. -/
inductive Event where
  | tables (e : Shards.Event)
  | registered (rtype : Byte) (name : Bytes)
  | resolve (r : Readings) (q : Question)

def step : Event → RegistryNode
  | .tables e => { node with shards := node.shards.step S blake3 e }
  | .registered rtype name => { node with cache := node.cache.invalidate ⟨rtype, selfId, name⟩ }
  | .resolve r q => (node.resolveEntry S blake3 selfId r q).2

/-- Signatures are unforgeable: whatever a node is given, what verifies was signed. -/
def Event.Unforged (signed : List Head) : Event → Prop
  | tables e => ∀ x ∈ e.carried, x.2.verify S → x.2.Vouched signed
  | registered _ _ => True
  | resolve r _ => ∀ (bits : ℕ) (t : B32) (e : HeadEntry),
      (r.atBits bits).answer t = some e → e.verify S → e.Vouched signed

/-- **What is resolved is the owner's**: the owner signed that content id and that version for that
name. -/
def ResolvesSigned (signed : List Head) (node : RegistryNode) : Event → Prop
  | .resolve r q => ∀ value, (node.resolveEntry S blake3 selfId r q).1 = some value
    → q.head value ∈ signed
  | _ => True

/-- **The question is answered as asked**: an answer that verifies is a head of the owner and the
name that were asked for. -/
def Event.AsAsked : Event → Prop
  | resolve r q => ∀ (bits : ℕ) (t : B32) (e : HeadEntry),
      (r.atBits bits).answer t = some e → e.verify S → e.key = (q.owner, q.name)
  | _ => True

/-! ## One resolution -/

variable {S blake3 selfId} {node : RegistryNode} {r : Readings} {q : Question} {signed : List Head}
  {value : B32 × U64}

variable {bits : ℕ} {view : View}

theorem resolveAtBits_eq_some (h : node.resolveAtBits S blake3 selfId bits q view = some value) :
    ∃ e : HeadEntry, (e.cid, e.version) = value ∧ (node.ownHead S blake3 selfId bits q view = some e
        ∨ verifiedAnswer S blake3 selfId bits q view = some e) := by
  unfold resolveAtBits at h
  split at h
  next e he => exact ⟨e, Option.some.inj h, .inl he⟩
  next =>
    obtain ⟨e, he, hv⟩ := Option.map_eq_some_iff.mp h
    exact ⟨e, hv, .inr he⟩

theorem exists_answer {e : HeadEntry} (h : verifiedAnswer S blake3 selfId bits q view = some e) :
    (∃ t, view.answer t = some e) ∧ e.verify S := by
  obtain ⟨t, -, ht⟩ := exists_of_findSome?_eq_some h
  obtain ⟨ha, hv⟩ := Option.filter_eq_some_iff.mp ht
  exact ⟨⟨t, ha⟩, hv⟩

/-- **What a resolution returns**: the kept value, or what the first generation with a head says. -/
theorem resolveEntry_fst : (node.resolveEntry S blake3 selfId r q).1
    = (node.cached blake3 selfId r q).or
        ((generations r).findSome? fun bits => node.resolveAtBits S blake3 selfId bits q
          (r.atBits bits)) := by
  unfold resolveEntry generations
  dsimp only
  cases node.cached blake3 selfId r q with
  | some entry => rfl
  | none =>
    rw [Option.none_or, findSome?_cons]
    cases node.resolveAtBits S blake3 selfId (resolveShardBits r.governed) q
      (r.atBits (resolveShardBits r.governed)) with
    | none => dsimp only
    | some entry =>
      dsimp only
      split <;> rfl

theorem resolveEntry_snd : (node.resolveEntry S blake3 selfId r q).2 = node
    ∨ ∃ value, (node.resolveEntry S blake3 selfId r q).1 = some value
        ∧ (node.resolveEntry S blake3 selfId r q).2
          = { node with cache := node.cache.put q value r.putAt } := by
  unfold resolveEntry
  dsimp only
  cases node.cached blake3 selfId r q with
  | some entry => exact .inl rfl
  | none =>
    cases node.resolveAtBits S blake3 selfId (resolveShardBits r.governed) q
      (r.atBits (resolveShardBits r.governed)) with
    | none => exact .inl rfl
    | some entry =>
      dsimp only
      split
      · exact .inl rfl
      · exact .inr ⟨entry, rfl, rfl⟩

/-! ## The invariant -/

variable (S) in
/-- Whatever the node holds, in its tables or kept, an owner signed. -/
structure Genuine (signed : List Head) (node : RegistryNode) : Prop where
  tables : Shards.Holds S (fun _ e => e.head ∈ signed) node.shards
  kept : ∀ (q : Question) (value : B32 × U64) (expiry : ℕ),
    node.cache q = some (value, expiry) → q.head value ∈ signed

theorem Genuine.cached (h : Genuine S signed node)
    (hv : node.cached blake3 selfId r q = some value) :
    q.head value ∈ signed := by
  unfold RegistryNode.cached ResolveCache.get at hv
  split at hv
  · simp at hv
  · split at hv
    · rename_i entry expiry he
      split at hv
      · obtain rfl := Option.some.inj hv
        exact h.kept q entry expiry he
      · simp at hv
    · simp at hv

theorem Genuine.ownHead (h : Genuine S signed node) {e : HeadEntry}
    (he : node.ownHead S blake3 selfId bits q view = some e) :
    q.head (e.cid, e.version) ∈ signed := by
  unfold RegistryNode.ownHead at he
  dsimp only at he
  split at he
  · obtain ⟨⟨-, hs⟩, -, hkey⟩ := (h.tables _).sqlResolve he
    obtain ⟨ho, hn⟩ := Prod.mk.inj hkey
    rwa [Question.head, ← ho, ← hn]
  · simp at he

/-- **Whatever path a value comes by**, the owner signed it. -/
theorem Genuine.resolvesSigned (h : Genuine S signed node) {ev : Event} (hu : ev.Unforged S signed)
    (ha : ev.AsAsked S) : ResolvesSigned S blake3 selfId signed node ev := by
  cases ev with
  | tables e => trivial
  | registered rtype name => trivial
  | resolve r q =>
    intro value hvalue
    rw [resolveEntry_fst, Option.or_eq_some_iff] at hvalue
    rcases hvalue with hkept | ⟨-, hvalue⟩
    · exact h.cached hkept
    · obtain ⟨bits, -, hat⟩ := exists_of_findSome?_eq_some hvalue
      obtain ⟨e, rfl, hown | he⟩ := resolveAtBits_eq_some hat
      · exact h.ownHead hown
      · obtain ⟨⟨t, han⟩, hv⟩ := exists_answer he
        obtain ⟨ho, hn⟩ := Prod.mk.inj (ha bits t e han hv)
        rw [Question.head, ← ho, ← hn]
        exact (hu bits t e han hv).mem

theorem Genuine.step (h : Genuine S signed node) {ev : Event} (hu : ev.Unforged S signed)
    (ha : ev.AsAsked S) :
    Genuine S signed (node.step S blake3 selfId ev) := by
  cases ev with
  | tables e => exact ⟨h.tables.step fun x hx hv => (hu x hx hv).mem, h.kept⟩
  | registered rtype name =>
    refine ⟨h.tables, fun q value expiry hq => ?_⟩
    by_cases hs : q = ⟨rtype, selfId, name⟩
    · simp [RegistryNode.step, ResolveCache.invalidate, hs] at hq
    · simp only [RegistryNode.step, ResolveCache.invalidate, update_of_ne hs] at hq
      exact h.kept q value expiry hq
  | resolve r q =>
    rw [RegistryNode.step]
    have hsnd : (node.resolveEntry S blake3 selfId r q).2 = node
        ∨ ∃ value, (node.resolveEntry S blake3 selfId r q).1 = some value
          ∧ (node.resolveEntry S blake3 selfId r q).2
            = { node with cache := node.cache.put q value r.putAt } :=
      resolveEntry_snd
    rcases hsnd with hsa | ⟨value, hva, hput⟩
    · rwa [hsa]
    · rw [hput]
      refine ⟨h.tables, fun q' value' expiry hq' => ?_⟩
      by_cases hq : q' = q
      · subst hq
        simp only [ResolveCache.put, update_self, Option.some.injEq, Prod.mk.injEq] at hq'
        exact hq'.1 ▸ h.resolvesSigned hu ha value hva
      · simp only [ResolveCache.put, update_of_ne hq] at hq'
        exact h.kept q' value' expiry hq'

/-- **Every resolved head is the owner's**, in a run in which signatures are unforgeable and every
question is answered as asked. -/
theorem resolved_signed_of_answered (S : SigScheme) (blake3 : Bytes → B32) (selfId : B32)
    (signed : List Head) (events : List Event) (hunforged : ∀ ev ∈ events, ev.Unforged S signed)
    (hasked : ∀ ev ∈ events, ev.AsAsked S) :
    Run.EachStep (step S blake3 selfId) start (ResolvesSigned S blake3 selfId signed) events := by
  have hstart : Genuine S signed start := ⟨Shards.holds_empty _, by simp [start]⟩
  refine Run.eachStep_of_invariant (C := fun _ ev => ev.Unforged S signed ∧ ev.AsAsked S) hstart
    (fun _ _ h hev => h.step hev.1 hev.2)
      (fun _ _ h hev => h.resolvesSigned hev.1 hev.2) fun pre ev hp => ?_
  have hmem : ev ∈ events := hp.subset (by simp)
  exact ⟨hunforged ev hmem, hasked ev hmem⟩

end Resolution

/-- Everyone answers with one head, in a network of two. -/
def answering (e : HeadEntry) : Readings :=
  ⟨none, [1], 10 ^ 6, fun _ => ⟨[1], 10 ^ 6, fun _ => some e⟩, 10 ^ 6⟩

def signedHead (owner : B32) (name : String) (cid : B32) (version : U64) : HeadEntry :=
  (HeadSubmission.sign .transparent owner (ascii name) cid version).entry

/-- The question for owner 5's program `app`. -/
def whichApp : Question := ⟨rtProgram, 5, ascii "app"⟩

/-- An honest answer, which is kept and resolved again from what was kept. -/
theorem resolved_signed_of_answered_app : Run.EachStep (step .transparent blake3 9) start
    (ResolvesSigned .transparent blake3 9 [(signedHead 5 "app" 55 2).head])
    [.resolve (answering (signedHead 5 "app" 55 2)) whichApp,
      .resolve (answering (signedHead 5 "app" 55 2)) whichApp] := by
  refine resolved_signed_of_answered .transparent blake3 9 _ _ ?_ ?_ <;>
  · simp only [mem_cons, not_mem_nil, or_false, or_self, forall_eq]
    intro bits t e he _
    cases he
    decide +kernel

/-- **Another head is resolved.** Node 9 asks for owner 5's `app`, of which there is none. A replica
answers with owner 6's head, or with a head of owner 5 under another name; both are properly signed,
and either way its content id and version is what node 9 resolves. -/
theorem another_head_resolved :
    let elsewhere := signedHead 6 "app" 66 3
    let renamed := signedHead 5 "old" 77 1
    let signed := [elsewhere.head, renamed.head]
    (Event.resolve (answering elsewhere) whichApp).Unforged .transparent signed
      ∧ (Event.resolve (answering renamed) whichApp).Unforged .transparent signed
      ∧ (start.resolveEntry .transparent blake3 9 (answering elsewhere) whichApp).1 = some (66, 3)
      ∧ (start.resolveEntry .transparent blake3 9 (answering renamed) whichApp).1 = some (77, 1)
      ∧ whichApp.head (66, 3) ∉ signed ∧ whichApp.head (77, 1) ∉ signed := by
  refine ⟨fun bits t e he _ => ?_, fun bits t e he _ => ?_, by decide +kernel⟩
  · cases he
    decide +kernel
  · cases he
    decide +kernel

end RegistryNode

end Zephcraft.Noded
