import Zephcraft.Store.Serve
import Zephcraft.Foundations.Run

/-!
# Obj/Ingest — taking in pushed pieces

A pushed piece carries its generation with it, tags included, and is verified under **those** tags.
The generation the store keeps for the content id may be another: the first one it was given.
-/

namespace Zephcraft.Obj

open Erasure Store BTreeMap Run

/-- A pushed piece. -/
structure PiecePush where
  cid : B32
  k : Word 32
  pieceLen : U64
  totalLen : U64
  vtags : Bytes
  piece : CodedPiece
  priority : Byte
deriving Repr

/-- The answer to a push. -/
structure PiecePushAck where
  ok : Bool
  reason : String
deriving DecidableEq, Repr

/-- What the node knows at the moment of a push: memory pressure, how much it would grant a class,
and which content ids it evicted a moment ago. -/
structure Pressure where
  shedding : Bool
  granted : Byte → ℕ
  inCooldown : B32 → Bool

def Pressure.none : Pressure := ⟨false, fun _ => 1, fun _ => false⟩

def PiecePush.gen (push : PiecePush) : Generation :=
  ⟨push.k, push.pieceLen, push.totalLen, push.vtags⟩

def reject (reason : String) (store : PieceStore) : PiecePushAck × PieceStore :=
  (⟨false, reason⟩, store)

/-- `put_generation`, then `put_piece`. -/
def keep (store : PieceStore) (push : PiecePush) : PiecePushAck × PieceStore :=
  match store.putGeneration push.cid push.gen with
  | .error _ => reject "store-error" store
  | .ok stored =>
    match stored.putPiece push.cid push.piece with
    | .error _ => reject "store-error" stored
    | .ok stored => (⟨true, ""⟩, stored)

def ingest (D : Derivation) (pressure : Pressure) (store : PieceStore) (push : PiecePush) :
    PiecePushAck × PieceStore :=
  if pressure.shedding then reject "busy — memory pressure" store
  else if pressure.granted push.priority = 0 then reject "busy — pressure (class-gated)" store
  else if store.isTombstoned push.cid then reject "tombstoned" store
  else if pressure.inCooldown push.cid then reject "in-cooldown" store
  else
    match VTags.decode push.vtags with
    | none => reject "vtags-malformed" store
    | some tags =>
      if VTags.verify D tags push.piece then keep store push else reject "vtag-invalid" store

/-- How content is published: over how many sources, pinned or not, and whether it was spread
before. -/
structure Publication where
  k : ℕ
  pin : Bool
  distributed : Bool
  data : Bytes

/-- `publish`: the generation of the content and the content itself, no pieces. What was spread
before and is not pinned is not kept again. -/
def publish (D : Derivation) (store : PieceStore) (p : Publication) (rng : Rng) : PieceStore :=
  let k := p.k
  let data := p.data
  let cid := blake3 data
  let pieceLen := max ((data.length + k - 1) / k) 1
  let sources := splitSources data k pieceLen
  match (VTags.generate D sources rng).1 with
  | .error _ => store
  | .ok tags =>
    let gen : Generation :=
      ⟨Word.truncate k, Word.truncate pieceLen, Word.truncate data.length, tags.encode⟩
    match store.putGeneration cid gen with
    | .error _ => store
    | .ok stored =>
      if p.pin = false ∧ (p.distributed ∨ stored.hasContent cid) then stored
      else (stored.putContent cid data).toOption.getD stored

/-- What brings pieces into a store. -/
inductive Event where
  | push (pressure : Pressure) (push : PiecePush)
  | publish (p : Publication) (rng : Rng)

/-- The store after an event; empty content is refused. -/
def step (D : Derivation) (store : PieceStore) : Event → PieceStore
  | .push pressure push => (ingest D pressure store push).2
  | .publish p rng => if p.data.isEmpty then store else publish D store p rng

/-! ## Stored pieces and their generation -/

/-- A piece that a generation stands for: it has the generation's lengths and passes its tags. -/
structure Admits (D : Derivation) (gen : Generation) (piece : CodedPiece) : Prop where
  verifies : ∃ tags, VTags.decode gen.vtags = some tags ∧ VTags.verify D tags piece = true
  length_vector : piece.codingVector.length = gen.k.val
  length_data : piece.data.length = gen.pieceLen.val

/-- **Every stored piece is one that the generation of its content id stands for.** -/
def Clean (D : Derivation) (store : PieceStore) : Prop :=
  ∀ cid state, store.index[cid]? = some state → ∀ pid ∈ state.pieceIds,
    ∀ piece, store.readPiece cid pid = some piece → Admits D state.gen piece

variable {D : Derivation} {store stored : PieceStore} {cid : B32} {gen : Generation}
  {piece : CodedPiece} {push : PiecePush}

theorem clean_empty : Clean D .empty := fun cid state h => by
  simp [PieceStore.empty] at h

theorem Clean.putGeneration (h : Clean D store) (hput : store.putGeneration cid gen = .ok stored) :
    Clean D stored := by
  rcases PieceStore.putGeneration_cases hput with ⟨rfl, -⟩ | ⟨hn, rfl⟩
  · exact h
  · intro c state hs pid hpid
    by_cases hc : cid = c
    · subst hc
      obtain rfl : (⟨gen, [], false⟩ : CidState) = state := by simpa using hs
      simp at hpid
    · rw [getElem?_insert_of_ne _ hc] at hs
      exact h c state hs pid hpid

theorem Clean.putContent (h : Clean D store) {content : Bytes}
    (hput : store.putContent cid content = .ok stored) : Clean D stored := by
  obtain ⟨hf, state, hs, hin⟩ := PieceStore.putContent_cases hput
  intro c state' hs' pid hpid piece hr
  have hr' : store.readPiece c pid = some piece := by
    rwa [PieceStore.readPiece, hf] at hr
  rw [hin] at hs'
  by_cases hc : cid = c
  · subst hc
    obtain rfl : { state with hasContent := true } = state' := by simpa using hs'
    exact h cid state hs pid hpid piece hr'
  · rw [getElem?_insert_of_ne _ hc] at hs'
    exact h c state' hs' pid hpid piece hr'

theorem Clean.putPiece (h : Clean D store) {state : CidState} (hs : store.index[cid]? = some state)
    (hp : Admits D state.gen piece) (hput : store.putPiece cid piece = .ok stored) :
    Clean D stored := by
  obtain ⟨hf, hin⟩ := PieceStore.putPiece_cases hput
  obtain ⟨state₀, hs₀, ids, hids, hin⟩ | ⟨hn, -⟩ := hin
  · obtain rfl : state₀ = state := Option.some.inj (hs₀.symm.trans hs)
    have hfi : piece.codingVector.length < 2 ^ 32 := hp.length_vector ▸ state₀.gen.k.isLt
    intro c state' hs' pid hpid q hr
    rw [hin] at hs'
    -- the written file is read back as the piece, and no other file has changed
    by_cases hkey : (cid, piece.pieceId) = (c, pid)
    · cases hkey
      obtain rfl : { state₀ with pieceIds := ids } = state' := by simpa using hs'
      rw [PieceStore.readPiece, hf, getElem?_insert_self, Option.bind_some,
        parsePiece_pieceFile hfi] at hr
      exact Option.some.inj hr ▸ hp
    · have hr' : store.readPiece c pid = some q := by
        rwa [PieceStore.readPiece, hf, getElem?_insert_of_ne _ hkey] at hr
      by_cases hc : cid = c
      · subst hc
        obtain rfl : { state₀ with pieceIds := ids } = state' := by simpa using hs'
        refine h cid state₀ hs pid ?_ q hr'
        exact ((hids pid).mp hpid).resolve_left fun e => hkey (by rw [e])
      · rw [getElem?_insert_of_ne _ hc] at hs'
        exact h c state' hs' pid hpid q hr'
  · rw [hn] at hs
    cases hs

/-- The generation a push is stored under: the one that is held, or else its own. -/
def PiecePush.under (push : PiecePush) (store : PieceStore) : Generation :=
  (store.generation push.cid).getD push.gen

theorem Clean.keep (h : Clean D store) (hp : Admits D (push.under store) push.piece) :
    Clean D (keep store push).2 := by
  rw [Obj.keep]
  split
  · exact h
  rename_i stored hgen
  have hc := h.putGeneration hgen
  have hs : ∃ state, stored.index[push.cid]? = some state ∧ state.gen = push.under store := by
    rcases PieceStore.putGeneration_cases hgen with ⟨rfl, state, hs⟩ | ⟨hn, rfl⟩
    · exact ⟨state, hs, by simp [PiecePush.under, PieceStore.generation, hs]⟩
    · exact ⟨⟨push.gen, [], false⟩, by simp, by simp [PiecePush.under, PieceStore.generation, hn]⟩
  obtain ⟨state, hs, hu⟩ := hs
  split
  · exact hc
  · exact hc.putPiece hs (hu ▸ hp) ‹_›

theorem Clean.publish (h : Clean D store) (p : Publication) (rng : Rng) :
    Clean D (publish D store p rng) := by
  rw [Obj.publish]
  split
  · exact h
  dsimp only
  split
  · exact h
  rename_i stored hgen
  have hc := h.putGeneration hgen
  split_ifs
  · exact hc
  · cases hco : stored.putContent (blake3 p.data) p.data with
    | error e => simpa [Except.toOption] using hc
    | ok stored' => simpa [Except.toOption] using hc.putContent hco

/-! ## When the store stays clean -/

/-- A push that brings the generation it is stored under: its `k` and `piece_len` are those of its
tags, and if the content id is held, its `k`, `piece_len` and tags are those of the generation
held. -/
def Proper (D : Derivation) (store : PieceStore) (push : PiecePush) : Prop :=
  ∀ tags, VTags.decode push.vtags = some tags → VTags.verify D tags push.piece = true →
    (tags.k = push.k ∧ tags.pieceLen = push.pieceLen) ∧
      ∀ gen, store.generation push.cid = some gen →
        gen.k = push.k ∧ gen.pieceLen = push.pieceLen ∧ gen.vtags = push.vtags

def ProperEvent (D : Derivation) (store : PieceStore) : Event → Prop
  | .push _ push => Proper D store push
  | .publish _ _ => True

theorem Clean.ingest (h : Clean D store) (pressure : Pressure) (hp : Proper D store push) :
    Clean D (ingest D pressure store push).2 := by
  rw [Obj.ingest]
  split_ifs
  iterate 4 exact h
  split
  · exact h
  rename_i tags ht
  split_ifs with hv
  · obtain ⟨⟨hk, hlen⟩, hh⟩ := hp tags ht hv
    obtain ⟨-, ⟨hve, hd⟩, -⟩ := VTags.verify_iff.mp hv
    refine h.keep ?_
    cases hgen : store.generation push.cid with
    | none =>
      have hu : push.under store = push.gen := by simp [PiecePush.under, hgen]
      rw [hu]
      exact ⟨⟨tags, ht, hv⟩, by rw [hve, hk]; rfl, by rw [hd, hlen]; rfl⟩
    | some gen =>
      have hu : push.under store = gen := by simp [PiecePush.under, hgen]
      obtain ⟨hgk, hgl, hg⟩ := hh gen hgen
      rw [hu]
      exact ⟨⟨tags, hg ▸ ht, hv⟩, by rw [hve, hk, hgk], by rw [hd, hlen, hgl]⟩
  · exact h

/-- **The store stays clean in every run of pushes that bring the generation they are stored
under.** -/
theorem store_clean_of_proper {events : List Event} (h : Clean D store)
    (hproper : EachStep (step D) store (ProperEvent D) events) :
    EachState (step D) store (Clean D) events := by
  refine eachState_of_invariant h (fun store event h hevent => ?_) (fun _ h => h) hproper
  cases event with
  | push pressure push => exact h.ingest pressure hevent
  | publish p rng =>
    rw [step]
    split_ifs
    · exact h
    · exact h.publish p rng

/-- A piece of the content `[7]`, with the tag of that content. -/
def honestPush : PiecePush := ⟨0, 1, 1, 1, VTags.oneTag.encode, ⟨[3], [9]⟩, 0⟩

theorem decode_oneTag : VTags.decode VTags.oneTag.encode = some VTags.oneTag := by decide +kernel

/-- Another piece of it. -/
def secondPush : PiecePush := { honestPush with piece := ⟨[1], [7]⟩ }

theorem store_clean_of_proper_twoPushes :
    (run (step .repeated) .empty [.push .none honestPush,
      .push .none secondPush]).index[(0 : B32)]?.map (fun state => state.pieceIds.length) = some 2
      ∧ EachState (step .repeated) .empty (Clean .repeated) [.push .none honestPush,
        .push .none secondPush] := by
  have hheld :
      (run (step .repeated) .empty [.push .none honestPush]).generation 0
        = some honestPush.gen := by
    decide +kernel
  refine ⟨by decide +kernel,
    store_clean_of_proper clean_empty (eachStep_cons.mpr ⟨fun tags htags hverify => ?_,
    eachStep_cons.mpr ⟨fun tags htags hverify => ?_, by simp⟩⟩)⟩
  · obtain rfl : VTags.oneTag = tags := Option.some.inj (decode_oneTag.symm.trans htags)
    exact ⟨⟨rfl, rfl⟩, fun gen hgen => by simp [PieceStore.generation, PieceStore.empty] at hgen⟩
  · obtain rfl : VTags.oneTag = tags := Option.some.inj (decode_oneTag.symm.trans htags)
    refine ⟨⟨rfl, rfl⟩, fun gen hgen => ?_⟩
    obtain rfl : honestPush.gen = gen := Option.some.inj (hheld.symm.trans hgen)
    exact ⟨rfl, rfl, rfl⟩

/-- A piece of the content `[8]` under the same content id, with the tag of `[8]`. -/
def pollutingPush : PiecePush :=
  ⟨0, 1, 1, 1, VTags.encode ⟨1, 1, 1, [VTags.tagOf .repeated [[8]] 1 5]⟩, ⟨[1], [8]⟩, 0⟩

/-- **A piece of other content is acknowledged and stored, under tags it does not pass.** -/
theorem polluting_piece_stored :
    (ingest .repeated .none (ingest .repeated .none .empty honestPush).2 pollutingPush).1
      = ⟨true, ""⟩ ∧ ¬ Clean .repeated
        (run (step .repeated) .empty [.push .none honestPush, .push .none pollutingPush]) := by
  refine ⟨by decide +kernel, fun hclean => ?_⟩
  have hstate : (run (step .repeated) .empty
      [.push .none honestPush, .push .none pollutingPush]).index[(0 : B32)]?
      = some ⟨honestPush.gen, [honestPush.piece.pieceId, pollutingPush.piece.pieceId], false⟩ := by
    decide +kernel
  have hread : (run (step .repeated) .empty
      [.push .none honestPush, .push .none pollutingPush]).readPiece 0 pollutingPush.piece.pieceId
      = some pollutingPush.piece := by
    decide +kernel
  obtain ⟨tags, htags, hverify⟩ :=
    (hclean 0 _ hstate pollutingPush.piece.pieceId (by simp) _ hread).verifies
  obtain rfl : VTags.oneTag = tags := Option.some.inj (decode_oneTag.symm.trans htags)
  exact absurd hverify (by decide +kernel)

end Zephcraft.Obj
