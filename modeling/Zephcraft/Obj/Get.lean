import Zephcraft.Erasure.Decoder
import Zephcraft.Store.Serve

/-!
# Obj/Get — fetching a content by its id

`get` starts from the pieces the node holds itself, asks the admission gate, and then asks its
providers for one piece each, round after round, until the pieces decode.
-/

namespace Zephcraft.Obj

open Erasure Store

/-- `wire::PieceResponse`. -/
structure PieceResponse where
  found : Bool
  k : Word 32
  pieceLen : U64
  totalLen : U64
  /-- The encoded verification tags. -/
  vtags : Bytes
  pieces : List CodedPiece
deriving Repr

/-- What ends a `get` without the content. -/
inductive GetError where
  /-- `egress admission gate declined this fetch (insufficient reciprocity/escrow)` -/
  | declined
  /-- `no providers for {cid} and local pieces insufficient to reconstruct` -/
  | noProviders
  /-- The tags of the first response cannot be read. -/
  | tagsMalformed
  /-- `piece failed vtag verification — refusing polluted data` -/
  | polluted
  | erasure (e : ErasureError)
  /-- `no pieces received for {cid}` -/
  | noPieces
  /-- `insufficient pieces to decode {cid}` -/
  | insufficient
  /-- `decoded content does not match {cid}` -/
  | mismatch
  /-- `expect("set")`: a piece before the tags. -/
  | unset
deriving Repr

/-- The tags of a content, and the decoder of its pieces. -/
structure Known where
  tags : VTags
  k : ℕ
  pieceLen : ℕ
  decoder : Decoder k pieceLen

/-- What a `get` has so far. -/
structure Fetch where
  known : Option Known
  totalLen : U64
  /-- The ids of the pieces it was given. -/
  exclude : List B32
  progressed : Bool

namespace Fetch

def new : Fetch := ⟨none, 0, [], false⟩

def isComplete (f : Fetch) : Bool := f.known.any fun known => known.decoder.isComplete

/-! ## Local pieces -/

/-- A piece of the node's own: one that does not verify is passed over, and so is one that does not
fit. -/
def takeLocal (D : Derivation) (f : Fetch) (piece : CodedPiece) : Fetch :=
  match f.known with
  | none => f
  | some known =>
    if VTags.verify D known.tags piece ∧ piece.pieceId ∉ f.exclude then
      let decoder := (known.decoder.addPiece piece).toOption.elim known.decoder Prod.snd
      { f with known := some { known with decoder }, exclude := piece.pieceId :: f.exclude }
    else f

/-- What the node has: its generation of the content, and the pieces `serve_pieces` gives for it. -/
def ofLocal (D : Derivation) (gen : Option Generation) (pieces : List CodedPiece) : Fetch :=
  match gen with
  | none => new
  | some gen =>
    match VTags.decode gen.vtags with
    | none => new
    | some tags =>
      if pieces.isEmpty then new
      else pieces.foldl (takeLocal D)
        ⟨some ⟨tags, gen.k.val, gen.pieceLen.val, .new _ _⟩, gen.totalLen, [], false⟩

/-! ## Rounds -/

/-- What there is to do with the results of a round. -/
inductive Item where
  /-- A response comes up: the first one brings the tags. -/
  | response (resp : PieceResponse)
  | piece (provider : B32) (piece : CodedPiece)
  /-- A response is done: are there enough pieces? -/
  | done
deriving Repr

/-- The work of one result; a request that failed and a response without pieces bring none. -/
def itemsOf : B32 × Option PieceResponse → List Item
  | (_, none) => []
  | (provider, some resp) =>
    if ¬ resp.found ∨ resp.pieces.isEmpty then [] else .response resp
      :: (resp.pieces.map (.piece provider) ++ [.done])

/-- How many providers are asked in a round. -/
def fanout : ℕ := 16

def maxRounds : ℕ := 64

/-- The work of a round, with the results in the order of the providers asked. -/
def round (providers : List B32) (results : List (Option PieceResponse)) : List Item :=
  ((providers.take fanout).zip results).flatMap itemsOf

/-- The first response brings the tags, the shape of the decoder and the length. -/
def takeResponse (f : Fetch) (resp : PieceResponse) : Except GetError Fetch :=
  match f.known with
  | some _ => .ok f
  | none =>
    match VTags.decode resp.vtags with
    | none => .error .tagsMalformed
    | some tags =>
      .ok { f with
        known := some ⟨tags, resp.k.val, resp.pieceLen.val, .new _ _⟩, totalLen := resp.totalLen }

/-- One piece of a response; `true` if it is to be metered. -/
def takePiece (D : Derivation) (f : Fetch) (piece : CodedPiece) : Except GetError (Bool × Fetch) :=
  match f.known with
  | none => .error .unset
  | some known =>
    if ¬ VTags.verify D known.tags piece then .error .polluted
    else if piece.pieceId ∈ f.exclude then .ok (false, f)
    else
      match known.decoder.addPiece piece with
      | .error e => .error (.erasure e)
      | .ok added =>
        .ok (true, { f with
          known := some { known with decoder := added.2 }
          exclude := piece.pieceId :: f.exclude
          progressed := true })

/-- Work off a round; `true` if it was left because there are enough pieces. -/
def workOff (D : Derivation) : List Item → Fetch → Except GetError (Bool × Fetch)
  | [], f => .ok (false, f)
  | .response resp :: items, f => do
    let f ← f.takeResponse resp
    workOff D items f
  | .piece _ piece :: items, f => do
    let taken ← f.takePiece D piece
    workOff D items taken.2
  | .done :: items, f => if f.isComplete then .ok (true, f) else workOff D items f

/-- One round after the other, until there are enough pieces or a round has brought none. -/
def rounds (D : Derivation) (providers : List B32) :
    List (List (Option PieceResponse)) → Fetch → Except GetError Fetch
  | [], f => .ok f
  | results :: more, f =>
    if f.isComplete then .ok f
    else do
      let worked ← workOff D (round providers results) { f with progressed := false }
      if worked.1 ∨ ¬ worked.2.progressed then return worked.2 else rounds D providers more worked.2

/-! ## The content -/

/-- Decode, cut off what was filled up, and check the id. -/
def finish (f : Fetch) (cid : B32) : Except GetError Bytes :=
  match f.known with
  | none => .error .noPieces
  | some known =>
    if ¬ known.decoder.isComplete then .error .insufficient
    else
      match known.decoder.decode with
      | .error e => .error (.erasure e)
      | .ok sources =>
        let bytes := sources.flatten.take f.totalLen.val
        if blake3 bytes = cid then .ok bytes else .error .mismatch

end Fetch

/-- What a node's store has of a content. -/
structure Holding where
  content : Option Bytes
  gen : Option Generation
  /-- What `serve_pieces` gives, with nothing excluded. -/
  pieces : List CodedPiece

/-- Where a `get` starts: with the content, or with the local pieces. -/
def Holding.start (held : Holding) (D : Derivation) (cid : B32) : Bytes ⊕ Fetch :=
  match held.content.filter fun content => blake3 content = cid with
  | some content => .inl content
  | none => .inr (.ofLocal D held.gen held.pieces)

/-- What a `get` meets: the node's own store, the admission gate, the providers that were resolved,
and what comes back in each round. -/
structure Surroundings where
  held : Holding
  admitFetch : U64 → Bool
  providers : List B32
  answers : List (List (Option PieceResponse))

def get (D : Derivation) (env : Surroundings) (cid : B32) : Except GetError Bytes :=
  match env.held.start D cid with
  | .inl content => .ok content
  | .inr f =>
    if f.isComplete then f.finish cid
    else if ¬ env.admitFetch f.totalLen then .error .declined
    else if env.providers.isEmpty then .error .noProviders
    else do
      let f ← f.rounds D env.providers (env.answers.take Fetch.maxRounds)
      f.finish cid

end Zephcraft.Obj
