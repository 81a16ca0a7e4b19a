import Zephcraft.Erasure.VTags
import Zephcraft.Foundations.OrderedMap

/-!
# Store/Pieces — the piece store of a node

For each content id the store keeps the parameters of its generation, the ids of the pieces it holds
and, on disk, the pieces themselves and perhaps the whole content.
-/

namespace Zephcraft.Store

open Erasure List

/-- How a content is coded. -/
structure Generation where
  k : Word 32
  pieceLen : U64
  totalLen : U64
  /-- The encoded verification tags. -/
  vtags : Bytes
deriving DecidableEq, Repr

/-- The index entry. -/
structure CidState where
  gen : Generation
  pieceIds : List B32
  hasContent : Bool
deriving DecidableEq, Repr

/-- How a call fails. -/
inductive StoreError where
  | tombstoned (cid : B32)
  | noGeneration (cid : B32)
  | erasure (e : ErasureError)
deriving Repr

/-- The store and its files. -/
structure PieceStore where
  index : BTreeMap B32 CidState
  tombstones : BTreeSet B32
  /-- The files `pieces/<pid>` of each content id. -/
  pieceFiles : BTreeMap (B32 × B32) Bytes
  /-- The files `content`. -/
  contentFiles : BTreeMap B32 Bytes

/-! ## Piece files -/

/-- A piece on disk: the length of its vector in four bytes, the vector, the data. -/
def pieceFile (piece : CodedPiece) : Bytes :=
  (leBytes 4 piece.codingVector.length).reverse ++ piece.codingVector ++ piece.data

def parsePiece (bytes : Bytes) : Option CodedPiece :=
  if bytes.length < 4 then none
  else
    let vlen := (bytes.take 4).foldl (fun n b => 256 * n + b.val) 0
    if bytes.length < 4 + vlen then none
    else some ⟨(bytes.drop 4).take vlen, bytes.drop (4 + vlen)⟩

/-- **A piece is read back as it was written**, as long as the length of its vector fits. -/
theorem parsePiece_pieceFile {piece : CodedPiece} (h : piece.codingVector.length < 2 ^ 32) :
    parsePiece (pieceFile piece) = some piece := by
  have hh : (leBytes 4 piece.codingVector.length).reverse.length = 4 := by simp
  have hvl : (((pieceFile piece).take 4).foldl (fun n b => 256 * n + b.val) 0)
      = piece.codingVector.length := by
    rw [pieceFile, append_assoc, take_left' hh, Reader.foldl_reverse_leBytes]
    exact Nat.mod_eq_of_lt (by simpa using h)
  have hv : ((pieceFile piece).drop 4).take piece.codingVector.length = piece.codingVector := by
    rw [pieceFile, append_assoc, drop_left' hh, take_left' rfl]
  have hd : (pieceFile piece).drop (4 + piece.codingVector.length) = piece.data := by
    rw [pieceFile, drop_left' (by simp)]
  have hl : (pieceFile piece).length = 4 + piece.codingVector.length + piece.data.length := by
    simp [pieceFile, Nat.add_assoc]
  rw [parsePiece, if_neg (by omega)]
  simp only [hvl]
  rw [if_neg (by omega), hv, hd]

namespace PieceStore

def empty : PieceStore := ⟨∅, ∅, ∅, ∅⟩

variable (store : PieceStore) (cid : B32)

def isTombstoned : Bool := store.tombstones.contains cid

def guardTombstone : Except StoreError Unit :=
  if store.isTombstoned cid then .error (.tombstoned cid) else .ok ()

def generation : Option Generation := store.index[cid]?.map CidState.gen

def hasContent : Bool := (store.index[cid]?.map CidState.hasContent).getD false

/-- The parameters given first are the ones kept. -/
def putGeneration (gen : Generation) : Except StoreError PieceStore := do
  store.guardTombstone cid
  match store.index[cid]? with
  | some _ => pure store
  | none => pure { store with index := store.index.insert cid ⟨gen, [], false⟩ }

def putPiece (piece : CodedPiece) : Except StoreError PieceStore := do
  store.guardTombstone cid
  let pid := piece.pieceId
  let pieceFiles := store.pieceFiles.insert (cid, pid) (pieceFile piece)
  match store.index[cid]? with
  | some state =>
    let pieceIds := if pid ∈ state.pieceIds then state.pieceIds else state.pieceIds ++ [pid]
    pure { store with pieceFiles, index := store.index.insert cid { state with pieceIds } }
  | none => pure { store with pieceFiles }

def putContent (content : Bytes) : Except StoreError PieceStore := do
  store.guardTombstone cid
  match store.index[cid]? with
  | some state =>
    pure { store with
      contentFiles := store.contentFiles.insert cid content
      index := store.index.insert cid { state with hasContent := true } }
  | none => throw (.noGeneration cid)

def content : Option Bytes :=
  match store.index[cid]? with
  | some state => if state.hasContent then store.contentFiles[cid]? else none
  | none => none

def readPiece (cid pid : B32) : Option CodedPiece := store.pieceFiles[(cid, pid)]?.bind parsePiece

/-! ## What the operations do -/

variable {store} {stored : PieceStore} {cid pid : B32} {gen : Generation} {piece : CodedPiece}

theorem putGeneration_cases (h : store.putGeneration cid gen = .ok stored) :
    (stored = store ∧ ∃ state, store.index[cid]? = some state) ∨ (store.index[cid]? = none
        ∧ stored = { store with index := store.index.insert cid ⟨gen, [], false⟩ }) := by
  obtain ⟨u, -, h⟩ := Except.bind_eq_ok.mp h
  cases hs : store.index[cid]? with
  | some state =>
    simp only [hs] at h
    exact .inl ⟨(Except.ok.inj h).symm, state, rfl⟩
  | none =>
    simp only [hs] at h
    exact .inr ⟨rfl, (Except.ok.inj h).symm⟩

theorem putPiece_cases (h : store.putPiece cid piece = .ok stored) :
    stored.pieceFiles = store.pieceFiles.insert (cid, piece.pieceId) (pieceFile piece) ∧
      ((∃ state, store.index[cid]? = some state ∧ ∃ pieceIds,
          (∀ pid, pid ∈ pieceIds ↔ pid = piece.pieceId ∨ pid ∈ state.pieceIds)
          ∧ stored.index = store.index.insert cid { state with pieceIds })
        ∨ (store.index[cid]? = none ∧ stored.index = store.index)) := by
  obtain ⟨u, -, h⟩ := Except.bind_eq_ok.mp h
  cases hs : store.index[cid]? with
  | some state =>
    simp only [hs] at h
    cases h
    refine ⟨rfl, .inl ⟨state, rfl, _, fun pid => ?_, rfl⟩⟩
    split_ifs with hmem
    · exact ⟨.inr, fun h => h.elim (fun e => e ▸ hmem) id⟩
    · simp [or_comm]
  | none =>
    simp only [hs] at h
    cases h
    exact ⟨rfl, .inr ⟨rfl, rfl⟩⟩

theorem putContent_cases {content : Bytes} (h : store.putContent cid content = .ok stored) :
    stored.pieceFiles = store.pieceFiles ∧ ∃ state, store.index[cid]? = some state
      ∧ stored.index = store.index.insert cid { state with hasContent := true } := by
  obtain ⟨u, -, h⟩ := Except.bind_eq_ok.mp h
  cases hs : store.index[cid]? with
  | some state =>
    simp only [hs] at h
    cases h
    exact ⟨rfl, state, rfl, rfl⟩
  | none =>
    simp only [hs] at h
    cases h

end PieceStore

end Zephcraft.Store
