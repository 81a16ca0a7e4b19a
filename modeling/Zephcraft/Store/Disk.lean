import Zephcraft.Store.Pieces

/-!
# Store/Disk — the store as index and files

The index is kept in memory, the files on disk, and each operation updates both by rules of its own.
A content id has a directory with its parameters (`meta`), its pieces, perhaps the content, and
empty files as markers.
-/

namespace Zephcraft.Store

open Erasure Std.ExtTreeMap Std.ExtTreeSet

/-- What the index knows of a content id. -/
structure IndexEntry where
  gen : Generation
  pieceIds : BTreeSet B32
  pinned : Bool
  system : Bool
  hasContent : Bool
  lastAccess : U64

/-- The directory of a content id. -/
structure CidDir where
  parameters : Option Generation
  pieces : BTreeMap B32 Bytes
  content : Option Bytes
  pinned : Bool
  system : Bool

/-- A file in it. -/
inductive DirFile where
  | parameters
  | piece (pid : B32)
  | content
  | pinned
  | system
deriving DecidableEq

namespace CidDir

def empty : CidDir := ⟨none, ∅, none, false, false⟩

def remove (d : CidDir) : DirFile → CidDir
  | .parameters => { d with parameters := none }
  | .piece pid => { d with pieces := d.pieces.erase pid }
  | .content => { d with content := none }
  | .pinned => { d with pinned := false }
  | .system => { d with system := false }

def pieceNames (d : CidDir) : BTreeSet B32 := Std.ExtTreeSet.ofList d.pieces.keys compare

/-- What `reload` makes of a directory. -/
def entry (d : CidDir) (now : U64) : Option IndexEntry :=
  d.parameters.map fun gen => ⟨gen, d.pieceNames, d.pinned, d.system, d.content.isSome, now⟩

end CidDir

/-- The directories `cid` and `tombstones`. -/
structure Disk where
  dirs : BTreeMap B32 CidDir
  markers : BTreeSet B32

/-- One effect on the file system; a file is written whole or not at all. -/
inductive FileEffect where
  | writeParameters (cid : B32) (gen : Generation)
  | writePiece (cid pid : B32) (bytes : Bytes)
  | writeContent (cid : B32) (bytes : Bytes)
  | writePinned (cid : B32)
  | writeSystem (cid : B32)
  | removeFile (cid : B32) (file : DirFile)
  | removeDir (cid : B32)
  | writeMarker (cid : B32)
  | removeMarker (cid : B32)

namespace Disk

def dir (disk : Disk) (cid : B32) : CidDir := (disk.dirs[cid]?).getD .empty

def modify (disk : Disk) (cid : B32) (f : CidDir → CidDir) : Disk :=
  { disk with dirs := disk.dirs.insert cid (f (disk.dir cid)) }

def apply (disk : Disk) : FileEffect → Disk
  | .writeParameters cid gen => disk.modify cid fun d => { d with parameters := some gen }
  | .writePiece cid pid bytes => disk.modify cid fun d =>
    { d with pieces := d.pieces.insert pid bytes }
  | .writeContent cid bytes => disk.modify cid fun d => { d with content := some bytes }
  | .writePinned cid => disk.modify cid fun d => { d with pinned := true }
  | .writeSystem cid => disk.modify cid fun d => { d with system := true }
  | .removeFile cid file => disk.modify cid fun d => d.remove file
  | .removeDir cid => { disk with dirs := disk.dirs.erase cid }
  | .writeMarker cid => { disk with markers := disk.markers.insert cid }
  | .removeMarker cid => { disk with markers := disk.markers.erase cid }

end Disk

/-- The store and its disk. -/
structure NodeStore where
  index : BTreeMap B32 IndexEntry
  tombstones : BTreeSet B32
  disk : Disk
  poisoned : Bool

/-- How a call fails. -/
inductive Fault where
  | tombstoned (cid : B32)
  | noGeneration (cid : B32)
  | panicked

/-- What a call answers. -/
inductive Reply where
  | done
  | pieceId (pid : B32)
  | existed (was : Bool)
  | freed (bytes : ℕ)

/-- The calls of the store. -/
inductive Op where
  | putGeneration (cid : B32) (gen : Generation)
  | putPiece (cid : B32) (piece : CodedPiece)
  | putContent (cid : B32) (content : Bytes) (pinned : Bool)
  | unpin (cid : B32)
  | markSystem (cid : B32)
  | unmarkSystem (cid : B32)
  | removePiece (cid pid : B32)
  | forget (cid : B32)
  | tombstone (cid : B32)
  | untombstone (cid : B32)
  | evictTo (target : U64)

/-- To pin is to store the content, exempt from eviction. -/
def Op.pin (cid : B32) (content : Bytes) : Op := .putContent cid content true

namespace NodeStore

/-- Open a disk: the index is rebuilt from the directories that have parameters. -/
def reload (disk : Disk) (now : U64) : NodeStore :=
  ⟨disk.dirs.filterMap fun _ d => d.entry now, disk.markers, disk, false⟩

def new : NodeStore := ⟨∅, ∅, ⟨∅, ∅⟩, false⟩

variable (store : NodeStore)

def apply (e : FileEffect) : NodeStore := { store with disk := store.disk.apply e }

variable (cid : B32)

def isTombstoned : Bool := store.tombstones.contains cid

def lockIndex (f : NodeStore → Except Fault Reply × NodeStore) : Except Fault Reply × NodeStore :=
  if store.poisoned then (.error .panicked, store) else f store

/-- Change what the index knows of a content id, if it has it. -/
def modifyEntry (f : IndexEntry → IndexEntry) : NodeStore :=
  match store.index[cid]? with
  | some e => { store with index := store.index.insert cid (f e) }
  | none => store

/-! ## Operations -/

def putGeneration (gen : Generation) (now : U64) : Except Fault Reply × NodeStore :=
  if store.isTombstoned cid then (.error (.tombstoned cid), store)
  else
    (store.apply (.writeParameters cid gen)).lockIndex fun store =>
      match store.index[cid]? with
      | some _ => (.ok .done, store)
      | none =>
        (.ok .done, { store with index := store.index.insert cid ⟨gen, ∅, false, false, false,
          now⟩ })

def putPiece (piece : CodedPiece) (now : U64) : Except Fault Reply × NodeStore :=
  if store.isTombstoned cid then (.error (.tombstoned cid), store)
  else
    let pid := piece.pieceId
    (store.apply (.writePiece cid pid (pieceFile piece))).lockIndex fun store =>
      (.ok (.pieceId pid),
        store.modifyEntry cid fun e =>
          { e with pieceIds := e.pieceIds.insert pid, lastAccess := now })

def removePiece (cid pid : B32) (now : U64) : Except Fault Reply × NodeStore :=
  let existed := (store.disk.dir cid).pieces.contains pid
  (store.apply (.removeFile cid (.piece pid))).lockIndex fun store =>
    (.ok (.existed existed),
      store.modifyEntry cid fun e => { e with pieceIds := e.pieceIds.erase pid, lastAccess := now })

/-- The effects of storing content on the files. -/
def contentEffects (content : Bytes) (pinned : Bool) : List FileEffect :=
  .writeContent cid content :: if pinned then [.writePinned cid] else []

def putContent (content : Bytes) (pinned : Bool) (now : U64) : Except Fault Reply × NodeStore :=
  if store.isTombstoned cid then (.error (.tombstoned cid), store)
  else
    store.lockIndex fun store =>
      match store.index[cid]? with
      | none => (.error (.noGeneration cid), store)
      | some _ =>
        (.ok .done, ((contentEffects cid content pinned).foldl apply store).modifyEntry cid fun e =>
          { e with pinned := e.pinned || pinned, hasContent := true, lastAccess := now })

def unpin : Except Fault Reply × NodeStore :=
  (store.apply (.removeFile cid .pinned)).lockIndex fun store =>
    (.ok .done, store.modifyEntry cid fun e => { e with pinned := false })

def markSystem : Except Fault Reply × NodeStore :=
  (store.apply (.writeSystem cid)).lockIndex fun store =>
    (.ok .done, store.modifyEntry cid fun e => { e with system := true })

def unmarkSystem : Except Fault Reply × NodeStore :=
  (store.apply (.removeFile cid .system)).lockIndex fun store =>
    (.ok .done, store.modifyEntry cid fun e => { e with system := false })

def drop : NodeStore :=
  { store with index := store.index.erase cid }.apply (.removeDir cid)

def forget : Except Fault Reply × NodeStore :=
  store.lockIndex fun store => (.ok .done, store.drop cid)

def tombstone : Except Fault Reply × NodeStore :=
  { store.apply (.writeMarker cid) with tombstones := store.tombstones.insert cid }.lockIndex
    fun store =>
    (.ok .done, store.drop cid)

def untombstone : Except Fault Reply × NodeStore :=
  (.ok .done, { store.apply (.removeMarker cid) with tombstones := store.tombstones.erase cid })

/-! ## Eviction -/

def heldBytes (e : IndexEntry) : Except Panic U64 := do
  let pieceBytes ← (Word.truncate e.pieceIds.size : U64).mulOrPanic e.gen.pieceLen
  pieceBytes.addOrPanic (if e.hasContent then e.gen.totalLen else 0)

def totalBytes (entries : List (B32 × IndexEntry)) : Except Panic U64 := do
  let bytes ← entries.mapM fun e => heldBytes e.2
  Word.sumOrPanic bytes

/-- Who may be evicted, oldest access first. -/
def candidates (entries : List (B32 × IndexEntry)) : Except Panic (List (U64 × U64 × B32)) := do
  let found ← (entries.filter fun e => !e.2.pinned && !e.2.system).mapM fun e => do
    let bytes ← heldBytes e.2
    pure (e.2.lastAccess, bytes, e.1)
  pure (found.mergeSort fun a b => a.1 ≤ b.1)

/-- Take candidates until little enough is left. -/
def choose (target : U64) : ℕ → List (U64 × U64 × B32) → List (U64 × B32)
  | _, [] => []
  | total, (_, bytes, cid) :: rest =>
    if total ≤ target.val then [] else (bytes, cid) :: choose target (total - bytes.val) rest

/-- The victims, of an index that lists its entries in some order. -/
def victims (entries : List (B32 × IndexEntry)) (target : U64) : Except Panic (List (U64 × B32)) :=
  do
  let total ← totalBytes entries
  if total ≤ target then pure []
  else
    let candidates ← candidates entries
    pure (choose target total.val candidates)

/-- Evict until at most `target` bytes are held. The index is locked while the victims are
chosen. -/
def evictTo (target : U64) : Except Fault Reply × NodeStore :=
  store.lockIndex fun store =>
    match victims store.index.toList target with
    | .error _ => (.error .panicked, { store with poisoned := true })
    | .ok chosen =>
      (.ok (.freed (chosen.map fun v => v.1.val).sum),
        chosen.foldl (fun store v => store.drop v.2) store)

def exec (now : U64) : Op → Except Fault Reply × NodeStore
  | .putGeneration cid gen => store.putGeneration cid gen now
  | .putPiece cid piece => store.putPiece cid piece now
  | .putContent cid content pinned => store.putContent cid content pinned now
  | .unpin cid => store.unpin cid
  | .markSystem cid => store.markSystem cid
  | .unmarkSystem cid => store.unmarkSystem cid
  | .removePiece cid pid => store.removePiece cid pid now
  | .forget cid => store.forget cid
  | .tombstone cid => store.tombstone cid
  | .untombstone cid => store.untombstone cid
  | .evictTo target => store.evictTo target

end NodeStore

/-! ## What the files look like after an effect -/

namespace CidDir

variable {d : CidDir} {pid : B32}

theorem mem_pieceNames : pid ∈ d.pieceNames ↔ pid ∈ d.pieces := by
  rw [pieceNames, Std.ExtTreeSet.mem_ofList, List.contains_iff_mem, mem_keys]

theorem pieceNames_insert (bytes : Bytes) :
    { d with pieces := d.pieces.insert pid bytes }.pieceNames = d.pieceNames.insert pid := by
  refine ext_mem fun k => ?_
  rw [mem_pieceNames, Std.ExtTreeMap.mem_insert, Std.ExtTreeSet.mem_insert, mem_pieceNames]

theorem pieceNames_erase :
    { d with pieces := d.pieces.erase pid }.pieceNames = d.pieceNames.erase pid := by
  refine ext_mem fun k => ?_
  rw [mem_pieceNames, Std.ExtTreeMap.mem_erase, Std.ExtTreeSet.mem_erase, mem_pieceNames]

end CidDir

namespace Disk

variable {disk : Disk} {cid : B32}

theorem dir_modify (f : CidDir → CidDir) (c : B32) :
    (disk.modify cid f).dir c = if cid = c then f (disk.dir c) else disk.dir c := by
  rw [dir, modify, BTreeMap.getElem?_insert]
  split
  · next h =>
    rw [h]
    rfl
  · rfl

theorem dir_removeDir (c : B32) :
    (disk.apply (.removeDir cid)).dir c = if cid = c then .empty else disk.dir c := by
  rw [dir, apply, getElem?_erase]
  by_cases h : cid = c
  · simp [h]
  · simp [h, dir]

end Disk

namespace NodeStore

variable {store : NodeStore} {cid : B32}

theorem getElem?_reload (disk : Disk) (now : U64) (c : B32) :
    (reload disk now).index[c]? = (disk.dir c).entry now := by
  rw [reload, getElem?_filterMap', Disk.dir]
  cases disk.dirs[c]? <;> rfl

variable (f : IndexEntry → IndexEntry) (c : B32)

theorem getElem?_modifyEntry :
    (store.modifyEntry cid f).index[c]? = if cid = c then store.index[c]?.map f
      else store.index[c]? := by
  rw [modifyEntry]
  split
  · next e he =>
    rw [BTreeMap.getElem?_insert]
    split
    · next h => rw [← h, he, Option.map_some]
    · rfl
  · next hn =>
    split
    · next h => rw [← h, hn, Option.map_none]
    · rfl

@[simp] theorem disk_modifyEntry : (store.modifyEntry cid f).disk = store.disk := by
  rw [modifyEntry]
  split <;> rfl

@[simp] theorem tombstones_modifyEntry :
    (store.modifyEntry cid f).tombstones = store.tombstones := by
  rw [modifyEntry]
  split <;> rfl

@[simp] theorem poisoned_modifyEntry : (store.modifyEntry cid f).poisoned = store.poisoned := by
  rw [modifyEntry]
  split <;> rfl

theorem getElem?_drop : (store.drop cid).index[c]? = if cid = c then none else store.index[c]? := by
  rw [drop, apply]
  dsimp only
  rw [getElem?_erase]
  by_cases h : cid = c <;> simp [h]

theorem dir_drop : (store.drop cid).disk.dir c = if cid = c then .empty else store.disk.dir c :=
  Disk.dir_removeDir c

end NodeStore

end Zephcraft.Store
