import Zephcraft.Foundations.OrderedMap
import Zephcraft.Foundations.Reader
import Zephcraft.Sql.Store

/-!
# Sql/Pager — a database file as objects

A page is an object, and a radix tree of fanout 256 over the page numbers leads to it; the root of
the tree, in a small header, is the database. The pager reads pages through a flat map and buffers
what is written.
-/

namespace Zephcraft.Sql

open List Std.ExtTreeSet Reader BTreeMap

def pageSize : ℕ := 16 * 1024

/-- The children of a tree node: one for each byte. -/
abbrev fanout : ℕ := 2 ^ 8

/-- What is wrong with an index. -/
inductive Corruption where
  | missingNode (cid : B32)
  | indexDecrypt
  | malformed
deriving DecidableEq

/-- How the pager fails. -/
inductive SqlError where
  | rootNotFound (root : B32)
  | corruptIndex (why : Corruption)
deriving DecidableEq

/-! ## Index nodes and the root header -/

/-- A tree node: content ids by child index. -/
abbrev NodeMap := BTreeMap Byte B32

def nodeOf (child : Byte → Option B32) : NodeMap :=
  (finRange fanout).foldl (fun children i => match child i with
      | some cid => children.insert i cid
      | none => children) ∅

def encodeNode (node : NodeMap) : Bytes :=
  varint node.toList.length ++ node.toList.flatMap fun e => [e.1] ++ e.2.toBytes

def readNode : Reader NodeMap := do
  let n ← uint 64
  let rows ← times (do
    let i ← byte
    let cid ← bytes32
    pure (i, cid)) n
  pure (Std.ExtTreeMap.ofList rows compare)

def decodeNode (bytes : Bytes) : Except SqlError NodeMap :=
  match readNode.run bytes with
  | some (node, _) => .ok node
  | none => .error (.corruptIndex .malformed)

/-- A wrapped key, which is a vector of bytes; empty for a public database. -/
structure WrappedDek where
  bytes : Bytes
  fits : bytes.length < 2 ^ 64
deriving DecidableEq

/-- The root object: the size of the file, the depth of the tree, its top node, and the wrapped key
of a private database. -/
structure RootIndex where
  pageCount : ℕ
  depth : ℕ
  rootCid : B32
  wrappedDek : WrappedDek

def encodeRoot (ri : RootIndex) : Bytes :=
  varint ri.pageCount
    ++ ([Word.truncate ri.depth] ++ (ri.rootCid.toBytes ++ lengthPrefixed ri.wrappedDek.bytes))

def readRoot : Reader RootIndex := do
  let pageCount ← uint 32
  let depth ← byte
  let rootCid ← bytes32
  let wrappedDek ← framed
  if h : wrappedDek.length < 2 ^ 64 then pure ⟨pageCount, depth.val, rootCid, ⟨wrappedDek, h⟩⟩
    else failure

def decodeRoot (bytes : Bytes) : Except SqlError RootIndex :=
  match readRoot.run bytes with
  | some (ri, _) => .ok ri
  | none => .error (.corruptIndex .malformed)

/-! ### Round trips -/

theorem getElem?_foldl_children (child : Byte → Option B32) (l : List Byte) (node : NodeMap)
    (i : Byte) :
    (l.foldl (fun children i => match child i with
      | some cid => children.insert i cid
      | none => children) node)[i]? = if i ∈ l then (child i).or node[i]? else node[i]? := by
  induction l generalizing node with
  | nil => simp
  | cons j l ih =>
    rw [foldl_cons, ih]
    by_cases hj : j = i
    · subst hj
      cases child j <;> simp
    · cases child j <;> simp [getElem?_insert_of_ne, hj, Ne.symm hj]

@[simp] theorem getElem?_nodeOf (child : Byte → Option B32) (i : Byte) :
    (nodeOf child)[i]? = child i := by
  rw [nodeOf, getElem?_foldl_children, if_pos (mem_finRange i)]
  simp

theorem isEmpty_nodeOf {child : Byte → Option B32} :
    (nodeOf child).isEmpty ↔ ∀ i, child i = none := by
  rw [Std.ExtTreeMap.isEmpty_iff]
  constructor
  · intro h i
    rw [← getElem?_nodeOf child i, h]
    simp
  · intro h
    refine Std.ExtTreeMap.ext_getElem? fun i => ?_
    simp [h i]

theorem length_toList_lt (node : NodeMap) : node.toList.length < 2 ^ 64 := by
  have hc := (nodup_keys_toList node).length_le_card
  rw [length_map, Fintype.card_fin] at hc
  omega

theorem reads_readNode (node : NodeMap) : Reads readNode (encodeNode node) node := by
  have hrow : ∀ e : Byte × B32, Reads (do
      let i ← byte
      let cid ← bytes32
      pure (i, cid)) ([e.1] ++ e.2.toBytes) e := fun e => by
    rw [← append_nil e.2.toBytes]
    exact (reads_byte e.1).bind ((reads_bytes32 e.2).bind (.pure e))
  rw [encodeNode, ← append_nil (List.flatMap _ _)]
  refine (reads_uint (by norm_num) (length_toList_lt node)).bind
    ((reads_times fun e _ => hrow e).bind ?_)
  rw [ofList_toList]
  exact .pure node

@[simp] theorem decodeNode_encodeNode (node : NodeMap) :
    decodeNode (encodeNode node) = .ok node := by
  have h := reads_readNode node []
  rw [append_nil] at h
  rw [decodeNode, h]

theorem reads_readRoot {ri : RootIndex} (hc : ri.pageCount < 2 ^ 32) (hd : ri.depth < 2 ^ 8) :
    Reads readRoot (encodeRoot ri) ri := by
  have hval : (Word.truncate ri.depth : Byte).val = ri.depth := Nat.mod_eq_of_lt hd
  rw [encodeRoot, ← append_nil (lengthPrefixed _)]
  refine (reads_uint (by norm_num) hc).bind ((reads_byte _).bind
    ((reads_bytes32 ri.rootCid).bind ((reads_framed ri.wrappedDek.fits).bind ?_)))
  rw [dif_pos ri.wrappedDek.fits, hval]
  exact .pure ri

theorem decodeRoot_encodeRoot {ri : RootIndex} (hc : ri.pageCount < 2 ^ 32)
    (hd : ri.depth < 2 ^ 8) :
    decodeRoot (encodeRoot ri) = .ok ri := by
  have h := reads_readRoot hc hd []
  rw [append_nil] at h
  rw [decodeRoot, h]

/-! ### Depth and padding -/

/-- The loop of `depthFor`: a level for each factor of the fanout. -/
def depthLoop (pageCount : ℕ) : ℕ → ℕ → ℕ → ℕ
  | 0, d, _ => d
  | fuel + 1, d, cap => if cap < pageCount then depthLoop pageCount fuel (d + 1) (cap * fanout)
    else d

/-- The depth that a number of pages needs. -/
def depthFor (pageCount : ℕ) : ℕ := if pageCount = 0 then 0 else depthLoop pageCount 32 1 fanout

theorem depthLoop_spec {pageCount : ℕ} (hc : pageCount < 2 ^ 32) {fuel d : ℕ} (hd : 1 ≤ d)
    (hd' : d ≤ 4) (hf : 4 ≤ d + fuel) : 0 < depthLoop pageCount fuel d (fanout ^ d)
      ∧ depthLoop pageCount fuel d (fanout ^ d) ≤ 4
      ∧ pageCount ≤ fanout ^ depthLoop pageCount fuel d (fanout ^ d) := by
  have hcap : pageCount ≤ fanout ^ 4 := hc.le.trans (by norm_num)
  induction fuel generalizing d with
  | zero =>
    obtain rfl : d = 4 := by omega
    exact ⟨by norm_num [depthLoop], le_rfl, hcap⟩
  | succ fuel ih =>
    rw [depthLoop]
    split
    · have hlt : d < 4 := (Nat.pow_lt_pow_iff_right (by norm_num)).mp (lt_of_lt_of_le ‹_› hcap)
      rw [← pow_succ]
      exact ih (by omega) (by omega) (by omega)
    · exact ⟨hd, hd', not_lt.mp ‹_›⟩

theorem depthFor_spec {pageCount : ℕ} (hc : pageCount < 2 ^ 32) :
    depthFor pageCount ≤ 4 ∧ pageCount ≤ fanout ^ depthFor pageCount
      ∧ (depthFor pageCount = 0 ↔ pageCount = 0) := by
  unfold depthFor
  split
  · rename_i hz
    exact ⟨by norm_num, by simp [hz], by simp [hz]⟩
  · rename_i hpos
    have hs := @depthLoop_spec pageCount hc 32 1 le_rfl (by norm_num) (by norm_num)
    rw [pow_one] at hs
    exact ⟨hs.2.1, hs.2.2, by simp [hpos, hs.1.ne']⟩

def pad (data : Bytes) : Bytes := data.take pageSize ++ List.replicate (pageSize - data.length) 0

/-! ## The pager -/

/-- What a file's index is in memory: its pages, and the content ids of its nodes by level and
number. -/
structure Loaded where
  pages : BTreeMap ℕ B32
  nodeCids : ℕ × ℕ → Option B32

/-- The content id at a height: of a page at the bottom, and of a node above. -/
def Loaded.slot (loaded : Loaded) : ℕ → ℕ → Option B32
  | 0, key => loaded.pages[key]?
  | level + 1, key => loaded.nodeCids (level, key)

def Loaded.empty : Loaded := ⟨∅, fun _ => none⟩

/-- A database file: the flat page map, the buffered writes, the pages whose index entry changed,
the content ids of the committed nodes by level and number, and the header's fields. -/
structure Pager where
  store : ObjectStore
  pages : BTreeMap ℕ B32
  dirty : BTreeMap ℕ Bytes
  dirtyIndex : BTreeSet ℕ
  nodeCids : ℕ × ℕ → Option B32
  pageCount : ℕ
  depth : ℕ
  wrappedDek : WrappedDek

namespace Pager

section Operations

variable (M : Medium)

def create (store : ObjectStore) : Pager where
  store := store
  pages := ∅
  dirty := ∅
  dirtyIndex := ∅
  nodeCids _ := none
  pageCount := 0
  depth := 0
  wrappedDek := ⟨[], by norm_num⟩

/-- Set the wrapped key that a commit writes into the header. -/
def setWrappedDek (p : Pager) (wrapped : WrappedDek) : Pager := { p with wrappedDek := wrapped }

/-- Read a page: from the buffer, from the store, or as zeros. What does not open is read as it
is. -/
def readPage (p : Pager) (n : ℕ) : Bytes :=
  match p.dirty[n]? with
  | some data => pad data
  | none =>
    match (p.pages[n]?).bind (p.store.get M) with
    | some data => pad ((M.openIndex data).getD data)
    | none => List.replicate pageSize 0

/-- Buffer a page. The number of pages is a `u32`, and one more is an addition that may overflow. -/
def writePage (p : Pager) (n : ℕ) (data : Bytes) : Except Panic Pager :=
  if 2 ^ 32 ≤ n + 1 then .error .overflow
  else .ok
    { p with
      dirty := p.dirty.insert n data
      dirtyIndex := p.dirtyIndex.insert n
      pageCount := if p.pageCount < n + 1 then n + 1 else p.pageCount }

def setPageCount (p : Pager) (pages : ℕ) : Pager :=
  let drop := p.pages.keys.filter (pages ≤ ·)
  { p with
    pages := drop.foldl (fun m n => m.erase n) p.pages
    dirtyIndex := drop.foldl (fun s n => s.insert n) p.dirtyIndex
    dirty := p.dirty.filter fun n _ => n < pages
    pageCount := pages }

/-- The loop of `readAt`, one page in each round. -/
def readLoop (p : Pager) : ℕ → ℕ → ℕ → Except Panic Bytes
  | 0, _, _ => .ok []
  | fuel + 1, len, pos =>
    if len = 0 then .ok []
    else if 2 ^ 64 ≤ pos then .error .overflow
    else do
      let within := pos % pageSize
      let n := min (pageSize - within) len
      let rest ← p.readLoop fuel (len - n) (pos + n)
      pure (((p.readPage M (pos / pageSize % 2 ^ 32)).drop within).take n ++ rest)

/-- Read `len` bytes at an offset. -/
def readAt (p : Pager) (len : ℕ) (offset : U64) : Except Panic Bytes :=
  p.readLoop M len len offset.val

/-- The loop of `writeAt`, one page in each round. -/
def writeLoop (p : Pager) : ℕ → Bytes → ℕ → Except Panic Pager
  | 0, _, _ => .ok p
  | fuel + 1, buf, pos =>
    if buf = [] then .ok p
    else if 2 ^ 64 ≤ pos then .error .overflow
    else do
      let page := pos / pageSize % 2 ^ 32
      let within := pos % pageSize
      let n := min (pageSize - within) buf.length
      let pdata := p.readPage M page
      let p ← p.writePage page (pdata.take within ++ buf.take n ++ pdata.drop (within + n))
      p.writeLoop fuel (buf.drop n) (pos + n)

def writeAt (p : Pager) (buf : Bytes) (offset : U64) : Except Panic Pager :=
  p.writeLoop M buf.length buf offset.val

def flushPage (p : Pager) (n : ℕ) (data : Bytes) : Pager :=
  let (cid, store) := p.store.put M (M.sealIndex data)
  { p with store := store, pages := p.pages.insert n cid }

def flush (p : Pager) : Pager :=
  p.dirty.toList.foldl (fun p e => p.flushPage M e.1 e.2) { p with dirty := ∅ }

/-- The content id of a child: a page below the lowest nodes, a node below the others. -/
def child (p : Pager) (level key : ℕ) : Option B32 := Loaded.slot ⟨p.pages, p.nodeCids⟩ level key

def rebuildNode (level : ℕ) (p : Pager) (nk : ℕ) : Pager :=
  let children := nodeOf fun i => p.child level ((nk * fanout + i) % 2 ^ 32)
  if children.isEmpty then { p with nodeCids := Function.update p.nodeCids (level, nk) none }
  else
    let (cid, store) := p.store.put M (M.sealIndex (encodeNode children))
    { p with store := store, nodeCids := Function.update p.nodeCids (level, nk) (some cid) }

/-- Make the nodes of a level again, and then those above them. -/
def rebuildLevels (p : Pager) (dirtyKeys : BTreeSet ℕ) : List ℕ → Pager
  | [] => p
  | level :: levels =>
    rebuildLevels (dirtyKeys.toList.foldl (rebuildNode M level) p)
      (ofList (dirtyKeys.toList.map (· / fanout)) compare) levels

/-- Make the nodes above the changed pages again. -/
def rebuild (p : Pager) (changed : BTreeSet ℕ) : Pager :=
  if p.depth = 0 then { p with nodeCids := fun _ => none }
  else p.rebuildLevels M (ofList (changed.toList.map (· / fanout)) compare) (List.range p.depth)

/-- Which pages changed since the last commit. Where the depth changes, all of them did: the nodes
of the old tree are of no use. -/
def restructure (p : Pager) : BTreeSet ℕ × Pager :=
  let newDepth := depthFor p.pageCount
  if newDepth ≠ p.depth then
    (ofList p.pages.keys compare,
      { p with depth := newDepth, nodeCids := fun _ => none, dirtyIndex := ∅ })
  else (p.dirtyIndex, { p with dirtyIndex := ∅ })

def rootIndex (p : Pager) : RootIndex where
  pageCount := p.pageCount
  depth := p.depth
  rootCid := if p.depth = 0 then 0 else (p.nodeCids (p.depth - 1, 0)).getD 0
  wrappedDek := p.wrappedDek

/-- Commit: the new root, and the pager after it. -/
def commit (p : Pager) : B32 × Pager :=
  let (changed, p) := (p.flush M).restructure
  let p := p.rebuild M changed
  let (root, store) := p.store.put M (encodeRoot p.rootIndex)
  (root, { p with store := store })

def fetchNode (store : ObjectStore) (cid : B32) : Except SqlError NodeMap :=
  match store.get M cid with
  | none => .error (.corruptIndex (.missingNode cid))
  | some stored =>
    match M.openIndex stored with
    | none => .error (.corruptIndex .indexDecrypt)
    | some plain => decodeNode plain

/-- Add the pages and the nodes below a node. -/
def loadSubtree (store : ObjectStore) : ℕ → ℕ → B32 → Loaded → Except SqlError Loaded
  | level, nodeKey, nodeCid, loaded => do
    let node ← fetchNode M store nodeCid
    node.toList.foldlM (fun loaded e =>
      let childKey := (nodeKey * fanout + e.1.val) % 2 ^ 32
      match level with
      | 0 => pure { loaded with pages := loaded.pages.insert childKey e.2 }
      | level + 1 => loadSubtree store level childKey e.2 loaded)
      { loaded with nodeCids := Function.update loaded.nodeCids (level, nodeKey) (some nodeCid) }

def fetchRoot (store : ObjectStore) (root : B32) : Except SqlError RootIndex :=
  match store.get M root with
  | none => .error (.rootNotFound root)
  | some bytes => decodeRoot bytes

def openRoot (store : ObjectStore) (root : B32) : Except SqlError Pager := do
  let ri ← fetchRoot M store root
  let loaded ← if 0 < ri.depth then loadSubtree M store (ri.depth - 1) 0 ri.rootCid .empty
    else pure .empty
  pure
    { store := store
      pages := loaded.pages
      dirty := ∅
      dirtyIndex := ∅
      nodeCids := loaded.nodeCids
      pageCount := ri.pageCount
      depth := ri.depth
      wrappedDek := ri.wrappedDek }

/-- Visit a node of the frontier: its content id is put out, with those of the pages below it; the
nodes below it are visited next. -/
def visitNode (store : ObjectStore) (visited : List B32 × List (ℕ × B32)) (entry : ℕ × B32) :
    Except SqlError (List B32 × List (ℕ × B32)) := do
  let node ← fetchNode M store entry.2
  let out := visited.1 ++ [entry.2]
  match entry.1 with
  | 0 => pure (out ++ node.toList.map Prod.snd, visited.2)
  | level + 1 => pure (out, visited.2 ++ node.toList.map fun e => (level, e.2))

/-- The loop of `reachable`, one level in each round. -/
def reachLoop (store : ObjectStore) : ℕ → List B32 → List (ℕ × B32) → Except SqlError (List B32)
  | 0, out, _ => pure out
  | fuel + 1, out, frontier =>
    if frontier = [] then pure out
    else do
      let visited ← frontier.foldlM (visitNode M store) (out, [])
      reachLoop store fuel visited.1 visited.2

/-- Every content id reachable from a root: the root, the nodes and the pages. -/
def reachable (store : ObjectStore) (root : B32) : Except SqlError (List B32) := do
  let ri ← fetchRoot M store root
  if ri.depth = 0 then pure [root]
  else reachLoop M store (ri.depth + 1) [root] [(ri.depth - 1, ri.rootCid)]

end Operations

end Pager

end Zephcraft.Sql
