import Zephcraft.Sql.Commit

/-!
# Sql/PageMap — what a database file is

A file is a page for some of the page numbers, a number of pages and a wrapped key. A write puts a
page in, a truncation takes pages out, and a commit names the file by the root of the tree that is
built from its pages.
-/

namespace Zephcraft.Sql

open Option

@[ext] structure PageMap where
  content : ℕ → Option Bytes
  pageCount : ℕ
  wrappedDek : WrappedDek

namespace PageMap

variable (M : Medium) (m : PageMap)

def leaf (n : ℕ) : Option B32 := (m.content n).map M.pageCid

/-- The header of the tree that is built from the pages. -/
def header : RootIndex where
  pageCount := m.pageCount
  depth := depthFor m.pageCount
  rootCid :=
    if depthFor m.pageCount = 0 then 0 else (M.tree (m.leaf M) (depthFor m.pageCount) 0).getD 0
  wrappedDek := m.wrappedDek

/-- **The root of a file**: the content id of that header. -/
def root : B32 := M.hash (encodeRoot (m.header M))

def put (n : ℕ) (data : Bytes) : PageMap :=
  ⟨Function.update m.content n (some data), max m.pageCount (n + 1), m.wrappedDek⟩

/-- The pages of a file are below its size, which is a `u32`. -/
structure Bounded : Prop where
  content : ∀ n data, m.content n = some data → n < m.pageCount
  count : m.pageCount < 2 ^ 32

/-- There is a page in the index, unless the file is empty. -/
def Indexed : Prop := m.pageCount = 0 ∨ ∃ n, m.content n ≠ none

/-- The objects of a file are stored: its pages, its nodes, its header. -/
structure StoredIn (store : ObjectStore) : Prop where
  pages : ∀ n data, m.content n = some data → M.sealIndex data ∈ store.objects
  nodes : Pager.NodesStored M (m.leaf M) (depthFor m.pageCount) store
  root : encodeRoot (m.header M) ∈ store.objects

variable {M m} {store store' : ObjectStore}

theorem StoredIn.mono (h : m.StoredIn M store) (hsub : store.objects ⊆ store'.objects) :
    m.StoredIn M store' :=
  ⟨fun n data hn => hsub (h.pages n data hn), fun level key hl hne =>
    hsub (h.nodes level key hl hne), hsub h.root⟩

theorem put_put (n : ℕ) (data data' : Bytes) : (m.put n data).put n data' = m.put n data' := by
  simp [put]

theorem leaf_eq_some {n : ℕ} {cid : B32} :
    m.leaf M n = some cid ↔ ∃ data, m.content n = some data ∧ M.pageCid data = cid :=
  map_eq_some_iff

theorem Bounded.leaf_lt (h : m.Bounded) {n : ℕ} (hn : m.leaf M n ≠ none) : n < m.pageCount := by
  obtain ⟨cid, hcid⟩ := ne_none_iff_exists'.mp hn
  obtain ⟨data, hd, -⟩ := leaf_eq_some.mp hcid
  exact h.content n data hd

theorem Bounded.top (h : m.Bounded) {l k : ℕ} (hl : l ≤ depthFor m.pageCount) {cid : B32}
    (hcid : M.tree (m.leaf M) l k = some cid) : k / fanout ^ (depthFor m.pageCount - l) = 0 := by
  obtain ⟨n, rfl, hn⟩ := Medium.exists_leaf hcid
  rw [Nat.div_div_eq_div_mul, ← pow_add, Nat.add_sub_cancel' hl, Nat.div_eq_zero_iff]
  exact .inr ((h.leaf_lt hn).trans_le (depthFor_spec h.count).2.1)

theorem Bounded.top_eq_none_iff (h : m.Bounded) :
    M.tree (m.leaf M) (depthFor m.pageCount) 0 = none ↔ ∀ n, m.content n = none := by
  rw [Medium.tree_eq_none_iff]
  constructor
  · intro hall n
    by_contra hne
    have hl : m.leaf M n ≠ none := by simpa [leaf] using hne
    refine hl (hall n (Nat.div_eq_of_lt ?_))
    exact (h.leaf_lt hl).trans_le (depthFor_spec h.count).2.1
  · intro hall n _
    rw [leaf, hall n, map_none]

theorem Bounded.fetchRoot (h : m.Bounded) (hf : store.Faithful M)
    (hr : encodeRoot (m.header M) ∈ store.objects) :
    Pager.fetchRoot M store (m.root M) = .ok (m.header M) := by
  rw [Pager.fetchRoot, root, hf.get_hash hr]
  exact decodeRoot_encodeRoot h.count ((depthFor_spec h.count).1.trans_lt (by norm_num))

theorem Bounded.rootCid (h : m.Bounded) (hi : m.Indexed) (hpos : depthFor m.pageCount ≠ 0) :
    M.tree (m.leaf M) (depthFor m.pageCount) 0 = some (m.header M).rootCid := by
  have hne : M.tree (m.leaf M) (depthFor m.pageCount) 0 ≠ none := by
    rw [Ne, h.top_eq_none_iff]
    rcases hi with hz | ⟨n, hn⟩
    · exact absurd ((depthFor_spec h.count).2.2.mpr hz) hpos
    · exact fun hall => hn (hall n)
  obtain ⟨cid, hcid⟩ := ne_none_iff_exists'.mp hne
  rw [header, if_neg hpos, hcid, getD_some]

theorem Bounded.rootCid_of_not_indexed (h : m.Bounded) (hi : ¬ m.Indexed) :
    depthFor m.pageCount ≠ 0 ∧ (m.header M).rootCid = 0 := by
  unfold Indexed at hi
  push Not at hi
  have hpos : depthFor m.pageCount ≠ 0 := fun hz => hi.1 ((depthFor_spec h.count).2.2.mp hz)
  rw [header, if_neg hpos, h.top_eq_none_iff.mpr hi.2]
  exact ⟨hpos, rfl⟩

end PageMap

namespace Pager

variable {M : Medium} {p p' : Pager}

variable (M) in
/-- The bytes of a page: what is buffered, or else what is stored. -/
def content (p : Pager) (n : ℕ) : Option Bytes :=
  (p.dirty[n]?).or ((p.pages[n]?).bind fun cid => (p.store.get M cid).bind M.openIndex)

variable (M) in
def file (p : Pager) : PageMap := ⟨p.content M, p.pageCount, p.wrappedDek⟩

variable {n : ℕ} {data : Bytes}

theorem content_of_stored (hf : p.store.Faithful M) (hd : p.dirty[n]? = none)
    (hcid : p.pages[n]? = some (M.pageCid data)) (hmem : M.sealIndex data ∈ p.store.objects) :
    p.content M n = some data := by
  rw [content, hd, hcid, none_or, bind_some, Medium.pageCid, hf.get_hash hmem,
    bind_some, M.openIndex_sealIndex]

theorem Coherent.content_of_pages (h : p.Coherent M) (hf : p.store.Faithful M) {cid : B32}
    (hd : p.dirty[n]? = none) (hcid : p.pages[n]? = some cid) :
    ∃ data, p.content M n = some data ∧ M.pageCid data = cid
      ∧ M.sealIndex data ∈ p.store.objects := by
  obtain ⟨data, rfl, hmem⟩ := h.stored n cid hcid
  exact ⟨data, content_of_stored hf hd hcid hmem, rfl, hmem⟩

theorem content_of_none (hd : p.dirty[n]? = none) (hp : p.pages[n]? = none) :
    p.content M n = none := by
  rw [content, hd, hp]
  rfl

theorem Coherent.stored_of_content (h : p.Coherent M) (hf : p.store.Faithful M)
    (hd : p.dirty[n]? = none) (hn : p.content M n = some data) :
    p.pages[n]? = some (M.pageCid data) ∧ M.sealIndex data ∈ p.store.objects := by
  cases hcid : p.pages[n]? with
  | none => simp [content_of_none hd hcid] at hn
  | some cid =>
    obtain ⟨data', hc, rfl, hmem⟩ := h.content_of_pages hf hd hcid
    obtain rfl : data' = data := Option.some.inj (hc.symm.trans hn)
    exact ⟨rfl, hmem⟩

theorem Coherent.bounded_file (h : p.Coherent M) : (p.file M).Bounded := by
  refine ⟨fun n data hn => ?_, h.count⟩
  by_contra hle
  refine absurd (content_of_none ?_ ?_) (by rw [show p.content M n = some data from hn]; simp)
  · refine eq_none_iff_forall_ne_some.mpr fun d hd => hle (h.buffered n d hd).2
  · refine eq_none_iff_forall_ne_some.mpr fun cid hcid => hle (h.bounded n cid hcid)

/-- There is a page in the index or in the buffer, unless the file is empty. -/
def Indexed (p : Pager) : Prop :=
  p.pageCount = 0 ∨ p.pages.isEmpty = false ∨ p.dirty.isEmpty = false

instance (p : Pager) : Decidable p.Indexed :=
  inferInstanceAs (Decidable (p.pageCount = 0 ∨ p.pages.isEmpty = false ∨ p.dirty.isEmpty = false))

theorem isEmpty_eq_false_iff {α : Type} (m : BTreeMap ℕ α) :
    m.isEmpty = false ↔ ∃ n : ℕ, m[n]? ≠ none := by
  rw [← Bool.not_eq_true, Std.ExtTreeMap.isEmpty_iff, Std.ExtTreeMap.ext_getElem?_iff]
  simp

theorem Coherent.indexed_file (h : p.Coherent M) (hf : p.store.Faithful M) :
    (p.file M).Indexed ↔ p.Indexed := by
  have hs : ∀ n, p.content M n ≠ none ↔ p.pages[n]? ≠ none ∨ p.dirty[n]? ≠ none := by
    intro n
    cases hd : p.dirty[n]? with
    | some data => simp [content, hd]
    | none =>
      cases hp : p.pages[n]? with
      | none => simp [content_of_none hd hp]
      | some cid =>
        obtain ⟨data, hc, -, -⟩ := h.content_of_pages hf hd hp
        simp [hc]
  rw [Indexed, isEmpty_eq_false_iff, isEmpty_eq_false_iff, ← exists_or]
  exact or_congr_right (exists_congr hs)

/-- **A page that is read** is the file's page, and zeros where the file has none. -/
theorem Coherent.readPage (h : p.Coherent M) (hf : p.store.Faithful M) (n : ℕ) :
    p.readPage M n = pad ((p.content M n).getD []) := by
  rw [Pager.readPage]
  cases hd : p.dirty[n]? with
  | some data => simp [content, hd]
  | none =>
    cases hp : p.pages[n]? with
    | none =>
      rw [content_of_none hd hp]
      simp [pad]
    | some cid =>
      obtain ⟨data, hc, rfl, hmem⟩ := h.content_of_pages hf hd hp
      rw [hc, bind_some, Medium.pageCid, hf.get_hash hmem]
      simp

theorem file_writePage (hp : p.writePage n data = .ok p') : p'.file M = (p.file M).put n data := by
  obtain ⟨-, rfl⟩ := writePage_eq_ok.mp hp
  refine PageMap.ext (funext fun k => ?_) ?_ rfl
  · dsimp only [file, PageMap.put]
    by_cases hk : k = n
    · subst hk
      simp [content]
    · simp [content, Function.update_of_ne hk, BTreeMap.getElem?_insert_of_ne p.dirty (Ne.symm hk)]
  · dsimp only [file, PageMap.put]
    split <;> omega

theorem content_setPageCount (p : Pager) (count n : ℕ) :
    (p.setPageCount count).content M n = if n < count then p.content M n else none := by
  rw [content, getElem?_dirty_setPageCount, getElem?_pages_setPageCount]
  split <;> rfl

/-! ## Commit -/

theorem Coherent.leaf_file (h : p.Coherent M) (hf : p.store.Faithful M) (hd : p.dirty = ∅) :
    (p.file M).leaf M = p.leaf := by
  have hn : ∀ n : ℕ, p.dirty[n]? = none := fun n => by simp [hd]
  funext n
  change (p.content M n).map M.pageCid = p.pages[n]?
  cases hp : p.pages[n]? with
  | none => rw [content_of_none (hn n) hp, map_none]
  | some cid =>
    obtain ⟨data, hc, rfl, -⟩ := h.content_of_pages hf (hn n) hp
    rw [hc, map_some]

variable (M) in
/-- The pager of a commit, before it stores the header. -/
def rebuilt (p : Pager) : Pager := (p.flush M).restructure.2.rebuild M (p.flush M).restructure.1

theorem commit_eq (p : Pager) : p.commit M = (M.hash (encodeRoot (p.rebuilt M).rootIndex),
    { p.rebuilt M with store := ⟨(p.rebuilt M).store.objects
      ++ [encodeRoot (p.rebuilt M).rootIndex]⟩ }) := rfl

theorem restructure_eq (p : Pager) : p.restructure.2 = { p with
    depth := p.restructure.2.depth, nodeCids := p.restructure.2.nodeCids, dirtyIndex := ∅ } := by
  unfold restructure
  dsimp only
  split <;> rfl

/-- The rebuilt index: the flushed pages, nothing buffered or dirty, and every node up to date. -/
structure Rebuilt (M : Medium) (p s : Pager) : Prop where
  pages : s.pages = (p.flush M).pages
  dirty : s.dirty = ∅
  dirtyIndex : s.dirtyIndex = ∅
  pageCount : s.pageCount = p.pageCount
  depth : s.depth = depthFor p.pageCount
  wrappedDek : s.wrappedDek = p.wrappedDek
  grows : (p.flush M).store.objects ⊆ s.store.objects
  settled : ∀ level < depthFor p.pageCount, ∀ key, s.Settled M level key

theorem Coherent.rebuilt (h : p.Coherent M) : Rebuilt M p (p.rebuilt M) := by
  obtain ⟨hoff, hD, hd⟩ := h.flush.restructure
  obtain ⟨hre, hs⟩ := rebuild_spec hD hoff
  have hc : (p.flush M).pageCount = p.pageCount := by rw [flush_eq]
  rw [hc] at hd
  rw [Pager.rebuilt]
  constructor
  · rw [hre.same, restructure_eq]
  · rw [hre.same, restructure_eq, flush_eq]
  · rw [hre.same, restructure_eq]
  · rw [hre.same, restructure_eq, flush_eq]
  · rw [hre.depth, hd]
  · rw [hre.same, restructure_eq, flush_eq]
  · have hst : (p.flush M).restructure.2.store = (p.flush M).store := by rw [restructure_eq]
    rw [← hst]
    exact hre.store
  · exact fun level hl => hs level (hd ▸ hl)

structure Committed (M : Medium) (p : Pager) (root : B32) (p' : Pager) : Prop where
  coherent : p'.Coherent M
  file : p'.file M = p.file M
  root : root = (p.file M).root M
  stored : (p.file M).StoredIn M p'.store
  grows : p.store.objects ⊆ p'.store.objects

theorem flush_stored (hn : p.dirty[n]? = some data) :
    M.sealIndex data ∈ (p.flush M).store.objects := by
  rw [flush_eq]
  refine List.mem_append_right _ (List.mem_map.mpr ⟨(n, data), ?_, rfl⟩)
  exact Std.ExtTreeMap.mem_toList_iff_getElem?_eq_some.mpr hn

theorem flush_grows (p : Pager) : p.store.objects ⊆ (p.flush M).store.objects := by
  rw [flush_eq]
  exact List.subset_append_left _ _

theorem Coherent.content_committed (h : p.Coherent M) (hf : p'.store.Faithful M)
    (hg : (p.flush M).store.objects ⊆ p'.store.objects) (hdi : p'.dirty = ∅)
    (hp : p'.pages = (p.flush M).pages) : p'.content M = p.content M := by
  funext n
  have hn : p'.dirty[n]? = none := by simp [hdi]
  have hfl : p'.pages[n]? = ((p.dirty[n]?).map M.pageCid).or p.pages[n]? := by
    rw [hp, getElem?_pages_flush]
  cases hd : p.dirty[n]? with
  | some data =>
    rw [hd, map_some, some_or] at hfl
    rw [content_of_stored hf hn hfl (hg (flush_stored hd)), content, hd, some_or]
  | none =>
    rw [hd, map_none, none_or] at hfl
    cases hcid : p.pages[n]? with
    | none => rw [content_of_none hn (hfl.trans hcid), content_of_none hd hcid]
    | some cid =>
      have hg' := List.Subset.trans (flush_grows p) hg
      obtain ⟨data, hc, rfl, hmem⟩ := h.content_of_pages (hf.mono hg') hd hcid
      rw [content_of_stored hf hn (hfl.trans hcid) (hg' hmem), hc]

theorem Rebuilt.coherent {s : Pager} (hr : Rebuilt M p s) (h : p.Coherent M) {store : ObjectStore}
    (hg : s.store.objects ⊆ store.objects) : Coherent M { s with store := store } := by
  have hf := h.flush
  have hc : (p.flush M).pageCount = s.pageCount := by rw [hr.pageCount, flush_eq]
  refine ⟨fun n cid hn => ?_, fun level hl key _ => ?_, fun n data hn => ?_, fun n cid hn => ?_,
    fun n hn => ?_, ?_⟩
  · obtain ⟨data, hcid, hmem⟩ := hf.stored n cid (by rwa [← hr.pages])
    exact ⟨data, hcid, hg (hr.grows hmem)⟩
  · have hs := hr.settled level (by rwa [← hr.depth]) key
    exact ⟨hs.cid, fun hne => hg (hs.stored hne)⟩
  · simp [hr.dirty] at hn
  · dsimp only
    rw [← hc]
    exact hf.bounded n cid (by rwa [← hr.pages])
  · simp [hr.dirtyIndex] at hn
  · dsimp only
    rw [hr.pageCount]
    exact h.count

theorem Rebuilt.rootIndex {s : Pager} {m : PageMap} (hr : Rebuilt M p s) (hl : m.leaf M = s.leaf)
    (hc : m.pageCount = p.pageCount) (hdek : m.wrappedDek = p.wrappedDek) :
    s.rootIndex = m.header M := by
  rw [Pager.rootIndex, PageMap.header, hl, hc, hdek, hr.pageCount, hr.depth, hr.wrappedDek]
  congr 1
  split
  · rfl
  · rename_i hpos
    rw [(hr.settled _ (Nat.sub_one_lt hpos) 0).cid,
      Nat.sub_add_cancel (Nat.one_le_iff_ne_zero.mpr hpos)]

theorem Coherent.commit (h : p.Coherent M) (hf : (p.commit M).2.store.Faithful M) :
    Committed M p (p.commit M).1 (p.commit M).2 := by
  have hr := h.rebuilt
  rw [commit_eq] at hf ⊢
  generalize p.rebuilt M = s at hr hf ⊢
  have hl : s.store.objects ⊆ s.store.objects ++ [encodeRoot s.rootIndex] :=
    List.subset_append_left _ _
  have hg : (p.flush M).store.objects ⊆ s.store.objects ++ [encodeRoot s.rootIndex] :=
    List.Subset.trans hr.grows hl
  generalize hs : ({ s with store := ⟨s.store.objects ++ [encodeRoot s.rootIndex]⟩ } : Pager)
    = s' at hf ⊢
  have hc : s'.Coherent M := hs ▸ hr.coherent h hl
  have hd : s'.dirty = ∅ := by rw [← hs, hr.dirty]
  have hfi : s'.file M = p.file M := by
    subst hs
    exact PageMap.ext (h.content_committed hf hg hr.dirty hr.pages) hr.pageCount hr.wrappedDek
  have hle : (p.file M).leaf M = s.leaf := by
    rw [← hfi, hc.leaf_file hf hd, ← hs]
    rfl
  have hh : s.rootIndex = (p.file M).header M := hr.rootIndex hle rfl rfl
  refine ⟨hc, hfi, by rw [hh, PageMap.root], ⟨fun n data hn => ?_, ?_, ?_⟩, ?_⟩
  · rw [← hfi] at hn
    exact (hc.stored_of_content hf (by simp [hd]) hn).2
  · intro level key hlev hne
    rw [hle] at hne ⊢
    rw [← hs]
    exact hl ((hr.settled level hlev key).stored hne)
  · rw [← hs, ← hh]
    simp
  · rw [← hs]
    exact List.Subset.trans (flush_grows p) hg

end Pager

end Zephcraft.Sql
