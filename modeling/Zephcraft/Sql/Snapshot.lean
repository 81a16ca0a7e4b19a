import Zephcraft.Sql.PageMap

/-!
# Sql/Snapshot — a stored file, opened and walked

A file whose objects are stored is opened from its root: the pager that comes out is coherent, and
its file is the one that was committed. Walking the root visits the header, the nodes and the pages,
and nothing else.
-/

namespace Zephcraft.Sql

open List PageMap

namespace PageMap

variable (M : Medium) (m : PageMap)

/-- The content ids of a file's objects: of its header, its nodes and its pages. -/
def cids : Set B32 :=
  {m.root M} ∪ {c | ∃ level < depthFor m.pageCount, ∃ key, M.tree (m.leaf M) (level + 1) key
    = some c} ∪ {c | ∃ n data, m.content n = some data ∧ M.pageCid data = c}

variable {M m} {store : ObjectStore}

theorem mem_cids {c : B32} : c ∈ m.cids M ↔
    c = m.root M ∨ ∃ h ≤ depthFor m.pageCount, ∃ key, M.tree (m.leaf M) h key = some c := by
  have hs : (∃ h ≤ depthFor m.pageCount, ∃ key, M.tree (m.leaf M) h key = some c) ↔
      (∃ level < depthFor m.pageCount, ∃ key, M.tree (m.leaf M) (level + 1) key = some c)
        ∨ ∃ n data, m.content n = some data ∧ M.pageCid data = c := by
    constructor
    · rintro ⟨h, hh, key, hkey⟩
      cases h with
      | zero => exact .inr ⟨key, leaf_eq_some.mp hkey⟩
      | succ level => exact .inl ⟨level, hh, key, hkey⟩
    · rintro (⟨level, hl, key, hkey⟩ | ⟨n, hn⟩)
      · exact ⟨level + 1, hl, key, hkey⟩
      · exact ⟨0, Nat.zero_le _, n, leaf_eq_some.mpr hn⟩
  rw [hs, cids]
  exact or_assoc

theorem Bounded.leaf_of_depth (h : m.Bounded) (hz : depthFor m.pageCount = 0) (n : ℕ) :
    m.leaf M n = none := by
  by_contra hne
  have hlt := h.leaf_lt hne
  rw [(depthFor_spec h.count).2.2.mp hz] at hlt
  exact Nat.not_lt_zero n hlt

end PageMap

namespace Pager

variable {M : Medium} {m : PageMap} {store : ObjectStore}

/-! ## Opening -/

/-- The pager of a header and its loaded index. -/
def opened (store : ObjectStore) (ri : RootIndex) (loaded : Loaded) : Pager where
  store := store
  pages := loaded.pages
  dirty := ∅
  dirtyIndex := ∅
  nodeCids := loaded.nodeCids
  pageCount := ri.pageCount
  depth := ri.depth
  wrappedDek := ri.wrappedDek

variable (M) in
def loadIndex (store : ObjectStore) (ri : RootIndex) : Except SqlError Loaded :=
  if 0 < ri.depth then loadSubtree M store (ri.depth - 1) 0 ri.rootCid .empty else .ok .empty

variable {root : B32} {p : Pager}

theorem openRoot_eq {ri : RootIndex} (hri : fetchRoot M store root = .ok ri) :
    openRoot M store root = (loadIndex M store ri).map (opened store ri) := by
  rw [openRoot, hri, loadIndex]
  dsimp only [bind, Except.bind]
  split
  · cases loadSubtree M store (ri.depth - 1) 0 ri.rootCid .empty <;> rfl
  · rfl

theorem openRoot_eq_ok (hp : openRoot M store root = .ok p) :
    ∃ ri loaded, fetchRoot M store root = .ok ri ∧ loadIndex M store ri = .ok loaded
      ∧ p = opened store ri loaded := by
  obtain ⟨ri, hri, -⟩ := Except.bind_eq_ok.mp hp
  rw [openRoot_eq hri] at hp
  cases hl : loadIndex M store ri with
  | error e => simp [hl, Except.map] at hp
  | ok loaded =>
    rw [hl] at hp
    exact ⟨ri, loaded, hri, hl, (Except.ok.inj hp).symm⟩

theorem store_openRoot (hp : openRoot M store root = .ok p) : p.store = store := by
  obtain ⟨ri, loaded, -, -, rfl⟩ := openRoot_eq_ok hp
  rfl

theorem loadIndex_spec (hb : m.Bounded) (hi : m.Indexed) (hs : m.StoredIn M store)
    (hf : store.Faithful M) :
    ∃ loaded, loadIndex M store (m.header M) = .ok loaded
      ∧ ∀ h ≤ depthFor m.pageCount, ∀ k, loaded.slot h k = M.tree (m.leaf M) h k := by
  have hd : (m.header M).depth = depthFor m.pageCount := rfl
  rw [loadIndex, hd]
  rcases Nat.eq_zero_or_pos (depthFor m.pageCount) with hz | hpos
  · rw [hz, if_neg (lt_irrefl 0)]
    refine ⟨.empty, rfl, fun h hh k => ?_⟩
    obtain rfl : h = 0 := Nat.le_zero.mp hh
    rw [Medium.tree_zero, hb.leaf_of_depth hz]
    rfl
  · have he : Loaded.empty.Right M (m.leaf M) := by
      intro h k cid hcid
      cases h <;> simp [Loaded.slot, Loaded.empty] at hcid
    have htop := hb.rootCid (M := M) hi hpos.ne'
    rw [← Nat.sub_add_cancel hpos] at htop
    obtain ⟨loaded, hl, hr, -, hc⟩ := loadSubtree_spec hf hs.nodes
      (fun n hn => (hb.leaf_lt hn).trans hb.count) (Nat.sub_one_lt hpos.ne') htop he
    rw [Nat.sub_add_cancel hpos] at hc
    refine ⟨loaded, by rw [if_pos hpos, hl], fun h hh k => ?_⟩
    -- what is loaded is right, and everything is below the top node
    refine Option.ext fun cid => ⟨hr h k cid, fun hcid => ?_⟩
    exact hc h k cid hh (hb.top hh hcid) hcid

theorem opened_spec (hb : m.Bounded) (hs : m.StoredIn M store) (hf : store.Faithful M)
    {loaded : Loaded}
    (hsl : ∀ h ≤ depthFor m.pageCount, ∀ k, loaded.slot h k = M.tree (m.leaf M) h k) :
    (opened store (m.header M) loaded).Coherent M ∧ (opened store (m.header M) loaded).file M
      = m := by
  have hp : ∀ n : ℕ, loaded.pages[n]? = m.leaf M n := fun n => hsl 0 (Nat.zero_le _) n
  have hle : (opened store (m.header M) loaded).leaf = m.leaf M := funext hp
  constructor
  · refine ⟨fun n cid hn => ?_, fun level hl key _ => ?_, fun n data hn => ?_, fun n cid hn => ?_,
      fun n hn => ?_, hb.count⟩
    · obtain ⟨data, hd, hcid⟩ := leaf_eq_some.mp ((hp n).symm.trans hn)
      exact ⟨data, hcid.symm, hs.pages n data hd⟩
    · constructor
      · rw [hle]
        exact hsl (level + 1) hl key
      · rw [hle]
        exact hs.nodes level key hl
    · simp [opened] at hn
    · have hl' : m.leaf M n = some cid := (hp n).symm.trans hn
      exact hb.leaf_lt (M := M) (by simp [hl'])
    · simp [opened] at hn
  · refine PageMap.ext (funext fun n => ?_) rfl rfl
    have hdi : (opened store (m.header M) loaded).dirty[n]? = none := by simp [opened]
    change (opened store (m.header M) loaded).content M n = m.content n
    cases hd : m.content n with
    | none => exact content_of_none hdi (by rw [opened, hp, PageMap.leaf, hd, Option.map_none])
    | some data =>
      refine content_of_stored hf hdi ?_ (hs.pages n data hd)
      rw [opened, hp, PageMap.leaf, hd, Option.map_some]

theorem openRoot_spec (hb : m.Bounded) (hi : m.Indexed) (hs : m.StoredIn M store)
    (hf : store.Faithful M) :
    ∃ p, openRoot M store (m.root M) = .ok p ∧ p.Coherent M ∧ p.file M = m ∧ p.store = store := by
  obtain ⟨loaded, hl, hsl⟩ := loadIndex_spec hb hi hs hf
  obtain ⟨hc, hfi⟩ := opened_spec hb hs hf hsl
  refine ⟨opened store (m.header M) loaded, ?_, hc, hfi, rfl⟩
  rw [openRoot_eq (hb.fetchRoot hf hs.root), hl]
  rfl

theorem fetchNode_zero (hz : store.Nonzero M) :
    fetchNode M store 0 = .error (.corruptIndex (.missingNode 0)) := by
  rw [fetchNode, hz.get_zero]

theorem openRoot_of_not_indexed (hb : m.Bounded) (hi : ¬ m.Indexed) (hs : m.StoredIn M store)
    (hf : store.Faithful M) (hz : store.Nonzero M) :
    openRoot M store (m.root M) = .error (.corruptIndex (.missingNode 0)) := by
  obtain ⟨hpos, hcid⟩ := hb.rootCid_of_not_indexed (M := M) hi
  have hd : 0 < (m.header M).depth := Nat.pos_of_ne_zero hpos
  rw [openRoot_eq (hb.fetchRoot hf hs.root), loadIndex, if_pos hd, hcid]
  cases (m.header M).depth - 1 <;> rw [loadSubtree, fetchNode_zero hz] <;> rfl

/-- **Two stored files of one root are the same**, if one of them opens. -/
theorem eq_of_root {m' : PageMap} (hs : m.StoredIn M store) (hs' : m'.StoredIn M store)
    (hb : m.Bounded) (hb' : m'.Bounded) (hi : m.Indexed) (hf : store.Faithful M)
    (hz : store.Nonzero M) (hr : m.root M = m'.root M) : m = m' := by
  obtain ⟨p, hp, -, rfl, -⟩ := openRoot_spec hb hi hs hf
  have hi' : m'.Indexed := by
    by_contra hi'
    rw [hr, openRoot_of_not_indexed hb' hi' hs' hf hz] at hp
    cases hp
  obtain ⟨p', hp', -, rfl, -⟩ := openRoot_spec hb' hi' hs' hf
  rw [hr, hp'] at hp
  rw [Except.ok.inj hp]

theorem Coherent.openRoot_commit (h : p.Coherent M) (hi : ¬ p.Indexed)
    (hf : (p.commit M).2.store.Faithful M) (hz : (p.commit M).2.store.Nonzero M) :
    openRoot M (p.commit M).2.store (p.commit M).1 = .error (.corruptIndex (.missingNode 0)) := by
  have hc := h.commit hf
  have hfi := h.indexed_file (hf.mono hc.grows)
  rw [hc.root]
  exact openRoot_of_not_indexed h.bounded_file (fun hm => hi (hfi.mp hm)) hc.stored hf hz

/-! ## Walking -/

theorem reachable_spec (hb : m.Bounded) (hi : m.Indexed) (hs : m.StoredIn M store)
    (hf : store.Faithful M) :
    ∃ out, reachable M store (m.root M) = .ok out ∧ ∀ c, c ∈ out ↔ c ∈ m.cids M := by
  rw [reachable, hb.fetchRoot hf hs.root]
  dsimp only [bind, Except.bind]
  rcases Nat.eq_zero_or_pos (depthFor m.pageCount) with hz | hpos
  · have hd : (m.header M).depth = 0 := hz
    rw [if_pos hd]
    refine ⟨_, rfl, fun c => ?_⟩
    rw [mem_cids, mem_singleton, or_iff_left]
    rintro ⟨h, hh, key, hkey⟩
    rw [hz, Nat.le_zero] at hh
    rw [hh, Medium.tree_zero, hb.leaf_of_depth hz] at hkey
    simp at hkey
  · have hd : (m.header M).depth ≠ 0 := hpos.ne'
    have htop := hb.rootCid (M := M) hi hpos.ne'
    rw [← Nat.sub_add_cancel hpos] at htop
    have hfr : Frontier M (m.leaf M) (depthFor m.pageCount - 1)
        [(depthFor m.pageCount - 1, (m.header M).rootCid)] := by
      refine ⟨fun e he => ?_, fun key cid hcid => ?_⟩
      · obtain rfl := mem_singleton.mp he
        exact ⟨rfl, 0, htop⟩
      · -- there is no other node at the top
        have hkey := hb.top (Nat.sub_add_cancel hpos).le hcid
        obtain rfl : key = 0 := by simpa [Nat.sub_add_cancel hpos] using hkey
        simpa using (Option.some.inj (hcid.symm.trans htop))
    obtain ⟨out, hout, hmem⟩ := reachLoop_spec hf hs.nodes (Nat.sub_one_lt hpos.ne') hfr
      (show depthFor m.pageCount - 1 < depthFor m.pageCount + 1 by omega) [m.root M]
    rw [if_neg hd]
    refine ⟨out, hout, fun c => ?_⟩
    rw [hmem, mem_cids, mem_singleton, Nat.sub_add_cancel hpos]

theorem reachable_of_not_indexed (hb : m.Bounded) (hi : ¬ m.Indexed) (hs : m.StoredIn M store)
    (hf : store.Faithful M) (hz : store.Nonzero M) :
    reachable M store (m.root M) = .error (.corruptIndex (.missingNode 0)) := by
  obtain ⟨hpos, hcid⟩ := hb.rootCid_of_not_indexed (M := M) hi
  have hd : (m.header M).depth ≠ 0 := hpos
  rw [reachable, hb.fetchRoot hf hs.root]
  dsimp only [bind, Except.bind]
  rw [if_neg hd, hcid, reachLoop, if_neg (cons_ne_nil _ _), foldlM_cons, visitNode,
    fetchNode_zero hz]
  rfl

/-- **The root of a commit is walked whole, exactly when the file is empty or has a page.** -/
theorem Coherent.reachable_commit_iff (h : p.Coherent M) (hf : (p.commit M).2.store.Faithful M)
    (hz : (p.commit M).2.store.Nonzero M) :
    (∃ out, reachable M (p.commit M).2.store (p.commit M).1 = .ok out ∧ ∀ c, c ∈ out
      ↔ c ∈ (p.file M).cids M) ↔ p.Indexed := by
  have hc := h.commit hf
  rw [← h.indexed_file (hf.mono hc.grows), hc.root]
  refine ⟨fun ⟨out, hout, _⟩ => ?_, fun hi => reachable_spec h.bounded_file hi hc.stored hf⟩
  by_contra hi
  simp [reachable_of_not_indexed h.bounded_file hi hc.stored hf hz] at hout

end Pager

end Zephcraft.Sql
