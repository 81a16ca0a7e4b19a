import Zephcraft.Sql.Tree

/-!
# Sql/Commit — the index between commits, and what a commit makes of it

Between two commits the node cache is behind the pages, but only above the pages in the dirty index:
every other node has the content id that building the tree anew would give it, and its object is
stored. That is the invariant `Coherent`.
-/

namespace Zephcraft.Sql

open List Option Std.ExtTreeMap Medium

def Medium.pageCid (M : Medium) (data : Bytes) : B32 := M.hash (M.sealIndex data)

namespace Pager

variable {M : Medium} {p p' : Pager} {level key : ℕ} {D : Set ℕ}

/-- The content ids of the pages, as the leaves of the tree. -/
def leaf (p : Pager) (n : ℕ) : Option B32 := p.pages[n]?

variable (M) in
structure Settled (p : Pager) (level key : ℕ) : Prop where
  cid : p.nodeCids (level, key) = M.tree p.leaf (level + 1) key
  stored : M.tree p.leaf (level + 1) key ≠ none → M.nodeObject p.leaf level key ∈ p.store.objects

variable (M) in
/-- The nodes are up to date, but for those above the pages in `D`. -/
def SettledOff (p : Pager) (D : Set ℕ) : Prop :=
  ∀ level < p.depth, ∀ key, ¬ Radix.Touched fanout D (level + 1) key → p.Settled M level key

variable (M) in
structure Coherent (p : Pager) : Prop where
  stored : ∀ (n : ℕ) (cid : B32), p.pages[n]? = some cid →
    ∃ data, cid = M.pageCid data ∧ M.sealIndex data ∈ p.store.objects
  nodes : p.SettledOff M {n | n ∈ p.dirtyIndex}
  buffered : ∀ (n : ℕ) (data : Bytes), p.dirty[n]? = some data → n ∈ p.dirtyIndex ∧ n < p.pageCount
  bounded : ∀ (n : ℕ) (cid : B32), p.pages[n]? = some cid → n < p.pageCount
  touched : ∀ n ∈ p.dirtyIndex, n < 2 ^ 32
  count : p.pageCount < 2 ^ 32

/-! ## Nodes that nothing was changed below -/

theorem untouched_child {h k : ℕ} (hk : ¬ Radix.Touched fanout D (h + 1) k) (i : Byte) :
    ¬ Radix.Touched fanout D h (k * fanout + i) := fun ht => by
  refine hk ?_
  have hp := ht.parent
  rwa [Radix.child_div (by norm_num) i] at hp

theorem nodeObject_of_untouched {leaf leaf' : ℕ → Option B32} (hl : ∀ n ∉ D, leaf n = leaf' n)
    (hk : ¬ Radix.Touched fanout D (level + 1) key) :
    M.nodeObject leaf level key = M.nodeObject leaf' level key := by
  unfold nodeObject
  congr 3
  funext i
  exact Radix.tree_of_untouched (by norm_num) hl (untouched_child hk i)

/-- **A settled node stays settled** when only pages in `D` change, and it is above none of them. -/
theorem Settled.transfer (h : p.Settled M level key) (hk : ¬ Radix.Touched fanout D (level + 1) key)
    (hl : ∀ n ∉ D, p.leaf n = p'.leaf n) (hc : p'.nodeCids (level, key) = p.nodeCids (level, key))
    (hs : p.store.objects ⊆ p'.store.objects) : p'.Settled M level key := by
  have ht : M.tree p.leaf (level + 1) key = M.tree p'.leaf (level + 1) key :=
    Radix.tree_of_untouched (by norm_num) hl hk
  refine ⟨by rw [hc, h.cid, ht], fun hne => ?_⟩
  rw [← nodeObject_of_untouched hl hk]
  exact hs (h.stored (by rwa [ht]))

/-! ## Writing and truncating -/

theorem coherent_create (store : ObjectStore) : (create store).Coherent M where
  stored n cid h := by simp [create] at h
  nodes level h := by simp [create] at h
  buffered n data h := by simp [create] at h
  bounded n cid h := by simp [create] at h
  touched n h := by simp [create] at h
  count := by norm_num [create]

variable {data buf : Bytes}

theorem writePage_eq_ok {n : ℕ} : p.writePage n data = .ok p' ↔ n + 1 < 2 ^ 32 ∧
      { p with
        dirty := p.dirty.insert n data
        dirtyIndex := p.dirtyIndex.insert n
        pageCount := if p.pageCount < n + 1 then n + 1 else p.pageCount } = p' := by
  unfold writePage
  split
  · simp only [reduceCtorEq, false_iff, not_and]
    omega
  · simp only [Except.ok.injEq, iff_and_self]
    omega

theorem Coherent.writePage (h : p.Coherent M) {n : ℕ} (hp : p.writePage n data = .ok p') :
    p'.Coherent M := by
  obtain ⟨hn, rfl⟩ := writePage_eq_ok.mp hp
  have hin : ∀ m, m ∈ p.dirtyIndex.insert n ↔ m = n ∨ m ∈ p.dirtyIndex := fun m => by
    rw [Std.ExtTreeSet.mem_insert, Std.LawfulEqCmp.compare_eq_iff_eq, eq_comm]
  have hc : ∀ m, m < p.pageCount → m < if p.pageCount < n + 1 then n + 1 else p.pageCount := by
    intro m hm
    split <;> omega
  refine ⟨h.stored, fun level hl key hk => ?_, fun m data' hm => ?_, fun m cid hm => ?_, ?_, ?_⟩
  · have hs := h.nodes level hl key fun ht => hk (ht.mono fun m hm => (hin m).mpr (.inr hm))
    exact ⟨hs.cid, hs.stored⟩
  · dsimp only at hm ⊢
    rw [hin]
    rw [BTreeMap.getElem?_insert] at hm
    split at hm
    · refine ⟨.inl (Eq.symm ‹_›), ?_⟩
      split <;> omega
    · exact ⟨.inr (h.buffered m data' hm).1, hc m (h.buffered m data' hm).2⟩
  · exact hc m (h.bounded m cid hm)
  · intro m hm
    rcases (hin m).mp hm with rfl | hm
    · omega
    · exact h.touched m hm
  · have := h.count
    dsimp only
    split <;> omega

theorem writeLoop_invariant {P : Pager → Prop}
    (hs : ∀ p p' n data, P p → Pager.writePage p n data = .ok p' → P p')
    {fuel : ℕ} {pos : ℕ} (h : P p) (hp : p.writeLoop M fuel buf pos = .ok p') : P p' := by
  induction fuel generalizing p buf pos with
  | zero =>
    obtain rfl : p = p' := Except.ok.inj hp
    exact h
  | succ fuel ih =>
    rw [writeLoop] at hp
    split at hp
    · obtain rfl : p = p' := Except.ok.inj hp
      exact h
    · split at hp
      · simp at hp
      · obtain ⟨mid, hmid, hr⟩ := Except.bind_eq_ok.mp hp
        exact ih (hs _ _ _ _ h hmid) hr

theorem Coherent.writeAt (h : p.Coherent M) {offset : U64} (hp : p.writeAt M buf offset = .ok p') :
    p'.Coherent M :=
  writeLoop_invariant (fun _ _ _ _ hq => hq.writePage) h hp

theorem store_writePage {n : ℕ} (hp : p.writePage n data = .ok p') : p'.store = p.store := by
  obtain ⟨-, rfl⟩ := writePage_eq_ok.mp hp
  rfl

theorem store_writeAt {offset : U64} (hp : p.writeAt M buf offset = .ok p') : p'.store = p.store :=
  writeLoop_invariant (P := fun q => q.store = p.store) (fun _ _ _ _ hq hw =>
    (store_writePage hw).trans hq) rfl hp

theorem Coherent.setWrappedDek (h : p.Coherent M) (wrapped : WrappedDek) :
    (p.setWrappedDek wrapped).Coherent M :=
  ⟨h.stored, fun level hl key hk => ⟨(h.nodes level hl key hk).cid,
    (h.nodes level hl key hk).stored⟩, h.buffered, h.bounded, h.touched, h.count⟩

theorem getElem?_foldl_erase (l : List ℕ) (m : BTreeMap ℕ B32) (n : ℕ) :
    (l.foldl (fun m n => m.erase n) m)[n]? = if n ∈ l then none else m[n]? := by
  induction l generalizing m with
  | nil => simp
  | cons a l ih =>
    rw [foldl_cons, ih, getElem?_erase]
    by_cases ha : a = n
    · simp [ha]
    · simp [ha, Ne.symm ha]

theorem mem_foldl_insert (l : List ℕ) (s : BTreeSet ℕ) (n : ℕ) :
    n ∈ l.foldl (fun s n => s.insert n) s ↔ n ∈ l ∨ n ∈ s := by
  induction l generalizing s with
  | nil => simp
  | cons a l ih =>
    rw [foldl_cons, ih, Std.ExtTreeSet.mem_insert, mem_cons, Std.LawfulEqCmp.compare_eq_iff_eq]
    tauto

theorem getElem?_pages_setPageCount (p : Pager) (count n : ℕ) :
    (p.setPageCount count).pages[n]? = if n < count then p.pages[n]? else none := by
  rw [setPageCount]
  dsimp only
  rw [getElem?_foldl_erase]
  simp only [List.mem_filter, Std.ExtTreeMap.mem_keys, decide_eq_true_eq]
  by_cases hn : n < count
  · simp [hn, not_le.mpr hn]
  · by_cases hmem : n ∈ p.pages
    · simp [hn, hmem, not_lt.mp hn]
    · simp [hn, hmem]

theorem mem_dirtyIndex_setPageCount (p : Pager) (count n : ℕ) :
    n ∈ (p.setPageCount count).dirtyIndex ↔ (n ∈ p.pages ∧ count ≤ n) ∨ n ∈ p.dirtyIndex := by
  rw [setPageCount]
  dsimp only
  rw [mem_foldl_insert]
  simp

theorem getElem?_dirty_setPageCount (p : Pager) (count n : ℕ) :
    (p.setPageCount count).dirty[n]? = if n < count then p.dirty[n]? else none := by
  rw [setPageCount]
  dsimp only
  rw [getElem?_filter']
  cases p.dirty[n]? <;> simp [Option.filter]

theorem Coherent.setPageCount (h : p.Coherent M) {count : ℕ} (hc : count < 2 ^ 32) :
    (p.setPageCount count).Coherent M := by
  have hsub : ∀ {n : ℕ} {cid : B32}, (p.setPageCount count).pages[n]? = some cid →
      n < count ∧ p.pages[n]? = some cid := by
    intro n cid hn
    rw [getElem?_pages_setPageCount] at hn
    split at hn
    · exact ⟨‹_›, hn⟩
    · simp at hn
  refine ⟨fun n cid hn => h.stored n cid (hsub hn).2, fun level hl key hk => ?_, fun n data hn =>
    ?_,
    fun n cid hn => (hsub hn).1, fun n hn => ?_, hc⟩
  · -- a page that was dropped is in the dirty index
    have hm : {n | n ∈ p.dirtyIndex} ⊆ {n | n ∈ (p.setPageCount count).dirtyIndex} := fun n hn =>
      (mem_dirtyIndex_setPageCount p count n).mpr (.inr hn)
    refine (h.nodes level hl key fun ht => hk (ht.mono hm)).transfer hk (fun n hn => ?_) rfl
      (List.Subset.refl _)
    rw [leaf, leaf, getElem?_pages_setPageCount]
    split
    · rfl
    · by_contra hne
      refine hn ((mem_dirtyIndex_setPageCount p count n).mpr (.inl ⟨?_, not_lt.mp ‹_›⟩))
      exact mem_iff_isSome_getElem?.mpr (isSome_iff_ne_none.mpr hne)
  · rw [getElem?_dirty_setPageCount] at hn
    split at hn
    · exact ⟨(mem_dirtyIndex_setPageCount p count n).mpr (.inr (h.buffered n data hn).1), ‹_›⟩
    · simp at hn
  · rcases (mem_dirtyIndex_setPageCount p count n).mp hn with ⟨hmem, -⟩ | hmem
    · obtain ⟨cid, hcid⟩ := isSome_iff_exists.mp (mem_iff_isSome_getElem?.mp hmem)
      exact (h.bounded n cid hcid).trans h.count
    · exact h.touched n hmem

/-! ## Flushing -/

theorem foldl_flushPage (p : Pager) (rows : List (ℕ × Bytes)) :
    rows.foldl (fun p e => p.flushPage M e.1 e.2) p =
      { p with
        store := ⟨p.store.objects ++ rows.map fun e => M.sealIndex e.2⟩
        pages := rows.foldl (fun m e => m.insert e.1 (M.pageCid e.2)) p.pages } := by
  induction rows generalizing p with
  | nil => simp
  | cons e rows ih =>
    rw [foldl_cons, ih]
    simp [flushPage, ObjectStore.put, pageCid]

variable (M) in
/-- The pages of `rows` put into the store, and the buffer given up. -/
def flushed (p : Pager) (rows : List (ℕ × Bytes)) : Pager :=
  rows.foldl (fun p e => p.flushPage M e.1 e.2) { p with dirty := ∅ }

theorem flushed_eq (p : Pager) (rows : List (ℕ × Bytes)) : p.flushed M rows =
    { p with
      store := ⟨p.store.objects ++ rows.map fun e => M.sealIndex e.2⟩
      pages := rows.foldl (fun m e => m.insert e.1 (M.pageCid e.2)) p.pages
      dirty := ∅ } := by
  rw [flushed, foldl_flushPage]

theorem flush_eq (p : Pager) : p.flush M =
    { p with
      store := ⟨p.store.objects ++ p.dirty.toList.map fun e => M.sealIndex e.2⟩
      pages := p.dirty.toList.foldl (fun m e => m.insert e.1 (M.pageCid e.2)) p.pages
      dirty := ∅ } := flushed_eq p p.dirty.toList

theorem getElem?_pages_flushed {rows : List (ℕ × Bytes)} (hr : ∀ e ∈ rows, p.dirty[e.1]? = some e.2)
    (n : ℕ) :
    (p.flushed M rows).pages[n]? = if n ∈ rows.map Prod.fst then (p.dirty[n]?).map M.pageCid
      else p.pages[n]? := by
  rw [flushed_eq]
  dsimp only
  generalize p.pages = pages
  induction rows generalizing pages with
  | nil => simp
  | cons e rows ih =>
    rw [foldl_cons, ih (fun e' he' => hr e' (.tail e he')), BTreeMap.getElem?_insert]
    by_cases hn : e.1 = n
    · subst hn
      simp [hr e mem_cons_self]
    · simp only [hn, Ne.symm hn, if_false, map_cons, mem_cons, false_or]

theorem mem_toList_dirty {e : ℕ × Bytes} : e ∈ p.dirty.toList ↔ p.dirty[e.1]? = some e.2 :=
  mem_toList_iff_getElem?_eq_some

theorem getElem?_pages_flush (p : Pager) (n : ℕ) :
    (p.flush M).pages[n]? = ((p.dirty[n]?).map M.pageCid).or p.pages[n]? := by
  rw [show p.flush M = p.flushed M p.dirty.toList from rfl, getElem?_pages_flushed fun e =>
    mem_toList_dirty.mp]
  cases hn : p.dirty[n]? with
  | none =>
    refine if_neg fun hmem => ?_
    obtain ⟨e, he, rfl⟩ := List.mem_map.mp hmem
    rw [mem_toList_dirty.mp he] at hn
    cases hn
  | some data => exact if_pos (List.mem_map.mpr ⟨(n, data), mem_toList_dirty.mpr hn, rfl⟩)

theorem Coherent.flushed (h : p.Coherent M) {rows : List (ℕ × Bytes)}
    (hr : ∀ e ∈ rows, p.dirty[e.1]? = some e.2) : (p.flushed M rows).Coherent M := by
  have hst : p.store.objects ⊆ (p.flushed M rows).store.objects := by
    rw [flushed_eq]
    exact subset_append_left _ _
  have hin : (p.flushed M rows).dirtyIndex = p.dirtyIndex := by rw [flushed_eq]
  have hd : (p.flushed M rows).depth = p.depth := by rw [flushed_eq]
  have hc : (p.flushed M rows).pageCount = p.pageCount := by rw [flushed_eq]
  -- a page is one that was put, and was buffered, or it is as it was
  have hp : ∀ n, (∃ e ∈ rows, e.1 = n ∧ (p.flushed M rows).pages[n]? = some (M.pageCid e.2))
      ∨ (p.flushed M rows).pages[n]? = p.pages[n]? := fun n => by
    rw [getElem?_pages_flushed hr]
    split
    · rename_i hmem
      obtain ⟨e, he, rfl⟩ := List.mem_map.mp hmem
      exact .inl ⟨e, he, rfl, by rw [hr e he, map_some]⟩
    · exact .inr rfl
  refine ⟨fun n cid hn => ?_, fun level hl key hk => ?_, fun n data hn => ?_, fun n cid hn => ?_,
    ?_, ?_⟩
  · rcases hp n with ⟨e, he, -, hput⟩ | hs
    · refine ⟨e.2, Option.some.inj (hn.symm.trans hput), ?_⟩
      rw [flushed_eq]
      exact mem_append_right _ (List.mem_map.mpr ⟨e, he, rfl⟩)
    · obtain ⟨data, hcid, hmem⟩ := h.stored n cid (hs.symm.trans hn)
      exact ⟨data, hcid, hst hmem⟩
  · rw [hin] at hk
    refine (h.nodes level (hd ▸ hl) key hk).transfer hk (fun n hn => ?_) (by rw [flushed_eq]) hst
    -- a page that is not in the dirty index was not buffered
    rcases hp n with ⟨e, he, rfl, -⟩ | hs
    · exact absurd (h.buffered e.1 e.2 (hr e he)).1 hn
    · exact hs.symm
  · rw [flushed_eq] at hn
    simp at hn
  · rw [hc]
    rcases hp n with ⟨e, he, rfl, -⟩ | hs
    · exact (h.buffered e.1 e.2 (hr e he)).2
    · exact h.bounded n cid (hs.symm.trans hn)
  · rw [hin]
    exact h.touched
  · rw [hc]
    exact h.count

theorem Coherent.flush (h : p.Coherent M) : (p.flush M).Coherent M :=
  h.flushed fun _ => mem_toList_dirty.mp

/-! ## Which nodes are made again -/

/-- **What the commit starts from**: the nodes are up to date, but for those above the changed
pages. -/
theorem Coherent.restructure (h : p.Coherent M) :
    p.restructure.2.SettledOff M {n | n ∈ p.restructure.1} ∧ (∀ n ∈ p.restructure.1, n < 2 ^ 32)
      ∧ p.restructure.2.depth = depthFor p.pageCount := by
  unfold Pager.restructure
  dsimp only
  split
  · refine ⟨fun level _ key hk => ?_, fun n hn => ?_, rfl⟩
    · -- nothing is cached, and there is no node where there is no page
      have hno : M.tree p.leaf (level + 1) key = none := by
        refine Medium.tree_eq_none_iff.mpr fun n hn => ?_
        by_contra hne
        refine hk ⟨n, ?_, hn⟩
        change n ∈ Std.ExtTreeSet.ofList p.pages.keys compare
        rw [Std.ExtTreeSet.mem_ofList, List.contains_iff_mem, Std.ExtTreeMap.mem_keys]
        exact mem_iff_isSome_getElem?.mpr (isSome_iff_ne_none.mpr hne)
      exact ⟨hno.symm, fun hne => absurd hno hne⟩
    · rw [Std.ExtTreeSet.mem_ofList, List.contains_iff_mem, Std.ExtTreeMap.mem_keys] at hn
      obtain ⟨cid, hcid⟩ := isSome_iff_exists.mp (mem_iff_isSome_getElem?.mp hn)
      exact (h.bounded n cid hcid).trans h.count
  · rename_i hd
    refine ⟨fun level hl key hk => ?_, h.touched, (not_not.mp hd).symm⟩
    have hs := h.nodes level hl key hk
    exact ⟨hs.cid, hs.stored⟩

/-! ## Making nodes again -/

/-- Only the node cache and the store are different, and nothing was lost from the store. -/
structure Reindexed (p p' : Pager) : Prop where
  same : p' = { p with store := p'.store, nodeCids := p'.nodeCids }
  store : p.store.objects ⊆ p'.store.objects

namespace Reindexed

theorem refl (p : Pager) : Reindexed p p := ⟨rfl, List.Subset.refl _⟩

theorem trans {p₁ p₂ p₃ : Pager} (h : Reindexed p₁ p₂) (h' : Reindexed p₂ p₃) :
    Reindexed p₁ p₃ := by
  refine ⟨?_, List.Subset.trans h.store h'.store⟩
  have hs := h'.same
  rw [h.same] at hs
  exact hs

theorem pages (h : Reindexed p p') : p'.pages = p.pages := by rw [h.same]

theorem leaf (h : Reindexed p p') : p'.leaf = p.leaf := by
  funext n
  rw [Pager.leaf, Pager.leaf, h.pages]

theorem depth (h : Reindexed p p') : p'.depth = p.depth := by rw [h.same]

theorem settled (h : Reindexed p p') (hs : p.Settled M level key)
    (hc : p'.nodeCids (level, key) = p.nodeCids (level, key)) : p'.Settled M level key := by
  refine ⟨by rw [hc, h.leaf, hs.cid], fun hne => ?_⟩
  rw [h.leaf] at hne ⊢
  exact h.store (hs.stored hne)

end Reindexed

/-- **One node made again**: its cache entry is what its children make it, and its object is
stored. -/
theorem rebuildNode_spec (p : Pager) (level nk : ℕ) :
    Reindexed p (p.rebuildNode M level nk)
      ∧ (p.rebuildNode M level nk).nodeCids = Function.update p.nodeCids (level, nk)
          (M.combine fun i => p.child level ((nk * fanout + i) % 2 ^ 32))
      ∧ (M.combine (fun i => p.child level ((nk * fanout + i) % 2 ^ 32)) ≠ none →
          M.sealIndex (encodeNode (nodeOf fun i => p.child level ((nk * fanout + i) % 2 ^ 32)))
            ∈ (p.rebuildNode M level nk).store.objects) := by
  unfold rebuildNode Medium.combine
  dsimp only
  split
  · exact ⟨⟨rfl, List.Subset.refl _⟩, rfl, fun h => absurd rfl h⟩
  · exact ⟨⟨rfl, subset_append_left _ _⟩, rfl, fun _ => by simp⟩

theorem child_lt {nk : ℕ} (h : nk < 2 ^ 24) (i : Byte) : nk * fanout + i < 2 ^ 32 := by
  unfold fanout
  omega

/-- The children of the nodes of a level are right. -/
def ChildrenRight (M : Medium) (p : Pager) (level : ℕ) : Prop :=
  ∀ key, p.child level key = M.tree p.leaf level key

theorem rebuildNode_settled {nk : ℕ} (hc : ChildrenRight M p level) (hnk : nk < 2 ^ 24) :
    (p.rebuildNode M level nk).Settled M level nk
      ∧ ∀ l k, (l, k) ≠ (level, nk) → (p.rebuildNode M level nk).nodeCids (l, k)
        = p.nodeCids (l, k) := by
  obtain ⟨hre, hci, hs⟩ := rebuildNode_spec (M := M) p level nk
  have hch : (fun i : Byte => p.child level ((nk * fanout + i) % 2 ^ 32))
      = fun i : Byte => M.tree p.leaf level (nk * fanout + i) := by
    funext i
    rw [Nat.mod_eq_of_lt (child_lt hnk i), hc]
  rw [hch] at hci hs
  refine ⟨⟨?_, fun hne => ?_⟩, fun l k hlk => ?_⟩
  · rw [hci, Function.update_self, hre.leaf, tree_succ]
  · rw [hre.leaf] at hne ⊢
    exact hs hne
  · rw [hci, Function.update_of_ne hlk]

theorem ChildrenRight.of_reindexed (hc : ChildrenRight M p level) (hre : Reindexed p p')
    (hci : ∀ l k, l ≠ level → p'.nodeCids (l, k) = p.nodeCids (l, k)) :
    ChildrenRight M p' level := by
  intro key
  rw [hre.leaf, ← hc key]
  cases level with
  | zero => rw [child, child, Loaded.slot, Loaded.slot, hre.pages]
  | succ level => exact hci level key (Nat.succ_ne_self level).symm

/-- **One level made again**: the nodes in the list are settled, the others are left alone. -/
theorem foldl_rebuildNode (hc : ChildrenRight M p level) {keys : List ℕ}
    (hke : ∀ k ∈ keys, k < 2 ^ 24) :
    Reindexed p (keys.foldl (rebuildNode M level) p)
      ∧ (∀ k ∈ keys, (keys.foldl (rebuildNode M level) p).Settled M level k)
      ∧ ∀ l k, (l ≠ level ∨ k ∉ keys) →
          (keys.foldl (rebuildNode M level) p).nodeCids (l, k) = p.nodeCids (l, k) := by
  induction keys generalizing p with
  | nil => exact ⟨.refl p, by simp, fun _ _ _ => rfl⟩
  | cons nk keys ih =>
    obtain ⟨hs, hr⟩ := rebuildNode_settled hc (hke nk (.head _))
    have hre := (rebuildNode_spec (M := M) p level nk).1
    have hc' : ChildrenRight M (p.rebuildNode M level nk) level :=
      hc.of_reindexed hre fun l k hl => hr l k fun heq => hl (congrArg Prod.fst heq)
    obtain ⟨hre', hs', hr'⟩ := ih hc' fun k hk => hke k (.tail nk hk)
    rw [foldl_cons]
    refine ⟨hre.trans hre', fun k hk => ?_, fun l k hlk => ?_⟩
    · by_cases hmem : k ∈ keys
      · exact hs' k hmem
      · obtain rfl : k = nk := (mem_cons.mp hk).resolve_right hmem
        exact hre'.settled hs (hr' level k (.inr hmem))
    · have hnot : l ≠ level ∨ k ∉ keys := hlk.imp_right fun hk hmem => hk (.tail nk hmem)
      rw [hr' l k hnot]
      refine hr l k fun heq => ?_
      cases heq
      simp at hlk

theorem mem_parents {keys : BTreeSet ℕ} {h : ℕ} (hk : ∀ k, k ∈ keys ↔ Radix.Touched fanout D h k)
    (k : ℕ) :
    k ∈ Std.ExtTreeSet.ofList (keys.toList.map (· / fanout)) compare
      ↔ Radix.Touched fanout D (h + 1) k := by
  rw [Std.ExtTreeSet.mem_ofList, List.contains_iff_mem, List.mem_map]
  constructor
  · rintro ⟨k', hk', rfl⟩
    exact ((hk k').mp (Std.ExtTreeSet.mem_toList.mp hk')).parent
  · rintro ⟨n, hn, rfl⟩
    refine ⟨n / fanout ^ h, Std.ExtTreeSet.mem_toList.mpr ((hk _).mpr ⟨n, hn, rfl⟩), ?_⟩
    rw [Nat.div_div_eq_div_mul, ← pow_succ]

section Levels

variable (hD : ∀ n ∈ D, n < 2 ^ 32) {l m : ℕ} (hlm : l + m = p.depth) (hoff : p.SettledOff M D)
  (hbelow : ∀ level < l, ∀ key, p.Settled M level key) {keys : BTreeSet ℕ}
  (hkeys : ∀ k, k ∈ keys ↔ Radix.Touched fanout D (l + 1) k)

include hbelow in
theorem childrenRight : ChildrenRight M p l := fun key => by
  cases l with
  | zero => rfl
  | succ l => exact (hbelow l (Nat.lt_succ_self l) key).cid

include hD hkeys in
theorem keys_lt : ∀ k ∈ keys.toList, k < 2 ^ 24 := fun k hk => by
  obtain ⟨n, hn, rfl⟩ := (hkeys k).mp (Std.ExtTreeSet.mem_toList.mp hk)
  have hle : n / fanout ^ (l + 1) ≤ n / fanout :=
    Nat.div_le_div_left (Nat.le_self_pow (Nat.succ_ne_zero l) fanout) (by norm_num)
  have := hD n hn
  unfold fanout at *
  omega

include hD hoff hbelow hkeys in
/-- **A level made again**: the nodes up to it are settled. -/
theorem rebuildLevel_spec (hl : l < p.depth) :
    Reindexed p (keys.toList.foldl (rebuildNode M l) p)
      ∧ (keys.toList.foldl (rebuildNode M l) p).SettledOff M D
      ∧ ∀ level < l + 1, ∀ key, (keys.toList.foldl (rebuildNode M l) p).Settled M level key := by
  obtain ⟨hre, hm, hr⟩ := foldl_rebuildNode (childrenRight hbelow) (keys_lt hD hkeys)
  -- a node that was not made again was not above a changed page
  have hk : ∀ level key, (level ≠ l ∨ ¬ Radix.Touched fanout D (level + 1) key) →
      p.Settled M level key →
      (keys.toList.foldl (rebuildNode M l) p).Settled M level key := by
    intro level key hor hs
    refine hre.settled hs (hr level key ?_)
    rcases eq_or_ne level l with rfl | hne
    · exact .inr fun hmem => hor.resolve_left (not_not.mpr rfl)
        ((hkeys key).mp (Std.ExtTreeSet.mem_toList.mp hmem))
    · exact .inl hne
  refine ⟨hre, fun level hle key ht => hk level key (.inr ht) (hoff level (hre.depth ▸ hle) key ht),
    fun level hle key => ?_⟩
  rcases Nat.lt_or_eq_of_le (Nat.lt_succ_iff.mp hle) with hlt | rfl
  · exact hk level key (.inl hlt.ne) (hbelow level hlt key)
  · by_cases ht : Radix.Touched fanout D (level + 1) key
    · exact hm key (Std.ExtTreeSet.mem_toList.mpr ((hkeys key).mpr ht))
    · exact hk level key (.inr ht) (hoff level hl key ht)

include hD hlm hoff hbelow hkeys in
/-- **The levels made again, from the bottom up.** Below the next level all nodes are settled, and
its nodes to make again are those above the changed pages. -/
theorem rebuildLevels_spec :
    Reindexed p (p.rebuildLevels M keys (range' l m))
      ∧ ∀ level < p.depth, ∀ key, (p.rebuildLevels M keys (range' l m)).Settled M level key := by
  induction m generalizing p l keys with
  | zero => exact ⟨.refl p, fun level hl key => hbelow level (by omega) key⟩
  | succ m ih =>
    obtain ⟨hre, hoff', hb'⟩ := rebuildLevel_spec hD hoff hbelow hkeys (by omega)
    have hlm' : l + 1 + m = (keys.toList.foldl (rebuildNode M l) p).depth := by
      rw [hre.depth]
      omega
    obtain ⟨hre', hall⟩ := ih hlm' hoff' hb' (mem_parents hkeys)
    rw [range'_succ, rebuildLevels]
    exact ⟨hre.trans hre', fun level hl => hall level (hre.depth.symm ▸ hl)⟩

end Levels

theorem rebuild_spec {changed : BTreeSet ℕ} (hD : ∀ n ∈ changed, n < 2 ^ 32)
    (hoff : p.SettledOff M {n | n ∈ changed}) :
    Reindexed p (p.rebuild M changed) ∧ ∀ level < p.depth, ∀ key,
    (p.rebuild M changed).Settled M level key := by
  unfold rebuild
  split
  · rename_i hz
    exact ⟨⟨rfl, List.Subset.refl _⟩, fun level hl => by omega⟩
  · rw [range_eq_range']
    have hp : ∀ k, k ∈ changed ↔ Radix.Touched fanout {n | n ∈ changed} 0 k := fun k => by
      simp [Radix.Touched]
    exact rebuildLevels_spec hD (by omega) hoff (fun level hl => by omega) (mem_parents hp)

end Pager

end Zephcraft.Sql
