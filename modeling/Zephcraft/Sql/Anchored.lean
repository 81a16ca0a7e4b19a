import Zephcraft.Sql.Snapshot

/-!
# Sql/Anchored — an open file and the file it departs from

Between two commits an open file departs from the one that was committed last: it has none of its
pages that the committed file has not, and where its index is not dirty, the two agree. All that it
needs of the store is in the objects of that file.
-/

namespace Zephcraft.Sql

/-! ## The objects of a file -/

namespace PageMap

variable {M : Medium} {m m' : PageMap} {store store' : ObjectStore} {c : B32}

theorem StoredIn.transfer (h : m.StoredIn M store)
    (hsub : ∀ data ∈ store.objects, M.hash data ∈ m.cids M → data ∈ store'.objects) :
    m.StoredIn M store' := by
  refine ⟨fun n data hn => hsub _ (h.pages n data hn) (.inr ⟨n, data, hn, rfl⟩),
    fun level key hl hne => hsub _ (h.nodes level key hl hne) ?_, hsub _ h.root (.inl (.inl rfl))⟩
  obtain ⟨cid, hcid⟩ := Option.ne_none_iff_exists'.mp hne
  rw [← Medium.eq_hash_of_tree hcid]
  exact .inl (.inr ⟨level, hl, key, hcid⟩)

theorem StoredIn.exists_object (h : m.StoredIn M store) (hc : c ∈ m.cids M) :
    ∃ data ∈ store.objects, M.hash data = c := by
  rcases hc with (rfl | ⟨level, hl, key, hkey⟩) | ⟨n, data, hn, rfl⟩
  · exact ⟨_, h.root, rfl⟩
  · exact ⟨_, h.nodes level key hl (by simp [hkey]), (Medium.eq_hash_of_tree hkey).symm⟩
  · exact ⟨_, h.pages n data hn, rfl⟩

/-- **Two stored files of one root have the same objects**, if one of them opens. -/
theorem StoredIn.cids_eq (h : m.StoredIn M store) (h' : m'.StoredIn M store) (hb : m.Bounded)
    (hb' : m'.Bounded) (hi : m.Indexed) (hf : store.Faithful M) (hz : store.Nonzero M)
    (hr : m.root M = m'.root M) :
    m'.Indexed ∧ m.cids M = m'.cids M := by
  obtain rfl := Pager.eq_of_root h h' hb hb' hi hf hz hr
  exact ⟨hi, rfl⟩

end PageMap

namespace Pager

variable {M : Medium} {p p' : Pager} {m : PageMap} {store : ObjectStore}

variable (M) in
/-- **The file departs from `m`** since its last commit. -/
structure Anchored (p : Pager) (m : PageMap) : Prop where
  depth : p.depth = depthFor m.pageCount
  pages : ∀ (n : ℕ) (cid : B32), p.pages[n]? = some cid → m.leaf M n = some cid
  clean : ∀ n ∉ p.dirtyIndex, p.leaf n = m.leaf M n

theorem Coherent.of_anchored (h : p.Coherent M) (ha : p.Anchored M m) (hs : m.StoredIn M store) :
    Coherent M { p with store := store } := by
  refine ⟨fun n cid hn => ?_, fun level hl key hk => ?_, h.buffered, h.bounded, h.touched, h.count⟩
  · obtain ⟨data, hd, hcid⟩ := PageMap.leaf_eq_some.mp (ha.pages n cid hn)
    exact ⟨data, hcid.symm, hs.pages n data hd⟩
  · -- a node above no dirty page is a node of `m`
    have ht : M.tree p.leaf (level + 1) key = M.tree (m.leaf M) (level + 1) key :=
      Radix.tree_of_untouched (by norm_num) ha.clean hk
    have ho : M.nodeObject p.leaf level key = M.nodeObject (m.leaf M) level key :=
      nodeObject_of_untouched ha.clean hk
    refine ⟨(h.nodes level hl key hk).cid, fun hne => ?_⟩
    exact ho ▸ hs.nodes level key (ha.depth ▸ hl) (ht ▸ hne)

theorem Coherent.anchored_file (h : p.Coherent M) (hf : p.store.Faithful M) (hd : p.dirty = ∅)
    (hde : p.depth = depthFor p.pageCount) : p.Anchored M (p.file M) where
  depth := hde
  pages n cid hn := by
    rw [h.leaf_file hf hd]
    exact hn
  clean n _ := by rw [h.leaf_file hf hd]

theorem Coherent.grows_commit (h : p.Coherent M) :
    (p.commit M).2.Coherent M ∧ p.store.objects ⊆ (p.commit M).2.store.objects := by
  have hr := h.rebuilt
  have hl : (p.rebuilt M).store.objects ⊆ (p.commit M).2.store.objects :=
    List.subset_append_left _ _
  exact ⟨hr.coherent h hl, List.Subset.trans (flush_grows p) (List.Subset.trans hr.grows hl)⟩

theorem Coherent.anchored_commit (h : p.Coherent M) (hf : (p.commit M).2.store.Faithful M) :
    (p.commit M).2.Anchored M (p.file M) := by
  have hc := h.commit hf
  have hr := h.rebuilt
  rw [← hc.file]
  refine hc.coherent.anchored_file hf ?_ ?_
  · rw [commit_eq, hr.dirty]
  · rw [commit_eq, hr.depth, hr.pageCount]

theorem anchored_openRoot (hb : m.Bounded) (hi : m.Indexed) (hs : m.StoredIn M store)
    (hf : store.Faithful M) (hp : openRoot M store (m.root M) = .ok p) :
    p.Coherent M ∧ p.Anchored M m := by
  obtain ⟨p', hp', hc, hfi, hst⟩ := openRoot_spec hb hi hs hf
  cases hp'.symm.trans hp
  obtain ⟨ri, loaded, hri, -, rfl⟩ := openRoot_eq_ok hp
  cases (hb.fetchRoot hf hs.root).symm.trans hri
  have ha := hc.anchored_file hf rfl rfl
  rw [hfi] at ha
  exact ⟨hc, ha⟩

theorem Anchored.writePage (h : p.Anchored M m) {n : ℕ} {data : Bytes}
    (hp : p.writePage n data = .ok p') :
    p'.Anchored M m := by
  obtain ⟨-, rfl⟩ := writePage_eq_ok.mp hp
  refine ⟨h.depth, h.pages, fun k hk => h.clean k fun hmem => hk ?_⟩
  exact Std.ExtTreeSet.mem_insert.mpr (.inr hmem)

theorem Anchored.writeAt (h : p.Anchored M m) {buf : Bytes} {offset : U64}
    (hp : p.writeAt M buf offset = .ok p') : p'.Anchored M m :=
  writeLoop_invariant (P := fun q => q.Anchored M m) (fun _ _ _ _ hq => hq.writePage) h hp

theorem Anchored.setPageCount (h : p.Anchored M m) (count : ℕ) :
    (p.setPageCount count).Anchored M m := by
  refine ⟨h.depth, fun n cid hn => ?_, fun n hn => ?_⟩
  · rw [getElem?_pages_setPageCount] at hn
    split at hn
    · exact h.pages n cid hn
    · simp at hn
  · rw [mem_dirtyIndex_setPageCount, not_or, not_and] at hn
    rw [← h.clean n hn.2, leaf, leaf, getElem?_pages_setPageCount]
    split
    · rfl
    · -- a page that was dropped would be in the dirty index
      by_contra hne
      refine hn.1 ?_ (not_lt.mp ‹_›)
      exact Std.ExtTreeMap.mem_iff_isSome_getElem?.mpr (Option.isSome_iff_ne_none.mpr (Ne.symm hne))

end Pager

end Zephcraft.Sql
