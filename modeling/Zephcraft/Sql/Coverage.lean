import Zephcraft.Sql.Anchored
import Zephcraft.Sql.CraftDb

/-!
# Sql/Coverage — the generations hold the database

Each generation has only what was new when it was made, and a compaction throws away everything that
the current root does not reach.
-/

namespace Zephcraft.Sql

open List Option Pager ObjectStore LazyReader Run

variable {M : Medium} {cfg : Config}

/-! ## A batch -/

namespace FileState

variable {file file' : FileState} {op : FileOp} {ops : List FileOp}

variable (M) in
/-- A file in order: it is coherent, and departs from the file of the root that was committed
last. -/
structure Good (file : FileState) : Prop where
  coherent : file.1.Coherent M
  anchored : ∀ root, file.2 = some root →
    ∃ m : PageMap, root = m.root M ∧ m.Bounded ∧ m.StoredIn M file.1.store ∧ file.1.Anchored M m

theorem apply_spec (hc : file.1.Coherent M) (h : file.apply M op = .ok file') :
    file'.1.Coherent M ∧ file.1.store.objects ⊆ file'.1.store.objects ∧ (file'.2 = none
      → file.2 = none) := by
  cases op with
  | writeAt buf offset =>
    obtain ⟨pager, hp, heq⟩ := Except.bind_eq_ok.mp h
    cases heq
    refine ⟨hc.writeAt hp, ?_, id⟩
    dsimp only
    rw [store_writeAt hp]
    exact List.Subset.refl _
  | setLen size =>
    cases h
    exact ⟨hc.setPageCount (Nat.mod_lt _ (by norm_num)), List.Subset.refl _, id⟩
  | sync =>
    cases h
    exact ⟨hc.grows_commit.1, hc.grows_commit.2, fun h => by cases h⟩

theorem batch_cons : file.batch M (op :: ops) = .ok file'
    ↔ ∃ mid, file.apply M op = .ok mid ∧ FileState.batch M mid ops = .ok file' := by
  rw [batch, foldlM_cons]
  exact Except.bind_eq_ok

theorem batch_spec (hc : file.1.Coherent M) (h : file.batch M ops = .ok file') :
    file'.1.Coherent M ∧ file.1.store.objects ⊆ file'.1.store.objects ∧ (file'.2 = none
      → file.2 = none) := by
  induction ops generalizing file with
  | nil =>
    cases h
    exact ⟨hc, List.Subset.refl _, id⟩
  | cons op ops ih =>
    obtain ⟨mid, hmid, hr⟩ := batch_cons.mp h
    obtain ⟨hco, hg, hro⟩ := apply_spec hc hmid
    obtain ⟨hc', hg', hr'⟩ := ih hco hr
    exact ⟨hc', List.Subset.trans hg hg', hro ∘ hr'⟩

theorem Good.apply (hg : file.Good M) (h : file.apply M op = .ok file')
    (hf : file'.1.store.Faithful M) :
    file'.Good M := by
  refine ⟨(apply_spec hg.coherent h).1, fun root hr => ?_⟩
  cases op with
  | writeAt buf offset =>
    obtain ⟨pager, hp, heq⟩ := Except.bind_eq_ok.mp h
    cases heq
    obtain ⟨m, hm, hb, hs, ha⟩ := hg.anchored root hr
    refine ⟨m, hm, hb, ?_, ha.writeAt hp⟩
    dsimp only
    rwa [store_writeAt hp]
  | setLen size =>
    cases h
    obtain ⟨m, hm, hb, hs, ha⟩ := hg.anchored root hr
    exact ⟨m, hm, hb, hs, ha.setPageCount _⟩
  | sync =>
    cases h
    cases hr
    have hc := hg.coherent.commit hf
    exact ⟨file.1.file M, hc.root, hg.coherent.bounded_file, hc.stored,
      hg.coherent.anchored_commit hf⟩

theorem Good.batch (hg : file.Good M) (h : file.batch M ops = .ok file')
    (hf : file'.1.store.Faithful M) :
    file'.Good M := by
  induction ops generalizing file with
  | nil =>
    cases h
    exact hg
  | cons op ops ih =>
    obtain ⟨mid, hmid, hr⟩ := batch_cons.mp h
    have hm := (batch_spec (apply_spec hg.coherent hmid).1 hr).2.1
    exact ih (hg.apply hmid (hf.mono hm)) hr

end FileState

/-! ## What the generations hold -/

variable {store store' durable durable' : ObjectStore} {disk disk' : Disk} {m : PageMap}
  {objects : List Packed} {g : B32}

variable (M) in
/-- The objects in the blobs of the durable store. -/
def ObjectStore.kept (durable : ObjectStore) : List Bytes :=
  durable.objects.flatMap fun blob => ((unpack M blob).toOption.getD []).map Prod.snd

variable (M) in
/-- What is assumed of the hashes and of the memory: no two objects or blobs have one hash, no
object has the hash zero, and every blob has a length. -/
structure Trusted (store durable : ObjectStore) : Prop where
  faithful : ObjectStore.Faithful M ⟨store.objects ++ durable.kept M⟩
  nonzero : store.Nonzero M
  blobs : durable.Faithful M
  sized : ∀ blob ∈ durable.objects, blob.length < 2 ^ 64

instance (store durable : ObjectStore) : Decidable (Trusted M store durable) :=
  decidable_of_iff (ObjectStore.Faithful M ⟨store.objects ++ durable.kept M⟩ ∧ store.Nonzero M
    ∧ durable.Faithful M ∧ ∀ blob ∈ durable.objects, blob.length < 2 ^ 64)
    ⟨fun ⟨h₁, h₂, h₃, h₄⟩ => ⟨h₁, h₂, h₃, h₄⟩, fun ⟨h₁, h₂, h₃, h₄⟩ => ⟨h₁, h₂, h₃, h₄⟩⟩

namespace Trusted

theorem mono (h : Trusted M store durable) (hsub : store'.objects ⊆ store.objects) :
    Trusted M store' durable where
  faithful := h.faithful.mono (append_subset.mpr
    ⟨fun _ hx => mem_append_left _ (hsub hx), subset_append_right _ _⟩)
  nonzero := h.nonzero.mono hsub
  blobs := h.blobs
  sized := h.sized

theorem faithful_store (h : Trusted M store durable) : store.Faithful M :=
  h.faithful.mono (subset_append_left _ _)

end Trusted

namespace ObjectStore

theorem Generation.mem_kept (h : durable.Generation M g objects) {e : Packed} (he : e ∈ objects) :
    e.2 ∈ durable.kept M := by
  obtain ⟨blob, hget, hu⟩ := h
  refine mem_flatMap.mpr ⟨blob, mem_of_find?_eq_some hget, ?_⟩
  rw [hu]
  exact List.mem_map_of_mem he

theorem Generation.mono (h : durable.Generation M g objects)
    (hsub : durable.objects ⊆ durable'.objects) (hf : durable'.Faithful M) :
    durable'.Generation M g objects := by
  obtain ⟨blob, hget, hu⟩ := h
  refine ⟨blob, ?_, hu⟩
  rw [← hash_of_get hget]
  exact hf.get_hash (hsub (mem_of_find?_eq_some hget))

theorem generation_pack (hmem : pack objects ∈ durable.objects) (ht : Trusted M store durable)
    (hh : ∀ e ∈ objects, M.hash e.2 = e.1) : durable.Generation M (M.hash (pack objects)) objects :=
  ⟨pack objects, ht.blobs.get_hash hmem, unpack_pack hh (ht.sized _ hmem)⟩

end ObjectStore

namespace Disk

variable (M) in
/-- A content id is in one of the generations that are listed. -/
def Packs (disk : Disk) (c : B32) : Prop :=
  ∃ g ∈ disk.manifest.generations, ∃ objects data, disk.durable.Generation M g objects
    ∧ (c, data) ∈ objects

variable (M) in
/-- The last root is that of `m`; the objects of `m` are stored, and packed. -/
structure Covers (disk : Disk) (m : PageMap) : Prop where
  root : disk.manifest.lastRoot = some (m.root M)
  bounded : m.Bounded
  indexed : m.Indexed
  stored : m.StoredIn M disk.store
  packs : ∀ c ∈ m.cids M, disk.Packs M c

variable (M) in
/-- **The invariant of the disk**: every generation listed is there, and if a root was swept, its
file is covered. -/
structure Covering (disk : Disk) : Prop where
  listed : ∀ g ∈ disk.manifest.generations, ∃ objects, disk.durable.Generation M g objects
  swept : disk.manifest.lastRoot ≠ none → ∃ m, disk.Covers M m

theorem Covers.of_store (h : disk.Covers M m) (hsub : disk.store.objects ⊆ store.objects) :
    Covers M { disk with store := store } m :=
  ⟨h.root, h.bounded, h.indexed, h.stored.mono hsub, h.packs⟩

theorem Covering.of_store (h : disk.Covering M) (hsub : disk.store.objects ⊆ store.objects) :
    Covering M { disk with store := store } :=
  ⟨h.listed, fun hne => (h.swept hne).imp fun _ hm => hm.of_store hsub⟩

end Disk

theorem indexed_of_reachable (hb : m.Bounded) (hs : m.StoredIn M store) (hf : store.Faithful M)
    (hz : store.Nonzero M) {out : List B32} (hout : reachable M store (m.root M) = .ok out) :
    m.Indexed ∧ ∀ c, c ∈ out ↔ c ∈ m.cids M := by
  have hi : m.Indexed := by
    by_contra hi
    simp [reachable_of_not_indexed hb hi hs hf hz] at hout
  obtain ⟨out', hout', hmem⟩ := reachable_spec hb hi hs hf
  cases hout'.symm.trans hout
  exact ⟨hi, hmem⟩

theorem Compacted.covers {live : List B32} (hc : Compacted M disk (m.root M) live objects disk')
    (hr : disk.manifest.lastRoot = some (m.root M)) (hb : m.Bounded) (hs : m.StoredIn M disk.store)
    (ht : Trusted M disk.store disk'.durable) :
    (∀ c, c ∈ live ↔ c ∈ m.cids M) ∧ disk'.Covers M m ∧ disk'.Covering M := by
  obtain ⟨hi, hl⟩ := indexed_of_reachable hb hs ht.faithful_store ht.nonzero hc.walked
  have hge : disk'.durable.Generation M (M.hash (pack objects)) objects :=
    generation_pack hc.durable ht fun e he => hash_of_get ((hc.packed e).mp he).2
  have hco : disk'.Covers M m := by
    refine ⟨?_, hb, hi, hs.transfer fun data hd hcid => ?_, fun c hcid => ?_⟩
    · rw [← hr]
      exact congrArg Prod.fst hc.swept
    · rw [hc.store]
      exact mem_filter.mpr ⟨hd, by simpa using (hl _).mpr hcid⟩
    · obtain ⟨data, hd, rfl⟩ := hs.exists_object hcid
      refine ⟨_, by rw [hc.generations]; exact mem_singleton.mpr rfl, objects, data, hge, ?_⟩
      exact (hc.packed _).mpr ⟨(hl _).mpr hcid, ht.faithful_store.get_hash hd⟩
  refine ⟨hl, hco, fun g hg => ?_, fun _ => ⟨m, hco⟩⟩
  rw [hc.generations] at hg
  rw [mem_singleton.mp hg]
  exact ⟨objects, hge⟩

/-- **A sweep covers the root it is made at**: what is not new is in the generations already. -/
theorem Swept.covers {seq : ℕ} {prev out : List B32}
    (hw : Swept M disk (m.root M) seq prev out objects disk')
    (hpr : disk.manifest.lastRoot.elim (.ok []) (reachable M disk.store) = .ok prev)
    (hout : reachable M disk.store (m.root M) = .ok out) (hc : disk.Covering M) (hb : m.Bounded)
    (hs : m.StoredIn M disk.store) (ht : Trusted M disk.store disk'.durable) :
    disk'.Covering M := by
  obtain ⟨hi, hmem⟩ := indexed_of_reachable hb hs ht.faithful_store ht.nonzero hout
  have hh : ∀ e ∈ objects, M.hash e.2 = e.1 := fun e he => hash_of_get ((hw.packed e).mp he).2.2
  have hold : disk.manifest.generations ⊆ disk'.manifest.generations := by
    rcases hw.generations with ⟨-, heq⟩ | ⟨heq, -⟩
    · rw [heq]
      exact List.Subset.refl _
    · rw [heq]
      exact subset_append_left _ _
  refine ⟨fun g hg => ?_, fun _ => ⟨m, congrArg Prod.fst hw.swept, hb, hi, hw.store ▸ hs,
    fun c hcid => ?_⟩⟩
  · have hca : g ∈ disk.manifest.generations ∨ g = M.hash (pack objects)
        ∧ pack objects ∈ disk'.durable.objects := by
      rcases hw.generations with ⟨-, heq⟩ | ⟨heq, hput⟩
      · exact .inl (heq ▸ hg)
      · rw [heq, mem_append, mem_singleton] at hg
        exact hg.imp_right fun hg => ⟨hg, hput⟩
    rcases hca with hg | ⟨rfl, hput⟩
    · obtain ⟨objects, hge⟩ := hc.listed g hg
      exact ⟨objects, hge.mono hw.durable ht.blobs⟩
    · exact ⟨objects, generation_pack hput ht hh⟩
  · by_cases hp : c ∈ prev
    · -- the root before had it
      have hne : disk.manifest.lastRoot ≠ none := by
        intro hn
        rw [hn] at hpr
        cases hpr
        cases hp
      obtain ⟨m₀, hm₀⟩ := hc.swept hne
      rw [hm₀.root] at hpr
      have hcid₀ :=
        ((indexed_of_reachable hm₀.bounded hm₀.stored ht.faithful_store ht.nonzero hpr).2 c).mp hp
      obtain ⟨g, hg, objects₀, data, hge, hin⟩ := hm₀.packs c hcid₀
      exact ⟨g, hold hg, objects₀, data, hge.mono hw.durable ht.blobs, hin⟩
    · obtain ⟨data, hd, rfl⟩ := hs.exists_object hcid
      have hin : (M.hash data, data) ∈ objects :=
        (hw.packed _).mpr ⟨(hmem _).mpr hcid, hp, ht.faithful_store.get_hash hd⟩
      rcases hw.generations with ⟨rfl, -⟩ | ⟨heq, hput⟩
      · cases hin
      · exact ⟨_, by rw [heq]; simp, objects, data, generation_pack hput ht hh, hin⟩

/-- **A sweep that goes through covers its root**, whether or not it ends in a compaction, and what
it leaves in the store is enough for the file. -/
theorem Disk.Covering.sweep {order : HashOrder} {faults : Faults} {seq : ℕ} (hc : disk.Covering M)
    (hd : cfg.durable = true) (hb : m.Bounded) (hs : m.StoredIn M disk.store)
    (hrun : sweepDurability M cfg order faults disk (m.root M) seq = (.ok (), disk'))
    (ht : Trusted M disk.store disk'.durable) :
    disk'.Covering M ∧ disk'.manifest.lastRoot = some (m.root M) ∧ m.StoredIn M disk'.store
      ∧ disk'.store.objects ⊆ disk.store.objects := by
  rcases sweepDurability_cases M cfg order faults disk (m.root M) seq with
    ⟨hn, hwhy⟩ | ⟨e, durable, hf⟩ | ⟨prev, out, objects, saved, hp, hout, hw, hsa⟩
  · obtain rfl := (Prod.mk.inj (hrun.symm.trans hn)).2
    exact ⟨hc, hwhy.resolve_left (by simp [hd]), hs, List.Subset.refl _⟩
  · cases (Prod.mk.inj (hrun.symm.trans hf)).1
  · have hr : saved.manifest.lastRoot = some (m.root M) := congrArg Prod.fst hw.swept
    rcases saveSwept_eq_ok (hsa.symm.trans hrun) with rfl | ⟨live, base, hco⟩
    · exact ⟨hw.covers hp hout hc hb hs ht, hr, hw.store ▸ hs, hw.store ▸ List.Subset.refl _⟩
    · rw [← hw.store] at hs ht ⊢
      obtain ⟨-, hcov, hcovering⟩ := hco.covers hr hb hs ht
      refine ⟨hcovering, hcov.root, hcov.stored, ?_⟩
      rw [hco.store]
      exact filter_subset_self _

theorem Disk.Covers.recover (h : disk.Covers M m) (hc : disk.Covering M)
    (ht : Trusted M disk.store disk.durable) :
    ∃ n restored, recoverOwner M disk.durable disk.manifest.generations ⟨[]⟩ = .ok (n, restored)
      ∧ restored.Faithful M ∧ m.StoredIn M restored := by
  obtain ⟨n, restored, hrun, ho, hall⟩ := recoverOwner_spec ⟨[]⟩ hc.listed
  have hk : restored.objects ⊆ disk.store.objects ++ disk.durable.kept M := by
    intro data hd
    rcases ho data hd with hd | ⟨g, -, objects, hge, e, he, rfl⟩
    · cases hd
    · exact mem_append_right _ (hge.mem_kept he)
  refine ⟨n, restored, hrun, ht.faithful.mono hk, h.stored.transfer fun data hd hcid => ?_⟩
  obtain ⟨g, hg, objects, data', hge, hin⟩ := h.packs _ hcid
  obtain ⟨found, hf, hh⟩ := hall g hg objects hge _ hin
  -- what was found has the hash of what was stored
  obtain rfl := ht.faithful found (hk hf) data (mem_append_left _ hd) hh
  exact hf

/-! ## The owner's database -/

namespace World

variable (M cfg) in
/-- What is stored when the batch of a write is done, or a root was copied; before a sweep may drop
some. -/
def reached (w : World) : Event → ObjectStore
  | .openAs h resolved source => (w.openAs M cfg h resolved source).2.disk.store
  | .write h ops _ _ _ =>
    ((w.handles h).bind fun db => ((w.file db).batch M ops).toOption).elim w.disk.store fun file =>
      file.1.store
  | .compact .. | .restart => w.disk.store

variable (M cfg) in
/-- The use of one writable database: it is opened, written and left. A head that is not the
sidecar's is that of some file, which was copied. -/
def Routine (w : World) : Event → Prop
  | .openAs h resolved source => h = 0 ∧ ∀ root seq, w.disk.manifest.lastRoot = none →
    resolved = .ok (some (root, seq)) → ∃ m : PageMap, root = m.root M ∧ m.Bounded
      ∧ m.StoredIn M (w.reached M cfg (.openAs h resolved source))
  | .write h .. => h = 0
  | .compact .. => False
  | .restart => True

variable (M cfg) in
/-- A step of such a use that goes through. -/
structure Succeeds (w : World) (e : Event) : Prop where
  routine : w.Routine M cfg e
  ok : (w.exec M cfg e).1 = .ok ()
  trusted : Trusted M (w.reached M cfg e) (w.step M cfg e).disk.durable

variable (M) in
/-- **The invariant**: the disk is covered, and an open database is in order and at the last
root. -/
structure Sound (w : World) : Prop where
  trusted : Trusted M w.disk.store w.disk.durable
  covering : w.disk.Covering M
  handle : ∀ db, w.handles 0 = some db →
    (w.file db).Good M ∧ (w.disk.manifest.lastRoot ≠ none → w.root = w.disk.manifest.lastRoot)

section Steps

variable {w : World} {resolved : Resolved} {source : Option (Stream' Reply)} {ops : List FileOp}
  {sqlFails : Bool} {faults : Faults} {order : HashOrder}

theorem head_of_lastRoot {root : B32} (h : w.disk.manifest.lastRoot = some root) :
    w.head resolved = .ok (some (root, w.disk.manifest.seq)) := by
  rw [head, h]

theorem head_of_none (h : w.disk.manifest.lastRoot = none) : w.head resolved = resolved := by
  rw [head, h]

theorem Sound.openAs (hs : w.Sound M) (hw : w.Succeeds M cfg (.openAs 0 resolved source)) :
    (w.openAs M cfg 0 resolved source).2.Sound M := by
  have ht := hw.trusted
  have hg := hw.routine.2
  have hok := hw.ok
  simp only [step, exec, reached] at ht hg hok
  generalize hrun : w.openAs M cfg 0 resolved source = result at ht hg hok
  obtain ⟨_, w'⟩ := result
  obtain rfl : _ = Except.ok () := hok
  rcases openAs_eq_ok hrun with ⟨hh, rfl⟩ | ⟨root, seq, store, pager, hh, hsub, hp, rfl⟩
  · refine ⟨ht, hs.covering, fun db hdb => ?_⟩
    obtain rfl : _ = db := by simpa using hdb
    refine ⟨⟨(coherent_create _).setWrappedDek _, fun _ h => by cases h⟩, fun hne => ?_⟩
    obtain ⟨root, hro⟩ : ∃ root, w.disk.manifest.lastRoot = some root := ne_none_iff_exists'.mp hne
    rw [head_of_lastRoot hro] at hh
    cases hh
  · have hfi : ∃ m : PageMap, root = m.root M ∧ m.Bounded ∧ m.StoredIn M store := by
      cases hl : w.disk.manifest.lastRoot with
      | none => exact hg root seq hl ((head_of_none hl).symm.trans hh)
      | some last =>
        obtain ⟨m, hm⟩ := hs.covering.swept (by simp [hl])
        rw [head_of_lastRoot hm.root] at hh
        cases hh
        exact ⟨m, rfl, hm.bounded, hm.stored.mono hsub⟩
    obtain ⟨m, rfl, hb, hst⟩ := hfi
    have hf : store.Faithful M := ht.faithful_store
    have hi : m.Indexed := by
      by_contra hi
      rw [openRoot_of_not_indexed hb hi hst hf ht.nonzero] at hp
      cases hp
    obtain ⟨hc, ha⟩ := anchored_openRoot hb hi hst hf hp
    refine ⟨ht, hs.covering.of_store hsub, fun db hdb => ?_⟩
    obtain rfl : _ = db := by simpa using hdb
    have hgo : FileState.Good M (pager, some (m.root M)) := by
      refine ⟨hc, fun r hr => ?_⟩
      cases hr
      exact ⟨m, rfl, hb, store_openRoot hp ▸ hst, ha⟩
    have hsto : { pager with store := store } = pager := by
      rw [← store_openRoot hp]
    refine ⟨?_, fun hne => ?_⟩
    · change FileState.Good M ({ pager with store := store }, some (m.root M))
      rwa [hsto]
    · obtain ⟨last, hl⟩ : ∃ last, w.disk.manifest.lastRoot = some last := ne_none_iff_exists'.mp hne
      rw [head_of_lastRoot hl] at hh
      cases hh
      exact hl.symm

theorem Sound.write (hs : w.Sound M) (hd : cfg.durable = true)
    (hw : w.Succeeds M cfg (.write 0 ops sqlFails faults order)) :
    (w.write M cfg 0 ops sqlFails faults order).2.Sound M := by
  have ht := hw.trusted
  have hok := hw.ok
  simp only [step, exec, reached] at ht hok
  rcases write_cases M cfg w 0 ops sqlFails faults order with
    ⟨hrun, -⟩ | ⟨db, hdb, hrun | ⟨file, hba, hrun | ⟨hrun, hsa⟩ | ⟨root, -, hro, hne, hrun⟩⟩⟩
  · rw [hrun] at hok
    cases hok
  · rw [hrun] at hok
    cases hok
  · rw [hrun] at hok
    cases hok
  · obtain ⟨hg, hl⟩ := hs.handle db hdb
    obtain ⟨-, hgr, hk⟩ := FileState.batch_spec hg.coherent hba
    rw [hrun] at ht ⊢
    simp only [hdb, hba, bind_some, Except.toOption, elim_some] at ht
    refine ⟨ht, hs.covering.of_store hgr, fun db' hdb' => ?_⟩
    obtain rfl : _ = db' := by simpa [afterBatch] using hdb'
    refine ⟨hg.batch hba ht.faithful_store, fun hne => ?_⟩
    change file.2 = w.disk.manifest.lastRoot
    rw [← hl hne]
    rcases hsa with hn | hro
    · rw [hn]
      exact (hk hn).symm
    · exact hro.symm
  · obtain ⟨hg, -⟩ := hs.handle db hdb
    obtain ⟨-, hgr, -⟩ := FileState.batch_spec hg.coherent hba
    rw [hrun] at ht hok ⊢
    simp only [hdb, hba, bind_some, Except.toOption, elim_some] at ht
    have hg' := hg.batch hba (ht.faithful_store)
    obtain ⟨m, rfl, hb, hst, ha⟩ := hg'.anchored root hro
    have hsw : sweepDurability M cfg order faults { w.disk with store := file.1.store } (m.root M)
          (db.seq + 1) = (.ok (), _) := Prod.ext hok rfl
    obtain ⟨hc, hl, hst', hsub⟩ := (hs.covering.of_store hgr).sweep hd hb hst hsw ht
    refine ⟨ht.mono hsub, hc, fun db' hdb' => ?_⟩
    obtain rfl : _ = db' := by simpa [publishRoot, afterBatch] using hdb'
    refine ⟨⟨hg'.coherent.of_anchored ha hst', fun r hr => ?_⟩, fun _ => hro.trans hl.symm⟩
    cases hro.symm.trans hr
    exact ⟨m, rfl, hb, hst', ha.depth, ha.pages, ha.clean⟩

theorem Sound.step (hd : cfg.durable = true) {e : Event} (hs : w.Sound M)
    (hw : w.Succeeds M cfg e) :
    (w.step M cfg e).Sound M := by
  cases e with
  | openAs h resolved source =>
    obtain rfl : h = 0 := hw.routine.1
    exact hs.openAs hw
  | write h ops sqlFails faults order =>
    obtain rfl : h = 0 := hw.routine
    exact hs.write hd hw
  | compact resolved faults order => exact hw.routine.elim
  | restart => exact ⟨hs.trusted, hs.covering, fun _ h => by cases h⟩

end Steps

variable (M) in
/-- **The database can be recovered**: what the last root reaches is in the generations listed; and
a store that is rebuilt from them opens at the last root, with every page of the local one. -/
def Recoverable (w : World) : Prop :=
  ∀ root, w.disk.manifest.lastRoot = some root →
    (∃ out, reachable M w.disk.store root = .ok out ∧ ∀ c ∈ out, w.disk.Packs M c)
    ∧ ∃ n restored p p', recoverOwner M w.disk.durable w.disk.manifest.generations ⟨[]⟩
      = .ok (n, restored) ∧ openRoot M w.disk.store root = .ok p ∧ openRoot M restored root = .ok p'
      ∧ p'.pageCount = p.pageCount ∧ ∀ k, p'.readPage M k = p.readPage M k

theorem sound_fresh : (World.fresh ⟨⟨[]⟩, ⟨[]⟩, .empty⟩).Sound M := by
  refine ⟨⟨?_, ?_, ?_, ?_⟩, ⟨?_, ?_⟩, ?_⟩ <;>
    simp [fresh, GenManifest.empty, ObjectStore.Faithful, ObjectStore.Nonzero, ObjectStore.kept]

theorem Sound.recoverable {w : World} (hs : w.Sound M) : w.Recoverable M := by
  intro root hr
  obtain ⟨m, hm⟩ := hs.covering.swept (by simp [hr])
  obtain rfl : m.root M = root := Option.some.inj (hm.root.symm.trans hr)
  have hf := hs.trusted.faithful_store
  obtain ⟨out, hout, hmem⟩ := reachable_spec hm.bounded hm.indexed hm.stored hf
  obtain ⟨n, restored, hrun, hf', hst⟩ := hm.recover hs.covering hs.trusted
  obtain ⟨p, hp, hco, hfi, hsto⟩ := openRoot_spec hm.bounded hm.indexed hm.stored hf
  obtain ⟨p', hp', hc', hfi', hs'⟩ := openRoot_spec hm.bounded hm.indexed hst hf'
  have hsa : p'.file M = p.file M := hfi'.trans hfi.symm
  refine ⟨⟨out, hout, fun c hc => hm.packs c ((hmem c).mp hc)⟩, n, restored, p, p', hrun, hp, hp',
    congrArg PageMap.pageCount hsa, fun k => ?_⟩
  have hcon : p'.content M k = p.content M k := congrFun (congrArg PageMap.content hsa) k
  rw [hc'.readPage (hs' ▸ hf'), hco.readPage (hsto ▸ hf), hcon]

/-- **The generations always cover the database**: in every state of a run of one writable database
in which every step goes through, it can be recovered, and where it is open, what can be recovered
is what it is at. -/
theorem recoverable_of_succeeds (hdurable : cfg.durable = true) (l : List Event)
    (hl : EachStep (World.step M cfg) (World.fresh ⟨⟨[]⟩, ⟨[]⟩, .empty⟩) (World.Succeeds M cfg) l) :
    EachState (World.step M cfg) (World.fresh ⟨⟨[]⟩, ⟨[]⟩, .empty⟩) (fun w => w.Recoverable M
        ∧ (w.handles 0 ≠ none → w.disk.manifest.lastRoot ≠ none
          → w.root = w.disk.manifest.lastRoot)) l := by
  refine eachState_of_invariant sound_fresh (fun w e hs hw => hs.step hdurable hw) (fun w hs =>
    ⟨hs.recoverable, ?_⟩) hl
  intro hopen
  obtain ⟨db, hdb⟩ := ne_none_iff_exists'.mp hopen
  exact (hs.handle db hdb).2

/-- An owner with a durable store, and without a store of manifests. -/
def durableOnly : Config := ⟨true, false, (create ⟨[]⟩).wrappedDek⟩

/-- A database of one page is copied from another device of the owner, and grown twice. -/
def grownTwice : List Event :=
  [.openAs 0 (.ok (some ((onePage.commit publicMedium).1, 4)))
      (some (LazyReader.served (.ok (some [7]))).replies),
    .write 0 [.setLen 32768, .sync] false .none .plain,
    .write 0 [.setLen 49152, .sync] false .none .plain]

theorem succeeds_grownTwice :
    EachStep (World.step publicMedium durableOnly) (World.fresh ⟨⟨[]⟩, ⟨[]⟩, .empty⟩)
    (World.Succeeds publicMedium durableOnly) grownTwice := by
  have hw : (create ⟨[]⟩).writePage 0 [7] = .ok onePage := rfl
  have hco : onePage.Coherent publicMedium := (coherent_create ⟨[]⟩).writePage hw
  have hc := hco.commit (by decide +kernel)
  rw [grownTwice, eachStep_cons, eachStep_cons, eachStep_cons]
  refine ⟨⟨⟨rfl, fun root seq _ h => ?_⟩, by decide +kernel, by decide +kernel⟩,
    ⟨rfl, by decide +kernel, by decide +kernel⟩, ⟨rfl, by decide +kernel, by decide +kernel⟩,
    eachStep_nil⟩
  obtain ⟨rfl, -⟩ := Prod.mk.inj (Option.some.inj (Except.ok.inj h))
  -- all that was committed there has been copied
  have hcop : ∀ data ∈ (onePage.commit publicMedium).2.store.objects,
      data ∈ (reached publicMedium durableOnly (World.fresh ⟨⟨[]⟩, ⟨[]⟩, .empty⟩)
        (.openAs 0 (.ok (some ((onePage.commit publicMedium).1, 4)))
          (some (LazyReader.served (.ok (some [7]))).replies))).objects := by decide +kernel
  exact ⟨_, hc.root, hco.bounded_file, hc.stored.mono fun data => hcop data⟩

/-- The second generation has only what the second write added. -/
theorem recoverable_of_succeeds_grownTwice :
    (run (World.step publicMedium durableOnly) (World.fresh ⟨⟨[]⟩, ⟨[]⟩, .empty⟩)
      grownTwice).disk.manifest.generations.length = 2
    ∧ EachState (World.step publicMedium durableOnly) (World.fresh ⟨⟨[]⟩, ⟨[]⟩, .empty⟩)
      (fun w => w.Recoverable publicMedium ∧ (w.handles 0 ≠ none → w.disk.manifest.lastRoot ≠ none
          → w.root = w.disk.manifest.lastRoot)) grownTwice :=
  ⟨by decide +kernel, recoverable_of_succeeds rfl grownTwice succeeds_grownTwice⟩

end World

end Zephcraft.Sql
