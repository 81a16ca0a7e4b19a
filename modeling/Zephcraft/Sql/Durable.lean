import Zephcraft.Sql.Snapshot

/-!
# Sql/Durable — generations of a database

What a commit added to a database is packed into one blob, a generation, and given to a store that
does not lose it. A sidecar file lists the generations, with the root up to which they go.
-/

namespace Zephcraft.Sql

open List ObjectStore Reader Pager

/-- How a database call fails. -/
inductive DbError where
  | sql (e : SqlError)
  | sqlite
  | panicked
  | noHandle
  | noDurableStore
  | noHead
  | headStore
  | durableStore
  | sync
  | malformedGeneration
  | hashMismatch (cid : B32)
  | lostGeneration (cid : B32)
deriving DecidableEq

/-! ## Generations -/

abbrev Packed := B32 × Bytes

def encodePacked (e : Packed) : Bytes := e.1.toBytes ++ lengthPrefixed e.2

def pack (objects : List Packed) : Bytes := varint objects.length ++ objects.flatMap encodePacked

def readPacked : Reader (List Packed) := do
  let n ← uint 64
  times (do
    let cid ← bytes32
    let data ← framed
    pure (cid, data)) n

def unpack (M : Medium) (blob : Bytes) : Except DbError (List Packed) :=
  match readPacked.run blob with
  | none => .error .malformedGeneration
  | some (objects, _) =>
    match objects.find? fun e => M.hash e.2 ≠ e.1 with
    | some e => .error (.hashMismatch e.1)
    | none => .ok objects

/-- The list of generations, which is an object of the durable store too. -/
def encodeGenerations (generations : List B32) : Bytes :=
  varint generations.length ++ generations.flatMap B32.toBytes

namespace ObjectStore

variable (M : Medium)

def list (store : ObjectStore) : List B32 := (store.objects.map M.hash).dedup

def delete (store : ObjectStore) (cid : B32) : ObjectStore :=
  ⟨store.objects.filter fun data => M.hash data ≠ cid⟩

end ObjectStore

/-! ## The sidecar -/

/-- The sidecar file: the root the generations go up to with its sequence number, the generations,
and where their list was published. -/
structure GenManifest where
  lastRoot : Option B32
  seq : ℕ
  generations : List B32
  manifestCid : Option B32
  manifestSeq : ℕ

def GenManifest.empty : GenManifest := ⟨none, 0, [], none, 0⟩

/-- What of a database outlives a process. -/
structure Disk where
  store : ObjectStore
  durable : ObjectStore
  manifest : GenManifest

/-- What a database is configured with: a durable store, a store of manifests, and the wrapped key
of a private database. -/
structure Config where
  durable : Bool
  manifests : Bool
  wrappedDek : WrappedDek

/-- Which of the puts of a call fail, of a sweep and of a compaction. -/
structure Faults where
  fresh : Bool
  list : Bool
  base : Bool
  baseList : Bool

def Faults.none : Faults := ⟨false, false, false, false⟩

/-- An order in which a hash set is gone through. -/
structure HashOrder where
  enumerate : List B32 → List B32
  perm : ∀ l, (enumerate l).Perm l.dedup

def HashOrder.plain : HashOrder := ⟨List.dedup, fun _ => List.Perm.refl _⟩

section Operations

variable (M : Medium) (cfg : Config)

def ObjectStore.packed (store : ObjectStore) (cids : List B32) : List Packed :=
  cids.filterMap fun cid => (store.get M cid).map fun data => (cid, data)

/-- Publish the list of generations where there is a store of manifests. `none` is a failed put. -/
def announceList (fails : Bool) (durable : ObjectStore) (manifest : GenManifest) :
    Option (ObjectStore × GenManifest) :=
  if cfg.manifests then
    if fails then none
    else
      let put := durable.put M (encodeGenerations manifest.generations)
      some (put.2, { manifest with manifestCid := some put.1, manifestSeq := manifest.manifestSeq
        + 1 })
  else some (durable, manifest)

/-- Fold the generations into one of what a root reaches, and drop everything else. -/
def runCompaction (order : HashOrder) (faults : Faults) (disk : Disk) (root : B32) :
    Except DbError ℕ × Disk :=
  if disk.manifest.generations.length ≤ 1 then (.ok 0, disk)
  else
    match reachable M disk.store root with
    | .error e => (.error (.sql e), disk)
    | .ok live =>
      if faults.base then (.error .durableStore, disk)
      else
        let base := disk.durable.put M (pack (disk.store.packed M (order.enumerate live)))
        match announceList M cfg faults.baseList base.2
          { disk.manifest with generations := [base.1] } with
        | none => (.error .durableStore, { disk with durable := base.2 })
        | some (durable, manifest) =>
          let old := disk.manifest.generations.filter (· ≠ base.1)
          let dead := (disk.store.list M).filter (· ∉ live)
          (.ok dead.length,
            ⟨dead.foldl (delete M) disk.store, old.foldl (delete M) durable, manifest⟩)

def compactThreshold : ℕ := 16

/-- Save the sidecar, and compact if there are many generations. -/
def saveSwept (order : HashOrder) (faults : Faults) (disk : Disk) (root : B32) :
    Except DbError Unit × Disk :=
  if compactThreshold ≤ disk.manifest.generations.length then
    let compacted := runCompaction M cfg order faults disk root
    (compacted.1.map fun _ => (), compacted.2)
  else (.ok (), disk)

/-- Give what a root reaches and the last one did not to the durable store. -/
def sweepDurability (order : HashOrder) (faults : Faults) (disk : Disk) (root : B32) (seq : ℕ) :
    Except DbError Unit × Disk :=
  if cfg.durable = false ∨ disk.manifest.lastRoot = some root then (.ok (), disk)
  else
    match (disk.manifest.lastRoot.elim (.ok []) (reachable M disk.store)),
        reachable M disk.store root with
    | .error e, _ => (.error (.sql e), disk)
    | _, .error e => (.error (.sql e), disk)
    | .ok prev, .ok out =>
      let fresh := disk.store.packed M (out.filter (· ∉ prev))
      let manifest := { disk.manifest with lastRoot := some root, seq := seq }
      if fresh = [] then saveSwept M cfg order faults { disk with manifest := manifest } root
      else if faults.fresh then (.error .durableStore, disk)
      else
        let put := disk.durable.put M (pack fresh)
        match announceList M cfg faults.list put.2
            { manifest with generations := manifest.generations ++ [put.1] } with
        | none => (.error .durableStore, { disk with durable := put.2 })
        | some (durable, manifest) => saveSwept M cfg order faults ⟨disk.store, durable,
          manifest⟩ root

/-- Put an object back, if it is missing. -/
def restoreObject (state : ℕ × ObjectStore) (e : Packed) : Except DbError (ℕ × ObjectStore) :=
  if (state.2.get M e.1).isSome then .ok state
  else
    let put := state.2.put M e.2
    if put.1 ≠ e.1 then .error (.hashMismatch e.1) else .ok (state.1 + 1, put.2)

/-- Put the objects of a generation back. -/
def restore (state : ℕ × ObjectStore) (objects : List Packed) : Except DbError (ℕ × ObjectStore) :=
  objects.foldlM (restoreObject M) state

def recoverGeneration (durable : ObjectStore) (state : ℕ × ObjectStore) (g : B32) :
    Except DbError (ℕ × ObjectStore) :=
  match durable.get M g with
  | none => throw (.lostGeneration g)
  | some blob => do
    let objects ← unpack M blob
    restore M state objects

/-- Rebuild a store from generations; the number is that of the objects that were put. -/
def recoverOwner (durable : ObjectStore) (generations : List B32) (store : ObjectStore) :
    Except DbError (ℕ × ObjectStore) :=
  generations.foldlM (recoverGeneration M durable) (0, store)

end Operations

/-! ## What is packed is unpacked -/

variable {M : Medium} {cfg : Config} {store durable : ObjectStore} {disk disk' : Disk}
  {objects : List Packed}

theorem length_le_length_flatMap {α : Type} {f : α → Bytes} {l : List α} {a : α} (ha : a ∈ l) :
    (f a).length ≤ (l.flatMap f).length := by
  rw [length_flatMap]
  exact single_le_sum (by simp) _ (mem_map_of_mem ha)

/-- **A generation gives its objects back**, if they have the content ids they are packed under. -/
theorem unpack_pack (hh : ∀ e ∈ objects, M.hash e.2 = e.1) (hs : (pack objects).length < 2 ^ 64) :
    unpack M (pack objects) = .ok objects := by
  rw [pack, length_append] at hs
  have hc : objects.length < 2 ^ 64 := by
    refine lt_of_le_of_lt ?_ (lt_of_le_of_lt (Nat.le_add_left _ _) hs)
    rw [length_flatMap]
    have hone : ∀ n ∈ objects.map fun e => (encodePacked e).length, 1 ≤ n := by
      intro n hn
      obtain ⟨e, -, rfl⟩ := mem_map.mp hn
      simp [encodePacked, B32.toBytes]
      omega
    simpa using card_nsmul_le_sum _ 1 hone
  have hr : Reads readPacked (pack objects) objects := by
    rw [pack]
    refine (reads_uint (by norm_num) hc).bind (reads_times fun e he => ?_)
    have hle := length_le_length_flatMap (f := encodePacked) he
    have hf : e.2.length < 2 ^ 64 := by
      have hd : e.2.length ≤ (encodePacked e).length := by
        simp only [encodePacked, lengthPrefixed, length_append]
        omega
      omega
    rw [encodePacked, ← append_nil (lengthPrefixed e.2)]
    exact (reads_bytes32 e.1).bind ((reads_framed hf).bind (.pure e))
  have hrun := hr []
  rw [append_nil] at hrun
  have hno : objects.find? (fun e => M.hash e.2 ≠ e.1) = none :=
    find?_eq_none.mpr fun e he => by simpa using hh e he
  rw [unpack, hrun]
  dsimp only
  rw [hno]

theorem hash_of_unpack {blob : Bytes} (h : unpack M blob = .ok objects) {e : Packed}
    (he : e ∈ objects) :
    M.hash e.2 = e.1 := by
  rw [unpack] at h
  split at h
  · cases h
  · split at h
    · cases h
    · next hn =>
      cases h
      simpa using find?_eq_none.mp hn e he

namespace ObjectStore

theorem mem_packed {cids : List B32} {e : Packed} :
    e ∈ store.packed M cids ↔ e.1 ∈ cids ∧ store.get M e.1 = some e.2 := by
  rw [packed, mem_filterMap]
  constructor
  · rintro ⟨cid, hcid, heq⟩
    obtain ⟨data, hd, rfl⟩ := Option.map_eq_some_iff.mp heq
    exact ⟨hcid, hd⟩
  · rintro ⟨hcid, hd⟩
    exact ⟨e.1, hcid, by rw [hd]; rfl⟩

theorem objects_foldl_delete (cids : List B32) : (cids.foldl (delete M) store).objects
    = store.objects.filter fun data => M.hash data ∉ cids := by
  induction cids generalizing store with
  | nil => simp
  | cons cid cids ih =>
    rw [foldl_cons, ih, delete, filter_filter]
    refine filter_congr fun data _ => ?_
    simp [Bool.and_comm]

theorem objects_collect (live : List B32) :
    (((store.list M).filter (· ∉ live)).foldl (delete M) store).objects
      = store.objects.filter fun data => M.hash data ∈ live := by
  rw [objects_foldl_delete]
  refine filter_congr fun data hd => ?_
  have hl : M.hash data ∈ store.list M := by
    rw [list, List.mem_dedup]
    exact mem_map_of_mem hd
  simp [mem_filter, hl]

end ObjectStore

/-! ## What a sweep and a compaction do -/

variable {order : HashOrder} {faults : Faults} {root : B32} {seq : ℕ}

theorem announceList_eq_some {fails : Bool} {durable' : ObjectStore}
    {manifest manifest' : GenManifest}
    (h : announceList M cfg fails durable manifest = some (durable', manifest')) :
    durable.objects ⊆ durable'.objects ∧ manifest'.generations = manifest.generations
      ∧ manifest'.lastRoot = manifest.lastRoot ∧ manifest'.seq = manifest.seq := by
  rw [announceList] at h
  split_ifs at h
  · cases h
    exact ⟨subset_append_left _ _, rfl, rfl, rfl⟩
  · cases h
    exact ⟨List.Subset.refl _, rfl, rfl, rfl⟩

/-- The root that was swept, and its number. -/
def Disk.swept (disk : Disk) : Option B32 × ℕ := (disk.manifest.lastRoot, disk.manifest.seq)

/-- A compaction that went through: one generation of what the root reaches, and of the local
objects those that it reaches. -/
structure Compacted (M : Medium) (disk : Disk) (root : B32) (live : List B32)
    (objects : List Packed) (disk' : Disk) : Prop where
  walked : reachable M disk.store root = .ok live
  packed : ∀ e, e ∈ objects ↔ e.1 ∈ live ∧ disk.store.get M e.1 = some e.2
  store : disk'.store.objects = disk.store.objects.filter fun data => M.hash data ∈ live
  durable : pack objects ∈ disk'.durable.objects
  generations : disk'.manifest.generations = [M.hash (pack objects)]
  swept : disk'.swept = disk.swept

/-- **What a compaction can do**: nothing, where there is nothing to fold; fail, leaving the
sidecar; or go through. -/
theorem runCompaction_cases (M : Medium) (cfg : Config) (order : HashOrder) (faults : Faults)
    (disk : Disk) (root : B32) :
    runCompaction M cfg order faults disk root = (.ok 0, disk) ∧ disk.manifest.generations.length
      ≤ 1 ∨ (∃ e durable, runCompaction M cfg order faults disk root
        = (.error e, { disk with durable := durable }) ∧ disk.durable.objects ⊆ durable.objects)
      ∨ ∃ n live objects disk', runCompaction M cfg order faults disk root = (.ok n, disk')
        ∧ Compacted M disk root live objects disk' := by
  rw [runCompaction]
  split
  · exact .inl ⟨rfl, ‹_›⟩
  refine .inr ?_
  split
  · exact .inl ⟨_, _, rfl, List.Subset.refl _⟩
  next live hli =>
  split
  · exact .inl ⟨_, _, rfl, List.Subset.refl _⟩
  dsimp only
  split
  · exact .inl ⟨_, _, rfl, subset_append_left _ _⟩
  next durable manifest hl =>
  obtain ⟨hgr, hg, hr, hseq⟩ := announceList_eq_some hl
  refine .inr ⟨_, live, disk.store.packed M (order.enumerate live), _, rfl, hli, fun e => ?_, ?_,
    ?_, hg, Prod.ext hr hseq⟩
  · rw [mem_packed, (order.perm live).mem_iff, List.mem_dedup]
  · exact objects_collect live
  · -- the base is not among the generations that are dropped
    rw [objects_foldl_delete]
    exact mem_filter.mpr ⟨hgr (by simp), by simp⟩

theorem runCompaction_eq_ok {n : ℕ}
    (h : runCompaction M cfg order faults disk root = (.ok n, disk')) :
    disk' = disk ∧ disk.manifest.generations.length ≤ 1
      ∨ ∃ live objects, Compacted M disk root live objects disk' := by
  rcases runCompaction_cases M cfg order faults disk root with
    ⟨hrun, hfew⟩ | ⟨e, durable, hrun, -⟩ | ⟨_, live, objects, _, hrun, hc⟩
  · exact .inl ⟨(Prod.mk.inj (h.symm.trans hrun)).2, hfew⟩
  · cases (Prod.mk.inj (h.symm.trans hrun)).1
  · cases h.symm.trans hrun
    exact .inr ⟨live, objects, hc⟩

theorem swept_runCompaction (disk : Disk) (root : B32) :
    (runCompaction M cfg order faults disk root).2.swept = disk.swept := by
  rcases runCompaction_cases M cfg order faults disk root with
    ⟨hrun, -⟩ | ⟨e, durable, hrun, -⟩ | ⟨n, live, objects, disk', hrun, hc⟩
  · rw [hrun]
  · rw [hrun]
    rfl
  · rw [hrun, hc.swept]

/-- A sweep up to the point where the sidecar is saved: what is new is a generation, unless there is
nothing. -/
structure Swept (M : Medium) (disk : Disk) (root : B32) (seq : ℕ) (prev out : List B32)
    (objects : List Packed) (disk' : Disk) : Prop where
  packed : ∀ e, e ∈ objects ↔ e.1 ∈ out ∧ e.1 ∉ prev ∧ disk.store.get M e.1 = some e.2
  store : disk'.store = disk.store
  durable : disk.durable.objects ⊆ disk'.durable.objects
  generations : objects = [] ∧ disk'.manifest.generations = disk.manifest.generations
    ∨ disk'.manifest.generations = disk.manifest.generations ++ [M.hash (pack objects)]
      ∧ pack objects ∈ disk'.durable.objects
  swept : disk'.swept = (some root, seq)

theorem saveSwept_eq_ok (h : saveSwept M cfg order faults disk root = (.ok (), disk')) :
    disk' = disk ∨ ∃ live objects, Compacted M disk root live objects disk' := by
  rw [saveSwept] at h
  split_ifs at h
  · obtain ⟨hok, hd⟩ := Prod.mk.inj h
    generalize hrun : runCompaction M cfg order faults disk root = compacted at hok hd
    rcases compacted with ⟨e | n, disk''⟩
    · cases hok
    · obtain rfl : disk'' = disk' := hd
      exact (runCompaction_eq_ok hrun).imp_left And.left
  · exact .inl (Prod.mk.inj h).2.symm

theorem swept_saveSwept (disk : Disk) (root : B32) :
    (saveSwept M cfg order faults disk root).2.swept = disk.swept := by
  rw [saveSwept]
  split_ifs
  · exact swept_runCompaction disk root
  · rfl

/-- **What a sweep can do**: nothing; fail, leaving the sidecar; or save it, and then perhaps
compact. -/
theorem sweepDurability_cases (M : Medium) (cfg : Config) (order : HashOrder) (faults : Faults)
    (disk : Disk) (root : B32) (seq : ℕ) :
    sweepDurability M cfg order faults disk root seq = (.ok (), disk)
        ∧ (cfg.durable = false ∨ disk.manifest.lastRoot = some root)
      ∨ (∃ e durable, sweepDurability M cfg order faults disk root seq
        = (.error e, { disk with durable := durable }))
      ∨ ∃ prev out objects saved, disk.manifest.lastRoot.elim (.ok []) (reachable M disk.store)
        = .ok prev ∧ reachable M disk.store root = .ok out
          ∧ Swept M disk root seq prev out objects saved
        ∧ sweepDurability M cfg order faults disk root seq
          = saveSwept M cfg order faults saved root := by
  rw [sweepDurability]
  split
  · exact .inl ⟨rfl, ‹_›⟩
  refine .inr ?_
  split
  · exact .inl ⟨_, _, rfl⟩
  · exact .inl ⟨_, _, rfl⟩
  next prev out hpr hout =>
  have hp : ∀ e : Packed, e ∈ disk.store.packed M (out.filter (· ∉ prev))
      ↔ e.1 ∈ out ∧ e.1 ∉ prev ∧ disk.store.get M e.1 = some e.2 := fun e => by
    rw [mem_packed, mem_filter, decide_eq_true_eq, and_assoc]
  dsimp only
  generalize disk.store.packed M (out.filter (· ∉ prev)) = objects at hp ⊢
  split
  · next hf =>
    refine .inr ⟨prev, out, objects, _, hpr, hout, ?_, rfl⟩
    exact ⟨hp, rfl, List.Subset.refl _, .inl ⟨hf, rfl⟩, rfl⟩
  split
  · exact .inl ⟨_, _, rfl⟩
  split
  · exact .inl ⟨_, _, rfl⟩
  next durable manifest hl =>
  obtain ⟨hgr, hg, hr, hseq⟩ := announceList_eq_some hl
  refine .inr ⟨prev, out, objects, _, hpr, hout, ?_, rfl⟩
  refine ⟨hp, rfl, ?_, .inr ⟨hg, hgr (by simp)⟩, Prod.ext hr hseq⟩
  exact List.Subset.trans (subset_append_left _ _) hgr

/-! ## Recovery -/

/-- A generation of the durable store, with its objects. -/
def ObjectStore.Generation (M : Medium) (durable : ObjectStore) (g : B32) (objects : List Packed) :
    Prop :=
  ∃ blob, durable.get M g = some blob ∧ unpack M blob = .ok objects

theorem restore_spec (n : ℕ) (store : ObjectStore) (hh : ∀ e ∈ objects, M.hash e.2 = e.1) :
    ∃ n' store', restore M (n, store) objects = .ok (n', store') ∧ store.objects ⊆ store'.objects
      ∧ (∀ data ∈ store'.objects, data ∈ store.objects ∨ ∃ e ∈ objects, data = e.2)
      ∧ ∀ e ∈ objects, ∃ data ∈ store'.objects, M.hash data = e.1 := by
  induction objects generalizing n store with
  | nil => exact ⟨n, store, rfl, List.Subset.refl _, fun data h => .inl h, by simp⟩
  | cons e objects ih =>
    obtain ⟨he, hr⟩ := forall_mem_cons.mp hh
    rw [restore, foldlM_cons, restoreObject]
    by_cases hhas : (store.get M e.1).isSome
    · rw [if_pos hhas]
      obtain ⟨data, hda⟩ := Option.isSome_iff_exists.mp hhas
      obtain ⟨n', store', hrun, hg, ho, hall⟩ := ih n store hr
      refine ⟨n', store', hrun, hg, fun d hd => ?_, forall_mem_cons.mpr ⟨?_, hall⟩⟩
      · exact (ho d hd).imp_right fun ⟨e', he', h⟩ => ⟨e', mem_cons_of_mem _ he', h⟩
      · exact ⟨data, hg (mem_of_find?_eq_some hda), hash_of_get hda⟩
    · rw [if_neg hhas]
      dsimp only
      rw [put_fst, if_neg (not_not.mpr he)]
      obtain ⟨n', store', hrun, hg, ho, hall⟩ := ih (n + 1) (store.put M e.2).2 hr
      rw [objects_put] at hg ho
      refine ⟨n', store', hrun, fun d hd => hg (by simp [hd]), fun d hd => ?_,
        forall_mem_cons.mpr ⟨⟨e.2, hg (by simp), he⟩, hall⟩⟩
      rcases ho d hd with hd | ⟨e', he', h⟩
      · rcases mem_append.mp hd with hd | hd
        · exact .inl hd
        · exact .inr ⟨e, mem_cons_self, mem_singleton.mp hd⟩
      · exact .inr ⟨e', mem_cons_of_mem _ he', h⟩

theorem recoverGeneration_eq {n : ℕ} {g : B32} (h : durable.Generation M g objects) :
    recoverGeneration M durable (n, store) g = restore M (n, store) objects := by
  obtain ⟨blob, hget, hu⟩ := h
  rw [recoverGeneration, hget]
  dsimp only
  rw [hu]
  rfl

theorem ObjectStore.Generation.hash {g : B32} (h : durable.Generation M g objects) :
    ∀ e ∈ objects, M.hash e.2 = e.1 := by
  obtain ⟨blob, -, hu⟩ := h
  exact fun e he => hash_of_unpack hu he

theorem ObjectStore.Generation.unique {g : B32} {objects' : List Packed}
    (h : durable.Generation M g objects) (h' : durable.Generation M g objects') :
    objects = objects' := by
  obtain ⟨blob, hget, hu⟩ := h
  obtain ⟨blob', hget', hu'⟩ := h'
  cases hget.symm.trans hget'
  exact Except.ok.inj (hu.symm.trans hu')

theorem recoverOwner_spec {generations : List B32} (store : ObjectStore)
    (hl : ∀ g ∈ generations, ∃ objects, durable.Generation M g objects) :
    ∃ n store', recoverOwner M durable generations store = .ok (n, store')
      ∧ (∀ data ∈ store'.objects, data ∈ store.objects
        ∨ ∃ g ∈ generations, ∃ objects, durable.Generation M g objects ∧ ∃ e ∈ objects, data = e.2)
      ∧ ∀ g ∈ generations, ∀ objects, durable.Generation M g objects →
        ∀ e ∈ objects, ∃ data ∈ store'.objects, M.hash data = e.1 := by
  -- along the loop the store only grows
  suffices h : ∀ n store, ∃ n' store', generations.foldlM (recoverGeneration M durable) (n, store)
      = .ok (n', store') ∧ store.objects ⊆ store'.objects
      ∧ (∀ data ∈ store'.objects, data ∈ store.objects
        ∨ ∃ g ∈ generations, ∃ objects, durable.Generation M g objects ∧ ∃ e ∈ objects, data = e.2)
      ∧ ∀ g ∈ generations, ∀ objects, durable.Generation M g objects →
        ∀ e ∈ objects, ∃ data ∈ store'.objects, M.hash data = e.1 by
    obtain ⟨n, store', hrun, -, ho, hall⟩ := h 0 store
    exact ⟨n, store', hrun, ho, hall⟩
  clear store
  induction generations with
  | nil => exact fun n store => ⟨n, store, rfl, List.Subset.refl _, fun data h => .inl h, by simp⟩
  | cons g generations ih =>
    intro n store
    obtain ⟨⟨objects, hg⟩, hre⟩ := forall_mem_cons.mp hl
    obtain ⟨n₁, store₁, hr, hg₁, ho₁, hall₁⟩ := restore_spec n store hg.hash
    obtain ⟨n', store', hrun, hgr, ho, hall⟩ := ih hre n₁ store₁
    refine ⟨n', store', ?_, List.Subset.trans hg₁ hgr, fun data hd => ?_,
      forall_mem_cons.mpr ⟨fun objects' hg' e he => ?_, hall⟩⟩
    · rw [foldlM_cons, recoverGeneration_eq hg, hr]
      exact hrun
    · rcases ho data hd with hd | ⟨g', hg', hin⟩
      · rcases ho₁ data hd with hd | hin
        · exact .inl hd
        · exact .inr ⟨g, mem_cons_self, objects, hg, hin⟩
      · exact .inr ⟨g', mem_cons_of_mem _ hg', hin⟩
    · obtain rfl := hg.unique hg'
      obtain ⟨data, hd, hh⟩ := hall₁ e he
      exact ⟨data, hgr hd, hh⟩

end Zephcraft.Sql
