import Zephcraft.Store.Disk
import Zephcraft.Foundations.Run

/-!
# Store/Reload — the index and what opening makes of the files

Every operation changes the index as it changes the files, as far as what was there before allows
it. The one that does not is `put_generation`.
-/

namespace Zephcraft.Store

open Erasure Run List Function Word CidDir Disk

/-- What is known of a content id, but for when it was last used. -/
def IndexEntry.bare (e : IndexEntry) : IndexEntry := { e with lastAccess := 0 }

def IndexEntry.bytes (e : IndexEntry) : ℕ :=
  e.pieceIds.size * e.gen.pieceLen.val + if e.hasContent then e.gen.totalLen.val else 0

def CidDir.isEmpty (d : CidDir) : Bool :=
  d.parameters.isNone && d.pieces.isEmpty && d.content.isNone && !d.pinned && !d.system

theorem CidDir.isEmpty_iff {d : CidDir} : d.isEmpty = true ↔ d = .empty := by
  obtain ⟨parameters, pieces, content, pinned, system⟩ := d
  simp [isEmpty, empty, and_assoc]

namespace NodeStore

variable {store : NodeStore} {cid : B32}

def step (store : NodeStore) (op : U64 × Op) : NodeStore := (store.exec op.1 op.2).2

/-- Opening the store anew gives the index there is. -/
def Unchanged (store : NodeStore) : Prop :=
  ∀ (now : U64) (cid : B32),
    (reload store.disk now).index[cid]?.map IndexEntry.bare = store.index[cid]?.map IndexEntry.bare

/-- A content id has this generation, or has no files. -/
def takes (store : NodeStore) (cid : B32) (gen : Generation) : Bool :=
  match store.index[cid]? with
  | some e => e.gen = gen
  | none => (store.disk.dir cid).isEmpty

/-- Generations are recorded for ids that have no files, or as they are; the sizes evictions add up
fit 64 bits. -/
def Preserving (store : NodeStore) (op : U64 × Op) : Prop :=
  match op.2 with
  | .putGeneration cid gen => store.isTombstoned cid || store.takes cid gen
  | .evictTo _ => (store.index.toList.map fun e => e.2.bytes).sum < 2 ^ 64
  | _ => True

instance (store : NodeStore) (op : U64 × Op) : Decidable (Preserving store op) := by
  unfold Preserving
  split <;> infer_instance

/-! ## Index and files in step -/

def Synced (store : NodeStore) : Prop :=
  ∀ cid, store.index[cid]?.map IndexEntry.bare = (store.disk.dir cid).entry 0

theorem entry_bare (d : CidDir) (now : U64) : (d.entry now).map IndexEntry.bare = d.entry 0 := by
  simp [CidDir.entry, IndexEntry.bare, comp_def]

theorem Synced.unchanged (h : Synced store) : Unchanged store := fun now cid => by
  rw [getElem?_reload, entry_bare, h cid]

theorem Synced.modifyEntry (h : Synced store) {disk : Disk} {f : IndexEntry → IndexEntry}
    {g : CidDir → CidDir}
    (hd : ∀ c, disk.dir c = if cid = c then g (store.disk.dir c) else store.disk.dir c)
    (hf : ∀ e, (f e).bare = (f e.bare).bare)
    (hg : ∀ d, (g d).entry 0 = (d.entry 0).map fun e => (f e).bare) :
    Synced ({ store with disk := disk }.modifyEntry cid f) := fun c => by
  rw [getElem?_modifyEntry, disk_modifyEntry]
  dsimp only
  rw [hd c]
  split
  · rw [hg, ← h c, Option.map_map, Option.map_map]
    exact congrArg (Option.map · _) (funext hf)
  · exact h c

theorem Synced.modifyEntry_apply (h : Synced store) {effect : FileEffect}
    {f : IndexEntry → IndexEntry} {g : CidDir → CidDir}
    (he : store.disk.apply effect = store.disk.modify cid g)
    (hf : ∀ e, (f e).bare = (f e.bare).bare)
    (hg : ∀ d, (g d).entry 0 = (d.entry 0).map fun e => (f e).bare) :
    Synced ((store.apply effect).modifyEntry cid f) :=
  h.modifyEntry (fun c => by rw [he, dir_modify]) hf hg

theorem Synced.drop (h : Synced store) : Synced (store.drop cid) := fun c => by
  rw [getElem?_drop, dir_drop]
  split
  · rfl
  · exact h c

/-! ## Each operation -/

/-- Index and files are in step, and no operation has panicked. -/
structure Sound (store : NodeStore) : Prop where
  synced : Synced store
  unpoisoned : store.poisoned = false

theorem lockIndex_of_unpoisoned (h : store.poisoned = false)
    (f : NodeStore → Except Fault Reply × NodeStore) :
    store.lockIndex f = f store := by
  rw [lockIndex, h]
  rfl

theorem sound_new : Sound new :=
  ⟨fun cid => by simp [new, Disk.dir, CidDir.empty, CidDir.entry], rfl⟩

theorem Sound.putGeneration (h : Sound store) {gen : Generation} {now : U64}
    (hnew : Preserving store (now, .putGeneration cid gen)) :
    Sound (store.putGeneration cid gen now).2 := by
  rw [NodeStore.putGeneration]
  split
  · exact h
  · next ht =>
    have hnew : store.takes cid gen = true := (Bool.or_eq_true_iff.mp hnew).resolve_left ht
    rw [takes] at hnew
    rw [lockIndex_of_unpoisoned (by exact h.unpoisoned)]
    have hdir : ∀ c, (store.disk.apply (.writeParameters cid gen)).dir c =
        if cid = c then { store.disk.dir c with parameters := some gen } else store.disk.dir c :=
      fun c => dir_modify _ c
    change Sound (Prod.snd (match store.index[cid]? with | some _ => _ | none => _))
    cases hc : store.index[cid]? with
    | some e =>
      -- `meta` is written again as it was
      rw [hc] at hnew
      refine ⟨fun c => ?_, h.unpoisoned⟩
      change store.index[c]?.map _ = ((store.disk.apply _).dir c).entry 0
      rw [hdir]
      split
      · next heq =>
        subst heq
        have hs := h.synced cid
        rw [hc] at hs ⊢
        obtain ⟨gen', hp, he⟩ := Option.map_eq_some_iff.mp hs.symm
        obtain rfl : gen' = gen := (congrArg IndexEntry.gen he).trans (of_decide_eq_true hnew)
        rw [hs, CidDir.entry, CidDir.entry, hp]
        rfl
      · exact h.synced c
    | none =>
      rw [hc] at hnew
      refine ⟨fun c => ?_, h.unpoisoned⟩
      change (store.index.insert cid _)[c]?.map _ = ((store.disk.apply _).dir c).entry 0
      rw [hdir, BTreeMap.getElem?_insert]
      split
      · next heq =>
        subst heq
        rw [CidDir.isEmpty_iff.mp hnew]
        rfl
      · exact h.synced c

theorem Sound.putPiece (h : Sound store) (piece : CodedPiece) (now : U64) :
    Sound (store.putPiece cid piece now).2 := by
  rw [NodeStore.putPiece]
  split
  · exact h
  · dsimp only
    rw [lockIndex_of_unpoisoned (by exact h.unpoisoned)]
    refine ⟨h.synced.modifyEntry_apply (g := fun d => { d with pieces := d.pieces.insert _ _ }) rfl
      (fun _ => rfl) fun d => ?_, (poisoned_modifyEntry _).trans h.unpoisoned⟩
    simp [CidDir.entry, pieceNames_insert, IndexEntry.bare, comp_def]

theorem Sound.removePiece (h : Sound store) (pid : B32) (now : U64) :
    Sound (store.removePiece cid pid now).2 := by
  rw [NodeStore.removePiece, lockIndex_of_unpoisoned (by exact h.unpoisoned)]
  refine ⟨h.synced.modifyEntry_apply (g := fun d => d.remove (.piece pid)) rfl (fun _ => rfl)
    fun d => ?_, (poisoned_modifyEntry _).trans h.unpoisoned⟩
  simp [CidDir.remove, CidDir.entry, pieceNames_erase, IndexEntry.bare, comp_def]

theorem foldl_apply_contentEffects (content : Bytes) (pinned : Bool) :
    (contentEffects cid content pinned).foldl apply store =
      { store with disk := (contentEffects cid content pinned).foldl Disk.apply store.disk } := by
  cases pinned <;> rfl

theorem dir_contentEffects (disk : Disk) (content : Bytes) (pinned : Bool) (c : B32) :
    ((contentEffects cid content pinned).foldl Disk.apply disk).dir c =
      if cid = c then
        { disk.dir c with content := some content, pinned := (disk.dir c).pinned || pinned }
      else disk.dir c := by
  cases pinned with
  | false =>
    rw [Bool.or_false]
    simp only [contentEffects, Bool.false_eq_true, if_false, foldl_cons, foldl_nil, Disk.apply,
      dir_modify]
  | true =>
    rw [Bool.or_true]
    simp only [contentEffects, foldl_cons, Disk.apply, if_true, foldl_nil, dir_modify]
    split <;> rfl

theorem Sound.putContent (h : Sound store) (content : Bytes) (pinned : Bool) (now : U64) :
    Sound (store.putContent cid content pinned now).2 := by
  rw [NodeStore.putContent]
  split
  · exact h
  · rw [lockIndex_of_unpoisoned h.unpoisoned]
    split
    · exact h
    · rw [foldl_apply_contentEffects]
      refine ⟨h.synced.modifyEntry
        (g := fun d => { d with content := some content, pinned := d.pinned || pinned })
        (dir_contentEffects _ content pinned) (fun _ => rfl) fun d => ?_,
        (poisoned_modifyEntry _).trans h.unpoisoned⟩
      simp [CidDir.entry, pieceNames, IndexEntry.bare, comp_def]

theorem Sound.unpin (h : Sound store) : Sound (store.unpin cid).2 := by
  rw [NodeStore.unpin, lockIndex_of_unpoisoned (by exact h.unpoisoned)]
  refine ⟨h.synced.modifyEntry_apply (g := fun d => d.remove .pinned) rfl (fun _ => rfl) fun d =>
    ?_, (poisoned_modifyEntry _).trans h.unpoisoned⟩
  simp [CidDir.remove, CidDir.entry, pieceNames, IndexEntry.bare, comp_def]

theorem Sound.markSystem (h : Sound store) : Sound (store.markSystem cid).2 := by
  rw [NodeStore.markSystem, lockIndex_of_unpoisoned (by exact h.unpoisoned)]
  refine ⟨h.synced.modifyEntry_apply (g := fun d => { d with system := true }) rfl (fun _ => rfl)
    fun d => ?_, (poisoned_modifyEntry _).trans h.unpoisoned⟩
  simp [CidDir.entry, pieceNames, IndexEntry.bare, comp_def]

theorem Sound.unmarkSystem (h : Sound store) : Sound (store.unmarkSystem cid).2 := by
  rw [NodeStore.unmarkSystem, lockIndex_of_unpoisoned (by exact h.unpoisoned)]
  refine ⟨h.synced.modifyEntry_apply (g := fun d => d.remove .system) rfl (fun _ => rfl) fun d =>
    ?_, (poisoned_modifyEntry _).trans h.unpoisoned⟩
  simp [CidDir.remove, CidDir.entry, pieceNames, IndexEntry.bare, comp_def]

theorem Sound.drop (h : Sound store) : Sound (store.drop cid) := ⟨h.synced.drop, h.unpoisoned⟩

theorem Sound.forget (h : Sound store) : Sound (store.forget cid).2 := by
  rw [NodeStore.forget, lockIndex_of_unpoisoned h.unpoisoned]
  exact h.drop

theorem Sound.tombstone (h : Sound store) : Sound (store.tombstone cid).2 := by
  rw [NodeStore.tombstone, lockIndex_of_unpoisoned (by exact h.unpoisoned)]
  exact Sound.drop ⟨h.synced, h.unpoisoned⟩

theorem Sound.untombstone (h : Sound store) : Sound (store.untombstone cid).2 :=
  ⟨h.synced, h.unpoisoned⟩

/-! ## Evictions -/

theorem heldBytes_eq_ok {e : IndexEntry} (h : e.bytes < 2 ^ 64) :
    heldBytes e = .ok (truncate e.bytes) := by
  have hs : (truncate e.pieceIds.size : U64).val * e.gen.pieceLen.val =
      e.pieceIds.size * e.gen.pieceLen.val := by
    rcases Nat.eq_zero_or_pos e.gen.pieceLen.val with hz | hpos
    · rw [hz, Nat.mul_zero, Nat.mul_zero]
    · rw [val_truncate, Nat.mod_eq_of_lt]
      exact lt_of_le_of_lt ((Nat.le_mul_of_pos_right _ hpos).trans (Nat.le_add_right _ _)) h
  obtain ⟨p, hp⟩ :=
    exists_mulOrPanic_eq_ok.mpr (lt_of_le_of_lt (hs.le.trans (Nat.le_add_right _ _)) h)
  rw [heldBytes, hp]
  refine addOrPanic_eq_ok.mpr ?_
  rw [val_truncate, Nat.mod_eq_of_lt h, mulOrPanic_eq_ok.mp hp, hs, IndexEntry.bytes]
  split <;> rfl

theorem mapM_heldBytes {l : List (B32 × IndexEntry)} (h : ∀ e ∈ l, e.2.bytes < 2 ^ 64) :
    l.mapM (fun e => heldBytes e.2) = .ok (l.map fun e => truncate e.2.bytes) :=
  List.mapM_eq_ok.mpr (forall₂_map_right_iff.mpr (forall₂_same.mpr fun e he =>
    heldBytes_eq_ok (h e he)))

theorem sum_truncate_bytes {l : List (B32 × IndexEntry)} (h : ∀ e ∈ l, e.2.bytes < 2 ^ 64) :
    ((l.map fun e => (truncate e.2.bytes : U64)).map Fin.val).sum
      = (l.map fun e => e.2.bytes).sum := by
  rw [map_map]
  exact congrArg List.sum (map_congr_left fun e he => Nat.mod_eq_of_lt (h e he))

theorem bytes_lt_of_sum {l : List (B32 × IndexEntry)}
    (h : (l.map fun e => e.2.bytes).sum < 2 ^ 64) :
    ∀ e ∈ l, e.2.bytes < 2 ^ 64 := fun e he =>
  lt_of_le_of_lt (single_le_sum (by simp) e.2.bytes (mem_map.mpr ⟨e, he, rfl⟩)) h

theorem mapM_candidate {l : List (B32 × IndexEntry)} (h : ∀ e ∈ l, e.2.bytes < 2 ^ 64) :
    (l.mapM fun e => do
      let bytes ← heldBytes e.2
      pure (e.2.lastAccess, bytes, e.1) : Except Panic (List (U64 × U64 × B32))) =
      .ok (l.map fun e => (e.2.lastAccess, truncate e.2.bytes, e.1)) :=
  List.mapM_eq_ok.mpr (forall₂_map_right_iff.mpr (forall₂_same.mpr fun e he => by
    rw [heldBytes_eq_ok (h e he)]
    rfl))

/-- **The victims**, where what the entries hold fits: each entry is added up before, so no sum
panics later. -/
theorem victims_eq_ok {entries : List (B32 × IndexEntry)}
    (h : (entries.map fun e => e.2.bytes).sum < 2 ^ 64)
    (target : U64) :
    victims entries target = .ok (if (entries.map fun e => e.2.bytes).sum ≤ target.val then []
      else choose target (entries.map fun e => e.2.bytes).sum
        (((entries.filter fun e => !e.2.pinned && !e.2.system).map
        fun e => (e.2.lastAccess, truncate e.2.bytes, e.1)).mergeSort fun a b => a.1 ≤ b.1)) := by
  have hlt := bytes_lt_of_sum h
  obtain ⟨total, ht⟩ := exists_sumOrPanic_eq_ok (w := 64).mpr ((sum_truncate_bytes hlt).trans_lt h)
  have hval : (entries.map fun e => e.2.bytes).sum = total.val := by
    rw [sumOrPanic_eq_ok.mp ht, sum_truncate_bytes hlt]
  have ht : totalBytes entries = .ok total := by
    rw [totalBytes, mapM_heldBytes hlt]
    exact ht
  rw [victims, ht, candidates, mapM_candidate fun e he => hlt e (mem_of_mem_filter he), hval]
  by_cases hle : total ≤ target
  · exact (if_pos hle).trans (congrArg _ (if_pos hle).symm)
  · rw [if_neg (by exact hle)]
    exact if_neg hle

theorem Sound.foldl_drop (h : Sound store) (chosen : List (U64 × B32)) :
    Sound (chosen.foldl (fun store v => store.drop v.2) store) := by
  induction chosen generalizing store with
  | nil => exact h
  | cons v rest ih => exact ih h.drop

theorem Sound.evictTo (h : Sound store) {target : U64}
    (hf : (store.index.toList.map fun e => e.2.bytes).sum < 2 ^ 64) :
    Sound (store.evictTo target).2 := by
  rw [NodeStore.evictTo, lockIndex_of_unpoisoned h.unpoisoned, victims_eq_ok hf]
  exact h.foldl_drop _

/-! ## Whole runs -/

theorem Sound.step (h : Sound store) {op : U64 × Op} (hop : Preserving store op) :
    Sound (step store op) := by
  obtain ⟨now, op⟩ := op
  cases op with
  | putGeneration cid gen => exact h.putGeneration hop
  | putPiece cid piece => exact h.putPiece piece now
  | putContent cid content pinned => exact h.putContent content pinned now
  | unpin cid => exact h.unpin
  | markSystem cid => exact h.markSystem
  | unmarkSystem cid => exact h.unmarkSystem
  | removePiece cid pid => exact h.removePiece pid now
  | forget cid => exact h.forget
  | tombstone cid => exact h.tombstone
  | untombstone cid => exact h.untombstone
  | evictTo target => exact h.evictTo hop

/-- **Reopening changes nothing**, at any time of a run that records generations once. -/
theorem reopens_alike (ops : List (U64 × Op)) (h : EachStep step new Preserving ops) :
    EachState step new Unchanged ops :=
  eachState_of_invariant sound_new (fun _ _ hsound hop => hsound.step hop) (fun _ hsound =>
    hsound.synced.unchanged) h

/-- Eight bytes of content, in pieces of four. -/
def eightBytes : Generation := ⟨2, 4, 8, []⟩

def onePiece : Generation := ⟨1, 8, 8, []⟩

/-- The generation changes once the id is forgotten. -/
def coarsened : List (U64 × Op) :=
  [(1, .putGeneration 7 eightBytes), (2, .pin 7 [0, 1, 2, 3, 4, 5, 6, 7]), (3, .markSystem 7),
    (4, .evictTo 0), (5, .forget 7), (6, .putGeneration 7 onePiece)]

theorem preserving_coarsened : EachStep step new Preserving coarsened := by
  decide +kernel

theorem reopens_alike_coarsened :
    EachStep step new Preserving coarsened ∧ EachState step new Unchanged coarsened :=
  ⟨preserving_coarsened, reopens_alike coarsened preserving_coarsened⟩

/-- A second generation for the same id goes to the disk, but not into the index. -/
theorem second_generation_only_on_disk :
    ¬ Unchanged (run step new [(1, .putGeneration 7 eightBytes),
      (2, .putGeneration 7 onePiece)]) := by
  intro h
  have hgen := congrArg (Option.map IndexEntry.gen) (h 3 7)
  exact absurd hgen (by decide +kernel)

end NodeStore

end Zephcraft.Store
