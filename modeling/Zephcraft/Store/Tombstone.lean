import Zephcraft.Store.Reload
import Zephcraft.Store.Serve

/-!
# Store/Tombstone — deleted ids and crashes

An operation is a list of effects on the files, and a crash cuts it off after some of them; the
store is then opened from the files. `tombstone` writes its marker first and removes the directory
of the id last, file by file.
-/

namespace Zephcraft.Store

open Erasure Run List Std.ExtTreeMap Disk

namespace NodeStore

variable (store : NodeStore)

/-- The store as those who read from it see it. -/
def view : PieceStore where
  index := store.index.map fun _ e => ⟨e.gen, e.pieceIds.toList, e.hasContent⟩
  tombstones := store.tombstones
  pieceFiles := ofList
    (store.disk.dirs.toList.flatMap fun d => d.2.pieces.toList.map fun p => ((d.1, p.1), p.2))
      compare
  contentFiles := store.disk.dirs.filterMap fun _ d => d.content

/-- Nothing of a content id is to be had. -/
structure Gone (store : NodeStore) (cid : B32) : Prop where
  not_indexed : cid ∉ store.index
  serves_nothing : ∀ rounds exclude limit rng, store.view.servePieces rounds cid exclude limit rng
    = some (.ok [])
  no_content : store.view.content cid = none

/-! ## Effects of an operation -/

/-- `remove_dir_all`: the files in some order, then the directory. -/
def removals (order : B32 → List DirFile) (cid : B32) : List FileEffect :=
  (order cid).map (.removeFile cid) ++ [.removeDir cid]

/-- The effects of an operation on the files, one after the other. -/
def effects (order : B32 → List DirFile) : Op → List FileEffect
  | .putGeneration cid gen => if store.isTombstoned cid then [] else [.writeParameters cid gen]
  | .putPiece cid piece => if store.isTombstoned cid then []
    else [.writePiece cid piece.pieceId (pieceFile piece)]
  | .putContent cid content pinned =>
    if store.isTombstoned cid || store.poisoned || !store.index.contains cid then []
    else contentEffects cid content pinned
  | .unpin cid => [.removeFile cid .pinned]
  | .markSystem cid => [.writeSystem cid]
  | .unmarkSystem cid => [.removeFile cid .system]
  | .removePiece cid pid => [.removeFile cid (.piece pid)]
  | .forget cid => if store.poisoned then [] else removals order cid
  | .tombstone cid => .writeMarker cid :: if store.poisoned then [] else removals order cid
  | .untombstone cid => [.removeMarker cid]
  | .evictTo target =>
    if store.poisoned then []
    else
      match victims store.index.toList target with
      | .error _ => []
      | .ok chosen => chosen.flatMap fun v => removals order v.2

/-- The files after some of the effects of an operation. -/
def cutOff (op : Op) (order : B32 → List DirFile) (n : ℕ) : Disk :=
  ((store.effects order op).take n).foldl Disk.apply store.disk

/-- An operation is carried out, or cut off after `n` effects by a crash. -/
inductive Event where
  | complete (now : U64) (op : Op)
  | crash (op : Op) (order : B32 → List DirFile) (n : ℕ) (reopened : U64)

def happen : Event → NodeStore
  | .complete now op => (store.exec now op).2
  | .crash op order n reopened => reload (store.cutOff op order n) reopened

def Deletes (cid : B32) : Event → Prop
  | .complete _ (.tombstone c) => c = cid
  | .crash (.tombstone c) _ n _ => c = cid ∧ 1 ≤ n
  | _ => False

/-- The marker of an id is to be taken away. -/
def Restores (cid : B32) : Event → Prop
  | .complete _ (.untombstone c) => c = cid
  | .crash (.untombstone c) _ _ _ => c = cid
  | _ => False

/-- A deletion is cut off before its marker, or after `meta` is removed; the sizes evictions add up
fit. -/
def Tidy : Event → Prop
  | .complete _ (.evictTo _) => (store.index.toList.map fun e => e.2.bytes).sum < 2 ^ 64
  | .crash (.tombstone cid) order n _ =>
    n = 0 ∨ (store.disk.dir cid).parameters = none ∨ .parameters ∈ (order cid).take (n - 1) ∨
      (order cid).length + 2 ≤ n
  | _ => True

variable {store : NodeStore} {order : B32 → List DirFile} {cid : B32}

theorem content_view (store : NodeStore) (cid : B32) :
    store.view.content cid =
      store.index[cid]?.bind fun e => if e.hasContent then (store.disk.dir cid).content
        else none := by
  have hf : store.view.contentFiles[cid]? = (store.disk.dir cid).content := by
    rw [view, getElem?_filterMap', Disk.dir]
    cases store.disk.dirs[cid]? <;> rfl
  rw [PieceStore.content, hf, view, Std.ExtTreeMap.getElem?_map]
  cases store.index[cid]? <;> rfl

theorem gone_of_not_indexed (h : store.index[cid]? = none) : Gone store cid := by
  have hv : store.view.index[cid]? = none := by
    rw [view, Std.ExtTreeMap.getElem?_map, h]
    rfl
  refine ⟨fun hmem => ?_, fun rounds exclude limit rng => ?_, ?_⟩
  · rw [mem_iff_isSome_getElem?, h] at hmem
    simp at hmem
  · rw [PieceStore.servePieces, hv]
  · rw [PieceStore.content, hv]

/-! ## The effects add up to the operation -/

theorem removals_eq (cid : B32) (files : List DirFile) (disk : Disk) :
    (∀ c, ((files.map (FileEffect.removeFile cid)).foldl Disk.apply disk).dir c =
      if cid = c then files.foldl CidDir.remove (disk.dir c) else disk.dir c) ∧
    ((files.map (FileEffect.removeFile cid)).foldl Disk.apply disk).markers = disk.markers := by
  induction files generalizing disk with
  | nil => exact ⟨fun c => (ite_self _).symm, rfl⟩
  | cons file files ih =>
    refine ⟨fun c => ?_, (ih (disk.apply (.removeFile cid file))).2⟩
    rw [map_cons, foldl_cons, (ih (disk.apply (.removeFile cid file))).1, Disk.apply, dir_modify]
    split <;> rfl

theorem dir_removals (disk : Disk) (c : B32) :
    ((removals order cid).foldl Disk.apply disk).dir c = if cid = c then .empty
      else disk.dir c := by
  rw [removals, foldl_append, foldl_cons, foldl_nil, dir_removeDir, (removals_eq cid _ disk).1]
  split <;> rfl

theorem markers_removals (disk : Disk) :
    ((removals order cid).foldl Disk.apply disk).markers = disk.markers := by
  rw [removals, foldl_append]
  exact (removals_eq cid _ disk).2

def SameFiles (disk disk' : Disk) : Prop :=
  (∀ c, disk.dir c = disk'.dir c) ∧ disk.markers = disk'.markers

variable {disk : Disk} {e : FileEffect} {op : Op} {event : Event}

theorem sameFiles_of_eq {disk' : Disk} (h : disk = disk') : SameFiles disk disk' :=
  h ▸ ⟨fun _ => rfl, rfl⟩

theorem sameFiles_drop (order : B32 → List DirFile) (h : SameFiles store.disk disk) (cid : B32) :
    SameFiles (store.drop cid).disk ((removals order cid).foldl Disk.apply disk) :=
  ⟨fun c => by rw [dir_drop, dir_removals, h.1 c], h.2.trans (markers_removals disk).symm⟩

theorem sameFiles_foldl_drop (order : B32 → List DirFile) (chosen : List (U64 × B32))
    (h : SameFiles store.disk disk) :
    SameFiles (chosen.foldl (fun store v => store.drop v.2) store).disk
      ((chosen.flatMap fun v => removals order v.2).foldl Disk.apply disk) := by
  induction chosen generalizing store disk with
  | nil => exact h
  | cons v rest ih =>
    rw [flatMap_cons, foldl_append]
    exact ih (sameFiles_drop order h v.2)

theorem lockIndex_of_poisoned (h : store.poisoned = true)
    (f : NodeStore → Except Fault Reply × NodeStore) :
    store.lockIndex f = (.error .panicked, store) := by
  rw [lockIndex, h]
  rfl

theorem disk_lockIndex {f : NodeStore → Except Fault Reply × NodeStore}
    (hf : (f store).2.disk = store.disk) :
    (store.lockIndex f).2.disk = store.disk := by
  rw [lockIndex]
  split
  · rfl
  · exact hf

theorem sameFiles_exec (now : U64) (op : Op) (order : B32 → List DirFile) :
    SameFiles (store.exec now op).2.disk
      ((store.effects order op).foldl Disk.apply store.disk) := by
  cases op with
  | putGeneration cid gen =>
    refine sameFiles_of_eq ?_
    rw [exec, NodeStore.putGeneration, effects]
    split
    · rfl
    · refine disk_lockIndex ?_
      split <;> rfl
  | putPiece cid piece =>
    refine sameFiles_of_eq ?_
    rw [exec, NodeStore.putPiece, effects]
    split
    · rfl
    · exact disk_lockIndex (disk_modifyEntry _)
  | putContent cid content pinned =>
    refine sameFiles_of_eq ?_
    rw [exec, NodeStore.putContent, effects, lockIndex]
    cases store.isTombstoned cid
    case true => rfl
    cases store.poisoned
    case true => rfl
    cases hc : store.index[cid]? with
    | none =>
      have hnot : store.index.contains cid = false := by
        rw [contains_eq_isSome_getElem?, hc]
        rfl
      rw [hnot]
      rfl
    | some e =>
      have hin : store.index.contains cid = true := by
        rw [contains_eq_isSome_getElem?, hc]
        rfl
      rw [hin]
      exact (disk_modifyEntry _).trans
        (congrArg NodeStore.disk (foldl_apply_contentEffects content pinned))
  | unpin cid => exact sameFiles_of_eq (disk_lockIndex (disk_modifyEntry _))
  | markSystem cid => exact sameFiles_of_eq (disk_lockIndex (disk_modifyEntry _))
  | unmarkSystem cid => exact sameFiles_of_eq (disk_lockIndex (disk_modifyEntry _))
  | removePiece cid pid => exact sameFiles_of_eq (disk_lockIndex (disk_modifyEntry _))
  | forget cid =>
    rw [exec, NodeStore.forget, lockIndex, effects]
    split
    · exact sameFiles_of_eq rfl
    · exact sameFiles_drop order (sameFiles_of_eq rfl) cid
  | tombstone cid =>
    rw [exec, NodeStore.tombstone, effects, foldl_cons]
    cases hp : store.poisoned with
    | true =>
      rw [lockIndex_of_poisoned (by exact hp)]
      exact sameFiles_of_eq rfl
    | false =>
      rw [lockIndex_of_unpoisoned (by exact hp)]
      exact sameFiles_drop order (sameFiles_of_eq rfl) cid
  | untombstone cid => exact sameFiles_of_eq rfl
  | evictTo target =>
    rw [exec, NodeStore.evictTo, lockIndex, effects]
    split
    · exact sameFiles_of_eq rfl
    · cases victims store.index.toList target with
      | error _ => exact sameFiles_of_eq rfl
      | ok chosen => exact sameFiles_foldl_drop order chosen (sameFiles_of_eq rfl)

/-! ## Files without traces of deleted ids -/

/-- Deleted ids have no `meta`. -/
def Clean (disk : Disk) : Prop := ∀ c ∈ disk.markers, (disk.dir c).parameters = none

/-- An effect that neither marks an id nor writes a `meta` for a marked one. -/
def Harmless (disk : Disk) : FileEffect → Prop
  | .writeParameters cid _ => cid ∉ disk.markers
  | .writeMarker _ => False
  | _ => True

theorem mem_markers_apply (he : Harmless disk e) {c : B32} (hc : c ∈ (disk.apply e).markers) :
    c ∈ disk.markers := by
  cases e with
  | writeMarker => exact he.elim
  | removeMarker => exact Std.ExtTreeSet.mem_of_mem_erase hc
  | _ => exact hc

theorem Clean.apply (h : Clean disk) (he : Harmless disk e) : Clean (disk.apply e) := by
  intro c hc
  have hn := h c (mem_markers_apply he hc)
  cases e with
  | writeParameters cid gen =>
    rw [Disk.apply, dir_modify, if_neg]
    · exact hn
    · rintro rfl
      exact he hc
  | writeMarker => exact he.elim
  | removeMarker => exact hn
  | removeDir cid =>
    rw [dir_removeDir]
    split
    · rfl
    · exact hn
  | removeFile cid file =>
    rw [Disk.apply, dir_modify]
    split
    · cases file <;> first | rfl | exact hn
    · exact hn
  | _ =>
    rw [Disk.apply, dir_modify]
    split <;> exact hn

theorem Harmless.apply {e' : FileEffect} (h : Harmless disk e) (h' : Harmless disk e') :
    Harmless (disk.apply e) e' := by
  cases e' with
  | writeParameters cid gen => exact fun hc => h' (mem_markers_apply h hc)
  | writeMarker => exact h'
  | _ => trivial

theorem Clean.foldl (h : Clean disk) {es : List FileEffect} (hes : ∀ e ∈ es, Harmless disk e) :
    Clean (es.foldl Disk.apply disk) := by
  induction es generalizing disk with
  | nil => exact h
  | cons e es ih =>
    have he := hes e (.head _)
    exact ih (h.apply he) fun e' he' => he.apply (hes e' (.tail e he'))

theorem harmless_of_mem_removals (he : e ∈ removals order cid) : Harmless disk e := by
  rw [removals, mem_append, List.mem_map, mem_singleton] at he
  obtain ⟨file, -, rfl⟩ | rfl := he <;> trivial

theorem harmless_of_mem_effects (ht : store.tombstones = store.disk.markers)
    (hop : ∀ c, op ≠ .tombstone c) (he : e ∈ store.effects order op) : Harmless store.disk e := by
  cases op with
  | putGeneration cid gen =>
    rw [effects] at he
    split at he
    · exact nomatch he
    · next hnot =>
      obtain rfl := mem_singleton.mp he
      intro hmem
      rw [← ht] at hmem
      exact hnot hmem
  | putPiece cid piece =>
    rw [effects] at he
    split at he
    · exact nomatch he
    · obtain rfl := mem_singleton.mp he
      trivial
  | putContent cid content pinned =>
    rw [effects] at he
    split at he
    · exact nomatch he
    · cases pinned <;> simp [contentEffects] at he <;> rcases he with rfl | rfl <;> trivial
  | forget cid =>
    rw [effects] at he
    split at he
    · exact nomatch he
    · exact harmless_of_mem_removals he
  | tombstone cid => exact absurd rfl (hop cid)
  | evictTo target =>
    rw [effects] at he
    split at he
    · exact nomatch he
    · split at he
      · exact nomatch he
      · obtain ⟨v, -, hv⟩ := mem_flatMap.mp he
        exact harmless_of_mem_removals hv
  | _ =>
    obtain rfl := mem_singleton.mp he
    trivial

/-! ## A deletion that is cut off -/

theorem parameters_foldl_remove (files : List DirFile) (d : CidDir) :
    (files.foldl CidDir.remove d).parameters = if .parameters ∈ files then none
      else d.parameters := by
  induction files generalizing d with
  | nil => rfl
  | cons file files ih =>
    rw [foldl_cons, ih]
    cases file <;> simp [CidDir.remove]

theorem take_removals (m : ℕ) :
    (removals order cid).take m =
      ((order cid).take m).map (.removeFile cid) ++ if (order cid).length < m then [.removeDir cid]
        else [] := by
  rw [removals, take_append, length_map, ← map_take]
  congr 1
  split
  · next h => exact take_of_length_le (by simp; omega)
  · next h => rw [Nat.sub_eq_zero_of_le (Nat.le_of_not_lt h), take_zero]

theorem parameters_take_removals (disk : Disk) (m : ℕ) (c : B32) :
    ((((removals order cid).take m).foldl Disk.apply disk).dir c).parameters =
      if cid = c ∧ (.parameters ∈ (order cid).take m ∨ (order cid).length < m) then none
      else (disk.dir c).parameters := by
  rw [take_removals, foldl_append]
  have hf := (removals_eq cid ((order cid).take m) disk).1 c
  by_cases hc : cid = c
  · subst hc
    rw [if_pos rfl] at hf
    by_cases hm : (order cid).length < m
    · rw [if_pos hm, foldl_cons, foldl_nil, dir_removeDir, if_pos rfl, if_pos ⟨rfl, .inr hm⟩]
      rfl
    · rw [if_neg hm, foldl_nil, hf, parameters_foldl_remove]
      simp [hm]
  · rw [if_neg hc] at hf
    rw [if_neg (mt And.left hc), ← hf]
    split
    · rw [foldl_cons, foldl_nil, dir_removeDir, if_neg hc]
    · rfl

theorem markers_take_removals (disk : Disk) (m : ℕ) :
    (((removals order cid).take m).foldl Disk.apply disk).markers = disk.markers := by
  rw [take_removals, foldl_append]
  refine Eq.trans ?_ (removals_eq cid ((order cid).take m) disk).2
  split <;> rfl

theorem Clean.deleted (order : B32 → List DirFile) (h : Clean disk) {m : ℕ}
    (hg : (disk.dir cid).parameters = none ∨ .parameters ∈ (order cid).take m
      ∨ (order cid).length < m) :
    Clean (((removals order cid).take m).foldl Disk.apply (disk.apply (.writeMarker cid))) := by
  intro c hc
  rw [markers_take_removals] at hc
  rw [parameters_take_removals]
  split
  · rfl
  · next hnot =>
    change (disk.dir c).parameters = none
    rcases Std.ExtTreeSet.mem_insert.mp hc with heq | hmem
    · obtain rfl := Std.LawfulEqOrd.eq_of_compare heq
      exact hg.resolve_right fun hr => hnot ⟨rfl, hr⟩
    · exact h c hmem

/-! ## Every step keeps deleted ids out -/

/-- Deleted ids are in neither the index nor the files, and memory knows them. -/
structure Buried (store : NodeStore) : Prop where
  clean : Clean store.disk
  known : store.tombstones = store.disk.markers
  hidden : ∀ c ∈ store.disk.markers, store.index[c]? = none
  unpoisoned : store.poisoned = false

theorem buried_new : Buried new :=
  ⟨fun _ hc => absurd hc Std.ExtTreeSet.not_mem_empty, rfl, fun _ hc =>
    absurd hc Std.ExtTreeSet.not_mem_empty, rfl⟩

theorem buried_reload (h : Clean disk) (now : U64) : Buried (reload disk now) := by
  refine ⟨h, rfl, fun c hc => ?_, rfl⟩
  rw [getElem?_reload, CidDir.entry, h c hc]
  rfl

theorem Buried.apply (h : Buried store) (he : Harmless store.disk e)
    (hm : (store.disk.apply e).markers = store.disk.markers) : Buried (store.apply e) :=
  ⟨h.clean.apply he, h.known.trans hm.symm, fun c hc => h.hidden c (hm ▸ hc), h.unpoisoned⟩

theorem Buried.modifyEntry (h : Buried store) (f : IndexEntry → IndexEntry) :
    Buried (store.modifyEntry cid f) := by
  refine ⟨?_, ?_, fun c hc => ?_, (poisoned_modifyEntry f).trans h.unpoisoned⟩
  · rw [disk_modifyEntry]
    exact h.clean
  · rw [disk_modifyEntry, tombstones_modifyEntry]
    exact h.known
  · rw [disk_modifyEntry] at hc
    rw [getElem?_modifyEntry, h.hidden c hc]
    exact ite_self _

theorem Buried.drop (h : Buried store) : Buried (store.drop cid) := by
  refine ⟨h.clean.apply (e := .removeDir cid) trivial, h.known, fun c hc => ?_, h.unpoisoned⟩
  rw [getElem?_drop, h.hidden c hc]
  exact ite_self _

theorem Buried.foldl_drop (h : Buried store) (chosen : List (U64 × B32)) :
    Buried (chosen.foldl (fun store v => store.drop v.2) store) := by
  induction chosen generalizing store with
  | nil => exact h
  | cons v rest ih => exact ih h.drop

theorem Buried.putGeneration (h : Buried store) (gen : Generation) (now : U64) :
    Buried (store.putGeneration cid gen now).2 := by
  rw [NodeStore.putGeneration]
  split
  · exact h
  · next hnot =>
    have hcid : cid ∉ store.disk.markers := fun hmem => hnot (by rw [← h.known] at hmem; exact hmem)
    have hw := h.apply (e := .writeParameters cid gen) hcid rfl
    rw [lockIndex_of_unpoisoned hw.unpoisoned]
    split
    · exact hw
    · refine ⟨hw.clean, hw.known, fun c hc => ?_, hw.unpoisoned⟩
      dsimp only
      rw [BTreeMap.getElem?_insert_of_ne _ (by rintro rfl; exact hcid hc)]
      exact hw.hidden c hc

theorem Buried.putContent (h : Buried store) (content : Bytes) (pinned : Bool) (now : U64) :
    Buried (store.putContent cid content pinned now).2 := by
  rw [NodeStore.putContent]
  split
  · exact h
  · rw [lockIndex_of_unpoisoned h.unpoisoned]
    split
    · exact h
    · refine Buried.modifyEntry ?_ _
      have hc := h.apply (e := .writeContent cid content) trivial rfl
      cases pinned with
      | false => exact hc
      | true => exact hc.apply (e := .writePinned cid) trivial rfl

theorem Buried.tombstone (h : Buried store) : Buried (store.tombstone cid).2 := by
  rw [NodeStore.tombstone, lockIndex_of_unpoisoned (by exact h.unpoisoned)]
  have hcl : Clean (store.disk.apply (.writeMarker cid) |>.apply (.removeDir cid)) :=
    h.clean.deleted (fun _ => []) (m := 1) (.inr (.inr Nat.one_pos))
  refine ⟨hcl, ?_, fun c hc => ?_, h.unpoisoned⟩
  · change store.tombstones.insert cid = store.disk.markers.insert cid
    rw [h.known]
  · rw [getElem?_drop]
    split
    · rfl
    · next hne =>
      rcases Std.ExtTreeSet.mem_insert.mp hc with heq | hmem
      · exact absurd (Std.LawfulEqOrd.eq_of_compare heq) hne
      · exact h.hidden c hmem

theorem Buried.untombstone (h : Buried store) : Buried (store.untombstone cid).2 := by
  refine ⟨h.clean.apply (e := .removeMarker cid) trivial, ?_, fun c hc => ?_, h.unpoisoned⟩
  · change store.tombstones.erase cid = store.disk.markers.erase cid
    rw [h.known]
  · exact h.hidden c (Std.ExtTreeSet.mem_of_mem_erase hc)

theorem Buried.apply_modifyEntry (h : Buried store) (he : Harmless store.disk e)
    (hm : (store.disk.apply e).markers = store.disk.markers) (reply : Reply)
    (f : IndexEntry → IndexEntry) :
    Buried ((store.apply e).lockIndex fun store => (.ok reply, store.modifyEntry cid f)).2 := by
  rw [lockIndex_of_unpoisoned (h.apply he hm).unpoisoned]
  exact (h.apply he hm).modifyEntry f

theorem Buried.exec (h : Buried store) {now : U64} (hop : Tidy store (.complete now op)) :
    Buried (store.exec now op).2 := by
  cases op with
  | putGeneration cid gen => exact h.putGeneration gen now
  | putPiece cid piece =>
    rw [NodeStore.exec, NodeStore.putPiece]
    split
    · exact h
    · exact h.apply_modifyEntry (e := .writePiece cid _ _) trivial rfl _ _
  | putContent cid content pinned => exact h.putContent content pinned now
  | unpin cid => exact h.apply_modifyEntry (e := .removeFile cid .pinned) trivial rfl _ _
  | markSystem cid => exact h.apply_modifyEntry (e := .writeSystem cid) trivial rfl _ _
  | unmarkSystem cid => exact h.apply_modifyEntry (e := .removeFile cid .system) trivial rfl _ _
  | removePiece cid pid =>
    exact h.apply_modifyEntry (e := .removeFile cid (.piece pid)) trivial rfl _ _
  | forget cid =>
    rw [NodeStore.exec, NodeStore.forget, lockIndex_of_unpoisoned h.unpoisoned]
    exact h.drop
  | tombstone cid => exact h.tombstone
  | untombstone cid => exact h.untombstone
  | evictTo target =>
    rw [NodeStore.exec, NodeStore.evictTo, lockIndex_of_unpoisoned h.unpoisoned, victims_eq_ok hop]
    exact h.foldl_drop _

theorem Buried.clean_cutOff (h : Buried store) {n : ℕ} {reopened : U64}
    (hop : Tidy store (.crash op order n reopened)) : Clean (store.cutOff op order n) := by
  by_cases ht : ∃ c, op = .tombstone c
  · obtain ⟨cid, rfl⟩ := ht
    rw [cutOff, effects, h.unpoisoned]
    cases n with
    | zero => exact h.clean
    | succ m =>
      rw [take_succ_cons, foldl_cons]
      refine h.clean.deleted order ?_
      have hcut := hop.resolve_left (Nat.succ_ne_zero m)
      rw [Nat.add_sub_cancel] at hcut
      exact hcut.imp_right (Or.imp_right Nat.le_of_succ_le_succ)
  · have hnot : ∀ c, op ≠ .tombstone c := fun c hc => ht ⟨c, hc⟩
    exact h.clean.foldl fun e he => harmless_of_mem_effects h.known hnot (mem_of_mem_take he)

theorem Buried.happen (h : Buried store) (he : Tidy store event) : Buried (happen store event) := by
  cases event with
  | complete now op => exact h.exec he
  | crash op order n reopened => exact buried_reload (h.clean_cutOff he) reopened

/-! ## Markers stay -/

theorem mem_markers_foldl (h : cid ∈ disk.markers) {es : List FileEffect}
    (hes : .removeMarker cid ∉ es) :
    cid ∈ (es.foldl Disk.apply disk).markers := by
  induction es generalizing disk with
  | nil => exact h
  | cons e es ih =>
    refine ih ?_ fun hmem => hes (.tail e hmem)
    cases e with
    | writeMarker c => exact Std.ExtTreeSet.mem_insert.mpr (.inr h)
    | removeMarker c =>
      refine Std.ExtTreeSet.mem_erase.mpr ⟨fun heq => hes ?_, h⟩
      rw [Std.LawfulEqOrd.eq_of_compare heq]
      exact (.head _)
    | _ => exact h

theorem removeMarker_notMem_removals (c : B32) : .removeMarker cid ∉ removals order c := by
  simp [removals]

theorem eq_untombstone_of_mem (h : .removeMarker cid ∈ store.effects order op) :
    op = .untombstone cid := by
  cases op with
  | putContent c content pinned => cases pinned <;> simp [effects, contentEffects] at h
  | evictTo target =>
    rw [effects] at h
    split at h
    · cases h
    · split at h
      · cases h
      · obtain ⟨v, -, hv⟩ := mem_flatMap.mp h
        exact absurd hv (removeMarker_notMem_removals v.2)
  | untombstone c => simpa [effects, eq_comm] using h
  | _ => simp [effects, removeMarker_notMem_removals] at h

theorem markers_happen (store : NodeStore) (event : Event) :
    ∃ op order n, (happen store event).disk.markers = (store.cutOff op order n).markers ∧
      (∀ cid, op = .untombstone cid → Restores cid event) ∧
      ∀ cid, Deletes cid event → op = .tombstone cid ∧ 1 ≤ n := by
  cases event with
  | complete now op =>
    refine ⟨op, fun _ => [], (store.effects (fun _ => []) op).length, ?_, ?_, ?_⟩
    · rw [cutOff, take_length]
      exact (sameFiles_exec now op _).2
    · rintro cid rfl
      rfl
    · intro cid hcid
      cases op with
      | tombstone c => exact ⟨congrArg _ hcid, Nat.succ_pos _⟩
      | _ => exact hcid.elim
  | crash op order n reopened =>
    refine ⟨op, order, n, rfl, ?_, ?_⟩
    · rintro cid rfl
      rfl
    · intro cid hcid
      cases op with
      | tombstone c => exact ⟨congrArg _ hcid.1, hcid.2⟩
      | _ => exact hcid.elim

theorem mem_markers_happen (h : cid ∈ store.disk.markers) (he : ¬ Restores cid event) :
    cid ∈ (happen store event).disk.markers := by
  obtain ⟨op, order, n, hm, hr, -⟩ := markers_happen store event
  rw [hm]
  exact mem_markers_foldl h fun hmem =>
    he (hr cid (eq_untombstone_of_mem (mem_of_mem_take hmem)))

theorem mem_markers_of_deletes (h : Deletes cid event) :
    cid ∈ (happen store event).disk.markers := by
  obtain ⟨op, order, n, hm, -, hd⟩ := markers_happen store event
  obtain ⟨rfl, hn⟩ := hd cid h
  obtain ⟨m, rfl⟩ := Nat.exists_eq_add_of_le' hn
  rw [hm, cutOff, effects, take_succ_cons, foldl_cons]
  refine mem_markers_foldl Std.ExtTreeSet.mem_insert_self fun hmem => ?_
  have hmem := mem_of_mem_take hmem
  split at hmem
  · exact nomatch hmem
  · exact removeMarker_notMem_removals cid hmem

/-- **Deleted stays deleted**: from its marker on, and until it is taken away. -/
theorem stays_deleted_of_tidy (events : List Event) (h : EachStep happen new Tidy events)
    {before after : List Event} {event : Event} (hrun : before ++ event :: after <+: events)
    {cid : B32} (hdeletes : Deletes cid event) (hafter : ∀ e ∈ after, ¬ Restores cid e) :
    Gone (run happen new (before ++ event :: after)) cid := by
  have hburied : Buried (run happen new (before ++ event :: after)) :=
    invariant buried_new (fun _ _ hs he => hs.happen he) fun pre e hp => h pre e (hp.trans hrun)
  refine gone_of_not_indexed (hburied.hidden cid ?_)
  rw [append_cons, run_append, run_concat]
  -- the marker is there after the event, and stays
  have hmarked : cid ∈ (happen (run happen new before) event).disk.markers :=
    mem_markers_of_deletes hdeletes
  exact invariant (I := fun store : NodeStore => cid ∈ store.disk.markers) (C := fun _ e =>
    ¬ Restores cid e) hmarked (fun _ _ hmem he => mem_markers_happen hmem he)
    fun pre e hp => hafter e (hp.subset (mem_append_right pre (.head _)))

instance (store : NodeStore) (event : Event) : Decidable (Tidy store event) := by
  unfold Tidy
  split <;> infer_instance

def eightStored : List Event :=
  [.complete 1 (.putGeneration 7 eightBytes), .complete 2 (.pin 7 [0, 1, 2, 3, 4, 5, 6, 7])]

/-- A deletion that a crash cuts off after `n` effects. -/
def cutDeletion (n : ℕ) : Event :=
  .crash (.tombstone 7) (fun _ => [.parameters, .content, .pinned]) n 3

def offeredAgain : List Event :=
  [.complete 4 (.putGeneration 7 eightBytes), .complete 5 (.evictTo 0)]

theorem tidy_cutDeletion :
    EachStep happen new Tidy (eightStored ++ cutDeletion 2 :: offeredAgain) := by
  decide +kernel

theorem stays_deleted_of_tidy_cutDeletion :
    EachStep happen new Tidy (eightStored ++ cutDeletion 2 :: offeredAgain)
      ∧ Deletes 7 (cutDeletion 2)
      ∧ Gone (run happen new (eightStored ++ cutDeletion 2 :: offeredAgain)) 7 :=
  ⟨tidy_cutDeletion, ⟨rfl, by decide⟩, stays_deleted_of_tidy _ tidy_cutDeletion prefix_rfl ⟨rfl,
    by decide⟩
    fun e he => by rcases mem_pair.mp he with rfl | rfl <;> exact not_false⟩

/-- A crash right after the marker, and the content is back. -/
theorem deleted_content_returns :
    Deletes 7 (cutDeletion 1) ∧
      (run happen new (eightStored ++ [cutDeletion 1])).view.content 7 = some [0, 1, 2, 3, 4, 5, 6,
        7] ∧ ¬ Gone (run happen new (eightStored ++ [cutDeletion 1])) 7 := by
  have hcontent :
      (run happen new (eightStored ++ [cutDeletion 1])).view.content 7 = some [0, 1, 2, 3, 4, 5, 6,
        7] := by
    decide +kernel
  refine ⟨⟨rfl, le_rfl⟩, hcontent, fun h => ?_⟩
  rw [h.no_content] at hcontent
  simp at hcontent

end NodeStore

end Zephcraft.Store
