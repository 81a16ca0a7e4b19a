import Zephcraft.Foundations.Worklist
import Zephcraft.Obj.Manifest
import Zephcraft.Store.Tombstone

/-!
# Obj/Pins — pinning whole files and folders

`pin_chain` and `unpin_chain` walk from an object along its links and pin, or unpin, each object on
the way. An object has one flag, whoever pinned it; and to pin an object the store must already know
its generation, which fetching it does not record.
-/

namespace Zephcraft.Obj

open Store Worklist Run List Option Std.ExtTreeMap NodeStore

/-- A content-addressed family of objects with their links; all of them can be fetched. -/
structure Family (P : Postcard) (hash : Bytes → B32) where
  cids : Finset B32
  bytes : B32 → Bytes
  addressed : ∀ c ∈ cids, hash (bytes c) = c
  closed : ∀ c ∈ cids, ∀ d ∈ P.chainChildren (bytes c), d ∈ cids

variable {P : Postcard} {hash : Bytes → B32}

/-- `is_pinned` -/
def isPinned (store : NodeStore) (cid : B32) : Bool :=
  (store.index[cid]?.map IndexEntry.pinned).getD false

/-- `is_system` -/
def isSystem (store : NodeStore) (cid : B32) : Bool :=
  (store.index[cid]?.map IndexEntry.system).getD false

def heldLinks (P : Postcard) (store : NodeStore) (cid : B32) : List B32 :=
  match store.view.content cid with
  | some bytes => P.chainChildren bytes
  | none => []

namespace Family

variable (F : Family P hash)

def links (cid : B32) : List B32 := P.chainChildren (F.bytes cid)

def turns : ℕ := 2 + ∑ c ∈ F.cids, (F.links c).length

/-- Pin an object, fetching it if it is not held; whether that went through. -/
def pin (now : U64) (store : NodeStore) (cid : B32) : Bool × NodeStore :=
  if isSystem store cid then (false, store)
  else
    let content :=
      match store.view.content cid with
      | some held => if hash held = cid then held else F.bytes cid
      | none => F.bytes cid
    match store.exec now (.pin cid content) with
    | (.ok _, store) => (true, store)
    | (.error _, store) => (false, store)

def unpin (store : NodeStore) (cid : B32) : NodeStore :=
  if isSystem store cid then store else (store.unpin cid).2

def pinVisit (now : U64) (s : ℕ × NodeStore) (cid : B32) : (ℕ × NodeStore) × List B32 :=
  let (pinned, store) := F.pin now s.2 cid
  ((s.1 + pinned.toNat, store), heldLinks P store cid)

/-- The links are read before the object is unpinned. -/
def unpinVisit (P : Postcard) (s : ℕ × NodeStore) (cid : B32) : (ℕ × NodeStore) × List B32 :=
  ((s.1 + 1, unpin s.2 cid), heldLinks P s.2 cid)

/-- Pin a whole file or folder: how many objects were pinned, and the store. -/
def pinChain (now : U64) (store : NodeStore) (root : B32) : Option (ℕ × NodeStore) :=
  (traverse (F.pinVisit now) F.turns [root] [] (0, store)).map Prod.fst

def unpinChain (store : NodeStore) (root : B32) : Option (ℕ × NodeStore) :=
  (traverse (unpinVisit P) F.turns [root] [] (0, store)).map Prod.fst

/-- The store, and the roots whose last operation was `pin_chain`. -/
structure Pinning where
  store : NodeStore
  kept : List B32

inductive ChainOp where
  | pin (now : U64) (root : F.cids)
  | unpin (root : F.cids)

/-- A call, if it comes to an end (it does: `exists_pinChain`, `exists_unpinChain`). -/
def step (w : Pinning) : F.ChainOp → Pinning
  | .pin now root => ⟨((F.pinChain now w.store root).map Prod.snd).getD w.store, root.val :: w.kept⟩
  | .unpin root => ⟨((F.unpinChain w.store root).map Prod.snd).getD w.store,
    w.kept.filter (· ≠ root.val)⟩

/-- What was pinned last is pinned whole. -/
def KeptWhole (w : Pinning) : Prop :=
  ∀ root ∈ w.kept, ∀ c, Reach F.links root c → isPinned w.store c = true

/-- All of what is pinned is in the index; what is unpinned, as far as it is held, is not part of
what is kept. -/
def Safe (w : Pinning) : F.ChainOp → Prop
  | .pin _ root => ∀ c, Reach F.links root c → c ∈ w.store.index
  | .unpin root => ∀ other ∈ w.kept, other ≠ root → ∀ c, Reach F.links other c
    → ¬ Reach (heldLinks P w.store) root c

/-- A store that has been kept well: what it holds of the family are its objects, none of them a
system object; and what it has deleted it does not have. -/
structure Fit (store : NodeStore) : Prop where
  unpoisoned : store.poisoned = false
  banned : ∀ c, store.isTombstoned c = true → c ∉ store.index
  users : ∀ c, isSystem store c = false
  authentic : ∀ c ∈ F.cids, ∀ b, store.view.content c = some b → b = F.bytes c

/-! ## One object -/

section One

variable {F} {store : NodeStore} {cid : B32}

theorem isPinned_of_none (h : store.index[cid]? = none) : isPinned store cid = false := by
  rw [isPinned, h]
  rfl

theorem mem_index_of_isPinned (h : isPinned store cid = true) : cid ∈ store.index := by
  rw [mem_iff_isSome_getElem?]
  cases hc : store.index[cid]? with
  | none => exact absurd h (by rw [isPinned_of_none hc]; simp)
  | some e => rfl

structure Seen (store store' : NodeStore) (content : B32 → Option Bytes) (pinned : B32 → Bool) :
    Prop where
  poisoned : store'.poisoned = store.poisoned
  tombstones : store'.tombstones = store.tombstones
  index : ∀ d, d ∈ store'.index ↔ d ∈ store.index
  system : ∀ d, isSystem store' d = isSystem store d
  content : ∀ d, store'.view.content d = content d
  pinned : ∀ d, isPinned store' d = pinned d

section Entry

variable (disk : Disk) {f : IndexEntry → IndexEntry}

theorem mem_modifyEntry (d : B32) :
    d ∈ (({ store with disk := disk } : NodeStore).modifyEntry cid f).index ↔ d ∈ store.index := by
  rw [mem_iff_isSome_getElem?, mem_iff_isSome_getElem?, getElem?_modifyEntry]
  split
  · rw [isSome_map]
  · rfl

theorem isSystem_modifyEntry (hf : ∀ e, (f e).system = e.system) (d : B32) :
    isSystem (({ store with disk := disk } : NodeStore).modifyEntry cid f) d
      = isSystem store d := by
  rw [isSystem, isSystem, getElem?_modifyEntry]
  split
  · rw [Option.map_map]
    exact congrArg (fun g => Option.getD (Option.map g _) false) (funext hf)
  · rfl

theorem isPinned_modifyEntry (d : B32) :
    isPinned (({ store with disk := disk } : NodeStore).modifyEntry cid f) d =
      if cid = d then (store.index[d]?.map fun e => (f e).pinned).getD false
        else isPinned store d := by
  rw [isPinned, getElem?_modifyEntry]
  split
  · rw [Option.map_map]
    rfl
  · rfl

theorem content_modifyEntry (d : B32) :
    (({ store with disk := disk } : NodeStore).modifyEntry cid f).view.content d =
      (if cid = d then store.index[d]?.map f else store.index[d]?).bind
        fun e => if e.hasContent then (disk.dir d).content else none := by
  rw [content_view, getElem?_modifyEntry, disk_modifyEntry]

end Entry

theorem seen_pin (h : Fit F store) (hcid : cid ∈ store.index) (now : U64) (content : Bytes) :
    ∃ store', store.exec now (.pin cid content) = (.ok .done, store') ∧
      Seen store store' (fun d => if cid = d then some content else store.view.content d)
        fun d => if cid = d then true else isPinned store d := by
  obtain ⟨e, he⟩ := isSome_iff_exists.mp (mem_iff_isSome_getElem?.mp hcid)
  have hl : store.isTombstoned cid = false :=
    Bool.eq_false_iff.mpr fun hb => h.banned cid hb hcid
  have hex : store.exec now (.pin cid content) = (.ok .done,
      ({ store with disk := (contentEffects cid content true).foldl Disk.apply store.disk } :
        NodeStore).modifyEntry
          cid fun e =>
            { e with pinned := e.pinned || true, hasContent := true, lastAccess := now }) := by
    change store.putContent cid content true now = _
    rw [putContent, hl, if_neg Bool.false_ne_true, lockIndex_of_unpoisoned h.unpoisoned, he,
      ← foldl_apply_contentEffects]
  refine ⟨_, hex, poisoned_modifyEntry _, tombstones_modifyEntry _, mem_modifyEntry _,
    isSystem_modifyEntry _ fun _ => rfl, fun d => ?_, fun d => ?_⟩
  · rw [content_modifyEntry, dir_contentEffects]
    split
    · next heq =>
      rw [← heq, he]
      rfl
    · rw [content_view]
  · rw [isPinned_modifyEntry]
    split
    · next heq =>
      rw [← heq, he]
      exact Bool.or_true _
    · rfl

theorem seen_unpin (h : store.poisoned = false) (cid : B32) :
    Seen store (store.unpin cid).2 store.view.content fun d => if cid = d then false
      else isPinned store d := by
  rw [NodeStore.unpin, lockIndex_of_unpoisoned (by exact h), NodeStore.apply]
  refine ⟨poisoned_modifyEntry _, tombstones_modifyEntry _, mem_modifyEntry _,
    isSystem_modifyEntry _ fun _ => rfl, fun d => ?_, fun d => ?_⟩
  · have hc :
        ((store.disk.apply (.removeFile cid .pinned)).dir d).content
          = (store.disk.dir d).content := by
      rw [Disk.apply, Disk.dir_modify]
      split <;> rfl
    rw [content_modifyEntry, hc, content_view]
    split
    · cases store.index[d]? <;> rfl
    · rfl
  · rw [isPinned_modifyEntry]
    split
    · cases store.index[d]? <;> rfl
    · rfl

theorem Fit.seen (h : Fit F store) {store' : NodeStore} {content : B32 → Option Bytes}
    {pinned : B32 → Bool} (hs : Seen store store' content pinned)
    (hco : ∀ c ∈ F.cids, ∀ b, content c = some b → b = F.bytes c) :
    Fit F store' := by
  refine ⟨hs.poisoned.trans h.unpoisoned, fun c hc => ?_, fun c => (hs.system c).trans (h.users c),
    fun c hc b hb => ?_⟩
  · rw [isTombstoned, hs.tombstones] at hc
    rw [hs.index c]
    exact h.banned c hc
  · rw [hs.content c] at hb
    exact hco c hc b hb

/-- **To pin an object of the family**: it is stored and marked if the index has it, and nothing
happens if not. -/
theorem seen_familyPin (h : Fit F store) (hcid : cid ∈ F.cids) (now : U64) :
    Seen store (F.pin now store cid).2
      (fun d => if cid = d ∧ cid ∈ store.index then some (F.bytes cid) else store.view.content d)
      fun d => if cid = d ∧ cid ∈ store.index then true else isPinned store d := by
  -- the content is that of the object, held or fetched
  have hc : (match store.view.content cid with
      | some held => if hash held = cid then held else F.bytes cid
      | none => F.bytes cid) = F.bytes cid := by
    split
    · next held hh =>
      rw [h.authentic cid hcid held hh]
      exact ite_self _
    · rfl
  rw [pin, h.users cid, if_neg Bool.false_ne_true, hc]
  by_cases hmem : cid ∈ store.index
  · obtain ⟨store', he, hs⟩ := seen_pin h hmem now (F.bytes cid)
    simp only [he, hmem, and_true]
    exact hs
  · have hn : store.index[cid]? = none := by
      rwa [← not_isSome_iff_eq_none, ← mem_iff_isSome_getElem?]
    have he : ∃ e, store.exec now (.pin cid (F.bytes cid)) = (.error e, store) := by
      change ∃ e, store.putContent cid (F.bytes cid) true now = (.error e, store)
      rw [putContent]
      split
      · exact ⟨_, rfl⟩
      · rw [lockIndex_of_unpoisoned h.unpoisoned, hn]
        exact ⟨_, rfl⟩
    obtain ⟨e, he⟩ := he
    simp only [he, hmem, and_false, if_false]
    exact ⟨rfl, rfl, fun _ => Iff.rfl, fun _ => rfl, fun _ => rfl, fun _ => rfl⟩

theorem Fit.pin (h : Fit F store) (hcid : cid ∈ F.cids) (now : U64) :
    Fit F (F.pin now store cid).2 := by
  refine h.seen (seen_familyPin h hcid now) fun c hc b hb => ?_
  split at hb
  · next heq => rw [← heq.1, ← Option.some.inj hb]
  · exact h.authentic c hc b hb

theorem seen_familyUnpin (h : Fit F store) (cid : B32) :
    Seen store (unpin store cid) store.view.content fun d => if cid = d then false
      else isPinned store d := by
  rw [unpin, h.users cid]
  exact seen_unpin h.unpoisoned cid

theorem Fit.unpin (h : Fit F store) (cid : B32) : Fit F (unpin store cid) :=
  h.seen (seen_familyUnpin h cid) h.authentic

theorem Fit.heldLinks (h : Fit F store) (hcid : cid ∈ F.cids) :
    Obj.heldLinks P store cid = F.links cid ∨ Obj.heldLinks P store cid = [] := by
  rw [Obj.heldLinks]
  split
  · next b hb =>
    rw [h.authentic cid hcid b hb]
    exact .inl rfl
  · exact .inr rfl

end One

/-! ## A walk -/

section Walk

variable {F} {store : NodeStore} {root : B32}

theorem mem_of_reach (hr : root ∈ F.cids) {c : B32} (h : Reach F.links root c) : c ∈ F.cids :=
  h.invariant hr F.closed

theorem exists_walk (visit : ℕ × NodeStore → B32 → (ℕ × NodeStore) × List B32)
    {J : NodeStore → Prop} (h : Fit F store) (hJ : J store) (hr : root ∈ F.cids)
    (hv : ∀ s c, Fit F s.2 → J s.2 → c ∈ F.cids →
      (Fit F (visit s c).1.2 ∧ J (visit s c).1.2) ∧ ((visit s c).2 = F.links c
        ∨ (visit s c).2 = [])) :
    ∃ r, traverse visit F.turns [root] [] (0, store) = some r ∧ Fit F r.1.2 ∧ J r.1.2 := by
  refine exists_traverse (I := fun s : ℕ × NodeStore => Fit F s.2 ∧ J s.2) (U := F.cids)
    (w := fun c => (F.links c).length)
      (fun s c hs hc => ?_) ⟨h, hJ⟩ (fun c hc => mem_singleton.mp hc ▸ hr) ?_
  · obtain ⟨hk, hl⟩ := hv s c hs.1 hs.2 hc
    refine ⟨hk, ?_⟩
    rcases hl with hl | hl <;> rw [hl]
    · exact ⟨le_rfl, F.closed c hc⟩
    · exact ⟨Nat.zero_le _, fun _ hb => nomatch hb⟩
  · rw [turns, Finset.filter_true_of_mem fun _ _ => not_mem_nil]
    exact Nat.add_lt_add_right (by simp) _

/-- Nothing is added to the index and nothing unpinned. -/
def Grown (store store' : NodeStore) : Prop :=
  (∀ c, c ∈ store'.index ↔ c ∈ store.index) ∧ ∀ c, isPinned store c = true
    → isPinned store' c = true

theorem Grown.pin {store' : NodeStore} (h : Fit F store') (hg : Grown store store') {c : B32}
    (hc : c ∈ F.cids) (now : U64) : Grown store (F.pin now store' c).2 := by
  have hs := seen_familyPin h hc now
  refine ⟨fun d => (hs.index d).trans (hg.1 d), fun d hd => ?_⟩
  rw [hs.pinned d]
  split
  · rfl
  · exact hg.2 d hd

/-- **Pinning a file or folder**: it comes to an end, adds nothing to the index and unpins nothing;
and if all of it is in the index, all of it is pinned. -/
theorem exists_pinChain (h : Fit F store) (hr : root ∈ F.cids) (now : U64) :
    ∃ n store', F.pinChain now store root = some (n, store') ∧ Fit F store' ∧ Grown store store' ∧
      ((∀ c, Reach F.links root c → c ∈ store.index) → ∀ c, Reach F.links root c
        → isPinned store' c = true) := by
  obtain ⟨⟨⟨n, store'⟩, visited⟩, hrun, hfit, hg⟩ :=
    exists_walk (F.pinVisit now) (J := Grown store) h ⟨fun _ => Iff.rfl, fun _ hc => hc⟩ hr
      fun s c hs hJ hc => ⟨⟨hs.pin hc now, hJ.pin hs hc now⟩, (hs.pin hc now).heldLinks hc⟩
  refine ⟨n, store', by rw [pinChain, hrun]; rfl, hfit, hg, fun hind => ?_⟩
  -- each object is pinned when it is visited, and then held, so all of its links are found
  have hv : ∀ (seen : List B32) (s : ℕ × NodeStore) (c : B32), Reach F.links root c → c ∉ seen →
      (Fit F s.2 ∧ Grown store s.2 ∧ ∀ d ∈ seen, isPinned s.2 d = true) →
      (F.pinVisit now s c).2 = F.links c ∧ Fit F (F.pinVisit now s c).1.2
        ∧ Grown store (F.pinVisit now s c).1.2 ∧ ∀ d ∈ c :: seen,
        isPinned (F.pinVisit now s c).1.2 d = true := by
    rintro seen s c hc - ⟨hs, hJ, hp⟩
    have hF := mem_of_reach hr hc
    have hse := seen_familyPin hs hF now
    have hin : c ∈ s.2.index := (hJ.1 c).mpr (hind c hc)
    refine ⟨?_, hs.pin hF now, hJ.pin hs hF now, fun d hd => ?_⟩
    · change heldLinks P (F.pin now s.2 c).2 c = F.links c
      rw [heldLinks, hse.content c, if_pos ⟨rfl, hin⟩]
      rfl
    · change isPinned (F.pin now s.2 c).2 d = true
      rw [hse.pinned d]
      split
      · rfl
      · next hne => exact hp d ((mem_cons.mp hd).resolve_left fun heq => hne ⟨heq.symm, hin⟩)
  obtain ⟨⟨-, -, hp⟩, hre⟩ := traverse_spec hv ⟨h, ⟨fun _ => Iff.rfl, fun _ hc => hc⟩, by simp⟩ hrun
  exact fun c hc => hp c ((hre c).mpr hc)

/-- **Unpinning a file or folder**: it comes to an end, and unpins exactly what it reaches through
held objects. -/
theorem exists_unpinChain (h : Fit F store) (hro : root ∈ F.cids) :
    ∃ n store', F.unpinChain store root = some (n, store') ∧ Fit F store' ∧
      (∀ c, Reach (heldLinks P store) root c → isPinned store' c = false) ∧
      ∀ c, ¬ Reach (heldLinks P store) root c → isPinned store' c = isPinned store c := by
  obtain ⟨⟨⟨n, store'⟩, visited⟩, hrun, hfit, -⟩ :=
    exists_walk (unpinVisit P) (J := fun _ => True) h trivial hro
      fun s c hs _ hc => ⟨⟨hs.unpin c, trivial⟩, hs.heldLinks hc⟩
  refine ⟨n, store', by rw [unpinChain, hrun]; rfl, hfit, ?_⟩
  have hv : ∀ (seen : List B32) (s : ℕ × NodeStore) (c : B32), Reach (heldLinks P store) root c
      → c ∉ seen → (Fit F s.2 ∧ (∀ d, s.2.view.content d = store.view.content d) ∧
        ∀ d, isPinned s.2 d = if d ∈ seen then false else isPinned store d) →
      (unpinVisit P s c).2 = heldLinks P store c ∧ Fit F (unpinVisit P s c).1.2 ∧
        (∀ d, (unpinVisit P s c).1.2.view.content d = store.view.content d) ∧
        ∀ d, isPinned (unpinVisit P s c).1.2 d = if d ∈ c :: seen then false
          else isPinned store d := by
    rintro seen s c - - ⟨hs, hco, hp⟩
    have hse := seen_familyUnpin hs c
    refine ⟨?_, hs.unpin c, fun d => (hse.content d).trans (hco d), fun d => ?_⟩
    · change heldLinks P s.2 c = heldLinks P store c
      rw [heldLinks, hco c, heldLinks]
    · change isPinned (unpin s.2 c) d = _
      rw [hse.pinned d, hp d]
      by_cases hd : c = d
      · rw [if_pos hd, if_pos (mem_cons.mpr (.inl hd.symm))]
      · rw [if_neg hd]
        congr 1
        simp [Ne.symm hd]
  obtain ⟨⟨-, -, hp⟩, hr⟩ :=
    traverse_spec hv ⟨h, fun _ => rfl, fun c => (if_neg not_mem_nil).symm⟩ hrun
  exact ⟨fun c hc => (hp c).trans (if_pos ((hr c).mpr hc)),
    fun c hc => (hp c).trans (if_neg fun hmem => hc ((hr c).mp hmem))⟩

end Walk

/-! ## Whole runs -/

section Runs

variable {F} {w : Pinning}

theorem step_pin (h : Fit F w.store) (now : U64) (root : F.cids) :
    ∃ store', F.step w (.pin now root) = ⟨store', root.val :: w.kept⟩ ∧ Fit F store'
      ∧ Grown w.store store' ∧ ((∀ c, Reach F.links root c → c ∈ w.store.index)
        → ∀ c, Reach F.links root c → isPinned store' c = true) := by
  obtain ⟨n, store', hpin, hr⟩ := exists_pinChain h root.property now
  exact ⟨store', by rw [step, hpin]; rfl, hr⟩

theorem step_unpin (h : Fit F w.store) (root : F.cids) :
    ∃ store', F.step w (.unpin root) = ⟨store', w.kept.filter (· ≠ root.val)⟩ ∧ Fit F store' ∧
      (∀ c, Reach (heldLinks P w.store) root c → isPinned store' c = false) ∧
      ∀ c, ¬ Reach (heldLinks P w.store) root c → isPinned store' c = isPinned w.store c := by
  obtain ⟨n, store', hu, hr⟩ := exists_unpinChain h root.property
  exact ⟨store', by rw [step, hu]; rfl, hr⟩

theorem KeptWhole.step (hfit : Fit F w.store) (h : F.KeptWhole w) {op : F.ChainOp}
    (hop : F.Safe w op) :
    Fit F (F.step w op).store ∧ F.KeptWhole (F.step w op) := by
  cases op with
  | pin now root =>
    obtain ⟨store', hs, hfit', hg, hp⟩ := step_pin hfit now root
    rw [hs]
    refine ⟨hfit', fun other ho c hc => ?_⟩
    rcases mem_cons.mp ho with rfl | ho
    · exact hp hop c hc
    · exact hg.2 c (h other ho c hc)
  | unpin root =>
    obtain ⟨store', hs, hfit', -, hot⟩ := step_unpin hfit root
    rw [hs]
    refine ⟨hfit', fun other ho c hc => ?_⟩
    obtain ⟨ho, hne⟩ := List.mem_filter.mp ho
    rw [hot c (hop other ho (of_decide_eq_true hne) c hc)]
    exact h other ho c hc

theorem safe_of_keptWhole (hfit : Fit F w.store) {op : F.ChainOp} (h : F.KeptWhole (F.step w op)) :
    F.Safe w op := by
  cases op with
  | pin now root =>
    obtain ⟨store', hs, -, hg, -⟩ := step_pin hfit now root
    rw [hs] at h
    exact fun c hc => (hg.1 c).mp (mem_index_of_isPinned (h root (.head _) c hc))
  | unpin root =>
    obtain ⟨store', hs, -, hu, -⟩ := step_unpin hfit root
    rw [hs] at h
    intro other ho hne c hc hr
    have hp : isPinned store' c = true :=
      h other (List.mem_filter.mpr ⟨ho, decide_eq_true hne⟩) c hc
    rw [hu c hr] at hp
    exact absurd hp Bool.false_ne_true

end Runs

/-- **What was pinned last stays pinned whole exactly under safe calls.** -/
theorem stay_pinned_iff {store : NodeStore} (h : Fit F store) (ops : List F.ChainOp) :
    EachState F.step ⟨store, []⟩ F.KeptWhole ops ↔ EachStep F.step ⟨store, []⟩ F.Safe ops :=
  eachState_iff_eachStep (I := fun w => Fit F w.store ∧ F.KeptWhole w)
    ⟨h, fun _ hroot => nomatch hroot⟩ (fun _ hw => hw.2)
    (fun _ _ hw hop => hw.2.step hw.1 hop) fun _ _ hw hkept => safe_of_keptWhole hw.1 hkept

end Family

/-! ## Two names for the same bytes -/

/-- The id of the segment `[0]`. -/
def segmentCid : B32 := 0x2d3adedff11b61f14c886e35afa036736dcd87a74d27b5c1510225d0f592e213

/-- A file with that segment. -/
def oneSegment (name : Byte) : Manifest := .file [name] 1 [] [⟨segmentCid, 1⟩]

/-- Reads the manifests of the files `a` and `b`. -/
def twoNames : Postcard where
  ofManifest m := if m = oneSegment 97 then [1] else [2]
  toManifest bytes :=
    if bytes = [1] then some (oneSegment 97) else if bytes = [2] then some (oneSegment 98) else none
  ofEnvelope _ := []
  toEnvelope _ := none
  ofMeta _ := []
  toMeta _ := none

/-- The ids of the manifests of `a` and `b`. -/
def aCid : B32 := 0x8da960d867561e078d095bdc3a365b878f7fa02c8ef6542178e89cc95c50d037

def bCid : B32 := 0x244b725049e69a203135208de78a9fc98914f1367d6057481e50d054bd9ea65

def twoNamesBytes (cid : B32) : Bytes :=
  if cid = aCid then twoNames.encodeManifest (oneSegment 97)
  else if cid = bCid then twoNames.encodeManifest (oneSegment 98) else [0]

def twoFiles : Family twoNames blake3 where
  cids := {aCid, bCid, segmentCid}
  bytes := twoNamesBytes
  addressed := by
    intro c hc
    simp only [Finset.mem_insert, Finset.mem_singleton] at hc
    rcases hc with rfl | rfl | rfl <;> decide +kernel
  closed := by
    intro c hc d hd
    simp only [Finset.mem_insert, Finset.mem_singleton] at hc ⊢
    have hlinks :
        twoNames.chainChildren (twoNamesBytes c) = if c = segmentCid then [] else [segmentCid] := by
      rcases hc with rfl | rfl | rfl <;> decide +kernel
    rw [hlinks] at hd
    split at hd
    · exact absurd hd not_mem_nil
    · exact .inr (.inr (mem_singleton.mp hd))

namespace Family

/-- Of a store that knows an id but holds nothing of it. -/
def knownOnly : IndexEntry := ⟨onePiece, ∅, false, false, false, 0⟩

/-- The generations of all three objects are known. -/
def threeKnown : NodeStore where
  index :=
    ((∅ : BTreeMap B32 IndexEntry).insert aCid knownOnly |>.insert bCid knownOnly).insert segmentCid
    knownOnly
  tombstones := ∅
  disk := ⟨∅, ∅⟩
  poisoned := false

theorem eq_knownOnly {c : B32} {e : IndexEntry} (h : threeKnown.index[c]? = some e) :
    e = knownOnly := by
  simp only [threeKnown, BTreeMap.getElem?_insert] at h
  split_ifs at h <;> simp_all

theorem fit_threeKnown : twoFiles.Fit threeKnown where
  unpoisoned := rfl
  banned c hc := absurd hc (by simp [isTombstoned, threeKnown])
  users c := by
    rw [isSystem]
    cases hc : threeKnown.index[c]? with
    | none => rfl
    | some e => rw [eq_knownOnly hc]; rfl
  authentic c _ b hb := by
    rw [content_view] at hb
    cases hc : threeKnown.index[c]? with
    | none => rw [hc] at hb; exact absurd hb (by simp)
    | some e => rw [hc, eq_knownOnly hc] at hb; exact absurd hb (by simp [knownOnly])

def fileA : twoFiles.cids := ⟨aCid, by decide +kernel⟩

def fileB : twoFiles.cids := ⟨bCid, by decide +kernel⟩

/-- Both files are pinned, then the second is unpinned. -/
def secondUnpinned : List twoFiles.ChainOp := [.pin 1 fileA, .pin 2 fileB, .unpin fileB]

theorem stay_pinned_iff_twoFiles :
    twoFiles.Fit threeKnown ∧
      (EachState twoFiles.step ⟨threeKnown, []⟩ twoFiles.KeptWhole secondUnpinned ↔
        EachStep twoFiles.step ⟨threeKnown, []⟩ twoFiles.Safe secondUnpinned) :=
  ⟨fit_threeKnown, stay_pinned_iff twoFiles fit_threeKnown secondUnpinned⟩

/-- The first file is still wanted, but its segment is no longer pinned. -/
theorem shared_segment_unpinned :
    ¬ twoFiles.KeptWhole (run twoFiles.step ⟨threeKnown, []⟩ secondUnpinned) := by
  intro h
  have hkept : aCid ∈ (run twoFiles.step ⟨threeKnown, []⟩ secondUnpinned).kept := by decide +kernel
  have hlink : segmentCid ∈ twoFiles.links aCid := by decide +kernel
  exact absurd (h aCid hkept segmentCid ((Reach.refl _ aCid).tail hlink)) (by decide +kernel)

end Family

end Zephcraft.Obj
