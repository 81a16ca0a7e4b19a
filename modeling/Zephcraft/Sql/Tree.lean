import Zephcraft.Foundations.Radix
import Zephcraft.Sql.Pager

/-!
# Sql/Tree — the index tree of a page map, and what reads it back

The content ids of the pages determine the whole index: a node is the object of its children's
content ids, and where there is no page below it, there is no node.
-/

namespace Zephcraft.Sql

open List

/-! ## The tree -/

namespace Medium

variable (M : Medium)

/-- The content id of the node with the given children; there is no node without children. -/
def combine (child : Byte → Option B32) : Option B32 :=
  let node := nodeOf child
  if node.isEmpty then none else some (M.hash (M.sealIndex (encodeNode node)))

/-- The content id at a height: of a page at the bottom, and of a node above. -/
def tree (leaf : ℕ → Option B32) : ℕ → ℕ → Option B32 := Radix.tree M.combine leaf

def nodeObject (leaf : ℕ → Option B32) (level key : ℕ) : Bytes :=
  M.sealIndex (encodeNode (nodeOf fun i => M.tree leaf level (key * fanout + i)))

variable {M} {leaf leaf' : ℕ → Option B32} {h k : ℕ} {cid : B32}

theorem combine_eq_none {child : Byte → Option B32} :
    M.combine child = none ↔ ∀ i, child i = none := by
  rw [← isEmpty_nodeOf, combine]
  split <;> simp_all

theorem tree_zero : M.tree leaf 0 k = leaf k := rfl

theorem tree_succ : M.tree leaf (h + 1) k = M.combine fun i => M.tree leaf h (k * fanout + i) := rfl

theorem eq_hash_of_tree (hcid : M.tree leaf (h + 1) k = some cid) :
    cid = M.hash (M.nodeObject leaf h k) := by
  rw [tree_succ, combine] at hcid
  split at hcid
  · simp at hcid
  · exact (Option.some.inj hcid).symm

theorem tree_eq_none_iff : M.tree leaf h k = none ↔ ∀ n, n / fanout ^ h = k → leaf n = none :=
  Radix.tree_eq_none_iff (by norm_num) fun _ => combine_eq_none

theorem exists_leaf (hcid : M.tree leaf h k = some cid) : ∃ n, n / fanout ^ h = k ∧ leaf n ≠ none :=
  Radix.exists_leaf_of_tree (by norm_num) (fun _ => combine_eq_none) hcid

theorem exists_ancestor {H : ℕ} (hH : h ≤ H) (hcid : M.tree leaf h k = some cid) :
    ∃ c, M.tree leaf H (k / fanout ^ (H - h)) = some c := by
  refine Option.ne_none_iff_exists'.mp fun hno => ?_
  obtain ⟨n, rfl, hn⟩ := exists_leaf hcid
  refine hn (tree_eq_none_iff.mp hno n ?_)
  rw [Nat.div_div_eq_div_mul, ← pow_add, Nat.add_sub_cancel' hH]

theorem key_lt (hl : ∀ n, leaf n ≠ none → n < 2 ^ 32) (hcid : M.tree leaf h k = some cid) :
    k < 2 ^ 32 := by
  obtain ⟨n, rfl, hn⟩ := exists_leaf hcid
  exact (Nat.div_le_self _ _).trans_lt (hl n hn)

end Medium

/-! ## Its objects -/

namespace Pager

variable {M : Medium} {leaf : ℕ → Option B32} {store : ObjectStore} {depth : ℕ}

/-- The objects of the tree's nodes are stored. -/
def NodesStored (M : Medium) (leaf : ℕ → Option B32) (depth : ℕ) (store : ObjectStore) : Prop :=
  ∀ level key, level < depth → M.tree leaf (level + 1) key ≠ none →
    M.nodeObject leaf level key ∈ store.objects

theorem fetchNode_eq (hf : store.Faithful M) (hs : NodesStored M leaf depth store) {level key : ℕ}
    (hl : level < depth) {cid : B32} (hcid : M.tree leaf (level + 1) key = some cid) :
    fetchNode M store cid = .ok (nodeOf fun i => M.tree leaf level (key * fanout + i)) := by
  have hmem := hs level key hl (by simp [hcid])
  rw [fetchNode, Medium.eq_hash_of_tree hcid, hf.get_hash hmem]
  simp [Medium.nodeObject]

theorem mem_toList_nodeOf {child : Byte → Option B32} {e : Byte × B32} :
    e ∈ (nodeOf child).toList ↔ child e.1 = some e.2 := by
  rw [← getElem?_nodeOf child, ← Std.ExtTreeMap.mem_toList_iff_getElem?_eq_some]

end Pager

namespace Loaded

variable {M : Medium} {leaf : ℕ → Option B32} {H K : ℕ} {loaded loaded' : Loaded}

def Right (M : Medium) (leaf : ℕ → Option B32) (loaded : Loaded) : Prop :=
  ∀ h k cid, loaded.slot h k = some cid → M.tree leaf h k = some cid

def Within (loaded loaded' : Loaded) : Prop :=
  ∀ h k cid, loaded.slot h k = some cid → loaded'.slot h k = some cid

/-- Everything from a node downwards is in the index. -/
def Covers (M : Medium) (leaf : ℕ → Option B32) (H K : ℕ) (loaded : Loaded) : Prop :=
  ∀ h k cid, h ≤ H → k / fanout ^ (H - h) = K → M.tree leaf h k = some cid
    → loaded.slot h k = some cid

theorem Within.refl (loaded : Loaded) : loaded.Within loaded := fun _ _ _ h => h

theorem Within.trans {a b c : Loaded} (h : a.Within b) (h' : b.Within c) : a.Within c :=
  fun _ _ _ hs => h' _ _ _ (h _ _ _ hs)

theorem Covers.mono (h : loaded.Covers M leaf H K) (hle : loaded.Within loaded') :
    loaded'.Covers M leaf H K :=
  fun _ _ _ hh hk ht => hle _ _ _ (h _ _ _ hh hk ht)

theorem slot_insert (loaded : Loaded) (key h k : ℕ) (cid : B32) :
    Loaded.slot { loaded with pages := loaded.pages.insert key cid } h k
      = if h = 0 ∧ k = key then some cid else loaded.slot h k := by
  cases h with
  | zero => simp [Loaded.slot, BTreeMap.getElem?_insert, eq_comm]
  | succ h => simp [Loaded.slot]

theorem slot_update (loaded : Loaded) (level key h k : ℕ) (value : Option B32) :
    Loaded.slot { loaded with nodeCids := Function.update loaded.nodeCids (level, key) value } h k
      = if h = level + 1 ∧ k = key then value else loaded.slot h k := by
  cases h with
  | zero => simp [Loaded.slot]
  | succ h => simp [Loaded.slot, Function.update_apply]

theorem Right.write (h : loaded.Right M leaf) {level key : ℕ} {cid : B32}
    (hcid : M.tree leaf level key = some cid)
    (hs : ∀ h k, loaded'.slot h k = if h = level ∧ k = key then some cid else loaded.slot h k) :
    loaded'.Right M leaf ∧ loaded.Within loaded' := by
  constructor
  · intro h' k c hc
    rw [hs] at hc
    split at hc
    · rename_i hat
      obtain ⟨rfl, rfl⟩ := hat
      rwa [← hc]
    · exact h h' k c hc
  · intro h' k c hc
    rw [hs]
    split
    · rename_i hat
      obtain ⟨rfl, rfl⟩ := hat
      rw [← hcid, h _ _ c hc]
    · exact hc

end Loaded

/-! ## Opening it -/

namespace Pager

variable {M : Medium} {leaf : ℕ → Option B32} {store : ObjectStore} {depth : ℕ}

variable {loaded : Loaded} {level key : ℕ} {cid c : B32} {frontier : List (ℕ × B32)}

theorem covers_of_children (hcid : M.tree leaf (level + 1) key = some cid)
    (hs : loaded.slot (level + 1) key = some cid)
    (hch : ∀ (i : Byte) c, M.tree leaf level (key * fanout + i) = some c →
      loaded.Covers M leaf level (key * fanout + i)) : loaded.Covers M leaf (level + 1) key := by
  intro h k c hh hk hc
  rcases Nat.lt_or_eq_of_le hh with hlt | rfl
  · have hle : h ≤ level := Nat.lt_succ_iff.mp hlt
    obtain ⟨c', hc'⟩ := Medium.exists_ancestor hle hc
    have hp : k / fanout ^ (level - h) / fanout = key := by
      rw [Nat.div_div_eq_div_mul, ← pow_succ, ← hk, Nat.succ_sub hle]
    have hn : k / fanout ^ (level - h) = key * fanout + k / fanout ^ (level - h) % fanout := by
      rw [← hp, Nat.div_add_mod']
    rw [hn] at hc'
    exact hch ⟨_, Nat.mod_lt _ (by norm_num)⟩ c' hc' h k c hle hn hc
  · obtain rfl : k = key := by simpa using hk
    rwa [← hc, hcid]

theorem foldlM_load {f : Loaded → Byte × B32 → Except SqlError Loaded} {rows : List (Byte × B32)}
    (hs : ∀ e ∈ rows, ∀ loaded : Loaded, loaded.Right M leaf → ∃ loaded', f loaded e = .ok loaded'
      ∧ loaded'.Right M leaf ∧ loaded.Within loaded'
      ∧ loaded'.Covers M leaf level (key * fanout + e.1)) (hr : loaded.Right M leaf) :
    ∃ loaded', rows.foldlM f loaded = .ok loaded' ∧ loaded'.Right M leaf ∧ loaded.Within loaded'
      ∧ ∀ e ∈ rows, loaded'.Covers M leaf level (key * fanout + e.1) := by
  induction rows generalizing loaded with
  | nil => exact ⟨loaded, rfl, hr, .refl loaded, by simp⟩
  | cons e rows ih =>
    obtain ⟨mid, hmid, hrm, hwm, hcm⟩ := hs e mem_cons_self loaded hr
    obtain ⟨last, hl, hrl, hw, hc⟩ :=
      ih (fun e' he' => hs e' (mem_cons_of_mem e he')) hrm
    refine ⟨last, ?_, hrl, hwm.trans hw, fun e' he' => ?_⟩
    · rw [foldlM_cons, hmid]
      exact hl
    · rcases mem_cons.mp he' with rfl | he'
      · exact hcm.mono hw
      · exact hc e' he'

theorem loadNode_spec (hf : store.Faithful M) (hs : NodesStored M leaf depth store)
    (hl : level < depth) (hcid : M.tree leaf (level + 1) key = some cid)
    {f : Loaded → Byte × B32 → Except SqlError Loaded}
    (hst : ∀ e : Byte × B32, M.tree leaf level (key * fanout + e.1) = some e.2 →
      ∀ loaded : Loaded, loaded.Right M leaf → ∃ loaded', f loaded e = .ok loaded'
        ∧ loaded'.Right M leaf ∧ loaded.Within loaded'
        ∧ loaded'.Covers M leaf level (key * fanout + e.1))
    (hr : loaded.Right M leaf) :
    ∃ loaded', (do
        let node ← fetchNode M store cid
        node.toList.foldlM f
          { loaded with nodeCids := Function.update loaded.nodeCids (level, key) (some cid) })
            = .ok loaded'
      ∧ loaded'.Right M leaf ∧ loaded.Within loaded' ∧ loaded'.Covers M leaf (level + 1) key := by
  have hsl := fun h k => loaded.slot_update level key h k (some cid)
  have hrow : ∀ e ∈ (nodeOf fun i => M.tree leaf level (key * fanout + i)).toList,
      M.tree leaf level (key * fanout + e.1) = some e.2 := fun e he => mem_toList_nodeOf.mp he
  obtain ⟨hrn, hwn⟩ := hr.write hcid hsl
  obtain ⟨last, hla, hrl, hw, hcl⟩ := foldlM_load (fun e he => hst e (hrow e he)) hrn
  refine ⟨last, ?_, hrl, hwn.trans hw, covers_of_children hcid ?_ fun i c hc => ?_⟩
  · rw [fetchNode_eq hf hs hl hcid]
    exact hla
  · exact hw _ _ _ (by rw [hsl, if_pos ⟨rfl, rfl⟩])
  · exact hcl (i, c) (mem_toList_nodeOf.mpr hc)

theorem loadSubtree_spec (hf : store.Faithful M) (hs : NodesStored M leaf depth store)
    (hle : ∀ n, leaf n ≠ none → n < 2 ^ 32) (hl : level < depth)
    (hcid : M.tree leaf (level + 1) key = some cid) (hr : loaded.Right M leaf) :
    ∃ loaded', loadSubtree M store level key cid loaded = .ok loaded' ∧ loaded'.Right M leaf
      ∧ loaded.Within loaded' ∧ loaded'.Covers M leaf (level + 1) key := by
  induction level generalizing key cid loaded with
  | zero =>
    rw [loadSubtree]
    refine loadNode_spec hf hs hl hcid (fun e he loaded hr => ?_) hr
    -- a page: it is put into the flat map
    have hsl := fun h k => loaded.slot_insert (key * fanout + e.1) h k e.2
    obtain ⟨hrp, hw⟩ := hr.write he hsl
    rw [Nat.mod_eq_of_lt (Medium.key_lt hle he)]
    refine ⟨_, rfl, hrp, hw, fun h k c hh hk hc => ?_⟩
    obtain rfl : h = 0 := Nat.le_zero.mp hh
    obtain rfl : k = key * fanout + e.1 := by simpa using hk
    rw [hsl, if_pos ⟨rfl, rfl⟩, ← he, hc]
  | succ level ih =>
    rw [loadSubtree]
    refine loadNode_spec hf hs hl hcid (fun e he loaded hr => ?_) hr
    dsimp only
    rw [Nat.mod_eq_of_lt (Medium.key_lt hle he)]
    exact ih (Nat.lt_of_succ_lt hl) he hr

/-! ## Walking it -/

/-- The content ids below a node, as they are stored. -/
def childCids (M : Medium) (store : ObjectStore) (cid : B32) : List B32 :=
  ((fetchNode M store cid).toOption.map fun node => node.toList.map Prod.snd).getD []

theorem mem_childCids (hf : store.Faithful M) (hs : NodesStored M leaf depth store)
    (hl : level < depth) (hcid : M.tree leaf (level + 1) key = some cid) :
    c ∈ childCids M store cid ↔ ∃ i : Byte, M.tree leaf level (key * fanout + i) = some c := by
  rw [childCids, fetchNode_eq hf hs hl hcid, Except.toOption, Option.map_some, Option.getD_some,
    mem_map]
  constructor
  · rintro ⟨e, he, rfl⟩
    exact ⟨e.1, mem_toList_nodeOf.mp he⟩
  · rintro ⟨i, hi⟩
    exact ⟨(i, c), mem_toList_nodeOf.mpr hi, rfl⟩

/-- **One round of the walk**: the nodes of the frontier are put out, with the pages below them; the
nodes below them are next. -/
theorem foldlM_visitNode (hf : ∀ e ∈ frontier, ∃ node, fetchNode M store e.2 = .ok node)
    (out : List B32) (next : List (ℕ × B32)) :
    frontier.foldlM (visitNode M store) (out, next) = .ok
      (out ++ frontier.flatMap (fun e => e.2 :: if e.1 = 0 then childCids M store e.2 else []),
        next ++ frontier.flatMap fun e =>
          if e.1 = 0 then [] else (childCids M store e.2).map (e.1 - 1, ·)) := by
  induction frontier generalizing out next with
  | nil => simp [pure, Except.pure]
  | cons e frontier ih =>
    obtain ⟨level, cid⟩ := e
    obtain ⟨node, hn⟩ := hf (level, cid) mem_cons_self
    have hc : childCids M store cid = node.toList.map Prod.snd := by
      rw [childCids, hn]
      rfl
    have hv : visitNode M store (out, next) (level, cid) = .ok
        (out ++ (cid :: if level = 0 then childCids M store cid else []),
          next ++ if level = 0 then [] else (childCids M store cid).map (level - 1, ·)) := by
      rw [visitNode, hn, hc]
      cases level <;> simp [bind, Except.bind, pure, Except.pure, Function.comp_def]
    rw [foldlM_cons, hv]
    refine (ih (fun x hx => hf x (mem_cons_of_mem _ hx)) _ _).trans ?_
    simp only [flatMap_cons, append_assoc]

structure Frontier (M : Medium) (leaf : ℕ → Option B32) (level : ℕ) (frontier : List (ℕ × B32)) :
    Prop where
  node : ∀ e ∈ frontier, e.1 = level ∧ ∃ key, M.tree leaf (level + 1) key = some e.2
  all : ∀ key cid, M.tree leaf (level + 1) key = some cid → (level, cid) ∈ frontier

theorem Frontier.mem_children (hfr : Frontier M leaf level frontier) (hf : store.Faithful M)
    (hs : NodesStored M leaf depth store) (hl : level < depth) :
    (∃ e ∈ frontier, c ∈ childCids M store e.2) ↔ ∃ key, M.tree leaf level key = some c := by
  constructor
  · rintro ⟨e, he, hc⟩
    obtain ⟨-, key, hkey⟩ := hfr.node e he
    obtain ⟨i, hi⟩ := (mem_childCids hf hs hl hkey).mp hc
    exact ⟨_, hi⟩
  · rintro ⟨key, hkey⟩
    obtain ⟨cid, hcid⟩ := Medium.exists_ancestor (Nat.le_succ level) hkey
    refine ⟨_, hfr.all _ cid hcid, (mem_childCids hf hs hl hcid).mpr ?_⟩
    refine ⟨⟨key % fanout, Nat.mod_lt _ (by norm_num)⟩, ?_⟩
    rwa [Nat.succ_sub le_rfl, Nat.sub_self, pow_one, Nat.div_add_mod']

theorem Frontier.fetch (hfr : Frontier M leaf level frontier) (hf : store.Faithful M)
    (hs : NodesStored M leaf depth store) (hl : level < depth) :
    ∀ e ∈ frontier, ∃ node, fetchNode M store e.2 = .ok node := fun e he => by
  obtain ⟨-, key, hkey⟩ := hfr.node e he
  exact ⟨_, fetchNode_eq hf hs hl hkey⟩

theorem Frontier.mem_putOut (hf : Frontier M leaf level frontier) :
    c ∈ frontier.flatMap (fun e => e.2 :: if e.1 = 0 then childCids M store e.2 else [])
      ↔ (∃ e ∈ frontier, c = e.2) ∨ (level = 0 ∧ ∃ e ∈ frontier, c ∈ childCids M store e.2) := by
  rw [mem_flatMap]
  constructor
  · rintro ⟨e, he, hc⟩
    rw [(hf.node e he).1] at hc
    rcases mem_cons.mp hc with rfl | hc
    · exact .inl ⟨e, he, rfl⟩
    · split at hc
      · exact .inr ⟨‹_›, e, he, hc⟩
      · simp at hc
  · rintro (⟨e, he, rfl⟩ | ⟨rfl, e, he, hc⟩)
    · exact ⟨e, he, mem_cons_self⟩
    · refine ⟨e, he, mem_cons_of_mem _ ?_⟩
      rwa [if_pos (hf.node e he).1]

theorem Frontier.mem_iff (hf : Frontier M leaf level frontier) :
    (∃ e ∈ frontier, c = e.2) ↔ ∃ key, M.tree leaf (level + 1) key = some c := by
  constructor
  · rintro ⟨e, he, rfl⟩
    exact (hf.node e he).2
  · rintro ⟨key, hkey⟩
    exact ⟨_, hf.all key c hkey, rfl⟩

theorem Frontier.next (hfr : Frontier M leaf (level + 1) frontier) (hf : store.Faithful M)
    (hs : NodesStored M leaf depth store) (hl : level + 1 < depth) :
    Frontier M leaf level (frontier.flatMap fun e =>
      if e.1 = 0 then [] else (childCids M store e.2).map (e.1 - 1, ·)) := by
  have hmem : ∀ x : ℕ × B32, x ∈ (frontier.flatMap fun e =>
      if e.1 = 0 then [] else (childCids M store e.2).map (e.1 - 1, ·))
        ↔ x.1 = level ∧ ∃ key, M.tree leaf (level + 1) key = some x.2 := by
    rintro ⟨l, c⟩
    rw [← hfr.mem_children hf hs hl, mem_flatMap]
    constructor
    · rintro ⟨e, he, hx⟩
      rw [(hfr.node e he).1, if_neg (Nat.succ_ne_zero level)] at hx
      obtain ⟨c', hc', hp⟩ := mem_map.mp hx
      obtain ⟨rfl, rfl⟩ := Prod.mk.inj hp
      exact ⟨rfl, e, he, hc'⟩
    · rintro ⟨rfl, e, he, hc⟩
      refine ⟨e, he, ?_⟩
      rw [(hfr.node e he).1, if_neg (Nat.succ_ne_zero l)]
      exact mem_map.mpr ⟨c, hc, rfl⟩
  exact ⟨fun e he => (hmem e).mp he, fun key cid hcid => (hmem (level, cid)).mpr ⟨rfl, key, hcid⟩⟩

theorem reachLoop_nil (fuel : ℕ) (out : List B32) : reachLoop M store fuel out [] = .ok out := by
  cases fuel <;> rfl

theorem exists_le_succ {H : ℕ} {P : ℕ → Prop} :
    (∃ h ≤ H + 1, P h) ↔ (∃ h ≤ H, P h) ∨ P (H + 1) := by
  simp only [Nat.le_succ_iff_eq_or_le, or_and_right, exists_or, exists_eq_left]
  exact or_comm

theorem reachLoop_round (hf : ∀ e ∈ frontier, ∃ node, fetchNode M store e.2 = .ok node) (fuel : ℕ)
    (out : List B32) :
    reachLoop M store (fuel + 1) out frontier = reachLoop M store fuel
      (out ++ frontier.flatMap (fun e => e.2 :: if e.1 = 0 then childCids M store e.2 else []))
      (frontier.flatMap fun e => if e.1 = 0 then [] else (childCids M store e.2).map (e.1 - 1,
        ·)) := by
  rw [reachLoop]
  split
  · rename_i he
    simp [he, reachLoop_nil, pure, Except.pure]
  · rw [foldlM_visitNode hf, nil_append]
    rfl

theorem reachLoop_spec (hf : store.Faithful M) (hs : NodesStored M leaf depth store)
    (hl : level < depth) (hfr : Frontier M leaf level frontier) {fuel : ℕ} (hfu : level < fuel)
    (out : List B32) :
    ∃ out', reachLoop M store fuel out frontier = .ok out'
      ∧ ∀ c, c ∈ out' ↔ c ∈ out ∨ ∃ h ≤ level + 1, ∃ key, M.tree leaf h key = some c := by
  induction level generalizing frontier fuel out with
  | zero =>
    obtain ⟨fuel, rfl⟩ : ∃ f, fuel = f + 1 := ⟨fuel - 1, by omega⟩
    have hn : (frontier.flatMap fun e =>
        if e.1 = 0 then [] else (childCids M store e.2).map (e.1 - 1, ·)) = [] :=
      flatMap_eq_nil_iff.mpr fun e he => if_pos (hfr.node e he).1
    rw [reachLoop_round (hfr.fetch hf hs hl), hn, reachLoop_nil]
    refine ⟨_, rfl, fun c => ?_⟩
    rw [exists_le_succ, ← hfr.mem_iff, mem_append, hfr.mem_putOut]
    simp only [Nat.le_zero, exists_eq_left, ← hfr.mem_children hf hs hl, true_and]
    exact or_congr_right or_comm
  | succ level ih =>
    obtain ⟨fuel, rfl⟩ : ∃ f, fuel = f + 1 := ⟨fuel - 1, by omega⟩
    rw [reachLoop_round (hfr.fetch hf hs hl)]
    obtain ⟨out', hout, hmem⟩ := ih (Nat.lt_of_succ_lt hl) (hfr.next hf hs hl)
      (Nat.lt_of_succ_lt_succ hfu)
      (out ++ frontier.flatMap (fun e => e.2 :: if e.1 = 0 then childCids M store e.2 else []))
    refine ⟨out', hout, fun c => ?_⟩
    rw [hmem, exists_le_succ (H := level + 1), ← hfr.mem_iff, mem_append, hfr.mem_putOut]
    simp only [Nat.succ_ne_zero, false_and, or_false]
    rw [or_assoc, or_comm (a := ∃ e ∈ frontier, c = e.2)]

end Pager

end Zephcraft.Sql
