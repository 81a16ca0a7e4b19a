import Zephcraft.Store.Reload

/-!
# Store/Evict — what an eviction takes

The victims are chosen first, from one reading of the index, and then removed one by one. The
running total that decides when enough is chosen is what the index will hold once they are gone.
-/

namespace Zephcraft.Store

open NodeStore Word BTreeMap

/-- A store, and when which content ids were evicted. -/
structure CooledStore where
  store : NodeStore
  evicted : BTreeMap B32 U64

def NodeStore.held (store : NodeStore) : ℕ := (store.index.toList.map fun e => e.2.bytes).sum

/-- Who may be evicted, oldest access first. -/
def evictable (entries : List (B32 × IndexEntry)) : List (B32 × IndexEntry) :=
  (entries.filter fun e => !e.2.pinned && !e.2.system).mergeSort fun a b => a.2.lastAccess
    ≤ b.2.lastAccess

namespace CooledStore

/-- Remove a victim and start its cooldown; what it held is added up again. -/
def evict (stamp : B32 → U64) (acc : U64 × CooledStore) (cid : B32) :
    Except Panic (U64 × CooledStore) := do
  let (freed, s) := acc
  let s' : CooledStore := ⟨s.store.drop cid, s.evicted.insert cid (stamp cid)⟩
  match s.store.index[cid]? with
  | some e =>
    let freed ← freed.addOrPanic (← heldBytes e)
    pure (freed, s')
  | none => pure (freed, s')

/-- `evict_to` of an index that lists its entries in some order; `stamp` is when each victim
goes. -/
def evictTo (s : CooledStore) (entries : List (B32 × IndexEntry)) (target : U64)
    (stamp : B32 → U64) :
    Except Panic (U64 × CooledStore) := do
  let chosen ← victims entries target
  (chosen.map Prod.snd).foldlM (evict stamp) (0, s)

variable {s : CooledStore} {target : U64} {l : List (B32 × IndexEntry)}

/-! ## The victims -/

/-- The victims are a shortest front part after which little enough is left. -/
theorem choose_eq_take (target : U64) (hl : ∀ e ∈ l, e.2.bytes < 2 ^ 64) (total : ℕ) :
    ∃ n ≤ l.length,
    (choose target total (l.map fun e => (e.2.lastAccess, truncate e.2.bytes, e.1))).map Prod.snd =
      (l.take n).map Prod.fst ∧
    (total - ((l.take n).map fun e => e.2.bytes).sum ≤ target.val ∨ n = l.length) ∧
    ∀ m < n, target.val < total - ((l.take m).map fun e => e.2.bytes).sum := by
  induction l generalizing total with
  | nil => exact ⟨0, le_rfl, rfl, .inr rfl, fun m hm => absurd hm (Nat.not_lt_zero m)⟩
  | cons e l ih =>
    rw [List.map_cons, choose]
    split
    · next hle => exact ⟨0, Nat.zero_le _, rfl, .inl hle, fun m hm => absurd hm (Nat.not_lt_zero m)⟩
    · next hgt =>
      have hval : (truncate e.2.bytes : U64).val = e.2.bytes := Nat.mod_eq_of_lt (hl e (.head _))
      obtain ⟨n, hn, hc, hend, hb⟩ := ih (fun e he => hl e (.tail _ he)) (total - e.2.bytes)
      refine ⟨n + 1, Nat.succ_le_succ hn, ?_, ?_, fun m hm => ?_⟩
      · rw [hval, List.map_cons, hc, List.take_succ_cons, List.map_cons]
      · rw [List.take_succ_cons, List.map_cons, List.sum_cons, ← Nat.sub_sub]
        exact hend.imp id (congrArg Nat.succ)
      · cases m with
        | zero => simpa using hgt
        | succ m =>
          rw [List.take_succ_cons, List.map_cons, List.sum_cons, ← Nat.sub_sub]
          exact hb m (Nat.succ_lt_succ_iff.mp hm)

/-! ## Their removal -/

/-- What is there once the entries `gone` have been evicted. -/
structure Without (gone : List (B32 × IndexEntry)) (stamp : B32 → U64) (s s' : CooledStore) :
    Prop where
  index : ∀ c, s'.store.index[c]? = if c ∈ gone.map Prod.fst then none else s.store.index[c]?
  cooldown : ∀ c, s'.evicted[c]? = if c ∈ gone.map Prod.fst then some (stamp c) else s.evicted[c]?
  held : (gone.map fun e => e.2.bytes).sum + s'.store.held = s.store.held

theorem held_drop {cid : B32} {e : IndexEntry} (h : s.store.index[cid]? = some e) :
    e.bytes + (s.store.drop cid).held = s.store.held := by
  have hd : (s.store.drop cid).index.toList.Perm (s.store.index.toList.filter fun e => e.1 ≠ cid) :=
    toList_erase_perm _ _
  rw [held, held, ((toList_perm_of_getElem? h).map fun e => e.2.bytes).sum_eq,
    (hd.map fun e => e.2.bytes).sum_eq, List.map_cons, List.sum_cons]

theorem foldlM_evict {gone : List (B32 × IndexEntry)} (freed : U64) (stamp : B32 → U64)
    (hn : (gone.map Prod.fst).Nodup) (hg : ∀ e ∈ gone, s.store.index[e.1]? = some e.2)
    (hfi : freed.val + s.store.held < 2 ^ 64) :
    ∃ freed' s', (gone.map Prod.fst).foldlM (evict stamp) (freed, s) = .ok (freed', s') ∧
      freed'.val + s'.store.held = freed.val + s.store.held ∧ Without gone stamp s s' := by
  induction gone generalizing freed s with
  | nil => exact ⟨freed, s, rfl, rfl, ⟨fun _ => rfl, fun _ => rfl, Nat.zero_add _⟩⟩
  | cons e gone ih =>
    obtain ⟨hout, hn⟩ := List.nodup_cons.mp hn
    have he := hg e (.head _)
    have hh := held_drop he
    have hs : (truncate e.2.bytes : U64).val = e.2.bytes := Nat.mod_eq_of_lt (by omega)
    obtain ⟨next, hne⟩ :=
      exists_addOrPanic_eq_ok (a := freed) (b := truncate e.2.bytes).mpr (by omega)
    have hval := addOrPanic_eq_ok.mp hne
    let rest : CooledStore := ⟨s.store.drop e.1, s.evicted.insert e.1 (stamp e.1)⟩
    have hf : evict stamp (freed, s) e.1 = .ok (next, rest) := by
      rw [evict, he]
      change (heldBytes e.2 >>= _) = _
      rw [heldBytes_eq_ok (by omega)]
      change (addOrPanic freed _ >>= _) = _
      rw [hne]
      rfl
    have hin : ∀ c, rest.store.index[c]? = if e.1 = c then none else s.store.index[c]? :=
      getElem?_drop
    have ho : ∀ e' ∈ gone, e.1 ≠ e'.1 := fun e' he' h => hout (h ▸ List.mem_map_of_mem he')
    obtain ⟨freed', s', hr, hfr, hw⟩ := ih (s := rest) next hn
      (fun e' he' => by rw [hin, if_neg (ho e' he'), hg e' (.tail _ he')])
      (show next.val + (s.store.drop e.1).held < 2 ^ 64 by omega)
    refine ⟨freed', s', by rw [List.map_cons, List.foldlM_cons, hf]; exact hr, ?_, fun c => ?_,
      fun c => ?_, ?_⟩
    · rw [hfr]
      change next.val + (s.store.drop e.1).held = _
      omega
    · rw [hw.index c, hin, List.map_cons]
      by_cases hc : e.1 = c
      · simp [hc]
      · simp only [List.mem_cons, Ne.symm hc, hc, if_false, false_or]
    · rw [hw.cooldown c, getElem?_insert, List.map_cons]
      by_cases hc : e.1 = c
      · simp [hc]
      · simp only [List.mem_cons, Ne.symm hc, hc, if_false, false_or]
    · rw [List.map_cons, List.sum_cons, Nat.add_assoc, hw.held]
      exact hh

theorem store_foldlM_evict {cids : List B32} {stamp : B32 → U64} {acc acc' : U64 × CooledStore}
    (h : cids.foldlM (evict stamp) acc = .ok acc') :
    acc'.2.store = cids.foldl NodeStore.drop acc.2.store := by
  induction cids generalizing acc with
  | nil =>
    cases h
    rfl
  | cons cid cids ih =>
    obtain ⟨next, hnext, hrest⟩ := Except.bind_eq_ok.mp (List.foldlM_cons.symm.trans h)
    have hdrop : next.2.store = acc.2.store.drop cid := by
      rw [evict] at hnext
      split at hnext
      · obtain ⟨_, -, hnext⟩ := Except.bind_eq_ok.mp hnext
        obtain ⟨_, -, hnext⟩ := Except.bind_eq_ok.mp hnext
        cases hnext
        rfl
      · cases hnext
        rfl
    rw [ih hrest, hdrop, List.foldl_cons]

/-- The cooldowns are beside the store: what an eviction leaves of it is what `NodeStore.evictTo`
leaves. -/
theorem store_evictTo {stamp : B32 → U64} {freed : U64} {s' : CooledStore}
    (hun : s.store.poisoned = false)
    (h : s.evictTo s.store.index.toList target stamp = .ok (freed, s')) :
    s'.store = (s.store.evictTo target).2 := by
  obtain ⟨chosen, hchosen, hrun⟩ := Except.bind_eq_ok.mp h
  rw [NodeStore.evictTo, lockIndex_of_unpoisoned hun, hchosen]
  exact (store_foldlM_evict hrun).trans List.foldl_map

/-- What is taken is a front part of the unprotected entries, oldest access first, after which at
most `target` bytes are held or nothing unprotected is left, and no shorter one would do; `freed` is
what was held less what is held. -/
def EvictsMinimally (s : CooledStore) (entries : List (B32 × IndexEntry)) (target : U64)
    (stamp : B32 → U64) : Prop :=
  ∃ freed s' n, s.evictTo entries target stamp = .ok (freed, s') ∧
    Without ((evictable entries).take n) stamp s s' ∧ freed.val + s'.store.held = s.store.held ∧
    (∀ (c : B32) (e : IndexEntry), s.store.index[c]? = some e → e.pinned ∨ e.system
      → s'.store.index[c]? = some e) ∧
    (s'.store.held ≤ target.val ∨ (evictable entries).length ≤ n) ∧
    ∀ m < n, target.val < s.store.held - (((evictable entries).take m).map fun e => e.2.bytes).sum

/-- **An eviction takes no more than it must**, in whatever order the index lists its entries. -/
theorem evictTo_minimal {s : CooledStore} {entries : List (B32 × IndexEntry)}
    (horder : entries.Perm s.store.index.toList) (hfits : s.store.held < 2 ^ 64) (target : U64)
    (stamp : B32 → U64) : s.EvictsMinimally entries target stamp := by
  have hsum : (entries.map fun e => e.2.bytes).sum = s.store.held := (horder.map _).sum_eq
  have hlt := bytes_lt_of_sum (hsum ▸ hfits)
  have hperm : (evictable entries).Perm (entries.filter fun e => !e.2.pinned && !e.2.system) :=
    List.mergeSort_perm _ _
  have hmem : ∀ e ∈ evictable entries, e ∈ entries ∧ e.2.pinned = false ∧ e.2.system = false :=
    fun e he => by
    simpa using hperm.mem_iff.mp he
  have hat : ∀ e ∈ evictable entries, s.store.index[e.1]? = some e.2 := fun e he =>
    Std.ExtTreeMap.mem_toList_iff_getElem?_eq_some.mp (horder.mem_iff.mp (hmem e he).1)
  have hkeys : ((evictable entries).map Prod.fst).Nodup :=
    (hperm.map Prod.fst).nodup_iff.mpr
      ((((horder.map Prod.fst).nodup_iff.mpr (nodup_keys_toList _))).sublist
        (List.filter_sublist.map _))
  have hkept : ∀ {gone s'}, gone ⊆ evictable entries → Without gone stamp s s'
      → ∀ (c : B32) (e : IndexEntry), s.store.index[c]? = some e → e.pinned ∨ e.system
      → s'.store.index[c]? = some e := by
    intro gone s' hsub hwithout c e hc hprotected
    rw [hwithout.index, if_neg, hc]
    rintro hin
    obtain ⟨e', he', rfl⟩ := List.mem_map.mp hin
    cases (hat e' (hsub he')).symm.trans hc
    obtain ⟨-, hpinned, hsystem⟩ := hmem e' (hsub he')
    simp [hpinned, hsystem] at hprotected
  rw [EvictsMinimally, evictTo, victims_eq_ok (hsum ▸ hfits), hsum]
  by_cases hle : s.store.held ≤ target.val
  · have hsame : Without ((evictable entries).take 0) stamp s s :=
      ⟨fun _ => rfl, fun _ => rfl, Nat.zero_add _⟩
    refine ⟨0, s, 0, ?_, hsame, Nat.zero_add _, hkept (by simp) hsame, .inl hle, fun m hm => ?_⟩
    · rw [if_pos hle]
      rfl
    · exact absurd hm (Nat.not_lt_zero m)
  · obtain ⟨n, hn, hchosen, hend, hbefore⟩ := choose_eq_take target
      (fun e he => hlt e (hmem e he).1) s.store.held
    have hsub : (evictable entries).take n ⊆ evictable entries := (List.take_sublist _ _).subset
    obtain ⟨freed, s', hrun, hfreed, hwithout⟩ := foldlM_evict (s := s) 0 stamp
      (hkeys.sublist ((List.take_sublist n _).map _)) (fun e he => hat e (hsub he))
        (by simpa using hfits)
    have hheld := hwithout.held
    refine ⟨freed, s', n, ?_, hwithout, hfreed.trans (Nat.zero_add _), hkept hsub hwithout, ?_,
      hbefore⟩
    · rw [if_neg hle, ← hrun, ← hchosen, evictable, List.map_mergeSort]
      · rfl
      · exact fun a _ b _ => rfl
    · exact hend.imp (fun h => by omega) fun h => h.ge

/-- Two ids of eight bytes, one of them pinned. -/
def onePinned : CooledStore where
  store := { NodeStore.new with
    index :=
      (∅ : BTreeMap B32 IndexEntry).insert 7 ⟨eightBytes, ∅, true, false, true, 1⟩ |>.insert 8
      ⟨eightBytes, ∅, false, false, true, 2⟩ }
  evicted := ∅

theorem evictTo_minimal_onePinned :
    onePinned.store.held < 2 ^ 64 ∧ onePinned.EvictsMinimally onePinned.store.index.toList 4
      fun _ => 9 :=
  ⟨by decide +kernel, evictTo_minimal (.refl _) (by decide +kernel) 4 fun _ => 9⟩

end CooledStore

end Zephcraft.Store
