import Zephcraft.Foundations.Run
import Zephcraft.Noded.Holdings

/-!
# Noded/HolderIndex — who else holds what we hold

A node watches what the others say they hold and keeps, for each id it holds itself, who else has
it. When another node dies, the index tells which ids lost a holder.
-/

namespace Zephcraft.Noded

open Run Std.ExtTreeMap Std.ExtTreeSet

abbrev Holders := BTreeMap B32 (BTreeSet B32)

def holdersOf (holders : Holders) (cid : B32) : BTreeSet B32 := holders[cid]?.getD ∅

/-- Fold a change into the window's net change of an id. -/
def accrueInto (pending : BTreeMap B32 ℤ) (cid : B32) (delta : ℤ) : BTreeMap B32 ℤ :=
  let net := pending[cid]?.getD 0 + delta
  if net = 0 then pending.erase cid else pending.insert cid net

/-- Index a node for an id; the ids it was not indexed for before are collected. -/
def creditOne (peer : B32) (acc : Holders × List B32) (cid : B32) : Holders × List B32 :=
  let hs := holdersOf acc.1 cid
  (acc.1.insert cid (hs.insert peer), if hs.contains peer then acc.2 else acc.2 ++ [cid])

/-- Take a node from an id; the ids it was indexed for are collected. -/
def withdrawOne (peer : B32) (acc : Holders × List B32) (cid : B32) : Holders × List B32 :=
  match acc.1[cid]? with
  | some hs => if hs.contains peer then (acc.1.insert cid (hs.erase peer), acc.2 ++ [cid]) else acc
  | none => acc

def credit (peer : B32) (cids : List B32) (holders : Holders) : Holders × List B32 :=
  cids.foldl (creditOne peer) (holders, [])

def withdraw (peer : B32) (cids : List B32) (holders : Holders) : Holders × List B32 :=
  cids.foldl (withdrawOne peer) (holders, [])

/-- The index must not outlive the store. -/
def retainOurs (mine : BTreeSet B32) (holders : Holders) : Holders :=
  holders.filter fun c hs => mine.contains c && !hs.isEmpty

/-- Changes of a node, as far as they are about ids we hold: lost, gained, and the index. -/
def applyDelta (mine : BTreeSet B32) (peer : B32) (added removed : BTreeSet B32)
    (holders : Holders) :
    List B32 × List B32 × Holders :=
  let (holders, gained) := credit peer (added.toList.filter fun c => mine.contains c) holders
  let (holders, lost) := withdraw peer (removed.toList.filter fun c => mine.contains c) holders
  (lost, gained, retainOurs mine holders)

/-- The whole set of a node, as far as it is about ids we hold; what is not in it is lost. -/
def applyReset (mine : BTreeSet B32) (peer : B32) (set : BTreeSet B32) (holders : Holders) :
    List B32 × List B32 × Holders :=
  let claimed := set.filter fun c => mine.contains c
  let (holders, gained) := credit peer claimed.toList holders
  let (holders, lost) :=
    withdraw peer (holders.keys.filter fun c => mine.contains c && !claimed.contains c) holders
  (lost, gained, retainOurs mine holders)

/-- The versions read last, the index, and the window. -/
structure DeathRepair where
  heads : BTreeMap B32 (U64 × B32)
  holders : Holders
  pending : BTreeMap B32 ℤ

namespace DeathRepair

def new : DeathRepair := ⟨∅, ∅, ∅⟩

/-- Take note of what changed; the first time, that is no change. -/
def record (repair : DeathRepair) (peer : B32) (firstSight : Bool) (version : U64) (head : B32)
    (result : List B32 × List B32 × Holders) : DeathRepair where
  heads := repair.heads.insert peer (version, head)
  holders := result.2.2
  pending :=
    if firstSight then repair.pending
    else
      let pending := result.1.foldl (fun p c => accrueInto p c (-1)) repair.pending
      result.2.1.foldl (fun p c => accrueInto p c 1) pending

/-- Read what a node holds; whether it could be read. -/
def checkPeer (repair : DeathRepair) (net : HoldingsNet) (online : B32 → Bool) (mine : BTreeSet B32)
    (peer : B32) : Bool × DeathRepair :=
  let known := repair.heads[peer]?
  match net.changesSince online peer known with
  | none => (false, repair)
  | some (.delta version head added removed) =>
    if added.isEmpty && removed.isEmpty then (true,
      { repair with heads := repair.heads.insert peer (version, head) })
    else (true, repair.record peer known.isNone version head
      (applyDelta mine peer added removed repair.holders))
  | some (.reset version head set) =>
    (true, repair.record peer known.isNone version head (applyReset mine peer set repair.holders))

def shared (repair : DeathRepair) (dead : B32) : List B32 :=
  (repair.holders.toList.filter fun e => e.2.contains dead).map Prod.fst

end DeathRepair

/-! ## The index after a change -/

section Index

variable {holders : Holders} {mine : BTreeSet B32} {peer q c : B32}

theorem mem_holdersOf_insert (c' : B32) (hs : BTreeSet B32) :
    q ∈ holdersOf (holders.insert c' hs) c
      ↔ if c' = c then q ∈ hs else q ∈ holdersOf holders c := by
  rw [holdersOf, BTreeMap.getElem?_insert]
  split <;> rfl

theorem mem_holdersOf_creditOne (acc : Holders × List B32) (a : B32) :
    q ∈ holdersOf (creditOne peer acc a).1 c ↔ q ∈ holdersOf acc.1 c ∨ (q = peer ∧ c = a) := by
  rw [creditOne, mem_holdersOf_insert]
  split
  · next heq =>
    rw [Std.ExtTreeSet.mem_insert, Std.compare_eq_iff_eq, heq, eq_comm, or_comm]
    simp
  · next hne => simp [Ne.symm hne]

theorem mem_holdersOf_withdrawOne (acc : Holders × List B32) (a : B32) :
    q ∈ holdersOf (withdrawOne peer acc a).1 c ↔ q ∈ holdersOf acc.1 c ∧ ¬ (q = peer ∧ c = a) := by
  rw [withdrawOne]
  split
  · next hs hhs =>
    have hof : holdersOf acc.1 a = hs := by rw [holdersOf, hhs, Option.getD_some]
    split
    · rw [mem_holdersOf_insert]
      split
      · next heq =>
        rw [← heq, hof, Std.ExtTreeSet.mem_erase, ne_eq, Std.compare_eq_iff_eq, eq_comm, and_comm]
        simp
      · next hne => simp [Ne.symm hne]
    · next hnot =>
      refine (and_iff_left_of_imp ?_).symm
      rintro hq ⟨rfl, rfl⟩
      rw [hof] at hq
      exact hnot (Std.ExtTreeSet.contains_iff_mem.mpr hq)
  · next hn =>
    refine (and_iff_left_of_imp ?_).symm
    rintro hq ⟨rfl, rfl⟩
    rw [holdersOf, hn] at hq
    exact absurd hq Std.ExtTreeSet.not_mem_empty

theorem mem_holdersOf_credit (cids : List B32) :
    q ∈ holdersOf (credit peer cids holders).1 c ↔ q ∈ holdersOf holders c
      ∨ (q = peer ∧ c ∈ cids) := by
  suffices h : ∀ acc, q ∈ holdersOf (cids.foldl (creditOne peer) acc).1 c ↔
      q ∈ holdersOf acc.1 c ∨ (q = peer ∧ c ∈ cids) from h (holders, [])
  induction cids with
  | nil => simp
  | cons a cids ih =>
    intro acc
    rw [List.foldl_cons, ih, mem_holdersOf_creditOne, List.mem_cons, or_assoc, ← and_or_left]

theorem mem_holdersOf_withdraw (cids : List B32) :
    q ∈ holdersOf (withdraw peer cids holders).1 c
      ↔ q ∈ holdersOf holders c ∧ ¬ (q = peer ∧ c ∈ cids) := by
  suffices h : ∀ acc, q ∈ holdersOf (cids.foldl (withdrawOne peer) acc).1 c ↔
      q ∈ holdersOf acc.1 c ∧ ¬ (q = peer ∧ c ∈ cids) from h (holders, [])
  induction cids with
  | nil => simp
  | cons a cids ih =>
    intro acc
    rw [List.foldl_cons, ih, mem_holdersOf_withdrawOne, List.mem_cons, and_assoc, ← not_or,
      ← and_or_left]

theorem mem_holdersOf_retainOurs : q ∈ holdersOf (retainOurs mine holders) c
    ↔ c ∈ mine ∧ q ∈ holdersOf holders c := by
  rw [holdersOf, holdersOf, retainOurs, getElem?_filter']
  cases holders[c]? with
  | none => simp
  | some hs =>
    rw [Option.filter_some]
    split
    · next hk =>
      rw [Bool.and_eq_true] at hk
      exact ⟨fun hq => ⟨Std.ExtTreeSet.contains_iff_mem.mp hk.1, hq⟩, fun hq => hq.2⟩
    · next hd =>
      refine ⟨fun hq => absurd hq Std.ExtTreeSet.not_mem_empty, fun ⟨hc, hq⟩ => absurd ?_ hd⟩
      rw [Bool.and_eq_true, Bool.not_eq_true', Bool.eq_false_iff]
      refine ⟨Std.ExtTreeSet.contains_iff_mem.mpr hc, fun he => ?_⟩
      rw [Option.getD_some, Std.ExtTreeSet.isEmpty_iff.mp he] at hq
      exact Std.ExtTreeSet.not_mem_empty hq

theorem mem_keys_of_mem_holdersOf (h : q ∈ holdersOf holders c) : c ∈ holders.keys := by
  rw [mem_keys, mem_iff_isSome_getElem?]
  rw [holdersOf] at h
  cases hc : holders[c]? with
  | none =>
    rw [hc] at h
    exact absurd h Std.ExtTreeSet.not_mem_empty
  | some hs => rfl

theorem mem_filter_mine (set : BTreeSet B32) :
    c ∈ (set.toList.filter fun c => mine.contains c) ↔ c ∈ set ∧ c ∈ mine := by
  rw [List.mem_filter, mem_toList, Std.ExtTreeSet.contains_iff_mem]

theorem mem_holdersOf_applyDelta (added removed : BTreeSet B32) :
    q ∈ holdersOf (applyDelta mine peer added removed holders).2.2 c ↔
      c ∈ mine ∧ (q ∈ holdersOf holders c ∨ (q = peer ∧ c ∈ added))
        ∧ ¬ (q = peer ∧ c ∈ removed) := by
  rw [applyDelta]
  dsimp only
  rw [mem_holdersOf_retainOurs, mem_holdersOf_withdraw, mem_holdersOf_credit, mem_filter_mine,
    mem_filter_mine]
  refine and_congr_right fun hc => ?_
  simp only [hc, and_true]

theorem mem_holdersOf_applyReset (set : BTreeSet B32) :
    q ∈ holdersOf (applyReset mine peer set holders).2.2 c ↔
      c ∈ mine ∧ if q = peer then c ∈ set else q ∈ holdersOf holders c := by
  rw [applyReset]
  dsimp only
  rw [mem_holdersOf_retainOurs, mem_holdersOf_withdraw]
  refine and_congr_right fun hc => ?_
  have hcl : c ∈ (set.filter fun c => mine.contains c) ↔ c ∈ set := by
    rw [← Std.ExtTreeSet.contains_iff_mem, BTreeSet.contains_filter, Bool.and_eq_true,
      Std.ExtTreeSet.contains_iff_mem, Std.ExtTreeSet.contains_iff_mem]
    exact and_iff_left hc
  -- a node that is indexed for an id it does not claim is taken from it
  have hw : ∀ ho' : Holders, q ∈ holdersOf ho' c → (c ∈ (ho'.keys.filter fun c =>
        mine.contains c && !(set.filter fun c => mine.contains c).contains c) ↔ c ∉ set) := by
    intro ho' hq
    rw [List.mem_filter, Bool.and_eq_true, Bool.not_eq_true', Std.ExtTreeSet.contains_iff_mem,
      ← Bool.not_eq_true, Std.ExtTreeSet.contains_iff_mem, hcl]
    exact ⟨fun h => h.2.2, fun h => ⟨mem_keys_of_mem_holdersOf hq, hc, h⟩⟩
  rw [and_congr_right fun hq => not_congr (and_congr_right fun _ => hw _ hq), mem_holdersOf_credit,
    mem_toList, hcl]
  by_cases hq : q = peer
  · rw [if_pos hq]
    by_cases hset : c ∈ set <;> simp [hq, hset]
  · simp [hq]

theorem DeathRepair.mem_shared {repair : DeathRepair} :
    c ∈ repair.shared peer ↔ peer ∈ holdersOf repair.holders c := by
  rw [shared, List.mem_map, holdersOf]
  constructor
  · rintro ⟨⟨k, hs⟩, he, rfl⟩
    obtain ⟨hmem, hp⟩ := List.mem_filter.mp he
    rw [mem_toList_iff_getElem?_eq_some.mp hmem]
    exact Std.ExtTreeSet.contains_iff_mem.mp hp
  · cases hc : repair.holders[c]? with
    | none => exact fun h => absurd h Std.ExtTreeSet.not_mem_empty
    | some hs =>
      exact fun h => ⟨(c, hs), List.mem_filter.mpr ⟨mem_toList_iff_getElem?_eq_some.mpr hc,
        Std.ExtTreeSet.contains_iff_mem.mpr h⟩, rfl⟩

end Index

/-! ## Nodes that watch each other -/

/-- The others and what they published, what we hold, and our index. `listed` has, for each version
by its id, the set its publisher held. -/
structure Watch where
  net : HoldingsNet
  publishers : BTreeMap B32 Publisher
  listed : BTreeMap B32 (BTreeSet B32)
  mine : BTreeSet B32
  repair : DeathRepair

inductive WatchEvent where
  /-- A node publishes the set it holds. -/
  | publish (peer : B32) (cids : BTreeSet B32)
  /-- A node starts anew; what it had published last it has forgotten, but for the number. -/
  | restart (peer : B32)
  | gain (cid : B32)
  | lose (cid : B32)
  /-- We read what a node published, as far as it can be fetched. -/
  | check (peer : B32) (online : B32 → Bool)

namespace Watch

/-- Nothing is published, and we hold some ids. -/
def start (mine : BTreeSet B32) : Watch := ⟨⟨∅, ∅⟩, ∅, ∅, mine, .new⟩

def publisher (w : Watch) (peer : B32) : Publisher := w.publishers[peer]?.getD .fresh

/-- The version at `cid` lists `c`. -/
def Lists (w : Watch) (cid c : B32) : Prop := c ∈ w.listed[cid]?.getD ∅
deriving Decidable

variable (cidOf : HoldingsManifest → B32)

def step (w : Watch) : WatchEvent → Watch
  | .publish peer cids =>
    match Publisher.publish cidOf w.net peer (w.publisher peer) cids with
    | .error _ => w
    | .ok (result, pub, net) =>
      { w with
        net
        publishers := w.publishers.insert peer pub
        listed := match result with
          | some (_, cid) => w.listed.insert cid cids
          | none => w.listed }
  | .restart peer =>
    { w with publishers := w.publishers.insert peer { w.publisher peer with last := none } }
  | .gain cid => { w with mine := w.mine.insert cid }
  | .lose cid => { w with mine := w.mine.erase cid }
  | .check peer online => { w with repair := (w.repair.checkPeer w.net online w.mine peer).2 }

/-- Everybody has been read at the latest version. -/
def CaughtUp (w : Watch) : Prop :=
  ∀ (peer cid : B32) (version : U64), w.net.records[peer]? = some (cid, version) →
    ∃ v, w.repair.heads[peer]? = some (v, cid)

/-- The latest version of a node lists an id. -/
def Holds (w : Watch) (peer c : B32) : Prop :=
  ∃ cid version, w.net.records[peer]? = some (cid, version) ∧ w.Lists cid c

/-- For what we hold the index is exact, and a death concerns all of what we share. -/
def Exact (w : Watch) : Prop :=
  ∀ c ∈ w.mine, ∀ peer, (peer ∈ holdersOf w.repair.holders c ↔ w.Holds peer c) ∧
    (w.Holds peer c → c ∈ w.repair.shared peer)

/-- An id is taken in only while no version that was read last lists it. -/
def Timely (w : Watch) : WatchEvent → Prop
  | .gain c => ∀ (peer k : B32) (v : U64), w.repair.heads[peer]? = some (v, k) → ¬ w.Lists k c
  | _ => True

/-- The id of a new version is a new one. -/
def NewIds (w : Watch) : WatchEvent → Prop
  | .publish peer cids => ∀ version body, (w.publisher peer).next cids = .ok (some (version, body))
    → cidOf ⟨peer, version, body⟩ ∉ w.net.objects
  | _ => True

/-! ## Every step keeps the index in order -/

/-- What is published is what was held; and the index has what was read. -/
structure Sound (w : Watch) : Prop where
  faithful : Faithful w.net.objects w.Lists
  linked : ∀ (cid : B32) (m : HoldingsManifest) a r prev, w.net.objects[cid]? = some m
    → m.body = .diff a r prev → prev ∈ w.net.objects
  published : ∀ peer p, (w.publisher peer).last = some p → p.cid ∈ w.net.objects
    ∧ ∀ c, w.Lists p.cid c ↔ c ∈ p.cids
  recorded : ∀ (peer cid : B32) (v : U64), w.net.records[peer]? = some (cid, v)
    → cid ∈ w.net.objects
  read : ∀ (peer k : B32) (v : U64), w.repair.heads[peer]? = some (v, k) →
    k ∈ w.net.objects ∧ peer ∈ w.net.records
  indexed : ∀ c peer, peer ∈ holdersOf w.repair.holders c →
    ∃ v k, w.repair.heads[peer]? = some (v, k) ∧ w.Lists k c
  complete : ∀ c ∈ w.mine, ∀ peer v k, w.repair.heads[peer]? = some (v, k) → w.Lists k c →
    peer ∈ holdersOf w.repair.holders c

variable {cidOf} {w : Watch}

theorem sound_start (mine : BTreeSet B32) : Sound (start mine) := by
  constructor <;> simp [start, DeathRepair.new, Faithful, publisher, Publisher.fresh, holdersOf]

variable {peer cid : B32} {v : U64}

theorem Sound.exact (h : Sound w) (hca : w.CaughtUp) : w.Exact := by
  intro c hc peer
  have hiff : peer ∈ holdersOf w.repair.holders c ↔ w.Holds peer c := by
    constructor
    · intro hp
      obtain ⟨v, k, hh, hl⟩ := h.indexed c peer hp
      obtain ⟨⟨cid, version⟩, hr⟩ :=
        Option.isSome_iff_exists.mp (mem_iff_isSome_getElem?.mp (h.read peer k v hh).2)
      obtain ⟨v', hv'⟩ := hca peer cid version hr
      cases hh.symm.trans hv'
      exact ⟨k, version, hr, hl⟩
    · rintro ⟨cid, version, hr, hl⟩
      obtain ⟨v, hh⟩ := hca peer cid version hr
      exact h.complete c hc peer v cid hh hl
  exact ⟨hiff, fun hho => DeathRepair.mem_shared.mpr (hiff.mpr hho)⟩

/-! ### Reading -/

/-- The index once a version of `peer` has been read. -/
structure Updated (w : Watch) (peer cid : B32) (holders : Holders) : Prop where
  only : ∀ c q, q ∈ holdersOf holders c
    → if q = peer then w.Lists cid c else q ∈ holdersOf w.repair.holders c
  all : ∀ c ∈ w.mine, ∀ q, (if q = peer then w.Lists cid c else q ∈ holdersOf w.repair.holders c) →
    q ∈ holdersOf holders c

theorem Sound.updated (h : Sound w) {repair : DeathRepair} {version : U64}
    (hr : w.net.records[peer]? = some (cid, v))
    (hhe : repair.heads = w.repair.heads.insert peer (version, cid))
    (hho : Updated w peer cid repair.holders) :
    Sound { w with repair } := by
  have hh : ∀ q, repair.heads[q]? = if peer = q then some (version, cid) else w.repair.heads[q]? :=
    fun q => by
    rw [hhe, BTreeMap.getElem?_insert]
  refine ⟨h.faithful, h.linked, h.published, h.recorded, fun q k u hq => ?_, fun c q hq => ?_,
    fun c hc q u k hq hl => ?_⟩
  · rw [hh q] at hq
    split at hq
    · next heq =>
      cases hq
      refine ⟨h.recorded peer cid v hr, mem_iff_isSome_getElem?.mpr ?_⟩
      rw [← heq, hr]
      rfl
    · exact h.read q k u hq
  · have ho := hho.only c q hq
    split at ho
    · next heq => exact ⟨version, cid, by rw [hh q, if_pos heq.symm], ho⟩
    · next hne =>
      obtain ⟨u, k, hk, hl⟩ := h.indexed c q ho
      exact ⟨u, k, by rw [hh q, if_neg (Ne.symm hne)]; exact hk, hl⟩
  · refine hho.all c hc q ?_
    rw [hh q] at hq
    split at hq
    · next heq =>
      cases hq
      rw [if_pos heq.symm]
      exact hl
    · next hne =>
      rw [if_neg (Ne.symm hne)]
      exact h.complete c hc q u k hq hl

theorem Sound.updated_delta (h : Sound w) {k : B32} {added removed : BTreeSet B32}
    (hk : w.repair.heads[peer]? = some (v, k)) (had : AddsUp w.Lists k cid (added, removed)) :
    Updated w peer cid (applyDelta w.mine peer added removed w.repair.holders).2.2 := by
  have hbe : ∀ c, peer ∈ holdersOf w.repair.holders c → w.Lists k c := fun c hp => by
    obtain ⟨u, k', hk', hl⟩ := h.indexed c peer hp
    cases hk.symm.trans hk'
    exact hl
  refine ⟨fun c q hq => ?_, fun c hc q hq => ?_⟩
  · obtain ⟨-, hor, hnot⟩ := (mem_holdersOf_applyDelta added removed).mp hq
    split
    · next heq =>
      subst heq
      refine (had c).1.mpr (hor.symm.imp (fun h => h.2) fun hp =>
        ⟨hbe c hp, fun hr => hnot ⟨rfl, hr⟩⟩)
    · next hne => exact hor.resolve_right fun h => hne h.1
  · refine (mem_holdersOf_applyDelta added removed).mpr ⟨hc, ?_⟩
    split at hq
    · next heq =>
      subst heq
      rcases (had c).1.mp hq with ha | ⟨hl, hr⟩
      · exact ⟨.inr ⟨rfl, ha⟩, fun hb => (had c).2 ⟨ha, hb.2⟩⟩
      · exact ⟨.inl (h.complete c hc q v k hk hl), fun hb => hr hb.2⟩
    · next hne => exact ⟨.inl hq, fun hb => hne hb.1⟩

theorem Sound.updated_unchanged (h : Sound w) {k : B32} (hk : w.repair.heads[peer]? = some (v, k))
    (ha : AddsUp w.Lists k cid (∅, ∅)) :
    Updated w peer cid w.repair.holders := by
  have hs : ∀ c, w.Lists cid c ↔ w.Lists k c := fun c => by simpa using (ha c).1
  refine ⟨fun c q hq => ?_, fun c hc q hq => ?_⟩
  · split
    · next heq =>
      subst heq
      obtain ⟨u, k', hk', hl⟩ := h.indexed c q hq
      cases hk.symm.trans hk'
      exact (hs c).mpr hl
    · exact hq
  · split at hq
    · next heq =>
      subst heq
      exact h.complete c hc q v k hk ((hs c).mp hq)
    · exact hq

theorem updated_reset {set : BTreeSet B32} (hset : ∀ c, c ∈ set ↔ w.Lists cid c) :
    Updated w peer cid (applyReset w.mine peer set w.repair.holders).2.2 := by
  refine ⟨fun c q hq => ?_, fun c hc q hq => ?_⟩
  · have hif := ((mem_holdersOf_applyReset set).mp hq).2
    rwa [hset c] at hif
  · refine (mem_holdersOf_applyReset set).mpr ⟨hc, ?_⟩
    rwa [hset c]

theorem Sound.check (h : Sound w) (peer : B32) (online : B32 → Bool) :
    Sound (step cidOf w (.check peer online)) := by
  rw [step, DeathRepair.checkPeer]
  cases hc : w.net.changesSince online peer w.repair.heads[peer]? with
  | none => exact h
  | some changes =>
    obtain ⟨cid, v, hr, ht⟩ := changesSince_spec h.faithful hc
    cases changes with
    | delta version head added removed =>
      obtain ⟨rfl, u, k, hk, ha⟩ := ht
      dsimp only
      split
      · next he =>
        rw [Bool.and_eq_true, Std.ExtTreeSet.isEmpty_iff, Std.ExtTreeSet.isEmpty_iff] at he
        rw [he.1, he.2] at ha
        exact h.updated hr rfl (h.updated_unchanged hk ha)
      · exact h.updated hr rfl (h.updated_delta hk ha)
    | reset version head set =>
      obtain ⟨rfl, hset⟩ := ht
      exact h.updated hr rfl (updated_reset hset)

/-! ### Publishing -/

theorem next_cases {pub : Publisher} {now : BTreeSet B32} {version : U64} {body : Body}
    (h : pub.next now = .ok (some (version, body))) :
    body = .snapshot now.toList ∨ ∃ p, pub.last = some p ∧
      body = .diff (now.filter fun c => !p.cids.contains c).toList (p.cids.filter fun c =>
        !now.contains c).toList p.cid := by
  rw [Publisher.next] at h
  split at h
  · obtain ⟨v, -, heq⟩ := Except.bind_eq_ok.mp h
    cases heq
    exact .inl rfl
  · next p hp =>
    dsimp only at h
    split at h
    · exact absurd (Except.ok.inj h) (by simp)
    · obtain ⟨v, -, heq⟩ := Except.bind_eq_ok.mp h
      split at heq
      · cases heq
        exact .inl rfl
      · cases heq
        exact .inr ⟨p, hp, rfl⟩

/-- What is there once a version has been written. -/
def written (w : Watch) (m : HoldingsManifest) (cid : B32) (cids : BTreeSet B32) : Watch :=
  { w with
    net := { w.net with objects := w.net.objects.insert cid m }.announce m.node cid m.version
    publishers := w.publishers.insert m.node ⟨some ⟨m.version, cids, cid⟩, m.version⟩
    listed := w.listed.insert cid cids }

section Written

variable {m : HoldingsManifest} {cid : B32} {cids : BTreeSet B32}

variable (k : B32)

theorem objects_written :
    (w.written m cid cids).net.objects[k]? = if cid = k then some m else w.net.objects[k]? := by
  rw [written, HoldingsNet.announce, ← BTreeMap.getElem?_insert]
  split <;> rfl

theorem mem_objects_written {k : B32} : k ∈ (w.written m cid cids).net.objects
    ↔ k = cid ∨ k ∈ w.net.objects := by
  rw [mem_iff_isSome_getElem?, mem_iff_isSome_getElem?, objects_written]
  split
  · next heq => simp [heq]
  · next hne => simp [Ne.symm hne]

theorem records_written (w : Watch) (m : HoldingsManifest) (cid : B32) (cids : BTreeSet B32)
    (k : B32) :
    (w.written m cid cids).net.records[k]? = w.net.records[k]? ∨
      (k = m.node ∧ (w.written m cid cids).net.records[k]? = some (cid, m.version)) := by
  rw [written, HoldingsNet.announce]
  dsimp only
  split
  · exact .inl rfl
  · dsimp only
    rw [BTreeMap.getElem?_insert]
    split
    · next heq => exact .inr ⟨heq.symm, rfl⟩
    · exact .inl rfl

theorem lists_written (c : B32) :
    (w.written m cid cids).Lists k c ↔ if cid = k then c ∈ cids else w.Lists k c := by
  rw [Lists, written]
  dsimp only
  rw [BTreeMap.getElem?_insert]
  split <;> rfl

theorem publisher_written :
    (w.written m cid cids).publisher k =
      if m.node = k then ⟨some ⟨m.version, cids, cid⟩, m.version⟩ else w.publisher k := by
  rw [publisher, written]
  dsimp only
  rw [BTreeMap.getElem?_insert]
  split <;> rfl

theorem lists_written_of_mem (hnew : cid ∉ w.net.objects) {k : B32} (hk : k ∈ w.net.objects)
    (c : B32) :
    (w.written m cid cids).Lists k c ↔ w.Lists k c := by
  rw [lists_written, if_neg]
  rintro rfl
  exact hnew hk

theorem Sound.faithful_written (h : Sound w) (hnew : cid ∉ w.net.objects)
    (hn : (w.publisher m.node).next cids = .ok (some (m.version, m.body))) :
    Faithful (w.written m cid cids).net.objects (w.written m cid cids).Lists := by
  intro k m' hm' c
  rw [objects_written] at hm'
  split at hm'
  · next heq =>
    -- the new version
    subst heq
    cases hm'
    have hl : (w.written m cid cids).Lists cid c ↔ c ∈ cids := by rw [lists_written, if_pos rfl]
    rcases next_cases hn with hb | ⟨p, hp, hb⟩
    · rw [hb]
      dsimp only
      rw [hl, mem_toList]
    · obtain ⟨hmem, hbe⟩ := h.published m.node p hp
      rw [hb]
      dsimp only
      rw [hl, lists_written_of_mem hnew hmem, hbe c, mem_toList, mem_toList,
        ← Std.ExtTreeSet.contains_iff_mem, ← Std.ExtTreeSet.contains_iff_mem,
        ← Std.ExtTreeSet.contains_iff_mem, ← Std.ExtTreeSet.contains_iff_mem,
        BTreeSet.contains_filter, BTreeSet.contains_filter]
      cases cids.contains c <;> cases p.cids.contains c <;> simp
  · next hne =>
    have hl : (w.written m cid cids).Lists k c ↔ w.Lists k c := by rw [lists_written, if_neg hne]
    cases hb : m'.body with
    | snapshot l =>
      dsimp only
      rw [hl]
      exact h.faithful.snapshot hm' hb c
    | diff a r prev =>
      dsimp only
      rw [hl, lists_written_of_mem hnew (h.linked k m' a r prev hm' hb)]
      exact h.faithful.diff hm' hb c

theorem Sound.written (h : Sound w) (hnew : cid ∉ w.net.objects)
    (hn : (w.publisher m.node).next cids = .ok (some (m.version, m.body))) :
    Sound (w.written m cid cids) := by
  refine ⟨h.faithful_written hnew hn, fun k m' a r prev hm' hb => ?_, fun peer p hp => ?_,
    fun peer k v hr => ?_, fun peer k v hh => ?_, fun c peer hpe => ?_,
    fun c hc peer v k hh hl => ?_⟩
  · rw [mem_objects_written]
    rw [objects_written] at hm'
    split at hm'
    · cases hm'
      rcases next_cases hn with hsn | ⟨p, hp, hd⟩
      · rw [hsn] at hb
        simp at hb
      · rw [hd] at hb
        injection hb with _ _ hpr
        exact .inr (hpr ▸ (h.published _ p hp).1)
    · exact .inr (h.linked k m' a r prev hm' hb)
  · rw [publisher_written] at hp
    split at hp
    · cases hp
      exact ⟨mem_objects_written.mpr (.inl rfl), fun c => by rw [lists_written, if_pos rfl]⟩
    · obtain ⟨hmem, hl⟩ := h.published peer p hp
      exact ⟨mem_objects_written.mpr (.inr hmem), fun c => by rw [lists_written_of_mem hnew hmem,
        hl c]⟩
  · rw [mem_objects_written]
    rcases records_written w m cid cids peer with hs | ⟨-, hset⟩
    · exact .inr (h.recorded peer k v (hs ▸ hr))
    · rw [hset] at hr
      exact .inl (Prod.mk.inj (Option.some.inj hr)).1.symm
  · obtain ⟨hmem, hpe⟩ := h.read peer k v hh
    refine ⟨mem_objects_written.mpr (.inr hmem), ?_⟩
    rw [mem_iff_isSome_getElem?] at hpe ⊢
    rcases records_written w m cid cids peer with hs | ⟨-, hset⟩
    · exact hs ▸ hpe
    · rw [hset]
      rfl
  · obtain ⟨v, k, hh, hl⟩ := h.indexed c peer hpe
    exact ⟨v, k, hh, (lists_written_of_mem hnew (h.read peer k v hh).1 c).mpr hl⟩
  · exact h.complete c hc peer v k hh ((lists_written_of_mem hnew (h.read peer k v hh).1 c).mp hl)

end Written

/-! ### Whole runs -/

theorem Sound.publish (h : Sound w) {cids : BTreeSet B32}
    (hnew : NewIds cidOf w (.publish peer cids)) :
    Sound (step cidOf w (.publish peer cids)) := by
  rw [step, Publisher.publish]
  cases hn : (w.publisher peer).next cids with
  | error e => exact h
  | ok result =>
    cases result with
    | none =>
      refine ⟨h.faithful, h.linked, fun q p hp => h.published q p ?_, h.recorded, h.read, h.indexed,
        h.complete⟩
      change ((w.publishers.insert peer (w.publisher peer))[q]?.getD .fresh).last = some p at hp
      rw [BTreeMap.getElem?_insert] at hp
      split at hp
      · next heq => exact heq ▸ hp
      · exact hp
    | some result =>
      obtain ⟨version, body⟩ := result
      exact h.written (m := ⟨peer, version, body⟩) (hnew version body hn) hn

theorem Sound.restart (h : Sound w) (peer : B32) : Sound (step cidOf w (.restart peer)) := by
  refine ⟨h.faithful, h.linked, fun q p hp => h.published q p ?_, h.recorded, h.read, h.indexed,
    h.complete⟩
  change ((w.publishers.insert peer { w.publisher peer with last := none })[q]?.getD .fresh).last
    = some p at hp
  rw [BTreeMap.getElem?_insert] at hp
  split at hp
  · exact absurd hp (by simp)
  · exact hp

theorem Sound.step (h : Sound w) {event : WatchEvent} (hnew : NewIds cidOf w event)
    (he : Timely w event) :
    Sound (step cidOf w event) := by
  cases event with
  | publish peer cids => exact h.publish hnew
  | restart peer => exact h.restart peer
  | gain cid =>
    refine ⟨h.faithful, h.linked, h.published, h.recorded, h.read, h.indexed,
      fun c hc peer v k hh hl => ?_⟩
    rcases Std.ExtTreeSet.mem_insert.mp hc with heq | hc
    · obtain rfl := Std.LawfulEqOrd.eq_of_compare heq
      exact absurd hl (he peer k v hh)
    · exact h.complete c hc peer v k hh hl
  | lose cid =>
    exact ⟨h.faithful, h.linked, h.published, h.recorded, h.read, h.indexed,
      fun c hc => h.complete c (Std.ExtTreeSet.mem_of_mem_erase hc)⟩
  | check peer online => exact h.check peer online

/-- **The index is exact whenever everybody has been read**, if ids are taken in before those who
list them are read. -/
theorem exact_of_timely (cidOf : HoldingsManifest → B32) (mine : BTreeSet B32)
    (events : List WatchEvent)
    (hnew : EachStep (Watch.step cidOf) (start mine) (NewIds cidOf) events)
    (h : EachStep (Watch.step cidOf) (start mine) Timely events) :
    EachState (Watch.step cidOf) (start mine) (fun w => w.CaughtUp → w.Exact) events :=
  eachState_of_invariant (I := Sound) (C := fun w event => NewIds cidOf w event ∧ Timely w event)
    (sound_start mine) (fun _ _ hsound hevent => hsound.step hevent.1 hevent.2)
      (fun _ hsound => hsound.exact)
    fun pre event hp => ⟨hnew pre event hp, h pre event hp⟩

def byVersion (m : HoldingsManifest) : B32 := Word.truncate m.version.val

def fivePublished : WatchEvent := .publish 1 (Std.ExtTreeSet.ofList [5] compare)

def gainedFirst : List WatchEvent := [fivePublished, .gain 5, .check 1 fun _ => true]

def readFirst : List WatchEvent := [fivePublished, .check 1 fun _ => true, .gain 5]

theorem newIds_gainedFirst :
    EachStep (Watch.step byVersion) (start ∅) (NewIds byVersion) gainedFirst :=
  eachStep_cons.mpr ⟨fun _ _ _ => Std.ExtTreeMap.not_mem_empty,
    eachStep_cons.mpr ⟨trivial, eachStep_cons.mpr ⟨trivial, eachStep_nil⟩⟩⟩

theorem timely_gainedFirst : EachStep (Watch.step byVersion) (start ∅) Timely gainedFirst := by
  refine eachStep_cons.mpr ⟨trivial, eachStep_cons.mpr ⟨fun peer k v hh => ?_, ?_⟩⟩
  · have hn : (∅ : BTreeMap B32 (U64 × B32))[peer]? = some (v, k) := hh
    simp at hn
  · exact eachStep_cons.mpr ⟨trivial, eachStep_nil⟩

theorem exact_of_timely_gainedFirst :
    EachStep (Watch.step byVersion) (start ∅) Timely gainedFirst ∧
      EachState (Watch.step byVersion) (start ∅) (fun w => w.CaughtUp → w.Exact) gainedFirst :=
  ⟨timely_gainedFirst,
    exact_of_timely byVersion ∅ gainedFirst newIds_gainedFirst timely_gainedFirst⟩

/-- What is taken in after reading is not indexed: the death of the node would not concern it. -/
theorem gained_after_reading_not_indexed :
    (run (Watch.step byVersion) (start ∅) readFirst).CaughtUp ∧
      ¬ (run (Watch.step byVersion) (start ∅) readFirst).Exact := by
  refine ⟨fun peer cid version hrecord => ?_, fun hexact => ?_⟩
  · have hrecords : (run (Watch.step byVersion) (start ∅) readFirst).net.records =
        (∅ : BTreeMap B32 (B32 × U64)).insert 1 (1, 1) := rfl
    have hheads : (run (Watch.step byVersion) (start ∅) readFirst).repair.heads =
        (∅ : BTreeMap B32 (U64 × B32)).insert 1 (1, 1) := rfl
    rw [hrecords, BTreeMap.getElem?_insert] at hrecord
    rw [hheads, BTreeMap.getElem?_insert]
    split at hrecord
    · next heq =>
      cases hrecord
      exact ⟨1, if_pos heq⟩
    · exact absurd hrecord (by simp)
  · have hlisted : (run (Watch.step byVersion) (start ∅) readFirst).Holds 1 5 :=
      ⟨1, 1, by decide +kernel, by decide +kernel⟩
    have hindexed := (hexact 5 (by decide +kernel) 1).1.mpr hlisted
    exact absurd hindexed (by decide +kernel)

end Watch

end Zephcraft.Noded
