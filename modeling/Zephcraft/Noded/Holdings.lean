import Zephcraft.Foundations.OrderedMap
import Zephcraft.Foundations.Word

/-!
# Noded/Holdings — what a node says it holds

A node publishes the set of ids it holds: the whole set every sixteen versions and after a restart,
and what changed since the version before in between. The record under the node's name points to the
latest.
-/

namespace Zephcraft.Noded

open Option Std.ExtTreeSet BTreeSet

/-- What a version says: the set, or what changed since the version at `prev`. -/
inductive Body where
  | snapshot (cids : List B32)
  | diff (added removed : List B32) (prev : B32)
deriving DecidableEq

/-- What a node says of itself; that it signed it is left out. -/
structure HoldingsManifest where
  node : B32
  version : U64
  body : Body
deriving DecidableEq

/-- `SNAPSHOT_EVERY` -/
def snapshotEvery : ℕ := 16

/-- `v.windows(2).all(|w| w[0] < w[1])` -/
def canonical : List B32 → Bool
  | a :: b :: rest => a < b && canonical (b :: rest)
  | _ => true

def HoldingsManifest.verify (m : HoldingsManifest) : Bool :=
  match m.body with
  | .snapshot cids => canonical cids
  | .diff added removed _ => canonical added && canonical removed && !added.any (· ∈ removed)

/-! ## Publishing -/

/-- A set as it was published. -/
structure Published where
  version : U64
  cids : BTreeSet B32
  cid : B32

/-- A node that publishes: its last version, and the number it has saved. -/
structure Publisher where
  last : Option Published
  saved : U64

/-- A process that has published nothing yet. -/
def Publisher.fresh : Publisher := ⟨none, 0⟩

/-- The next version, `none` if nothing changed. -/
def Publisher.next (pub : Publisher) (now : BTreeSet B32) : Except Panic (Option (U64 × Body)) :=
  match pub.last with
  | none => do
    let version ← pub.saved.addOrPanic 1
    pure (some (version, .snapshot now.toList))
  | some p =>
    let added := now.filter fun c => !p.cids.contains c
    let removed := p.cids.filter fun c => !now.contains c
    if added.isEmpty && removed.isEmpty then pure none
    else do
      let version ← p.version.addOrPanic 1
      if version.val % snapshotEvery = 0 then pure (some (version, .snapshot now.toList))
      else pure (some (version, .diff added.toList removed.toList p.cid))

/-- The records under the nodes' names, and the objects. -/
structure HoldingsNet where
  records : BTreeMap B32 (B32 × U64)
  objects : BTreeMap B32 HoldingsManifest

/-- A record replaces one of a lower version only. -/
def HoldingsNet.announce (net : HoldingsNet) (node cid : B32) (version : U64) : HoldingsNet :=
  if net.records[node]?.any fun current => version ≤ current.2 then net
  else { net with records := net.records.insert node (cid, version) }

/-- Publish the set `now`, if it changed. `cidOf` is the id of the written manifest. -/
def Publisher.publish (cidOf : HoldingsManifest → B32) (net : HoldingsNet) (node : B32)
    (pub : Publisher) (now : BTreeSet B32) :
    Except Panic (Option (U64 × B32) × Publisher × HoldingsNet) := do
  match ← pub.next now with
  | none => pure (none, pub, net)
  | some (version, body) =>
    let m : HoldingsManifest := ⟨node, version, body⟩
    let net := { net with objects := net.objects.insert (cidOf m) m }
    pure (some (version, cidOf m), ⟨some ⟨version, now, cidOf m⟩, version⟩,
      net.announce node (cidOf m) version)

/-! ## Reading -/

/-- What a reader learns: what changed since the version it knew, or the whole set. -/
inductive Changes where
  | delta (version : U64) (head : B32) (added removed : BTreeSet B32)
  | reset (version : U64) (head : B32) (set : BTreeSet B32)

/-- Walk back from a version to the one known, or to a whole set; newest first. -/
def walkChain (fetch : B32 → Option HoldingsManifest) (known : Option B32) :
    ℕ → HoldingsManifest → Option (List HoldingsManifest × Bool)
  | steps, m =>
    match m.body with
    | .snapshot _ => some ([m], false)
    | .diff _ _ prev =>
      if known = some prev then some ([m], true)
      else
        match steps with
        | 0 => none
        | steps + 1 => do
          let earlier ← fetch prev
          let (chain, reached) ← walkChain fetch known steps earlier
          pure (m :: chain, reached)

/-- Apply what one version changed to the net change before it. -/
def netStep (m : HoldingsManifest) (net : BTreeSet B32 × BTreeSet B32) :
    BTreeSet B32 × BTreeSet B32 :=
  match m.body with
  | .diff a r _ =>
    let (added, removed) := r.foldl (fun net c => (net.1.erase c, net.2.insert c)) net
    a.foldl (fun net c => (net.1.insert c, net.2.erase c)) (added, removed)
  | .snapshot _ => net

/-- Added and removed, over a whole chain. -/
def netDelta (chain : List HoldingsManifest) : BTreeSet B32 × BTreeSet B32 :=
  chain.foldr netStep (∅, ∅)

/-- Apply what one version changed to the set before it. -/
def setStep (m : HoldingsManifest) (set : BTreeSet B32) : BTreeSet B32 :=
  match m.body with
  | .diff a r _ => a.foldl (fun set c => set.insert c) (r.foldl (fun set c => set.erase c) set)
  | .snapshot _ => set

/-- The set at the head of a chain that ends with a whole set. -/
def foldSet (chain : List HoldingsManifest) : Option (BTreeSet B32) :=
  match chain.getLast? with
  | some ⟨_, _, .snapshot cids⟩ => some (chain.dropLast.foldr setStep (ofList cids compare))
  | _ => none

namespace HoldingsNet

variable (net : HoldingsNet)

/-- Fetch a version of a node; one that is about another node, or not in order, is refused. -/
def fetchAt (online : B32 → Bool) (peer cid : B32) : Option HoldingsManifest :=
  if online cid then net.objects[cid]?.filter fun m => m.node = peer && m.verify else none

def changesSince (online : B32 → Bool) (peer : B32) (known : Option (U64 × B32)) : Option Changes :=
  do
  let (headCid, headVersion) ← net.records[peer]?
  match known.filter fun k => k.2 = headCid with
  | some (version, _) => pure (.delta version headCid ∅ ∅)
  | none =>
    let head ← net.fetchAt online peer headCid
    let (chain, reached) ← walkChain (net.fetchAt online peer) (known.map Prod.snd) (2
      * snapshotEvery) head
    if reached then
      let (added, removed) := netDelta chain
      pure (.delta headVersion headCid added removed)
    else
      let set ← foldSet chain
      pure (.reset headVersion headCid set)

end HoldingsNet

/-! ## What a reader learns -/

section Learns

variable {m : HoldingsManifest} {c : B32}

theorem foldl_pair {α β γ : Type*} (f : α → γ → α) (g : β → γ → β) (l : List γ) (x : α) (y : β) :
    l.foldl (fun p c => (f p.1 c, g p.2 c)) (x, y) = (l.foldl f x, l.foldl g y) := by
  induction l generalizing x y with
  | nil => rfl
  | cons a l ih => exact ih _ _

variable {a r : List B32} {prev cid : B32}

theorem mem_setStep (h : m.body = .diff a r prev) (set : BTreeSet B32) :
    c ∈ setStep m set ↔ c ∈ a ∨ (c ∈ set ∧ c ∉ r) := by
  rw [setStep, h, BTreeSet.mem_foldl_insert, mem_foldl_erase]

theorem mem_netStep (h : m.body = .diff a r prev) (net : BTreeSet B32 × BTreeSet B32) :
    (c ∈ (netStep m net).1 ↔ c ∈ a ∨ (c ∈ net.1 ∧ c ∉ r)) ∧
      (c ∈ (netStep m net).2 ↔ (c ∈ r ∨ c ∈ net.2) ∧ c ∉ a) := by
  obtain ⟨added, removed⟩ := net
  rw [netStep, h]
  dsimp only
  rw [foldl_pair, foldl_pair]
  exact ⟨by rw [BTreeSet.mem_foldl_insert, mem_foldl_erase],
    by rw [mem_foldl_erase, BTreeSet.mem_foldl_insert]⟩

theorem foldSet_cons {chain : List HoldingsManifest} (hne : chain ≠ []) :
    foldSet (m :: chain) = (foldSet chain).map (setStep m) := by
  rw [foldSet, foldSet, List.getLast?_cons_of_ne_nil hne, List.dropLast_cons_of_ne_nil hne]
  split <;> rfl

/-- What versions list, by their ids, is what the objects say. -/
def Faithful (objects : BTreeMap B32 HoldingsManifest) (lists : B32 → B32 → Prop) : Prop :=
  ∀ (cid : B32) (m : HoldingsManifest), objects[cid]? = some m → ∀ c : B32,
    match m.body with
    | .snapshot cids => lists cid c ↔ c ∈ cids
    | .diff added removed prev => lists cid c ↔ c ∈ added ∨ (lists prev c ∧ c ∉ removed)

variable {objects : BTreeMap B32 HoldingsManifest} {lists : B32 → B32 → Prop}
  {fetch : B32 → Option HoldingsManifest} {known : Option B32}

theorem Faithful.snapshot (h : Faithful objects lists) (hm : objects[cid]? = some m)
    {cids : List B32} (hb : m.body = .snapshot cids) (c : B32) : lists cid c ↔ c ∈ cids := by
  have hc := h cid m hm c
  rwa [hb] at hc

theorem Faithful.diff (h : Faithful objects lists) (hm : objects[cid]? = some m)
    (hb : m.body = .diff a r prev) (c : B32) :
    lists cid c ↔ c ∈ a ∨ (lists prev c ∧ c ∉ r) := by
  have hc := h cid m hm c
  rwa [hb] at hc

/-- What a chain that ends at the known version adds up to. -/
def AddsUp (lists : B32 → B32 → Prop) (known cid : B32) (net : BTreeSet B32 × BTreeSet B32) :
    Prop :=
  ∀ c, (lists cid c ↔ c ∈ net.1 ∨ (lists known c ∧ c ∉ net.2)) ∧ ¬ (c ∈ net.1 ∧ c ∈ net.2)

theorem addsUp_refl (lists : B32 → B32 → Prop) (cid : B32) : AddsUp lists cid cid (∅, ∅) := by
  simp [AddsUp]

theorem AddsUp.step {k : B32} {net : BTreeSet B32 × BTreeSet B32} (h : AddsUp lists k prev net)
    (hb : m.body = .diff a r prev) (hdi : ∀ c, lists cid c ↔ c ∈ a ∨ (lists prev c ∧ c ∉ r)) :
    AddsUp lists k cid (netStep m net) := fun c => by
  obtain ⟨had, hre⟩ := mem_netStep (c := c) hb net
  obtain ⟨hp, hd⟩ := h c
  rw [had, hre, hdi c, hp]
  by_cases ha : c ∈ a
  · simp [ha]
  · by_cases hr : c ∈ r
    · simp [ha, hr]
    · simpa [ha, hr] using hd

/-- **A walk back**: the changes add up to the step from the known version, or the set is that of
the head. -/
theorem walkChain_spec (h : Faithful objects lists)
    (hfe : ∀ cid m, fetch cid = some m → objects[cid]? = some m)
    {steps : ℕ} (hm : objects[cid]? = some m) {chain : List HoldingsManifest} {reached : Bool}
    (hw : walkChain fetch known steps m = some (chain, reached)) :
    chain ≠ [] ∧ (reached = true → ∃ k, known = some k ∧ AddsUp lists k cid (netDelta chain)) ∧
      (reached = false → ∃ set, foldSet chain = some set ∧ ∀ c, c ∈ set ↔ lists cid c) := by
  fun_induction walkChain fetch known steps m generalizing cid chain with
  | case1 steps m cids hb =>
    cases hw
    refine ⟨List.cons_ne_nil _ _, fun hf => absurd hf Bool.false_ne_true, fun _ => ?_⟩
    obtain ⟨node, version, body⟩ := m
    obtain rfl : body = .snapshot cids := hb
    refine ⟨ofList cids compare, rfl, fun c => ?_⟩
    rw [mem_ofList, List.contains_iff_mem, h.snapshot hm rfl]
  | case2 steps m a r prev hb hkn =>
    cases hw
    refine ⟨List.cons_ne_nil _ _, fun _ => ⟨prev, hkn, fun c => ?_⟩,
      fun hf => absurd hf.symm Bool.false_ne_true⟩
    exact (addsUp_refl lists prev).step hb (h.diff hm hb) c
  | case3 => exact absurd hw (by simp)
  | case4 m a r prev hb hkn steps ih =>
    obtain ⟨earlier, he, hre⟩ := bind_eq_some_iff.mp hw
    obtain ⟨⟨rest, reached'⟩, hrec, heq⟩ := bind_eq_some_iff.mp hre
    cases heq
    obtain ⟨hne, hd, hset⟩ := ih earlier (hfe prev earlier he) hrec
    refine ⟨List.cons_ne_nil _ _, fun hr => ?_, fun hr => ?_⟩
    · obtain ⟨k, hk, ha⟩ := hd hr
      exact ⟨k, hk, ha.step hb (h.diff hm hb)⟩
    · obtain ⟨set, hfo, hl⟩ := hset hr
      refine ⟨setStep m set, by rw [foldSet_cons hne, hfo]; rfl, fun c => ?_⟩
      rw [mem_setStep hb, hl c, h.diff hm hb]

theorem fetchAt_eq_some {net : HoldingsNet} {online : B32 → Bool} {peer : B32}
    (h : net.fetchAt online peer cid = some m) : net.objects[cid]? = some m := by
  rw [HoldingsNet.fetchAt] at h
  split at h
  · exact (filter_eq_some_iff.mp h).1
  · exact absurd h (by simp)

/-- What changes tell a reader about the version at `cid`. -/
def Tells (lists : B32 → B32 → Prop) (known : Option (U64 × B32)) (cid : B32) : Changes → Prop
  | .delta _ head added removed => head = cid ∧ ∃ v k, known = some (v, k)
    ∧ AddsUp lists k cid (added, removed)
  | .reset _ head set => head = cid ∧ ∀ c, c ∈ set ↔ lists cid c

theorem changesSince_spec {net : HoldingsNet} (h : Faithful net.objects lists) {online : B32 → Bool}
    {peer : B32} {known : Option (U64 × B32)} {changes : Changes}
    (hc : net.changesSince online peer known = some changes) :
    ∃ cid v, net.records[peer]? = some (cid, v) ∧ Tells lists known cid changes := by
  obtain ⟨⟨headCid, headVersion⟩, hre, hr⟩ := bind_eq_some_iff.mp hc
  refine ⟨headCid, headVersion, hre, ?_⟩
  dsimp only at hr
  split at hr
  · next version k hkn =>
    cases hr
    obtain ⟨hs, hk⟩ := filter_eq_some_iff.mp hkn
    obtain rfl : k = headCid := of_decide_eq_true hk
    exact ⟨rfl, version, k, hs, addsUp_refl lists k⟩
  · obtain ⟨head, hh, hr⟩ := bind_eq_some_iff.mp hr
    obtain ⟨⟨chain, reached⟩, hw, hr⟩ := bind_eq_some_iff.mp hr
    obtain ⟨-, hd, hset⟩ :=
      walkChain_spec h (fun cid m => fetchAt_eq_some) (fetchAt_eq_some hh) hw
    cases reached with
    | true =>
      cases hr
      obtain ⟨k, hk, ha⟩ := hd rfl
      obtain ⟨⟨v, k'⟩, hkn, rfl⟩ := map_eq_some_iff.mp hk
      exact ⟨rfl, v, k', hkn, ha⟩
    | false =>
      obtain ⟨set, hf, hl⟩ := hset rfl
      dsimp only at hr
      rw [if_neg Bool.false_ne_true, hf] at hr
      cases hr
      exact ⟨rfl, hl⟩

end Learns

end Zephcraft.Noded
