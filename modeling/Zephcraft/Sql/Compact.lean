import Zephcraft.Sql.Coverage

/-!
# Sql/Compact — a compaction on demand

A write compacts at the root it has just left. A compaction on demand asks the head store for the
root, and the head store is told of a write in the background, if at all.
-/

namespace Zephcraft.Sql

open Run

namespace World

variable {M : Medium} {cfg : Config} {w : World} {resolved : Resolved} {faults : Faults}
  {order : HashOrder}

/-- The root that was committed last: that of the open database, or else the sidecar's. -/
def latest (w : World) : Option B32 := w.root.or w.disk.manifest.lastRoot

variable (M) in
/-- **The database is kept**: what the latest root reaches is in the store, and in the generations
listed. -/
def Kept (w : World) : Prop :=
  ∀ root, w.latest = some root → ∃ out, Pager.reachable M w.disk.store root = .ok out
      ∧ ∀ c ∈ out, (∃ data, w.disk.store.get M c = some data) ∧ w.disk.Packs M c

/-- A compaction is asked for when the latest root was swept, and what the head store resolves to is
not behind it; or there is nothing to fold. -/
def Current (w : World) (resolved : Resolved) : Prop :=
  w.latest = w.disk.manifest.lastRoot ∧ (w.disk.manifest.generations.length ≤ 1
      ∨ ∀ root seq, resolved = .ok (some (root, seq)) → w.latest = some root)

variable (M cfg) in
/-- A step of one writable database: it is used, and every write goes through; or it is compacted,
whether or not that goes through. -/
def Serves (w : World) : Event → Prop
  | .compact resolved faults order =>
    Trusted M w.disk.store (w.compact M cfg resolved faults order).2.disk.durable
  | e => w.Succeeds M cfg e

/-- A compaction among the steps is asked for at the right time. -/
def Timely (w : World) : Event → Prop
  | .compact resolved _ _ => w.Current resolved
  | _ => True

variable (M cfg) in
/-- A compaction that returns has kept the database. -/
def CompactsSafely (w : World) : Event → Prop
  | .compact resolved faults order =>
    (w.compact M cfg resolved faults order).1 = .ok ()
      → (w.compact M cfg resolved faults order).2.Kept M
  | _ => True

theorem compact_cases (M : Medium) (cfg : Config) (w : World) (resolved : Resolved)
    (faults : Faults) (order : HashOrder) :
    (∃ e, w.compact M cfg resolved faults order = (.error e, w))
      ∨ ∃ head root, resolved = .ok head ∧ (head.map Prod.fst).or w.disk.manifest.lastRoot
        = some root ∧ w.compact M cfg resolved faults order
          = ((runCompaction M cfg order faults w.disk root).1.map fun _ => (),
            { w with disk := (runCompaction M cfg order faults w.disk root).2 }) := by
  unfold World.compact
  split
  · exact .inl ⟨_, rfl⟩
  split
  · exact .inl ⟨_, rfl⟩
  next head =>
  split
  · exact .inl ⟨_, rfl⟩
  · exact .inr ⟨head, _, rfl, ‹_›, rfl⟩

theorem Sound.kept (hs : w.Sound M) (hl : w.latest = w.disk.manifest.lastRoot) : w.Kept M := by
  intro root hr
  rw [hl] at hr
  obtain ⟨m, hm⟩ := hs.covering.swept (by simp [hr])
  obtain rfl : m.root M = root := Option.some.inj (hm.root.symm.trans hr)
  have hf := hs.trusted.faithful_store
  obtain ⟨out, hout, hmem⟩ := Pager.reachable_spec hm.bounded hm.indexed hm.stored hf
  refine ⟨out, hout, fun c hc => ⟨?_, hm.packs c ((hmem c).mp hc)⟩⟩
  obtain ⟨data, hd, rfl⟩ := hm.stored.exists_object ((hmem c).mp hc)
  exact ⟨data, hf.get_hash hd⟩

theorem Sound.of_durable (hs : w.Sound M) {durable : ObjectStore}
    (hsub : w.disk.durable.objects ⊆ durable.objects) (ht : Trusted M w.disk.store durable) :
    Sound M { w with disk := { w.disk with durable := durable } } := by
  refine ⟨ht, ⟨fun g hg => ?_, fun hne => ?_⟩, hs.handle⟩
  · obtain ⟨objects, hge⟩ := hs.covering.listed g hg
    exact ⟨objects, hge.mono hsub ht.blobs⟩
  · obtain ⟨m, hm⟩ := hs.covering.swept hne
    refine ⟨m, hm.root, hm.bounded, hm.indexed, hm.stored, fun c hc => ?_⟩
    obtain ⟨g, hg, objects, data, hge, hin⟩ := hm.packs c hc
    exact ⟨g, hg, objects, data, hge.mono hsub ht.blobs, hin⟩

/-- **A compaction at the last root keeps the invariant**: the open file has all it needs, since a
root has the objects of one file only. -/
theorem Sound.compacted (hs : w.Sound M) {root : B32} (hro : w.disk.manifest.lastRoot = some root)
    {live : List B32} {objects : List Packed} {disk' : Disk}
    (hc : Compacted M w.disk root live objects disk')
    (ht : Trusted M w.disk.store disk'.durable) : Sound M { w with disk := disk' } := by
  obtain ⟨m, hm⟩ := hs.covering.swept (by simp [hro])
  obtain rfl : m.root M = root := Option.some.inj (hm.root.symm.trans hro)
  obtain ⟨hli, hcov, hco⟩ := hc.covers hm.root hm.bounded hm.stored ht
  have hsub : disk'.store.objects ⊆ w.disk.store.objects := by
    rw [hc.store]
    exact List.filter_subset_self _
  have hl : disk'.manifest.lastRoot = w.disk.manifest.lastRoot := congrArg Prod.fst hc.swept
  refine ⟨ht.mono hsub, hco, fun db hdb => ?_⟩
  obtain ⟨hg, hat⟩ := hs.handle db hdb
  obtain ⟨m', hm', hb', hs', ha'⟩ := hg.anchored (m.root M) ((hat (by simp [hro])).trans hro)
  obtain ⟨-, hci⟩ :=
    hm.stored.cids_eq hs' hm.bounded hb' hm.indexed hs.trusted.faithful_store hs.trusted.nonzero hm'
  have hst : m'.StoredIn M disk'.store := by
    refine hs'.transfer fun data hd hcid => ?_
    rw [hc.store]
    refine List.mem_filter.mpr ⟨hd, ?_⟩
    rw [← hci] at hcid
    simpa using (hli _).mpr hcid
  refine ⟨⟨hg.coherent.of_anchored ha' hst, fun r hr => ?_⟩, fun hne => ?_⟩
  · have hr' : m.root M = r := by
      refine Option.some.inj (Eq.trans ?_ hr)
      exact ((hat (by simp [hro])).trans hro).symm
    exact ⟨m', hr' ▸ hm', hb', hst, ha'.depth, ha'.pages, ha'.clean⟩
  · exact (hat (by simp [hro])).trans hl.symm

theorem Sound.compact (hs : w.Sound M) (hcu : w.Current resolved)
    (ht : Trusted M w.disk.store (w.compact M cfg resolved faults order).2.disk.durable) :
    (w.compact M cfg resolved faults order).2.Sound M
      ∧ ((w.compact M cfg resolved faults order).1 = .ok ()
        → (w.compact M cfg resolved faults order).2.Kept M) := by
  obtain ⟨hl, hti⟩ := hcu
  rcases compact_cases M cfg w resolved faults order with ⟨e, hrun⟩ | ⟨head, root, rfl, hh, hrun⟩
  · rw [hrun]
    exact ⟨hs, fun h => by cases h⟩
  rw [hrun] at ht ⊢
  by_cases hfew : w.disk.manifest.generations.length ≤ 1
  · have hd : runCompaction M cfg order faults w.disk root = (.ok 0, w.disk) := if_pos hfew
    rw [hd]
    exact ⟨hs, fun _ => hs.kept hl⟩
  have hla : w.disk.manifest.lastRoot = some root := by
    cases head with
    | none => exact hh
    | some found =>
      obtain rfl : found.1 = root := Option.some.inj hh
      exact hl ▸ hti.resolve_left hfew found.1 found.2 rfl
  rcases runCompaction_cases M cfg order faults w.disk root with
    ⟨-, hfew'⟩ | ⟨e, durable, hf, hsub⟩ | ⟨n, live, objects, disk', hd, hc⟩
  · exact absurd hfew' hfew
  · rw [hf] at ht ⊢
    exact ⟨hs.of_durable hsub ht, fun h => by cases h⟩
  · rw [hd] at ht ⊢
    have hs' := hs.compacted hla hc ht
    have hl' : disk'.manifest.lastRoot = w.disk.manifest.lastRoot := congrArg Prod.fst hc.swept
    refine ⟨hs', fun _ => hs'.kept ?_⟩
    change w.root.or disk'.manifest.lastRoot = disk'.manifest.lastRoot
    rw [hl']
    exact hl

/-- **A compaction that is asked for at the right time keeps the database**: in every run of one
writable database in which all writes go through, and each compaction is asked for when the head
store is not behind. -/
theorem compacts_safely_of_timely (hdurable : cfg.durable = true) (l : List Event)
    (hl : EachStep (World.step M cfg) (World.fresh ⟨⟨[]⟩, ⟨[]⟩, .empty⟩) (World.Serves M cfg) l)
    (htimely : EachStep (World.step M cfg) (World.fresh ⟨⟨[]⟩, ⟨[]⟩, .empty⟩) World.Timely l) :
    EachStep (World.step M cfg) (World.fresh ⟨⟨[]⟩, ⟨[]⟩, .empty⟩) (World.CompactsSafely M cfg)
      l := by
  refine eachStep_of_invariant (C := fun w e => w.Serves M cfg e ∧ w.Timely e) (I := World.Sound M)
    sound_fresh ?_ ?_
    fun pre e hp => ⟨hl pre e hp, htimely pre e hp⟩
  · rintro w e hs ⟨hserves, htimely⟩
    cases e with
    | compact resolved faults order => exact (hs.compact htimely hserves).1
    | openAs h resolved source => exact hs.step hdurable hserves
    | write h ops sqlFails faults order => exact hs.step hdurable hserves
    | restart => exact hs.step hdurable hserves
  · rintro w e hs ⟨hserves, htimely⟩
    cases e with
    | compact resolved faults order => exact (hs.compact htimely hserves).2
    | openAs h resolved source => trivial
    | write h ops sqlFails faults order => trivial
    | restart => trivial

theorem Succeeds.serves {e : Event} (h : w.Succeeds M cfg e) : w.Serves M cfg e ∧ w.Timely e := by
  cases e with
  | compact resolved faults order => exact h.routine.elim
  | openAs h' resolved source => exact ⟨h, trivial⟩
  | write h' ops sqlFails faults order => exact ⟨h, trivial⟩
  | restart => exact ⟨h, trivial⟩

def grown : World :=
  run (World.step publicMedium durableOnly) (World.fresh ⟨⟨[]⟩, ⟨[]⟩, .empty⟩) grownTwice

/-- The head of the first write, and that of the second. -/
def firstHead : B32 × ℕ := ((grown.published.map Publication.root).getD 0 0, 5)

def secondHead : B32 × ℕ := ((grown.published.map Publication.root).getD 1 0, 6)

/-- Both writes are published, and then there is a compaction. -/
theorem compacts_safely_of_timely_published :
    (grown.compact publicMedium durableOnly (.ok (some secondHead)) .none .plain).1 = .ok ()
      ∧ EachStep (World.step publicMedium durableOnly) (World.fresh ⟨⟨[]⟩, ⟨[]⟩, .empty⟩)
        (World.CompactsSafely publicMedium durableOnly)
          (grownTwice ++ [.compact (.ok (some secondHead)) .none .plain]) := by
  have hserves :
      grown.Serves publicMedium durableOnly (.compact (.ok (some secondHead)) .none .plain) := by
    rw [Serves]
    decide +kernel
  have hlatest :
      grown.latest = grown.disk.manifest.lastRoot ∧ grown.latest = some secondHead.1 := by
    decide +kernel
  have htimely : grown.Timely (.compact (.ok (some secondHead)) .none .plain) := by
    refine ⟨hlatest.1, .inr fun root seq h => ?_⟩
    rw [hlatest.2]
    exact congrArg (some ∘ Prod.fst) (Option.some.inj (Except.ok.inj h))
  refine ⟨by decide +kernel, compacts_safely_of_timely rfl _ ?_ ?_⟩
  · exact eachStep_concat.mpr ⟨fun pre e hp => (succeeds_grownTwice pre e hp).serves.1, hserves⟩
  · exact eachStep_concat.mpr ⟨fun pre e hp => (succeeds_grownTwice pre e hp).serves.2, htimely⟩

/-- The compaction when only the first write is published. -/
def compacted := grown.compact publicMedium durableOnly (.ok (some firstHead)) .none .plain

/-- **The second write is lost**: only the first was published, the compaction returns, and the
header of the latest root is neither in the store nor in a generation. -/
theorem second_write_lost :
    EachStep (World.step publicMedium durableOnly) (World.fresh ⟨⟨[]⟩, ⟨[]⟩, .empty⟩)
        (World.Serves publicMedium durableOnly)
          (grownTwice ++ [.compact (.ok (some firstHead)) .none .plain])
      ∧ compacted.1 = .ok ()
      ∧ compacted.2.latest = some secondHead.1
      ∧ compacted.2.disk.store.get publicMedium secondHead.1 = none
      ∧ ¬ compacted.2.Kept publicMedium := by
  have hlatest : compacted.2.latest = some secondHead.1 := by decide +kernel
  have hwalk : (Pager.reachable publicMedium compacted.2.disk.store
      secondHead.1).toOption = none := by decide +kernel
  have hserves :
      grown.Serves publicMedium durableOnly (.compact (.ok (some firstHead)) .none .plain) := by
    rw [Serves]
    decide +kernel
  refine ⟨?_, by decide +kernel, hlatest, by decide +kernel, fun hkept => ?_⟩
  · exact eachStep_concat.mpr ⟨fun pre e hp => (succeeds_grownTwice pre e hp).serves.1, hserves⟩
  · obtain ⟨out, hout, -⟩ := hkept _ hlatest
    rw [hout] at hwalk
    cases hwalk

end World

end Zephcraft.Sql
