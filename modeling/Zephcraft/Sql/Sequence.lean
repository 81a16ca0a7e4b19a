import Zephcraft.Sql.Compact

/-!
# Sql/Sequence — the numbers of the heads

A write takes the next number in memory, hands its root to the head store under it, and only then
sweeps; the number is on disk when the sidecar is saved, at the end of the sweep.
-/

namespace Zephcraft.Sql

open List Option Function World Run

variable {M : Medium} {cfg : Config}

/-! ## What a step leaves of the sidecar and of the databases -/

variable (M cfg) in
/-- A sweep saves the sidecar: there is a durable store, it takes what it is given, the root is not
the sidecar's, and both roots can be walked. -/
def Saves (faults : Faults) (last : Option B32) (store : ObjectStore) (root : B32) : Prop :=
  cfg.durable = true ∧ faults.fresh = false ∧ faults.list = false ∧ last ≠ some root
    ∧ (last.elim (.ok []) (Pager.reachable M store)).toOption.isSome = true
    ∧ (Pager.reachable M store root).toOption.isSome = true
deriving Decidable

theorem Except.exists_of_isSome_toOption {ε α : Type} {x : Except ε α}
    (h : x.toOption.isSome = true) :
    ∃ a, x = .ok a := by
  cases x with
  | error e => cases h
  | ok a => exact ⟨a, rfl⟩

theorem swept_sweepDurability {order : HashOrder} {faults : Faults} {disk : Disk} {root : B32}
    {seq : ℕ} (h : Saves M cfg faults disk.manifest.lastRoot disk.store root) :
    (sweepDurability M cfg order faults disk root seq).2.swept = (some root, seq) := by
  obtain ⟨hd, hf, hl, hne, hp, hout⟩ := h
  obtain ⟨prev, hp⟩ := Except.exists_of_isSome_toOption hp
  obtain ⟨out, hout⟩ := Except.exists_of_isSome_toOption hout
  rw [sweepDurability, if_neg (by simp [hd, hne]), hp, hout]
  dsimp only
  split
  · exact swept_saveSwept _ _
  rw [hf, if_neg (by simp)]
  split
  · next hn =>
    rw [announceList, hl] at hn
    split at hn <;> simp at hn
  · next durable manifest hs =>
    obtain ⟨-, -, hr, hseq⟩ := announceList_eq_some hs
    rw [swept_saveSwept]
    exact Prod.ext hr hseq

namespace World

variable {w : World} {h : ℕ}

theorem openAs_spec (M : Medium) (cfg : Config) (w : World) (h : ℕ) (resolved : Resolved)
    (source : Option (Stream' Reply)) :
    (w.openAs M cfg h resolved source).2.published = w.published
      ∧ (w.openAs M cfg h resolved source).2.disk.manifest = w.disk.manifest
      ∧ ((w.openAs M cfg h resolved source).1 ≠ .ok ()
        ∧ (w.openAs M cfg h resolved source).2.handles = w.handles
        ∨ (w.openAs M cfg h resolved source).1 = .ok ()
          ∧ ∃ db, (w.openAs M cfg h resolved source).2.handles
            = Function.update w.handles h (some db) ∧ (w.disk.manifest.lastRoot ≠ none
              → db.seq = w.disk.manifest.seq)) := by
  cases hrun : w.openAs M cfg h resolved source with
  | mk result w' =>
    cases result with
    | ok _ =>
      rcases openAs_eq_ok hrun with ⟨hh, rfl⟩ | ⟨root, seq, store, pager, hh, -, -, rfl⟩
      · refine ⟨rfl, rfl, .inr ⟨rfl, _, rfl, fun hne => ?_⟩⟩
        obtain ⟨root, hr⟩ := ne_none_iff_exists'.mp hne
        rw [head_of_lastRoot hr] at hh
        cases hh
      · refine ⟨rfl, rfl, .inr ⟨rfl, _, rfl, fun hne => ?_⟩⟩
        obtain ⟨last, hl⟩ := ne_none_iff_exists'.mp hne
        rw [head_of_lastRoot hl] at hh
        exact (congrArg Prod.snd (Option.some.inj (Except.ok.inj hh))).symm
    | error e =>
      have hf : w'.published = w.published ∧ w'.disk.manifest = w.disk.manifest
          ∧ w'.handles = w.handles := by
        rw [openAs] at hrun
        split at hrun
        · obtain ⟨-, rfl⟩ := Prod.mk.inj hrun
          exact ⟨rfl, rfl, rfl⟩
        · cases (Prod.mk.inj hrun).1
        dsimp only at hrun
        split at hrun
        · obtain ⟨-, rfl⟩ := Prod.mk.inj hrun
          exact ⟨rfl, rfl, rfl⟩
        split at hrun
        · obtain ⟨-, rfl⟩ := Prod.mk.inj hrun
          exact ⟨rfl, rfl, rfl⟩
        · cases (Prod.mk.inj hrun).1
      exact ⟨hf.1, hf.2.1, .inl ⟨by simp, hf.2.2⟩⟩

theorem compact_spec (M : Medium) (cfg : Config) (w : World) (resolved : Resolved) (faults : Faults)
    (order : HashOrder) :
    (w.compact M cfg resolved faults order).2.published = w.published
      ∧ (w.compact M cfg resolved faults order).2.handles = w.handles
      ∧ (w.compact M cfg resolved faults order).2.disk.swept = w.disk.swept := by
  rcases compact_cases M cfg w resolved faults order with ⟨e, hrun⟩ | ⟨head, root, -, -, hrun⟩
  · rw [hrun]
    exact ⟨rfl, rfl, rfl⟩
  · rw [hrun]
    exact ⟨rfl, rfl, swept_runCompaction _ _⟩

end World

/-! ## What the files contain -/

/-- A world, with the published writes that each open file contains, and those of the sidecar's
root. -/
structure Traced where
  world : World
  contains : ℕ → List Publication
  saved : List Publication

namespace Traced

def fresh (disk : Disk) : Traced := ⟨.fresh disk, fun _ => [], []⟩

variable (M cfg) in
def step (t : Traced) (e : Event) : Traced :=
  let world := t.world.step M cfg e
  match e with
  | .openAs h resolved source =>
    if (t.world.openAs M cfg h resolved source).1 = .ok () then
      ⟨world, Function.update t.contains h (if t.world.disk.manifest.lastRoot = none then []
        else t.saved), t.saved⟩
    else ⟨world, t.contains, t.saved⟩
  | .write h .. =>
    let contents := t.contains h ++ world.published.drop t.world.published.length
    ⟨world, Function.update t.contains h contents,
      if world.disk.manifest.lastRoot = t.world.disk.manifest.lastRoot then t.saved else contents⟩
  | .compact .. | .restart => ⟨world, t.contains, t.saved⟩

@[simp] theorem world_step (t : Traced) (e : Event) :
    (t.step M cfg e).world = t.world.step M cfg e := by
  cases e with
  | openAs h resolved source =>
    rw [step]
    split <;> rfl
  | write h ops sqlFails faults order => rfl
  | compact resolved faults order => rfl
  | restart => rfl

/-- No number was published with two roots. -/
def OneRoot (t : Traced) : Prop :=
  ∀ p ∈ t.world.published, ∀ q ∈ t.world.published, p.seq = q.seq → p.root = q.root

variable (M cfg) in
/-- A database that is opened from the sidecar contains every write that was published. -/
def Reopens (t : Traced) : Event → Prop
  | .openAs h resolved source =>
    (t.world.openAs M cfg h resolved source).1 = .ok () → t.world.disk.manifest.lastRoot ≠ none →
      ∀ p ∈ t.world.published, p ∈ (t.step M cfg (.openAs h resolved source)).contains h
  | _ => True

variable (M cfg) in
/-- The owner has one database open at a time, and each root it publishes is saved in the
sidecar. -/
def Orderly (t : Traced) : Event → Prop
  | .openAs h _ _ => ∀ h', t.world.handles h' ≠ none → h' = h
  | .write h ops sqlFails faults _ =>
    sqlFails = false → ∀ db ∈ t.world.handles h, ∀ file ∈ ((t.world.file db).batch M ops).toOption,
      ∀ root ∈ file.2, t.world.root ≠ some root →
        Saves M cfg faults t.world.disk.manifest.lastRoot file.1.store root
  | .compact .. | .restart => True

/-- **The invariant**: the numbers that were published grow up to the sidecar's, and the sidecar's
root and the open file contain all that was published. -/
structure InOrder (t : Traced) : Prop where
  increasing : t.world.published.Pairwise fun p q => p.seq < q.seq
  unsaved : t.world.disk.manifest.lastRoot = none → t.world.published = []
  below : ∀ p ∈ t.world.published, p.seq ≤ t.world.disk.manifest.seq
  saved : t.world.published ⊆ t.saved
  single : ∀ h h', t.world.handles h ≠ none → t.world.handles h' ≠ none → h = h'
  handle : ∀ h db, t.world.handles h = some db → t.world.disk.manifest.lastRoot ≠ none →
    db.seq = t.world.disk.manifest.seq ∧ t.world.published ⊆ t.contains h

variable {t : Traced}

theorem InOrder.oneRoot (hi : t.InOrder) : t.OneRoot := by
  have hn : (t.world.published.map Publication.seq).Nodup :=
    pairwise_map.mpr (hi.increasing.imp fun h => h.ne)
  exact fun p hp q hq hseq => congrArg _ (inj_on_of_nodup_map hn hp hq hseq)

theorem contains_openAs {h : ℕ} {resolved : Resolved} {source : Option (Stream' Reply)}
    (hok : (t.world.openAs M cfg h resolved source).1 = .ok ())
    (hne : t.world.disk.manifest.lastRoot ≠ none) :
    (t.step M cfg (.openAs h resolved source)).contains h = t.saved := by
  simp [step, hok, hne]

theorem saved_openAs (h : ℕ) (resolved : Resolved) (source : Option (Stream' Reply)) :
    (t.step M cfg (.openAs h resolved source)).saved = t.saved := by
  rw [step]
  split <;> rfl

theorem InOrder.openAs (hi : t.InOrder) {h : ℕ} {resolved : Resolved}
    {source : Option (Stream' Reply)} (ha : ∀ h', t.world.handles h' ≠ none → h' = h) :
    (t.step M cfg (.openAs h resolved source)).InOrder := by
  obtain ⟨hp, hm, hh⟩ := openAs_spec M cfg t.world h resolved source
  have hw :
      (t.step M cfg (.openAs h resolved source)).world
        = (t.world.openAs M cfg h resolved source).2 :=
    world_step t _
  refine ⟨?_, ?_, ?_, ?_, ?_, ?_⟩ <;> rw [hw]
  · exact hp ▸ hi.increasing
  · rw [hm, hp]
    exact hi.unsaved
  · rw [hm, hp]
    exact hi.below
  · rw [hp, saved_openAs]
    exact hi.saved
  · rcases hh with ⟨-, hs⟩ | ⟨-, db, hnew, -⟩
    · rw [hs]
      exact hi.single
    · -- all that is open is `h`
      have hall : ∀ h', Function.update t.world.handles h (some db) h' ≠ none → h' = h := by
        intro h' ho
        by_contra hne
        exact hne (ha h' (by rwa [update_of_ne hne] at ho))
      rw [hnew]
      exact fun h₁ h₂ ho₁ ho₂ => (hall h₁ ho₁).trans (hall h₂ ho₂).symm
  · rw [hm, hp]
    intro h' db' hdb' hne
    rcases hh with ⟨hf, hs⟩ | ⟨hok, db, hnew, hseq⟩
    · rw [hs] at hdb'
      have hc : (t.step M cfg (.openAs h resolved source)).contains = t.contains := by
        simp [step, hf]
      rw [hc]
      exact hi.handle h' db' hdb' hne
    · rw [hnew] at hdb'
      by_cases heq : h' = h
      · subst heq
        rw [update_self] at hdb'
        obtain rfl := Option.some.inj hdb'
        rw [contains_openAs hok hne]
        exact ⟨hseq hne, hi.saved⟩
      · rw [update_of_ne heq] at hdb'
        exact absurd (ha h' (by simp [hdb'])) heq

theorem InOrder.of_quiet {t' : Traced} (hi : t.InOrder)
    (hp : t'.world.published = t.world.published)
    (hs : t'.world.disk.swept = t.world.disk.swept) (hsa : t'.saved = t.saved)
    (hha : ∀ h db', t'.world.handles h = some db' → ∃ db, t.world.handles h = some db
      ∧ db'.seq = db.seq) (hc : ∀ h, t'.contains h = t.contains h) : t'.InOrder := by
  have hl : t'.world.disk.manifest.lastRoot = t.world.disk.manifest.lastRoot := congrArg Prod.fst hs
  have hseq : t'.world.disk.manifest.seq = t.world.disk.manifest.seq := congrArg Prod.snd hs
  have ho : ∀ h, t'.world.handles h ≠ none → t.world.handles h ≠ none := by
    intro h hne
    obtain ⟨db', hdb'⟩ := ne_none_iff_exists'.mp hne
    obtain ⟨db, hdb, -⟩ := hha h db' hdb'
    simp [hdb]
  refine ⟨hp ▸ hi.increasing, ?_, ?_, ?_, fun h h' hh hh' => hi.single h h' (ho h hh) (ho h' hh'),
    ?_⟩
  · rw [hl, hp]
    exact hi.unsaved
  · rw [hseq, hp]
    exact hi.below
  · rw [hsa, hp]
    exact hi.saved
  · intro h db' hdb' hne
    obtain ⟨db, hdb, heq⟩ := hha h db' hdb'
    rw [heq, hseq, hp, hc]
    exact hi.handle h db hdb (hl ▸ hne)

theorem InOrder.of_published {t' : Traced} (hi : t.InOrder) {h : ℕ} {db : CraftDb} (db' : CraftDb)
    (p : Publication) (hdb : t.world.handles h = some db) (hseq : p.seq = db.seq + 1)
    (hp : t'.world.published = t.world.published ++ [p])
    (hs : t'.world.disk.swept = (some p.root, p.seq)) (hdb' : db'.seq = p.seq)
    (hh : t'.world.handles = Function.update t.world.handles h (some db'))
    (hc : t'.contains h = t.contains h ++ [p]) (hsa : t'.saved = t.contains h ++ [p]) :
    t'.InOrder := by
  have hl : t'.world.disk.manifest.lastRoot = some p.root := congrArg Prod.fst hs
  have hnu : t'.world.disk.manifest.seq = p.seq := congrArg Prod.snd hs
  -- the number is new, since the file was at the sidecar's; and the file had all that was published
  have hb : t.world.published ⊆ t.contains h ∧ ∀ q ∈ t.world.published, q.seq < p.seq := by
    by_cases hn : t.world.disk.manifest.lastRoot = none
    · rw [hi.unsaved hn]
      exact ⟨nil_subset _, fun q hq => by cases hq⟩
    · obtain ⟨hat, hall⟩ := hi.handle h db hdb hn
      refine ⟨hall, fun q hq => ?_⟩
      have hle := hi.below q hq
      omega
  have hall : t.world.published ++ [p] ⊆ t.contains h ++ [p] :=
    append_subset.mpr ⟨fun q hq => mem_append_left _ (hb.1 hq), subset_append_right _ _⟩
  have ho : ∀ h', t'.world.handles h' ≠ none → h' = h := by
    intro h' hop
    by_contra hne
    rw [hh, update_of_ne hne] at hop
    exact hne (hi.single h' h hop (by simp [hdb]))
  refine ⟨?_, fun hn => ?_, fun q hq => ?_, ?_, fun h₁ h₂ ho₁ ho₂ => ?_, fun h' found hf _ => ?_⟩
  · rw [hp]
    refine List.pairwise_append.mpr ⟨hi.increasing, pairwise_singleton _ _, fun q hq r hr => ?_⟩
    rw [mem_singleton.mp hr]
    exact hb.2 q hq
  · rw [hl] at hn
    cases hn
  · rw [hnu]
    rw [hp, mem_append, mem_singleton] at hq
    rcases hq with hq | rfl
    · exact (hb.2 q hq).le
    · exact le_rfl
  · rw [hp, hsa]
    exact hall
  · exact (ho h₁ ho₁).trans (ho h₂ ho₂).symm
  · obtain rfl := ho h' (by simp [hf])
    rw [hh, update_self] at hf
    obtain rfl := Option.some.inj hf
    rw [hnu, hp, hc]
    exact ⟨hdb', hall⟩

theorem InOrder.write (hi : t.InOrder) {h : ℕ} {ops : List FileOp} {sqlFails : Bool}
    {faults : Faults} {order : HashOrder}
    (ho : t.Orderly M cfg (.write h ops sqlFails faults order)) :
    (t.step M cfg (.write h ops sqlFails faults order)).InOrder := by
  have quiet : ∀ w', (t.world.write M cfg h ops sqlFails faults order).2 = w' →
      w'.published = t.world.published → w'.disk.manifest = t.world.disk.manifest →
      (∀ h' db', w'.handles h' = some db' → ∃ db, t.world.handles h' = some db ∧ db'.seq = db.seq) →
      (t.step M cfg (.write h ops sqlFails faults order)).InOrder := by
    rintro w' hw' hp hm hh
    have hw : t.world.step M cfg (.write h ops sqlFails faults order) = w' := hw'
    have hc : t.contains h ++ w'.published.drop t.world.published.length = t.contains h := by
      simp [hp]
    refine hi.of_quiet ?_ ?_ ?_ ?_ fun h' => ?_
    · rw [world_step, hw, hp]
    · rw [world_step, hw, Disk.swept, Disk.swept, hm]
    · simp only [step, hw, hm, if_pos]
    · rw [world_step, hw]
      exact hh
    · simp only [step, hw, hc, update_eq_self]
  have hop : ∀ (db : CraftDb) (file : FileState), t.world.handles h = some db → ∀ h' db',
      (t.world.afterBatch h db file).handles h' = some db' →
        ∃ db, t.world.handles h' = some db ∧ db'.seq = db.seq := by
    intro db file hdb h' db' hdb'
    by_cases heq : h' = h
    · subst heq
      rw [afterBatch, handles_setHandle, update_self] at hdb'
      obtain rfl := Option.some.inj hdb'
      exact ⟨db, hdb, rfl⟩
    · rw [afterBatch, handles_setHandle, update_of_ne heq] at hdb'
      exact ⟨db', hdb', rfl⟩
  rcases write_cases M cfg t.world h ops sqlFails faults order with
    ⟨hrun, -⟩ | ⟨db, hdb, hrun | ⟨file, hb, hrun | ⟨hrun, -⟩ | ⟨root, hru, hr, hne, hrun⟩⟩⟩
  · exact quiet _ (congrArg Prod.snd hrun) rfl rfl fun h' db' hdb' => ⟨db', hdb', rfl⟩
  · exact quiet _ (congrArg Prod.snd hrun) rfl rfl fun h' db' hdb' => by cases hdb'
  · exact quiet _ (congrArg Prod.snd hrun) rfl rfl (hop db file hdb)
  · exact quiet _ (congrArg Prod.snd hrun) rfl rfl (hop db file hdb)
  · have hs := ho hru db hdb file (by rw [hb]; rfl) root hr hne
    have hsw : (sweepDurability M cfg order faults { t.world.disk with store := file.1.store } root
        (db.seq + 1)).2.swept = (some root, db.seq + 1) := swept_sweepDurability hs
    generalize hw' :
      ((t.world.afterBatch h db file).publishRoot M cfg h { db with pager := file.1 } t.world.root
        root faults order).2 = w'
    have hw : t.world.step M cfg (.write h ops sqlFails faults order) = w' :=
      (congrArg Prod.snd hrun).trans hw'
    have hp : w'.published = t.world.published ++ [⟨root, t.world.root, db.seq + 1⟩] := by
      rw [← hw']
      rfl
    have hl : w'.disk.manifest.lastRoot ≠ t.world.disk.manifest.lastRoot := by
      have hr' : w'.disk.manifest.lastRoot = some root := by
        rw [← hw']
        exact congrArg Prod.fst hsw
      rw [hr']
      exact hs.2.2.2.1.symm
    refine hi.of_published ⟨file.1, db.seq + 1⟩ ⟨root, t.world.root, db.seq + 1⟩ hdb rfl ?_ ?_ rfl
      ?_ ?_ ?_
    · rw [world_step, hw, hp]
    · rw [world_step, hw, ← hw']
      exact hsw
    · rw [world_step, hw, ← hw']
      exact update_idem _ _ _
    · simp [step, hw, hp]
    · simp [step, hw, hp, hl]

theorem InOrder.step (hi : t.InOrder) {e : Event} (ho : t.Orderly M cfg e) :
    (t.step M cfg e).InOrder := by
  cases e with
  | openAs h resolved source => exact hi.openAs ho
  | write h ops sqlFails faults order => exact hi.write ho
  | compact resolved faults order =>
    obtain ⟨hp, hh, hs⟩ := compact_spec M cfg t.world resolved faults order
    refine hi.of_quiet hp hs rfl (fun h db' hdb' => ⟨db', ?_, rfl⟩) fun _ => rfl
    rw [← hh]
    exact hdb'
  | restart => exact hi.of_quiet rfl rfl rfl (fun h db' hdb' => by cases hdb') fun _ => rfl

/-- **A number that was published names one root, and nothing published is lost**, in every run in
which the owner has one database open at a time and each root it publishes is saved. -/
theorem one_root_of_orderly (disk : Disk) (l : List Event)
    (hl : EachStep (Traced.step M cfg) (Traced.fresh disk) (Traced.Orderly M cfg) l) :
    EachState (Traced.step M cfg) (Traced.fresh disk) Traced.OneRoot l
      ∧ EachStep (Traced.step M cfg) (Traced.fresh disk) (Traced.Reopens M cfg) l := by
  have h₀ : (Traced.fresh disk).InOrder := by
    refine ⟨List.Pairwise.nil, fun _ => rfl, ?_, ?_, ?_, ?_⟩ <;> simp [fresh, World.fresh]
  refine ⟨eachState_of_invariant h₀ (fun t e hi ho => hi.step ho) (fun t hi => hi.oneRoot) hl,
    eachStep_of_invariant h₀ (fun t e hi ho => hi.step ho) (fun t e hi _ => ?_) hl⟩
  cases e with
  | openAs h resolved source =>
    intro hok hne p hp
    rw [contains_openAs hok hne]
    exact hi.saved hp
  | write h ops sqlFails faults order => trivial
  | compact resolved faults order => trivial
  | restart => trivial

theorem orderly_write {h : ℕ} {ops : List FileOp} {sqlFails : Bool} {faults : Faults}
    {order : HashOrder}
    (hall : (((t.world.handles h).bind fun db => ((t.world.file db).batch M ops).toOption).all
      fun file =>
      file.2.all fun root =>
        decide (Saves M cfg faults t.world.disk.manifest.lastRoot file.1.store root)) = true) :
    t.Orderly M cfg (.write h ops sqlFails faults order) := by
  intro _ db hdb file hf root hr _
  have hb : ((t.world.handles h).bind fun db => ((t.world.file db).batch M ops).toOption)
      = some file := by
    rw [mem_def.mp hdb]
    exact hf
  rw [hb, all_some, mem_def.mp hr, all_some, decide_eq_true_eq] at hall
  exact hall

/-- The database is grown twice, and once more after a restart. -/
def grownAgain : List Event :=
  grownTwice
    ++ [.restart, .openAs 0 (.ok none) none, .write 0 [.setLen 65536, .sync] false .none .plain]

/-- The third number is new, and what is reopened has both writes. -/
theorem one_root_of_orderly_grownAgain :
    ((run (Traced.step publicMedium durableOnly) (Traced.fresh ⟨⟨[]⟩, ⟨[]⟩, .empty⟩)
        grownAgain).world.published.map Publication.seq) = [5, 6, 7]
      ∧ EachState (Traced.step publicMedium durableOnly) (Traced.fresh ⟨⟨[]⟩, ⟨[]⟩, .empty⟩)
        Traced.OneRoot grownAgain
      ∧ EachStep (Traced.step publicMedium durableOnly) (Traced.fresh ⟨⟨[]⟩, ⟨[]⟩, .empty⟩)
        (Traced.Reopens publicMedium durableOnly) grownAgain := by
  refine ⟨by decide +kernel, one_root_of_orderly _ _ ?_⟩
  rw [grownAgain, grownTwice]
  simp only [cons_append, nil_append, eachStep_cons]
  refine ⟨fun h' hopen => absurd rfl hopen, ?_, ?_, trivial, fun h' hopen => absurd rfl hopen, ?_,
    eachStep_nil⟩
  all_goals
    apply orderly_write
    decide +kernel

/-- The durable store fails in the second write; the owner starts again, and writes something
else. -/
def sweepFails : List Event :=
  grownTwice.take 2
    ++ [.write 0 [.setLen 49152, .sync] false ⟨true, false, false, false⟩ .plain, .restart,
      .openAs 0 (.ok none) none, .write 0 [.setLen 65536, .sync] false .none .plain]

/-- **The number is given out again**: two roots are published under one number, and the database
that is reopened lacks the first of the two. -/
theorem number_reused_after_failed_sweep :
    ((run (Traced.step publicMedium durableOnly) (Traced.fresh ⟨⟨[]⟩, ⟨[]⟩, .empty⟩)
        sweepFails).world.published.map Publication.seq) = [5, 6, 6]
      ∧ ¬ EachState (Traced.step publicMedium durableOnly) (Traced.fresh ⟨⟨[]⟩, ⟨[]⟩, .empty⟩)
        Traced.OneRoot sweepFails
      ∧ ¬ EachStep (Traced.step publicMedium durableOnly) (Traced.fresh ⟨⟨[]⟩, ⟨[]⟩, .empty⟩)
        (Traced.Reopens publicMedium durableOnly) sweepFails := by
  refine ⟨by decide +kernel, fun h => ?_, fun h => ?_⟩
  · have hone := h sweepFails prefix_rfl
    revert hone
    rw [OneRoot]
    decide +kernel
  · have hreopens :=
      h (sweepFails.take 4) (.openAs 0 (.ok none) none) (by rw [sweepFails, grownTwice]; simp)
    revert hreopens
    rw [Reopens]
    decide +kernel

end Traced

end Zephcraft.Sql
