import Zephcraft.Sql.Durable
import Zephcraft.Sql.Lazy

/-!
# Sql/CraftDb — an owner and its database

The owner opens its database, writes to it, compacts it, and starts again. A write is a batch of
SQL, of which the pager sees reads, writes, truncations and syncs; each sync is a commit.
-/

namespace Zephcraft.Sql

open Pager

/-- What a statement does to the file. -/
inductive FileOp where
  | writeAt (buf : Bytes) (offset : U64)
  | setLen (size : U64)
  | sync

/-- A pager, and the root that was committed last. -/
abbrev FileState := Pager × Option B32

def FileState.apply (M : Medium) (file : FileState) : FileOp → Except Panic FileState
  | .writeAt buf offset => do
    let pager ← file.1.writeAt M buf offset
    pure (pager, file.2)
  | .setLen size => pure (file.1.setPageCount (((size.val + pageSize - 1) / pageSize) % 2 ^ 32),
    file.2)
  | .sync => pure ((file.1.commit M).2, some (file.1.commit M).1)

/-- `execute_batch`, as far as the file sees it. -/
def FileState.batch (M : Medium) (file : FileState) (ops : List FileOp) : Except Panic FileState :=
  ops.foldlM (FileState.apply M) file

/-- An open database. -/
structure CraftDb where
  pager : Pager
  seq : ℕ

/-- A head that was handed to `RootStore::publish`. -/
structure Publication where
  root : B32
  prev : Option B32
  seq : ℕ
deriving DecidableEq

/-- The owner's process and what it leaves behind: the disk, the map of roots, the open databases,
and the heads that were published. -/
structure World where
  disk : Disk
  root : Option B32
  handles : ℕ → Option CraftDb
  published : List Publication

/-- What the head store resolves to: an error, no head, or a head. -/
abbrev Resolved := Except DbError (Option (B32 × ℕ))

/-- The owner's calls, and restarts. -/
inductive Event where
  | openAs (h : ℕ) (resolved : Resolved) (source : Option (Stream' Reply))
  | write (h : ℕ) (ops : List FileOp) (sqlFails : Bool) (faults : Faults) (order : HashOrder)
  | compact (resolved : Resolved) (faults : Faults) (order : HashOrder)
  | restart

namespace World

section Operations

variable (M : Medium) (cfg : Config)

def fresh (disk : Disk) : World := ⟨disk, none, fun _ => none, []⟩

variable (w : World)

def restart : World := { w with root := none, handles := fun _ => none }

def setHandle (h : ℕ) (db : CraftDb) : World :=
  { w with handles := Function.update w.handles h (some db) }

/-- The head a database opens at: the sidecar's, and where there is none, the head store's. -/
def head (resolved : Resolved) : Resolved :=
  match w.disk.manifest.lastRoot with
  | some root => .ok (some (root, w.disk.manifest.seq))
  | none => resolved

/-- Copy what a root reaches, if there is a source. -/
def syncFrom (source : Option (Stream' Reply)) (store : ObjectStore) (root : B32) :
    Bool × ObjectStore :=
  match source with
  | none => (true, store)
  | some replies =>
    let synced := (syncReachable M root true).run ⟨store, replies⟩
    (synced.1.toOption.isSome, synced.2.store)

def openAs (h : ℕ) (resolved : Resolved) (source : Option (Stream' Reply)) :
    Except DbError Unit × World :=
  match w.head resolved with
  | .error e => (.error e, w)
  | .ok none =>
    (.ok (),
      { w with root := none }.setHandle h ⟨(create w.disk.store).setWrappedDek cfg.wrappedDek, 0⟩)
  | .ok (some (root, seq)) =>
    let synced := syncFrom M source w.disk.store root
    let w := { w with disk := { w.disk with store := synced.2 } }
    if synced.1 = false then (.error .sync, w)
    else
      let w := { w with root := some root }
      match openRoot M synced.2 root with
      | .error e => (.error (.sql e), w)
      | .ok pager => (.ok (), w.setHandle h ⟨pager, seq⟩)

/-- The file of a handle, over what is stored now. -/
def file (db : CraftDb) : FileState := ({ db.pager with store := w.disk.store }, w.root)

/-- The world after a batch that left a file. -/
def afterBatch (h : ℕ) (db : CraftDb) (file : FileState) : World :=
  { w with disk := { w.disk with store := file.1.store }, root := file.2 }.setHandle h
    { db with pager := file.1 }

/-- A root that a batch has left: publish it, and sweep. -/
def publishRoot (h : ℕ) (db : CraftDb) (prev : Option B32) (root : B32)
    (faults : Faults) (order : HashOrder) : Except DbError Unit × World :=
  let swept := sweepDurability M cfg order faults w.disk root (db.seq + 1)
  let publication : Publication := ⟨root, prev, db.seq + 1⟩
  (swept.1,
    { w with disk := swept.2, published := w.published ++ [publication] }.setHandle h
      { db with seq := db.seq + 1 })

def write (h : ℕ) (ops : List FileOp) (sqlFails : Bool) (faults : Faults) (order : HashOrder) :
    Except DbError Unit × World :=
  match w.handles h with
  | none => (.error .noHandle, w)
  | some db =>
    match (w.file db).batch M ops with
    | .error _ => (.error .panicked, w.restart)
    | .ok file =>
      let after := w.afterBatch h db file
      if sqlFails then (.error .sqlite, after)
      else
        match file.2 with
        | none => (.ok (), after)
        | some root =>
          if w.root = some root then (.ok (), after)
          else after.publishRoot M cfg h { db with pager := file.1 } w.root root faults order

/-- Compact at the head that resolves, or else at the sidecar's root. -/
def compact (resolved : Resolved) (faults : Faults) (order : HashOrder) :
    Except DbError Unit × World :=
  if cfg.durable = false then (.error .noDurableStore, w)
  else
    match resolved with
    | .error e => (.error e, w)
    | .ok head =>
      match (head.map Prod.fst).or w.disk.manifest.lastRoot with
      | none => (.error .noHead, w)
      | some root =>
        let compacted := runCompaction M cfg order faults w.disk root
        (compacted.1.map fun _ => (), { w with disk := compacted.2 })

def exec : Event → Except DbError Unit × World
  | .openAs h resolved source => w.openAs M cfg h resolved source
  | .write h ops sqlFails faults order => w.write M cfg h ops sqlFails faults order
  | .compact resolved faults order => w.compact M cfg resolved faults order
  | .restart => (.ok (), w.restart)

def step (e : Event) : World := (w.exec M cfg e).2

end Operations

section Cases

variable {M : Medium} {cfg : Config} {w : World} {h : ℕ}

@[simp] theorem handles_setHandle (w : World) (h : ℕ) (db : CraftDb) :
    (w.setHandle h db).handles = Function.update w.handles h (some db) := rfl

/-- **What a write can do**: nothing, without a database; end the process; fail in SQL after the
commits of the batch; leave the root it found; or leave another, which is published. -/
theorem write_cases (M : Medium) (cfg : Config) (w : World) (h : ℕ) (ops : List FileOp)
    (sqlFails : Bool) (faults : Faults) (order : HashOrder) :
    w.write M cfg h ops sqlFails faults order = (.error .noHandle, w) ∧ w.handles h = none
      ∨ ∃ db, w.handles h = some db
        ∧ (w.write M cfg h ops sqlFails faults order = (.error .panicked, w.restart)
          ∨ ∃ file, (w.file db).batch M ops = .ok file
            ∧ (w.write M cfg h ops sqlFails faults order = (.error .sqlite, w.afterBatch h db file)
              ∨ w.write M cfg h ops sqlFails faults order = (.ok (), w.afterBatch h db file)
                ∧ (file.2 = none ∨ w.root = file.2)
              ∨ ∃ root, sqlFails = false ∧ file.2 = some root ∧ w.root ≠ some root
                ∧ w.write M cfg h ops sqlFails faults order
                  = (w.afterBatch h db file).publishRoot M cfg h { db with pager := file.1 } w.root
                    root faults order)) := by
  rw [write]
  split
  · exact .inl ⟨rfl, ‹_›⟩
  next db hdb =>
  refine .inr ⟨db, hdb, ?_⟩
  split
  · exact .inl rfl
  next file hb =>
  refine .inr ⟨file, hb, ?_⟩
  dsimp only
  split
  · exact .inl rfl
  next hru =>
  refine .inr ?_
  split
  · exact .inl ⟨rfl, .inl ‹_›⟩
  next root hr =>
  split
  · exact .inl ⟨rfl, .inr (by rw [hr]; assumption)⟩
  · exact .inr ⟨root, Bool.eq_false_iff.mpr hru, hr, ‹_›, rfl⟩

theorem subset_syncFrom (source : Option (Stream' Reply)) (store : ObjectStore) (root : B32) :
    store.objects ⊆ (syncFrom M source store root).2.objects := by
  cases source with
  | none => exact List.Subset.refl _
  | some replies => exact grows_syncReachable root true ⟨store, replies⟩

theorem openAs_eq_ok {w' : World} {resolved : Resolved} {source : Option (Stream' Reply)}
    (hok : w.openAs M cfg h resolved source = (.ok (), w')) :
    w.head resolved = .ok none ∧ w' = { w with root := none }.setHandle h
          ⟨(create w.disk.store).setWrappedDek cfg.wrappedDek, 0⟩
      ∨ ∃ root seq store pager, w.head resolved = .ok (some (root, seq)) ∧ w.disk.store.objects
        ⊆ store.objects ∧ openRoot M store root = .ok pager
        ∧ w' = { w with disk := { w.disk with store := store }, root := some root }.setHandle h
          ⟨pager, seq⟩ := by
  rw [openAs] at hok
  split at hok
  · cases (Prod.mk.inj hok).1
  · exact .inl ⟨‹_›, (Prod.mk.inj hok).2.symm⟩
  next root seq hh =>
  dsimp only at hok
  split at hok
  · cases (Prod.mk.inj hok).1
  split at hok
  · cases (Prod.mk.inj hok).1
  · exact .inr ⟨root, seq, _, _, hh, subset_syncFrom source _ root, ‹_›, (Prod.mk.inj hok).2.symm⟩

end Cases

end World

end Zephcraft.Sql
