import Zephcraft.Foundations.Run
import Zephcraft.Sql.Snapshot

/-!
# Sql/Session — a database over its life

A database is written, truncated, committed, and opened again at one of its earlier roots, in any
order. What is kept of a commit is the file it was made of: its objects stay in the store, whatever
the session does next. An operation that panics ends the session.
-/

namespace Zephcraft.Sql

open List Pager Run

/-- The calls of the pager. -/
inductive Op where
  | writeAt (buf : Bytes) (offset : U64)
  | writePage (n : Word 32) (data : Bytes)
  | readAt (len : ℕ) (offset : U64)
  | size
  | setPageCount (pages : Word 32)
  | setWrappedDek (wrapped : WrappedDek)
  | commit
  | reopen (k : ℕ)
deriving DecidableEq

/-- What they answer. -/
inductive Answer where
  | done
  | bytes (data : Bytes)
  | size (n : ℕ)
  | failed (e : SqlError)
deriving DecidableEq

/-- The open file, and what the commits returned so far, the oldest first: a root and the size of
the committed file. -/
structure Session where
  pager : Pager
  commits : List (B32 × ℕ)

namespace Session

section Operations

variable (M : Medium)

def create (store : ObjectStore) : Session := ⟨.create store, []⟩

/-- One operation. A root that does not open leaves the file that is open. -/
def exec (s : Session) : Op → Except Panic (Answer × Session)
  | .writeAt buf offset => do
    let pager ← s.pager.writeAt M buf offset
    pure (.done, { s with pager := pager })
  | .writePage n data => do
    let pager ← s.pager.writePage n.val data
    pure (.done, { s with pager := pager })
  | .readAt len offset => do
    let data ← s.pager.readAt M len offset
    pure (.bytes data, s)
  | .size => pure (.size (s.pager.pageCount * pageSize), s)
  | .setPageCount pages => pure (.done, { s with pager := s.pager.setPageCount pages.val })
  | .setWrappedDek wrapped => pure (.done, { s with pager := s.pager.setWrappedDek wrapped })
  | .commit =>
    let (root, pager) := s.pager.commit M
    pure (.done, ⟨pager, s.commits ++ [(root, s.pager.pageCount)]⟩)
  | .reopen k =>
    match s.commits[k]? with
    | none => pure (.done, s)
    | some (root, _) =>
      match openRoot M s.pager.store root with
      | .ok pager => pure (.done, { s with pager := pager })
      | .error e => pure (.failed e, s)

/-- One operation of a session that may have ended. -/
def attempt (s : Option Session) (op : Op) : Option (Answer × Session) :=
  s.bind fun s => (s.exec M op).toOption

def next (s : Option Session) (op : Op) : Option Session := (attempt M s op).map Prod.snd

def answer (s : Option Session) (op : Op) : Option Answer := (attempt M s op).map Prod.fst

end Operations

variable {M : Medium} {s s' : Session} {op : Op} {a : Answer} {files : List PageMap}

theorem next_eq_some {o : Option Session} :
    next M o op = some s' ↔ ∃ s a, o = some s ∧ s.exec M op = .ok (a, s') := by
  rw [next, attempt, Option.map_eq_some_iff]
  constructor
  · rintro ⟨⟨a, s''⟩, hb, rfl⟩
    obtain ⟨s, hs, he⟩ := Option.bind_eq_some_iff.mp hb
    refine ⟨s, a, hs, ?_⟩
    cases h : s.exec M op with
    | error e => simp [h, Except.toOption] at he
    | ok r => simpa [h, Except.toOption] using he
  · rintro ⟨s, a, rfl, he⟩
    exact ⟨(a, s'), by simp [he, Except.toOption], rfl⟩

theorem next_commit : next M (some s) .commit =
    some ⟨(s.pager.commit M).2, s.commits ++ [((s.pager.commit M).1, s.pager.pageCount)]⟩ := rfl

theorem next_writePage {n : Word 32} {data : Bytes} {p : Pager}
    (hp : s.pager.writePage n.val data = .ok p) :
    next M (some s) (.writePage n data) = some { s with pager := p } := by
  refine next_eq_some.mpr ⟨s, .done, rfl, ?_⟩
  rw [exec, hp]
  rfl

variable (M) in
def Faithful (s : Option Session) : Prop := ∀ t ∈ s, t.pager.store.Faithful M
deriving Decidable

variable (M) in
/-- The store is faithful, and nothing in it has the content id zero. -/
def Trusted (s : Option Session) : Prop :=
  ∀ t ∈ s, t.pager.store.Faithful M ∧ t.pager.store.Nonzero M
deriving Decidable

/-- What is committed is empty, or has a page. -/
def CommitsIndexed (s : Option Session) (op : Op) : Prop := ∀ t ∈ s, op = .commit → t.pager.Indexed
deriving Decidable

/-! ## What is kept -/

variable (M) in
/-- A commit of a file is kept: it returned the file's root and size, and the file's objects are
stored. -/
structure Kept (store : ObjectStore) (c : B32 × ℕ) (m : PageMap) : Prop where
  root : c.1 = m.root M
  count : c.2 = m.pageCount
  bounded : m.Bounded
  stored : m.StoredIn M store

theorem Kept.mono {store store' : ObjectStore} {c : B32 × ℕ} {m : PageMap} (h : Kept M store c m)
    (hsub : store.objects ⊆ store'.objects) : Kept M store' c m :=
  ⟨h.root, h.count, h.bounded, h.stored.mono hsub⟩

variable (M) in
/-- **The invariant of a session**: the open file is coherent, and the commits are kept. -/
structure Keeps (s : Session) (files : List PageMap) : Prop where
  coherent : s.pager.Coherent M
  commits : List.Forall₂ (Kept M s.pager.store) s.commits files

variable (M) in
/-- The files that were committed, after one more operation. -/
def kept (s : Session) (files : List PageMap) : Op → List PageMap
  | .commit => files ++ [s.pager.file M]
  | _ => files

theorem keeps_create (store : ObjectStore) : (create store).Keeps M [] :=
  ⟨coherent_create store, .nil⟩

theorem Keeps.of_pager (h : s.Keeps M files) {pager : Pager} (hp : pager.Coherent M)
    (hg : s.pager.store.objects ⊆ pager.store.objects) : Keeps M { s with pager := pager } files :=
  ⟨hp, h.commits.imp fun _ _ hc => hc.mono hg⟩

theorem Keeps.kept_of_getElem? (h : s.Keeps M files) {k : ℕ} {c : B32 × ℕ}
    (hc : s.commits[k]? = some c) :
    ∃ m, files[k]? = some m ∧ Kept M s.pager.store c m := by
  obtain ⟨hk, rfl⟩ := List.getElem?_eq_some_iff.mp hc
  have hk' : k < files.length := h.commits.length_eq ▸ hk
  exact ⟨files[k], getElem?_eq_getElem hk', h.commits.get hk hk'⟩

theorem Keeps.openRoot (h : s.Keeps M files) (hf : s.pager.store.Faithful M)
    (hz : (∀ m ∈ files, m.Indexed) ∨ s.pager.store.Nonzero M) {k : ℕ} {c : B32 × ℕ}
    (hc : s.commits[k]? = some c) :
    ∃ m, files[k]? = some m ∧ Kept M s.pager.store c m ∧
      ((∃ p, openRoot M s.pager.store c.1 = .ok p ∧ p.Coherent M ∧ p.file M = m
        ∧ p.store = s.pager.store) ∨ ¬ m.Indexed ∧ openRoot M s.pager.store c.1
          = .error (.corruptIndex (.missingNode 0))) := by
  obtain ⟨m, hm, hk⟩ := h.kept_of_getElem? hc
  refine ⟨m, hm, hk, ?_⟩
  rw [hk.root]
  by_cases hi : m.Indexed
  · exact .inl (openRoot_spec hk.bounded hi hk.stored hf)
  · rcases hz with hall | hz
    · exact absurd (hall m (mem_of_getElem? hm)) hi
    · exact .inr ⟨hi, openRoot_of_not_indexed hk.bounded hi hk.stored hf hz⟩

theorem store_exec (he : s.exec M op = .ok (a, s')) (hop : op ≠ .commit) :
    s'.pager.store = s.pager.store := by
  cases op with
  | writeAt buf offset =>
    obtain ⟨pager, hp, heq⟩ := Except.bind_eq_ok.mp he
    cases heq
    exact store_writeAt hp
  | writePage n data =>
    obtain ⟨pager, hp, heq⟩ := Except.bind_eq_ok.mp he
    cases heq
    exact store_writePage hp
  | readAt len offset =>
    obtain ⟨data, -, heq⟩ := Except.bind_eq_ok.mp he
    cases heq
    rfl
  | size =>
    cases he
    rfl
  | setPageCount pages =>
    cases he
    rfl
  | setWrappedDek wrapped =>
    cases he
    rfl
  | commit => exact absurd rfl hop
  | reopen k =>
    rw [exec] at he
    split at he
    · cases he
      rfl
    · split at he
      · cases he
        exact store_openRoot ‹_›
      · cases he
        rfl

theorem Keeps.exec (h : s.Keeps M files) (he : s.exec M op = .ok (a, s'))
    (hf : s'.pager.store.Faithful M) (hz : (∀ m ∈ files, m.Indexed) ∨ s'.pager.store.Nonzero M) :
    s'.Keeps M (s.kept M files op) := by
  by_cases hop : op = .commit
  · subst hop
    cases he
    have hc := h.coherent.commit hf
    refine ⟨hc.coherent, rel_append ((h.of_pager hc.coherent hc.grows).commits) (.cons ?_ .nil)⟩
    exact ⟨hc.root, rfl, h.coherent.bounded_file, hc.stored⟩
  · have hs := store_exec he hop
    rw [hs] at hf hz
    have hg : ∀ {pager : Pager}, pager.store = s.pager.store →
        s.pager.store.objects ⊆ pager.store.objects := fun hp => hp ▸ List.Subset.refl _
    cases op with
    | writeAt buf offset =>
      obtain ⟨pager, hp, heq⟩ := Except.bind_eq_ok.mp he
      cases heq
      exact h.of_pager (h.coherent.writeAt hp) (hg hs)
    | writePage n data =>
      obtain ⟨pager, hp, heq⟩ := Except.bind_eq_ok.mp he
      cases heq
      exact h.of_pager (h.coherent.writePage hp) (hg hs)
    | readAt len offset =>
      obtain ⟨data, -, heq⟩ := Except.bind_eq_ok.mp he
      cases heq
      exact h
    | size =>
      cases he
      exact h
    | setPageCount pages =>
      cases he
      exact h.of_pager (h.coherent.setPageCount pages.isLt) (hg hs)
    | setWrappedDek wrapped =>
      cases he
      exact h.of_pager (h.coherent.setWrappedDek wrapped) (hg hs)
    | commit => exact absurd rfl hop
    | reopen k =>
      rw [Session.exec] at he
      split at he
      · cases he
        exact h
      · rename_i root count hk
        obtain ⟨m, -, -, ⟨p, ho, hp, -, hps⟩ | ⟨-, ho⟩⟩ := h.openRoot hf hz hk
        · rw [ho] at he
          cases he
          exact h.of_pager hp (hg hps)
        · rw [ho] at he
          cases he
          exact h

theorem Keeps.indexed_kept (h : s.Keeps M files) (hf : s.pager.store.Faithful M)
    (hin : ∀ m ∈ files, m.Indexed) (hc : CommitsIndexed (some s) op) :
    ∀ m ∈ s.kept M files op, m.Indexed := by
  cases op with
  | commit =>
    intro m hm
    rcases mem_append.mp hm with hm | hm
    · exact hin m hm
    · rw [mem_singleton.mp hm]
      exact (h.coherent.indexed_file hf).mpr (hc s rfl rfl)
  | _ => exact hin

theorem exists_keeps_run {store : ObjectStore} {ops : List Op}
    (ht : EachState (next M) (some (create store)) (Trusted M) ops)
    (hs : run (next M) (some (create store)) ops = some s) : ∃ files, s.Keeps M files := by
  have hinv : ∀ t ∈ run (next M) (some (create store)) ops, ∃ files, t.Keeps M files := by
    refine invariant (I := fun o => ∀ t ∈ o, ∃ files, Keeps M t files)
      (C := fun o op => Trusted M (next M o op)) ?_ ?_ ht.eachStep
    · rintro t ⟨⟩
      exact ⟨[], keeps_create store⟩
    · intro o op hI htr t' ht'
      obtain ⟨t, a, rfl, he⟩ := next_eq_some.mp ht'
      obtain ⟨files, hk⟩ := hI t rfl
      exact ⟨_, hk.exec he (htr t' ht').1 (.inr (htr t' ht').2)⟩
  exact hinv s hs

/-! ## A file that was grown and never written -/

def grownFile : Pager := (Pager.create ⟨[]⟩).setPageCount 1

theorem coherent_grownFile : grownFile.Coherent M :=
  (coherent_create ⟨[]⟩).setPageCount (by norm_num)

theorem run_grownFile : run (next M) (some (create ⟨[]⟩)) [.setPageCount 1, .commit] =
    some ⟨(grownFile.commit M).2, [((grownFile.commit M).1, 1)]⟩ := rfl

end Session

end Zephcraft.Sql
