import Zephcraft.Sql.Flat
import Zephcraft.Sql.Session

/-!
# Sql/Refinement — a database is an array of bytes with snapshots

The specification of the whole component has no pages, no tree and no objects: an array of bytes,
and the arrays that were committed. A commit appends a copy, opening an earlier root takes one back.
-/

namespace Zephcraft.Sql

open List Pager Run

/-- An array of bytes, and the arrays that were committed, the oldest first. -/
structure FlatSession where
  file : Flat
  commits : List Flat

namespace FlatSession

def empty : FlatSession := ⟨.empty, []⟩

def exec (s : FlatSession) : Op → Answer × FlatSession
  | .writeAt buf offset => (.done, { s with file := s.file.writeAt buf offset.val })
  | .writePage n data => (.done, { s with file := s.file.writeAt (pad data) (n.val * pageSize) })
  | .readAt len offset => (.bytes (s.file.readAt len offset.val), s)
  | .size => (.size (s.file.pageCount * pageSize), s)
  | .setPageCount pages => (.done, { s with file := s.file.setPageCount pages.val })
  | .setWrappedDek _ => (.done, s)
  | .commit => (.done, { s with commits := s.commits ++ [s.file] })
  | .reopen k =>
    match s.commits[k]? with
    | none => (.done, s)
    | some file => (.done, { s with file := file })

def next (s : FlatSession) (op : Op) : FlatSession := (s.exec op).2

def answer (s : FlatSession) (op : Op) : Option Answer := some (s.exec op).1

end FlatSession

/-- The pages an operation touches are below `u32::MAX`. -/
def Op.Small : Op → Prop
  | .writeAt buf offset => ∀ i < buf.length, (offset.val + i) / pageSize < 2 ^ 32 - 1
  | .readAt len offset => ∀ i < len, (offset.val + i) / pageSize < 2 ^ 32 - 1
  | .writePage n _ => n.val < 2 ^ 32 - 1
  | _ => True

instance : ∀ op : Op, Decidable op.Small
  | .writeAt buf offset => inferInstanceAs (Decidable (∀ i < buf.length, (offset.val + i) / pageSize
    < 2 ^ 32 - 1))
  | .readAt len offset =>
    inferInstanceAs (Decidable (∀ i < len, (offset.val + i) / pageSize < 2 ^ 32 - 1))
  | .writePage n _ => inferInstanceAs (Decidable (n.val < 2 ^ 32 - 1))
  | .size | .setPageCount _ | .setWrappedDek _ | .commit | .reopen _ => isTrue trivial

namespace Session

variable {M : Medium} {s : Session} {t : FlatSession} {op : Op}

variable (M) in
/-- A session stands for an array: its file is the array, and the files that are kept are the
copies. -/
structure Refines (s : Session) (t : FlatSession) : Prop where
  faithful : s.pager.store.Faithful M
  file : (s.pager.file M).flat = t.file
  kept : ∃ files, s.Keeps M files ∧ (∀ m ∈ files, m.Indexed) ∧ files.map PageMap.flat = t.commits

theorem Refines.coherent (h : s.Refines M t) : s.pager.Coherent M := by
  obtain ⟨files, hk, -⟩ := h.kept
  exact hk.coherent

theorem Refines.reopen (h : s.Refines M t) (k : ℕ) :
    (s.commits[k]? = none ∧ t.commits[k]? = none) ∨
      ∃ c p f, s.commits[k]? = some c ∧ openRoot M s.pager.store c.1 = .ok p ∧ p.Coherent M
        ∧ p.store = s.pager.store ∧ t.commits[k]? = some f ∧ (p.file M).flat = f := by
  obtain ⟨files, hke, hin, hf⟩ := h.kept
  cases hc : s.commits[k]? with
  | none =>
    refine .inl ⟨rfl, ?_⟩
    rw [← hf, List.getElem?_eq_none_iff, length_map, ← hke.commits.length_eq]
    exact List.getElem?_eq_none_iff.mp hc
  | some c =>
    obtain ⟨m, hm, hk⟩ := hke.kept_of_getElem? hc
    obtain ⟨p, ho, hp, hfi, hs⟩ := openRoot_spec hk.bounded
      (hin m (mem_of_getElem? hm)) hk.stored h.faithful
    refine .inr ⟨c, p, m.flat, rfl, by rw [hk.root, ho], hp, hs, ?_, by rw [hfi]⟩
    rw [← hf, getElem?_map, hm, Option.map_some]

theorem Refines.exec (h : s.Refines M t) (hsm : op.Small) (hf : Faithful M (next M (some s) op)) :
    ∃ s', s.exec M op = .ok ((t.exec op).1, s') ∧ (s'.pager.file M).flat = (t.exec op).2.file := by
  cases op with
  | writeAt buf offset =>
    obtain ⟨p', hp', hfl⟩ := h.coherent.writeLoop h.faithful le_rfl hsm
    refine ⟨{ s with pager := p' }, ?_, by rw [hfl, h.file]; rfl⟩
    rw [Session.exec, writeAt, hp']
    rfl
  | writePage n data =>
    have hlt : n.val < 2 ^ 32 - 1 := hsm
    obtain ⟨p', hp⟩ : ∃ p', s.pager.writePage n.val data = .ok p' :=
      ⟨_, writePage_eq_ok.mpr ⟨by omega, rfl⟩⟩
    refine ⟨{ s with pager := p' }, ?_, by rw [flat_writePage hp, h.file]; rfl⟩
    rw [Session.exec, hp]
    rfl
  | readAt len offset =>
    have hpos : ∀ i < len, (offset.val + i) / pageSize < 2 ^ 32 := fun i hi => by
      have := hsm i hi
      omega
    refine ⟨s, ?_, h.file⟩
    rw [Session.exec, readAt, h.coherent.readLoop h.faithful le_rfl hpos, h.file]
    rfl
  | size =>
    have hc : s.pager.pageCount = t.file.pageCount := congrArg Flat.pageCount h.file
    refine ⟨s, ?_, h.file⟩
    rw [Session.exec, hc]
    rfl
  | setPageCount pages =>
    refine ⟨_, rfl, ?_⟩
    rw [flat_setPageCount, h.file]
    rfl
  | setWrappedDek wrapped => exact ⟨_, rfl, h.file⟩
  | commit =>
    refine ⟨_, rfl, ?_⟩
    rw [next_commit] at hf
    exact (congrArg PageMap.flat (h.coherent.commit (hf _ rfl)).file).trans h.file
  | reopen k =>
    rw [Session.exec, FlatSession.exec]
    rcases h.reopen k with ⟨hs, ht⟩ | ⟨c, p, f, hs, ho, -, -, ht, hfl⟩
    · rw [hs, ht]
      exact ⟨s, rfl, h.file⟩
    · rw [hs, ht]
      refine ⟨{ s with pager := p }, ?_, hfl⟩
      dsimp only
      rw [ho]
      rfl

theorem Refines.step (h : s.Refines M t) (hs : op.Small) (hc : CommitsIndexed (some s) op)
    (hf : Faithful M (next M (some s) op)) :
    ∃ s', attempt M (some s) op = some ((t.exec op).1, s') ∧ s'.Refines M (t.exec op).2 := by
  obtain ⟨s', he, hfl⟩ := h.exec hs hf
  have hn : next M (some s) op = some s' := next_eq_some.mpr ⟨s, _, rfl, he⟩
  have hf' := hf s' hn
  obtain ⟨files, hk, hin, hco⟩ := h.kept
  refine ⟨s', ?_, hf', hfl, s.kept M files op, hk.exec he hf' (.inl hin), ?_, ?_⟩
  · rw [attempt, Option.bind_some, he]
    rfl
  · exact hk.indexed_kept h.faithful hin hc
  · cases op with
    | commit =>
      rw [Session.kept, map_append, hco, map_singleton, h.file]
      rfl
    | reopen k =>
      rw [FlatSession.exec]
      split <;> exact hco
    | _ => exact hco

theorem refines_create {store : ObjectStore} (hf : store.Faithful M) :
    (create store).Refines M .empty := by
  refine ⟨hf, Flat.ext (funext fun i => ?_) rfl, [], keeps_create store, by simp, rfl⟩
  have hc : (Pager.create store).content M (i / pageSize) = none :=
    content_of_none (by simp [Pager.create]) (by simp [Pager.create])
  have hmod : i % pageSize < pageSize := Nat.mod_lt i (by norm_num [pageSize])
  change ((pad (((Pager.create store).content M (i / pageSize)).getD []))[i % pageSize]?).getD 0 = 0
  rw [hc]
  simp [pad, hmod]

theorem Refines.reads (h : s.Refines M t) {k : ℕ} {c : B32 × ℕ} (hc : s.commits[k]? = some c) :
    ∃ p f, openRoot M s.pager.store c.1 = .ok p ∧ t.commits[k]? = some f
      ∧ ∀ (len : ℕ) (offset : U64), (Op.readAt len offset).Small →
        p.readAt M len offset = .ok (f.readAt len offset.val) := by
  rcases h.reopen k with ⟨hs, -⟩ | ⟨c', p, f, hs, ho, hp, hst, ht, hf⟩
  · simp [hs] at hc
  · obtain rfl : c' = c := Option.some.inj (hs.symm.trans hc)
    refine ⟨p, f, ho, ht, fun len offset hsm => ?_⟩
    rw [readAt, hp.readLoop (hst ▸ h.faithful) le_rfl fun i hi => (hsm i hi).trans (by norm_num),
      hf]

/-- **The pager refines an array of bytes.** Over a faithful store, every operation of a run within
the bounds is answered as the array answers it. At the end of it every root that was returned opens,
and the opened file reads as the array that was committed there. -/
theorem pager_refines_flat (M : Medium) (store : ObjectStore) (ops : List Op)
    (hstore : EachState (next M) (some (create store)) (Faithful M) ops)
    (hsmall : ∀ op ∈ ops, op.Small)
    (hindexed : EachStep (next M) (some (create store)) CommitsIndexed ops) :
    trace (next M) (answer M) (some (create store)) ops
        = trace FlatSession.next FlatSession.answer .empty ops
      ∧ ∃ s, run (next M) (some (create store)) ops = some s
        ∧ ∀ (k : ℕ) (c : B32 × ℕ), s.commits[k]? = some c → ∃ p f,
          openRoot M s.pager.store c.1 = .ok p
            ∧ (run FlatSession.next .empty ops).commits[k]? = some f
            ∧ ∀ (len : ℕ) (offset : U64), (Op.readAt len offset).Small →
              p.readAt M len offset = .ok (f.readAt len offset.val) := by
  have hC : EachStep (next M) (some (create store))
      (fun s op => op.Small ∧ CommitsIndexed s op ∧ Faithful M (next M s op)) ops :=
        fun pre op hp =>
    ⟨hsmall op (hp.subset (by simp)), hindexed pre op hp, hstore.eachStep pre op hp⟩
  have hstep : ∀ (o : Option Session) (t : FlatSession) (op : Op), (∃ s, o = some s ∧ s.Refines M t)
      → op.Small ∧ CommitsIndexed o op ∧ Faithful M (next M o op) →
      ∃ s', attempt M o op = some ((t.exec op).1, s') ∧ s'.Refines M (t.exec op).2 := by
    rintro _ t op ⟨s, rfl, h⟩ ⟨hs, hc, hf⟩
    exact h.step hs hc hf
  have h₀ : ∃ s, some (create store) = some s ∧ s.Refines M .empty :=
    ⟨_, rfl, refines_create (hstore [] nil_prefix _ rfl)⟩
  have hnext : ∀ (o : Option Session) (t : FlatSession) (op : Op), (∃ s, o = some s ∧ s.Refines M t)
      → op.Small ∧ CommitsIndexed o op ∧ Faithful M (next M o op) →
      ∃ s, next M o op = some s ∧ s.Refines M (t.next op) := by
    intro o t op hR hop
    obtain ⟨s', hattempt, h'⟩ := hstep o t op hR hop
    exact ⟨s', by rw [next, hattempt]; rfl, h'⟩
  refine ⟨trace_eq_of_simulation h₀ (fun o t op hR hop => ?_) hnext hC, ?_⟩
  · obtain ⟨s', hattempt, -⟩ := hstep o t op hR hop
    rw [answer, hattempt]
    rfl
  · obtain ⟨s, hs, h⟩ := run_of_simulation h₀ hnext hC
    exact ⟨s, hs, fun k c hc => h.reads hc⟩

theorem pager_refines_flat_snapshot :
    trace (next publicMedium) (answer publicMedium) (some (create ⟨[]⟩))
        [.writePage 0 [7, 8], .commit, .writeAt [9] 1, .readAt 3 0, .reopen 0, .readAt 3 0]
      = [some .done, some .done, some .done, some (.bytes [7, 9, 0]), some .done,
        some (.bytes [7, 8, 0])] := by
  rw [(pager_refines_flat publicMedium ⟨[]⟩ _ (by decide +kernel) (by decide +kernel)
    (by decide +kernel)).1]
  decide +kernel

end Session

end Zephcraft.Sql
