import Zephcraft.Sql.Session

/-!
# Sql/Content — a root names its content

The nodes of a commit are made again only above the pages that changed, and what they are made of
was cached by earlier commits, or loaded from an earlier root.
-/

namespace Zephcraft.Sql.Session

open List Pager Run

variable {M : Medium} {store : ObjectStore} {ops : List Op} {s : Session}

theorem trusted_commit
    (ht : EachState (next M) (some (create store)) (Trusted M) (ops ++ [.commit]))
    (hs : run (next M) (some (create store)) ops = some s) :
    s.pager.Coherent M ∧ (s.pager.commit M).2.store.Faithful M
      ∧ (s.pager.commit M).2.store.Nonzero M := by
  obtain ⟨hst, hl⟩ := eachState_concat.mp ht
  obtain ⟨files, hk⟩ := exists_keeps_run hst hs
  rw [run_concat, hs, next_commit] at hl
  exact ⟨hk.coherent, hl _ rfl⟩

/-- **Two histories that end with one content commit to one root**, that of the tree built from the
content; and walking it gives the root, the nodes and the pages, exactly when the file is empty or
has a page. -/
theorem content_determines_root_iff (M : Medium) (store store' : ObjectStore) (ops ops' : List Op)
    (s s' : Session) (ht : EachState (next M) (some (create store)) (Trusted M) (ops ++ [.commit]))
    (ht' : EachState (next M) (some (create store')) (Trusted M) (ops' ++ [.commit]))
    (hs : run (next M) (some (create store)) ops = some s)
    (hs' : run (next M) (some (create store')) ops' = some s')
    (hcontent : s.pager.content M = s'.pager.content M)
    (hcount : s.pager.pageCount = s'.pager.pageCount)
    (hdek : s.pager.wrappedDek = s'.pager.wrappedDek) :
    ((s.pager.commit M).1 = (s'.pager.commit M).1 ∧ (s.pager.commit M).1 = (s.pager.file M).root M
        ∧ ∃ out, reachable M (s.pager.commit M).2.store (s.pager.commit M).1 = .ok out
          ∧ ∀ c, c ∈ out ↔ c ∈ (s.pager.file M).cids M)
      ↔ s.pager.Indexed := by
  obtain ⟨hcoherent, hf, hz⟩ := trusted_commit ht hs
  obtain ⟨hcoherent', hf', -⟩ := trusted_commit ht' hs'
  have hfile : s.pager.file M = s'.pager.file M := PageMap.ext hcontent hcount hdek
  have hroot := (hcoherent.commit hf).root
  have hroot' := (hcoherent'.commit hf').root
  rw [← hcoherent.reachable_commit_iff hf hz]
  exact ⟨fun h => h.2.2, fun h => ⟨by rw [hroot, hroot', hfile], hroot, h⟩⟩

/-- A page is written, committed and written over. -/
def rewritten : List Op := [.writePage 0 [9], .commit, .writePage 0 [7]]

def fresh : Option Session := some (create ⟨[]⟩)

/-- A page that was written over, and one that was written once. -/
theorem content_determines_root_iff_rewritten : ∃ s s' : Session,
    run (next publicMedium) fresh rewritten = some s
      ∧ run (next publicMedium) fresh [.writePage 0 [7]] = some s'
      ∧ (s.pager.commit publicMedium).1 = (s'.pager.commit publicMedium).1
      ∧ ∃ out, reachable publicMedium (s.pager.commit publicMedium).2.store
        (s.pager.commit publicMedium).1
          = .ok out ∧ ∀ c, c ∈ out ↔ c ∈ (s.pager.file publicMedium).cids publicMedium := by
  obtain ⟨p, hp⟩ : ∃ p, (Pager.create ⟨[]⟩).writePage 0 [9] = .ok p := ⟨_, rfl⟩
  obtain ⟨r, hr⟩ : ∃ r, (Pager.create ⟨[]⟩).writePage 0 [7] = .ok r := ⟨_, rfl⟩
  obtain ⟨q, hq⟩ : ∃ q, (p.commit publicMedium).2.writePage 0 [7] = .ok q := ⟨_, rfl⟩
  have hs : run (next publicMedium) fresh rewritten
      = some ⟨q, [((p.commit publicMedium).1, p.pageCount)]⟩ := by
    simp only [fresh, rewritten, run, foldl_cons, foldl_nil]
    rw [next_writePage hp, next_commit, next_writePage hq]
    rfl
  have hs' : run (next publicMedium) fresh [.writePage 0 [7]] = some ⟨r, []⟩ := by
    simp only [fresh, run, foldl_cons, foldl_nil]
    rw [next_writePage hr]
    rfl
  have ht :
      EachState (next publicMedium) fresh (Trusted publicMedium) (rewritten ++ [.commit]) := by
    decide +kernel
  have hmid : run (next publicMedium) fresh [.writePage 0 [9], .commit]
      = some ⟨(p.commit publicMedium).2, [((p.commit publicMedium).1, p.pageCount)]⟩ := by
    simp only [fresh, run, foldl_cons, foldl_nil]
    rw [next_writePage hp, next_commit]
    rfl
  have hcommit : (p.commit publicMedium).2.store.Faithful publicMedium :=
    (ht [.writePage 0 [9], .commit] (by decide) _ hmid).1
  have hindexed : q.Indexed := by
    obtain ⟨-, rfl⟩ := writePage_eq_ok.mp hq
    exact .inr (.inr (by simp))
  have hfile : q.file publicMedium = r.file publicMedium := by
    rw [file_writePage hq, (((coherent_create ⟨[]⟩).writePage hp).commit hcommit).file,
      file_writePage hp, PageMap.put_put, file_writePage hr]
  obtain ⟨hroot, -, hwalk⟩ :=
    (content_determines_root_iff publicMedium ⟨[]⟩ ⟨[]⟩ _ _ _ _ ht (by decide +kernel) hs hs'
    (congrArg PageMap.content hfile) (congrArg PageMap.pageCount hfile)
      (congrArg PageMap.wrappedDek hfile)).mpr hindexed
  exact ⟨_, _, hs, hs', hroot, hwalk⟩

/-- The header of a file that was grown by one page leads nowhere. -/
theorem grown_file_not_walked :
    EachState (next publicMedium) fresh (Trusted publicMedium) ([.setPageCount 1] ++ [.commit])
      ∧ run (next publicMedium) fresh [.setPageCount 1] = some ⟨grownFile, []⟩
      ∧ reachable publicMedium (grownFile.commit publicMedium).2.store
        (grownFile.commit publicMedium).1 = .error (.corruptIndex (.missingNode 0)) := by
  refine ⟨by decide +kernel, rfl, by decide +kernel⟩

end Zephcraft.Sql.Session
