import Zephcraft.Sql.Session

/-!
# Sql/Reopen — which committed roots open again

The depth of the tree follows the size of the file, and the tree is built from the pages there are.
A file that was grown without a write, or truncated to pages that were never written, has a size and
no tree: its commit returns a root, and that root does not open, ever.
-/

namespace Zephcraft.Sql.Session

open Run

variable {M : Medium}

variable (M) in
/-- Every root that was returned opens, and yields the size that was committed. -/
def Reopens (s : Option Session) : Prop :=
  ∀ t ∈ s, ∀ c ∈ t.commits, ∃ p, Pager.openRoot M t.pager.store c.1 = .ok p ∧ p.pageCount = c.2

variable (M) in
/-- The store is trusted, and every commit that is kept is of a file with a page, or of an empty
one. -/
structure Reopenable (s : Option Session) : Prop where
  trusted : Trusted M s
  kept : ∀ t ∈ s, ∃ files, t.Keeps M files ∧ ∀ m ∈ files, m.Indexed

theorem Reopenable.reopens {s : Option Session} (h : Reopenable M s) : Reopens M s := by
  intro t ht c hc
  obtain ⟨files, hkee, hin⟩ := h.kept t ht
  obtain ⟨k, hk⟩ := List.mem_iff_getElem?.mp hc
  obtain ⟨m, hm, hke⟩ := hkee.kept_of_getElem? hk
  have hi := hin m (List.mem_of_getElem? hm)
  obtain ⟨p, ho, -, hf, -⟩ := Pager.openRoot_spec hke.bounded hi hke.stored (h.trusted t ht).1
  refine ⟨p, by rw [hke.root, ho], ?_⟩
  rw [hke.count, ← hf]
  rfl

theorem Reopenable.step {s : Option Session} {op : Op} (h : Reopenable M s)
    (ht : Trusted M (next M s op)) (hc : CommitsIndexed s op) : Reopenable M (next M s op) := by
  refine ⟨ht, fun t' ht' => ?_⟩
  obtain ⟨t, a, rfl, he⟩ := next_eq_some.mp ht'
  obtain ⟨files, hk, hin⟩ := h.kept t rfl
  exact ⟨_, hk.exec he (ht t' ht').1 (.inl hin), hk.indexed_kept (h.trusted t rfl).1 hin hc⟩

theorem Reopenable.of_reopens_next {s : Option Session} {op : Op} (h : Reopenable M s)
    (ht : Trusted M (next M s op)) (hr : Reopens M (next M s op)) : CommitsIndexed s op := by
  rintro t rfl rfl
  by_contra hi
  obtain ⟨files, hk, -⟩ := h.kept t rfl
  rw [next_commit] at ht hr
  obtain ⟨hf, hz⟩ := ht _ rfl
  obtain ⟨p, ho, -⟩ := hr _ rfl ((t.pager.commit M).1, t.pager.pageCount) (by simp)
  rw [hk.coherent.openRoot_commit hi hf hz] at ho
  simp at ho

/-- **Every root opens again, exactly when every commit was of a file that is empty or has a
page.** -/
theorem every_root_reopens_iff (M : Medium) (store : ObjectStore) (ops : List Op)
    (htrusted : EachState (next M) (some (create store)) (Trusted M) ops) :
    EachState (next M) (some (create store)) (Reopens M) ops
      ↔ EachStep (next M) (some (create store)) CommitsIndexed ops := by
  have h₀ : Reopenable M (some (create store)) := by
    refine ⟨htrusted [] (List.nil_prefix), ?_⟩
    rintro t ⟨⟩
    exact ⟨[], keeps_create store, by simp⟩
  exact eachState_iff_eachStep_of htrusted h₀ (fun _ h => h.reopens) (fun _ _ h => h.step)
    fun _ _ h => h.of_reopens_next

theorem every_root_reopens_iff_emptied :
    EachState (next privateMedium) (some (create ⟨[]⟩)) (Reopens privateMedium)
      [.writePage 3 [7], .commit, .setPageCount 0, .commit, .writePage 300 [9], .commit] :=
  (every_root_reopens_iff privateMedium ⟨[]⟩ _ (by decide +kernel)).mpr (by decide +kernel)

/-- The root that its commit returned does not open. -/
theorem grown_file_not_reopened :
    EachState (next publicMedium) (some (create ⟨[]⟩)) (Trusted publicMedium) [.setPageCount 1,
      .commit] ∧ ∃ s root, run (next publicMedium) (some (create ⟨[]⟩)) [.setPageCount 1,
        .commit] = some s ∧ s.commits = [(root, 1)]
        ∧ Pager.openRoot publicMedium s.pager.store root
          = .error (.corruptIndex (.missingNode 0)) := by
  have htrusted : EachState (next publicMedium) (some (create ⟨[]⟩)) (Trusted publicMedium)
      [.setPageCount 1, .commit] := by decide +kernel
  obtain ⟨hf, hz⟩ := htrusted _ List.prefix_rfl _ run_grownFile
  exact ⟨htrusted, _, _, run_grownFile, rfl, coherent_grownFile.openRoot_commit (by decide) hf hz⟩

end Zephcraft.Sql.Session
