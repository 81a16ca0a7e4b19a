import Zephcraft.Swim.Node

/-!
# Swim/Records — what a step does to the records

What a node does by itself is quiet: it does not count up, and no record gets an incarnation that
was not there (`quiet_act`).
-/

namespace Zephcraft.Swim

open Std

variable {Addr : Type} {A : AddrText Addr}

namespace Membership

/-! ## What changes in the records -/

/-- From `s` to `s'` the node has not counted up, and no record has an incarnation that was not
there: it is the one before, that of a member heard of for the first time, or the node's own. -/
structure Quiet (s s' : Membership Addr) : Prop where
  me : s'.me = s.me
  selfIncarnation : s'.selfIncarnation = s.selfIncarnation
  incarnation : ∀ id m', s'.members[id]? = some m'
    → (∃ m, s.members[id]? = some m ∧ m'.incarnation = m.incarnation)
    ∨ m'.incarnation = 0 ∨ (id = s.me ∧ m'.incarnation = s.selfIncarnation)

variable {s s' s'' : Membership Addr}

theorem Quiet.of_members (hme : s'.me = s.me) (hs : s'.selfIncarnation = s.selfIncarnation)
    (hm : s'.members = s.members) : Quiet s s' :=
  ⟨hme, hs, fun _ m' h => .inl ⟨m', hm ▸ h, rfl⟩⟩

theorem Quiet.trans (h : Quiet s s') (h' : Quiet s' s'') : Quiet s s'' where
  me := h'.me.trans h.me
  selfIncarnation := h'.selfIncarnation.trans h.selfIncarnation
  incarnation id m'' hm'' := by
    rcases h'.incarnation id m'' hm'' with ⟨m', hm', heq'⟩ | hz | ⟨hid, hs⟩
    · rw [heq']
      exact h.incarnation id m' hm'
    · exact .inr (.inl hz)
    · exact .inr (.inr ⟨hid.trans h.me, hs.trans h.selfIncarnation⟩)

variable {id : B32} {m' : Member Addr} {e : MemberEntry} {p : Membership Addr × Bool}

theorem Quiet.of_insert (hme : s'.me = s.me) (hs : s'.selfIncarnation = s.selfIncarnation)
    (hm : s'.members = s.members.insert id m')
    (hm' : (∃ m, s.members[id]? = some m ∧ m'.incarnation = m.incarnation) ∨ m'.incarnation = 0
      ∨ (id = s.me ∧ m'.incarnation = s.selfIncarnation)) : Quiet s s' := by
  refine ⟨hme, hs, fun id' n hn => ?_⟩
  rw [hm, BTreeMap.getElem?_insert] at hn
  split at hn
  · next hid =>
    subst hid
    rwa [← Option.some.inj hn]
  · exact .inl ⟨n, hn, rfl⟩

theorem quiet_refreshSelf (s : Membership Addr) (now : U64) : Quiet s (s.refreshSelf now) :=
  .of_insert rfl rfl rfl (.inr (.inr ⟨rfl, rfl⟩))

theorem quiet_noteHeard (s : Membership Addr) (id : B32) (now : U64) :
    Quiet s (s.noteHeard id now) := by
  rw [noteHeard]
  split
  · exact .of_members rfl rfl rfl
  · split
    · next m hm => exact .of_insert rfl rfl rfl (.inl ⟨m, hm, rfl⟩)
    · split
      · exact .of_insert rfl rfl rfl (.inr (.inl rfl))
      · exact .of_members rfl rfl rfl

theorem quiet_probed (s : Membership Addr) (id : B32) (addr : Addr) (now : U64) :
    Quiet s (s.probed id addr now) := by
  rw [probed]
  split
  · next m hm =>
    refine .of_insert rfl rfl rfl (.inl ⟨m, hm, ?_⟩)
    split <;> rfl
  · exact .of_insert rfl rfl rfl (.inr (.inl rfl))

theorem quiet_suspect (s : Membership Addr) (id : B32) (now : U64) :
    Quiet s (s.suspect id now) := by
  rw [suspect]
  split
  · next m hm =>
    split
    · exact .of_insert rfl rfl rfl (.inl ⟨m, hm, rfl⟩)
    · exact .of_members rfl rfl rfl
  · exact .of_members rfl rfl rfl

theorem quiet_markDead (s : Membership Addr) (id : B32) (now : U64) :
    Quiet s (s.markDead id now) := by
  rw [markDead]
  split
  · next m hm => exact .of_insert rfl rfl rfl (.inl ⟨m, hm, rfl⟩)
  · exact .of_members rfl rfl rfl

theorem quiet_promoteSuspects (s : Membership Addr) (now : U64) :
    Quiet s (s.promoteSuspects now) := by
  rw [promoteSuspects]
  generalize s.members.toList.filter _ = expired
  induction expired generalizing s with
  | nil => exact .of_members rfl rfl rfl
  | cons e expired ih => exact (quiet_markDead s e.1 now).trans (ih _)

theorem quiet_pruneMembers (s : Membership Addr) (now : U64) : Quiet s (s.pruneMembers now) := by
  refine ⟨rfl, rfl, fun id m' h => .inl ⟨m', ?_, rfl⟩⟩
  rw [pruneMembers] at h
  dsimp only at h
  rw [ExtTreeMap.getElem?_filter'] at h
  exact (Option.filter_eq_some_iff.mp h).1

theorem quiet_act (s : Membership Addr) (a : Local Addr) : Quiet s (s.act A a) := by
  cases a with
  | refreshSelf now => exact quiet_refreshSelf s now
  | noteHeard id now => exact quiet_noteHeard s id now
  | probed id addr now => exact quiet_probed s id addr now
  | suspect id now => exact quiet_suspect s id now
  | promoteSuspects now => exact quiet_promoteSuspects s now
  | pruneMembers now => exact quiet_pruneMembers s now
  | epidemicPush now => exact (quiet_refreshSelf s now).trans (.of_members rfl rfl rfl)
  | link id addr => cases addr <;> exact .of_members rfl rfl rfl
  | rebind addr => exact .of_members rfl rfl rfl

/-! ## What a set of entries does -/

/-- The incarnations at which the node is accused. -/
def charges (me : B32) (entries : List MemberEntry) : List U64 :=
  (entries.filter (accuses me)).map MemberEntry.incarnation

theorem accuses_eq_true {me : B32} :
    accuses me e = true ↔ e.id = me ∧ MemberState.fromU8 e.state ≠ .alive := by
  simp [accuses]

theorem mergeEntry_of_accuses {now : U64} (h : accuses p.1.me e = true) :
    mergeEntry A now p e = ({ p.1 with selfIncarnation := bump p.1.selfIncarnation e.incarnation },
      true) := by
  obtain ⟨hid, hs⟩ := accuses_eq_true.mp h
  rw [mergeEntry, if_pos hid, if_pos hs]

theorem mergeEntry_of_not_accuses (now : U64) (h : accuses p.1.me e = false) :
    ∃ dirty, mergeEntry A now p e = ({ p.1 with
      members := if e.id = p.1.me then p.1.members else (mergeOne A p.1.members e now).2
      dirty }, p.2) := by
  rw [mergeEntry]
  by_cases hid : e.id = p.1.me
  · have hs : ¬ MemberState.fromU8 e.state ≠ .alive := fun hs => by
      rw [accuses_eq_true.mpr ⟨hid, hs⟩] at h
      cases h
    rw [if_pos hid, if_pos hid, if_neg hs]
    exact ⟨p.1.dirty, rfl⟩
  · rw [if_neg hid, if_neg hid]
    rcases mergeOne A p.1.members e now with ⟨won, members⟩
    cases won <;> exact ⟨_, rfl⟩

/-- **What the entries leave of the node itself**: it has counted up for each accusation. -/
theorem foldl_mergeEntry (now : U64) (entries : List MemberEntry) (p : Membership Addr × Bool) :
    let q := entries.foldl (mergeEntry A now) p
    q.1.me = p.1.me ∧ q.1.addr = p.1.addr
      ∧ q.1.selfIncarnation = (charges p.1.me entries).foldl bump p.1.selfIncarnation
      ∧ q.2 = (p.2 || entries.any (accuses p.1.me)) := by
  induction entries generalizing p with
  | nil => simp [charges]
  | cons e entries ih =>
    rw [List.foldl_cons]
    obtain ⟨hme, ha, hs, hr⟩ := ih (mergeEntry A now p e)
    by_cases he : accuses p.1.me e = true
    · rw [mergeEntry_of_accuses he] at hme ha hs hr ⊢
      refine ⟨hme, ha, hs.trans ?_, hr.trans ?_⟩
      · simp [charges, he]
      · simp [he]
    · obtain ⟨dirty, heq⟩ :=
        mergeEntry_of_not_accuses (A := A) now (Bool.eq_false_of_not_eq_true he)
      rw [heq] at hme ha hs hr ⊢
      refine ⟨hme, ha, hs.trans ?_, hr.trans ?_⟩
      · simp [charges, he]
      · simp [he]

theorem mergeMembers_me (s : Membership Addr) (entries : List MemberEntry) (now : U64) :
    (s.mergeMembers A entries now).me = s.me := by
  have hme := (foldl_mergeEntry (A := A) now entries (s, false)).1
  rw [mergeMembers]
  dsimp only
  split
  · exact hme
  · exact hme

end Membership

end Zephcraft.Swim
