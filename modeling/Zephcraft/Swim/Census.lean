import Zephcraft.Foundations.Blake3
import Zephcraft.Foundations.Blocks
import Zephcraft.Swim.Records

/-!
# Swim/Census — who may be elected, and the digest that is compared

Two nodes compare digests of their records and exchange the records only if the digests differ. The
digest is over who is not dead, at which incarnation.
-/

namespace Zephcraft.Swim

open Std List Option Word Run

variable {Addr : Type} {A : AddrText Addr}

/-- A row of the digest: who, at which incarnation, in which state. -/
def rowCode : FixedWidth (B32 × U64 × Byte) Byte where
  width := 40
  encode row := row.1.toBytes ++ (row.2.1.toLeBytes ++ [row.2.2])
  length_encode row := by simp [B32.toBytes, U64.toLeBytes]
  injective row row' h := by
    obtain ⟨hid, h⟩ := prefixCode_toBytes h
    obtain ⟨hincarnation, hstate⟩ := prefixCode_toLeBytes h
    exact Prod.ext hid (Prod.ext hincarnation (singleton_inj.mp hstate))

namespace Membership

variable (s : Membership Addr)

/-- Who is not dead, in the order of the ids. -/
def digestRows : List (B32 × U64 × Byte) :=
  (s.members.toList.filter fun e => e.2.state ≠ .dead).map fun e =>
    (e.1, e.2.incarnation, e.2.state.toU8)

def digestBytes : Bytes := rowCode.write s.digestRows

def membersDigest : B32 := blake3 s.digestBytes

def Lists (id : B32) : Prop := ∃ m, s.members[id]? = some m ∧ m.state ≠ .dead

/-- …and has heard of it within the retention. -/
def Keeps (now : U64) (id : B32) : Prop :=
  ∃ m, s.members[id]? = some m ∧ m.state ≠ .dead ∧ s.fresh now m = true

theorem lists_iff_mem_digestRows {s : Membership Addr} {id : B32} :
    s.Lists id ↔ id ∈ s.digestRows.map Prod.fst := by
  simp only [Lists, digestRows, List.map_map, List.mem_map, mem_filter, Prod.exists,
    Function.comp_apply, decide_eq_true_eq, ExtTreeMap.mem_toList_iff_getElem?_eq_some]
  constructor
  · rintro ⟨m, hm, hs⟩
    exact ⟨id, m, ⟨hm, hs⟩, rfl⟩
  · rintro ⟨_, m, ⟨hm, hs⟩, rfl⟩
    exact ⟨m, hm, hs⟩

theorem mem_census {s : Membership Addr} {now : U64} {id : B32} :
    id ∈ (s.census now).map Prod.fst ↔ id = s.me ∨ (id ≠ s.me ∧ s.Keeps now id) := by
  simp only [census, map_cons, List.map_map, mem_cons, List.mem_map, mem_filter, Prod.exists,
    Function.comp_apply, Bool.and_eq_true, decide_eq_true_eq,
    ExtTreeMap.mem_toList_iff_getElem?_eq_some, Keeps]
  refine or_congr_right ⟨?_, ?_⟩
  · rintro ⟨_, m, ⟨hm, ⟨hne, hs⟩, hf⟩, rfl⟩
    exact ⟨hne, m, hm, hs, hf⟩
  · rintro ⟨hne, m, hm, hs, hf⟩
    exact ⟨id, m, ⟨hm, ⟨hne, hs⟩, hf⟩, rfl⟩

theorem Keeps.lists {s : Membership Addr} {now : U64} {id : B32} (h : s.Keeps now id) :
    s.Lists id := by
  obtain ⟨m, hm, hs, -⟩ := h
  exact ⟨m, hm, hs⟩

theorem lists_iff_of_membersDigest {s t : Membership Addr}
    (hc : s.membersDigest = t.membersDigest → s.digestBytes = t.digestBytes)
    (hd : s.membersDigest = t.membersDigest) (id : B32) : s.Lists id ↔ t.Lists id := by
  rw [lists_iff_mem_digestRows, lists_iff_mem_digestRows, rowCode.write_injective (hc hd)]

/-! ## What was heard -/

/-- A record of another node that is no older than `t`. -/
structure Current (t : U64) (id : B32) (s : Membership Addr) : Prop where
  other : id ≠ s.me
  record : ∃ m, s.members[id]? = some m ∧ t ≤ m.lastHeardMs

/-- An event by which a node hears of another, at `t` or later. -/
def Hears (A : AddrText Addr) (t : U64) (id : B32) (s : Membership Addr) : Event Addr → Prop
  | .merge entries _ => id ≠ s.me ∧ ∃ e ∈ entries, e.id = id ∧ (A.parse e.addr).isSome
    ∧ t ≤ e.lastHeardMs
  | .act (.noteHeard heard now) => id ≠ s.me ∧ heard = id ∧ (s.members[id]?).isSome ∧ t ≤ now
  | .act (.probed heard _ now) => id ≠ s.me ∧ heard = id ∧ t ≤ now
  | .act _ => False

/-- The clock has not gone back behind `t`, and what was heard then is kept when the node prunes. -/
def InTime (t : U64) (s : Membership Addr) : Event Addr → Prop
  | .act (.noteHeard _ now) => t ≤ now
  | .act (.probed _ _ now) => t ≤ now
  | .act (.pruneMembers now) => now.satSub t < s.deadRetention
  | _ => True

/-- **The node has heard of another within its retention**: at a time that has not run out since. -/
def Heard (A : AddrText Addr) (s : Membership Addr) (events : List (Event Addr)) (now : U64)
    (id : B32) : Prop :=
  ∃ t before e after, events = before ++ e :: after ∧ Hears A t id (run (step A) s before) e
    ∧ EachStep (step A) (run (step A) s (before ++ [e])) (InTime t) after
    ∧ now.satSub t < (run (step A) s events).deadRetention

section Heard

variable {t now : U64} {id id' : B32} {s s' : Membership Addr} {m' : Member Addr} {e : MemberEntry}
  {p : Membership Addr × Bool}

theorem Current.of_members (h : Current t id s) (hme : s'.me = s.me) (hm : s'.members = s.members) :
    Current t id s' :=
  ⟨hme ▸ h.other, hm ▸ h.record⟩

theorem current_of_insert {members : Members Addr} (hm : s.members = members.insert id m')
    (ho : id ≠ s.me) (ht : t ≤ m'.lastHeardMs) : Current t id s :=
  ⟨ho, m', by rw [hm, BTreeMap.getElem?_insert_self], ht⟩

theorem Current.of_insert (h : Current t id s) (hme : s'.me = s.me)
    (hm : s'.members = s.members.insert id' m') (ht : id' = id → t ≤ m'.lastHeardMs) :
    Current t id s' := by
  by_cases hid : id' = id
  · subst hid
    exact current_of_insert hm (hme ▸ h.other) (ht rfl)
  · refine ⟨hme ▸ h.other, ?_⟩
    rw [hm, BTreeMap.getElem?_insert, if_neg hid]
    exact h.record

theorem Current.lastHeard (h : Current t id s) {m : Member Addr} (hm : s.members[id]? = some m) :
    t ≤ m.lastHeardMs := by
  obtain ⟨m₀, hm₀, ht⟩ := h.record
  rwa [Option.some.inj (hm.symm.trans hm₀)]

/-- An entry makes a record that is no older than itself and than the one before, and that has its
state if it won. -/
theorem mergeOne_spec (members : Members Addr) (now : U64) (hp : (A.parse e.addr).isSome) :
    ∃ m, (mergeOne A members e now).2 = members.insert e.id m ∧ e.lastHeardMs ≤ m.lastHeardMs
      ∧ ∀ m₀, members[e.id]? = some m₀ → m₀.lastHeardMs ≤ m.lastHeardMs
        ∧ (mergeOne A members e now).1 = e.winsOver m₀
        ∧ m.state = if e.winsOver m₀ then .fromU8 e.state else m₀.state := by
  obtain ⟨addr, ha⟩ := isSome_iff_exists.mp hp
  rw [mergeOne, ha]
  cases hm : members[e.id]? with
  | none => exact ⟨_, rfl, le_rfl, fun _ h => by cases h⟩
  | some m₀ =>
    dsimp only
    generalize hwon :
      (if e.winsOver m₀ then m₀.setLiveness e.incarnation (.fromU8 e.state) now else m₀) = won
    have hlast : won.lastHeardMs = m₀.lastHeardMs := by
      rw [← hwon]
      split <;> rfl
    have hstate : won.state = if e.winsOver m₀ then .fromU8 e.state else m₀.state := by
      rw [← hwon]
      split <;> rfl
    by_cases hlt : m₀.lastHeardMs < e.lastHeardMs
    · rw [if_pos hlt]
      refine ⟨_, rfl, le_rfl, fun _ h => ?_⟩
      cases h
      exact ⟨hlt.le, rfl, hstate⟩
    · rw [if_neg hlt]
      refine ⟨_, rfl, hlast ▸ le_of_not_gt hlt, fun _ h => ?_⟩
      cases h
      exact ⟨hlast.ge, rfl, hstate⟩

theorem Current.mergeEntry (h : Current t id p.1) (e : MemberEntry) :
    Current t id (mergeEntry A now p e).1 := by
  by_cases hacc : accuses p.1.me e = true
  · rw [mergeEntry_of_accuses hacc]
    exact h.of_members rfl rfl
  · obtain ⟨dirty, heq⟩ :=
      mergeEntry_of_not_accuses (A := A) now (Bool.eq_false_of_not_eq_true hacc)
    rw [heq]
    by_cases hme : e.id = p.1.me
    · exact h.of_members rfl (if_pos hme)
    · by_cases hp : (A.parse e.addr).isSome
      · obtain ⟨m, hm, -, hle⟩ := mergeOne_spec p.1.members now hp
        refine h.of_insert rfl ((if_neg hme).trans hm) fun hid => ?_
        obtain ⟨m₀, hm₀, ht⟩ := h.record
        exact ht.trans (hle m₀ (hid ▸ hm₀)).1
      · refine h.of_members rfl ((if_neg hme).trans ?_)
        rw [mergeOne, not_isSome_iff_eq_none.mp hp]

theorem current_mergeEntry (ho : id ≠ p.1.me) (hid : e.id = id) (hp : (A.parse e.addr).isSome)
    (ht : t ≤ e.lastHeardMs) : Current t id (mergeEntry A now p e).1 := by
  subst hid
  obtain ⟨dirty, heq⟩ := mergeEntry_of_not_accuses (A := A) (p := p) (e := e) now
    (Bool.eq_false_iff.mpr fun hacc => ho (accuses_eq_true.mp hacc).1)
  obtain ⟨m, hm, hle, -⟩ := mergeOne_spec p.1.members now hp
  rw [heq]
  exact current_of_insert ((if_neg ho).trans hm) ho (ht.trans hle)

theorem Current.foldl_mergeEntry (h : Current t id p.1) (entries : List MemberEntry) :
    Current t id (entries.foldl (Membership.mergeEntry A now) p).1 := by
  induction entries generalizing p with
  | nil => exact h
  | cons e entries ih => exact ih (h.mergeEntry e)

theorem Current.of_foldl {entries : List MemberEntry}
    (h : Current t id (entries.foldl (Membership.mergeEntry A now) (s, false)).1) :
    Current t id (s.mergeMembers A entries now) := by
  rw [mergeMembers]
  dsimp only
  split
  · exact h.of_insert rfl rfl fun hid => absurd hid.symm h.other
  · exact h

theorem Current.markDead (h : Current t id s) (id' : B32) (now : U64) :
    Current t id (s.markDead id' now) := by
  rw [Membership.markDead]
  split
  · next m hm => exact h.of_insert rfl rfl fun hid => h.lastHeard (m := m) (hid ▸ hm)
  · exact h.of_members rfl rfl

theorem Current.pruneMembers (h : Current t id s) (hin : now.satSub t < s.deadRetention) :
    Current t id (s.pruneMembers now) := by
  obtain ⟨m, hm, ht⟩ := h.record
  refine ⟨h.other, m, ?_, ht⟩
  have hle := Fin.le_def.mp ht
  have hlt := Fin.lt_def.mp hin
  have hfresh : s.fresh now m = true := decide_eq_true (Fin.lt_def.mpr (by
    rw [val_satSub] at hlt ⊢
    omega))
  rw [Membership.pruneMembers]
  dsimp only
  rw [ExtTreeMap.getElem?_filter', hm]
  simp [hfresh]

/-- **What was heard stays heard**, while the clock does not go back and it is not pruned. -/
theorem Current.act (h : Current t id s) (a : Local Addr) (hin : InTime t s (.act a)) :
    Current t id (s.act A a) := by
  cases a with
  | refreshSelf now => exact h.of_insert rfl rfl fun hid => absurd hid.symm h.other
  | epidemicPush now => exact h.of_insert rfl rfl fun hid => absurd hid.symm h.other
  | link id addr => cases addr <;> exact h.of_members rfl rfl
  | rebind addr => exact h.of_members rfl rfl
  | noteHeard id' now =>
    rw [Membership.act, noteHeard]
    split
    · exact h
    · split
      · exact h.of_insert rfl rfl fun _ => hin
      · split
        · exact h.of_insert rfl rfl fun _ => hin
        · exact h
  | probed id' addr now =>
    rw [Membership.act, probed]
    split
    · refine h.of_insert rfl rfl fun _ => ?_
      split <;> exact hin
    · exact h.of_insert rfl rfl fun _ => hin
  | suspect id' now =>
    rw [Membership.act, suspect]
    split
    · next m hm =>
      split
      · exact h.of_insert rfl rfl fun hid => h.lastHeard (m := m) (hid ▸ hm)
      · exact h
    · exact h
  | promoteSuspects now =>
    rw [Membership.act, promoteSuspects]
    generalize s.members.toList.filter _ = expired
    clear hin
    induction expired generalizing s with
    | nil => exact h
    | cons e expired ih => exact ih (h.markDead e.1 now)
  | pruneMembers now => exact h.pruneMembers hin

theorem Current.step (h : Current t id s) {e : Event Addr} (hin : InTime t s e) :
    Current t id (s.step A e) := by
  cases e with
  | merge entries now => exact .of_foldl (h.foldl_mergeEntry (p := (s, false)) entries)
  | act a => exact h.act a hin

theorem Hears.current {e : Event Addr} (h : Hears A t id s e) : Current t id (s.step A e) := by
  cases e with
  | merge entries now =>
    obtain ⟨ho, e, he, hid, hp, ht⟩ := h
    obtain ⟨pre, post, rfl⟩ := append_of_mem he
    refine .of_foldl ?_
    rw [foldl_append, foldl_cons]
    refine Current.foldl_mergeEntry (current_mergeEntry ?_ hid hp ht) post
    rwa [(Membership.foldl_mergeEntry (A := A) now pre (s, false)).1]
  | act a =>
    cases a with
    | noteHeard id' now =>
      obtain ⟨ho, rfl, hm, ht⟩ := h
      obtain ⟨m, hm⟩ := isSome_iff_exists.mp hm
      rw [Membership.step, Membership.act, noteHeard, if_neg ho, hm]
      exact current_of_insert rfl ho ht
    | probed id' addr now =>
      obtain ⟨ho, rfl, ht⟩ := h
      rw [Membership.step, Membership.act, probed]
      split
      · refine current_of_insert rfl ho ?_
        split <;> exact ht
      · exact current_of_insert rfl ho ht
    | _ => exact h.elim

/-- **Who is listed and has been heard of is in the census.** -/
theorem Heard.keeps {events : List (Event Addr)} (h : Heard A s events now id)
    (hl : (run (Membership.step A) s events).Lists id) :
    (run (Membership.step A) s events).Keeps now id := by
  obtain ⟨t, before, e, after, rfl, hhears, hin, hret⟩ := h
  have hrun : run (Membership.step A) s (before ++ e :: after)
      = run (Membership.step A) (run (Membership.step A) s (before ++ [e])) after := by
    rw [← run_append, append_assoc, singleton_append]
  rw [hrun] at hl hret ⊢
  have hcur :
      Current t id (run (Membership.step A) (run (Membership.step A) s (before ++ [e])) after) :=
    invariant (by rw [run_concat]; exact hhears.current) (fun _ _ h hin => h.step hin) hin
  obtain ⟨m, hm, hs⟩ := hl
  have hle := Fin.le_def.mp (hcur.lastHeard hm)
  refine ⟨m, hm, hs, decide_eq_true ((Fin.le_def.mpr ?_).trans_lt hret)⟩
  rw [val_satSub, val_satSub]
  omega

end Heard

variable (A) in
/-- **Two nodes of one digest have one census** where each lists itself and has heard, within its
retention, of every other that is listed. -/
theorem census_eq_of_heard (s t : Membership Addr) (events events' : List (Event Addr))
    (now : U64) :
    let s' := run (step A) s events
    let t' := run (step A) t events'
    (s'.membersDigest = t'.membersDigest → s'.digestBytes = t'.digestBytes)
      → s'.membersDigest = t'.membersDigest → s'.Lists s'.me → t'.Lists t'.me →
      (∀ id, s'.Lists id → (id ≠ s'.me → Heard A s events now id)
        ∧ (id ≠ t'.me → Heard A t events' now id)) → ∀ id, id ∈ (s'.census now).map Prod.fst
          ↔ id ∈ (t'.census now).map Prod.fst := by
  intro s' t' hcollision hdigest hs ht hheard id
  have hlists := lists_iff_of_membersDigest hcollision hdigest
  simp only [mem_census]
  constructor
  · rintro (rfl | ⟨-, hk⟩)
    · by_cases hme : s'.me = t'.me
      · exact .inl hme
      · exact .inr ⟨hme, ((hheard _ hs).2 hme).keeps ((hlists _).mp hs)⟩
    · by_cases hme : id = t'.me
      · exact .inl hme
      · exact .inr ⟨hme, ((hheard id hk.lists).2 hme).keeps ((hlists id).mp hk.lists)⟩
  · rintro (rfl | ⟨-, hk⟩)
    · by_cases hme : t'.me = s'.me
      · exact .inl hme
      · exact .inr ⟨hme, ((hheard _ ((hlists _).mpr ht)).1 hme).keeps ((hlists _).mpr ht)⟩
    · by_cases hme : id = s'.me
      · exact .inl hme
      · exact .inr ⟨hme, ((hheard id ((hlists id).mpr hk.lists)).1 hme).keeps
          ((hlists id).mpr hk.lists)⟩

/-! ## Heard of by one only -/

def ownText : AddrText Bytes := ⟨some, id⟩

/-- A third member answers the node at `thirdHeard`, and the other node answers it at the end. -/
def tenMinutes (other : B32) (thirdHeard : U64) : List (Event Bytes) :=
  [.act (.probed 3 [7] thirdHeard), .act (.refreshSelf 700000), .act (.probed other [7] 700000)]

/-- A node that keeps for ten minutes whom it has heard of. -/
def watcher (me : B32) : Membership Bytes := new me [7] 6000 600000

def afterTenMinutes (me other : B32) (thirdHeard : U64) : Membership Bytes :=
  run (step ownText) (watcher me) (tenMinutes other thirdHeard)

theorem heard_tenMinutes (me other : B32) (thirdHeard : U64) (h3 : 3 ≠ me)
    (ho : other ≠ (run (step ownText) (watcher me) ((tenMinutes other thirdHeard).take 2)).me)
    (hret : satSub 700000 thirdHeard < (afterTenMinutes me other thirdHeard).deadRetention)
    (hle : thirdHeard ≤ 700000) :
    Heard ownText (watcher me) (tenMinutes other thirdHeard) 700000 other
      ∧ Heard ownText (watcher me) (tenMinutes other thirdHeard) 700000 3 := by
  refine ⟨⟨700000, (tenMinutes other thirdHeard).take 2, _, [], rfl, ⟨ho, rfl, le_rfl⟩,
    eachStep_nil, ?_⟩, thirdHeard, [], _, (tenMinutes other thirdHeard).drop 1, rfl, ⟨h3, rfl,
      le_rfl⟩, ?_, ?_⟩
  · refine (Fin.le_def.mpr ?_).trans_lt hret
    rw [val_satSub, Nat.sub_self]
    exact Nat.zero_le _
  · exact eachStep_cons.mpr ⟨trivial, eachStep_cons.mpr ⟨hle, eachStep_nil⟩⟩
  · exact hret

/-- Both have heard of the third member. -/
theorem census_eq_of_heard_both :
    ∀ id, id ∈ ((afterTenMinutes 1 2 500000).census 700000).map Prod.fst
    ↔ id ∈ ((afterTenMinutes 2 1 400000).census 700000).map Prod.fst := by
  obtain ⟨h2, h3⟩ := heard_tenMinutes 1 2 500000 (by decide) (by decide +kernel)
    (by decide +kernel) (by decide)
  obtain ⟨h1, h3'⟩ := heard_tenMinutes 2 1 400000 (by decide) (by decide +kernel)
    (by decide +kernel) (by decide)
  refine census_eq_of_heard ownText (watcher 1) (watcher 2) (tenMinutes 2 500000)
    (tenMinutes 1 400000) 700000 (fun _ => by decide +kernel) (congrArg blake3 (by decide +kernel))
      (lists_iff_mem_digestRows.mpr (by decide +kernel))
    (lists_iff_mem_digestRows.mpr (by decide +kernel)) fun id hid => ?_
  have hrows : (afterTenMinutes 1 2 500000).digestRows.map Prod.fst = [1, 2, 3] := by decide +kernel
  have hmem := lists_iff_mem_digestRows.mp hid
  change id ∈ (afterTenMinutes 1 2 500000).digestRows.map Prod.fst at hmem
  simp only [hrows, mem_cons, not_mem_nil, or_false] at hmem
  rcases hmem with rfl | rfl | rfl
  · exact ⟨fun h => absurd rfl h, fun _ => h1⟩
  · exact ⟨fun _ => h2, fun h => absurd rfl h⟩
  · exact ⟨fun _ => h3, fun _ => h3'⟩

/-- **One digest, two censuses**: only one of the nodes has heard of the third member within ten
minutes. -/
theorem digests_agree_census_differs :
    (afterTenMinutes 1 2 500000).membersDigest = (afterTenMinutes 2 1 0).membersDigest
      ∧ ((afterTenMinutes 1 2 500000).census 700000).map Prod.fst = [1, 2, 3]
      ∧ ((afterTenMinutes 2 1 0).census 700000).map Prod.fst = [2, 1] :=
  ⟨congrArg blake3 (by decide +kernel), by decide +kernel⟩

end Membership

end Zephcraft.Swim
