import Mathlib.Data.Prod.Lex
import Mathlib.Order.Bounds.Basic
import Zephcraft.Swim.Node

/-!
# Swim/Gossip — what gossip makes of a set of entries

Who is alive and how fresh that is merge by different rules, and a node passes on what it has
merged: an entry that nobody sent, with the liveness of one and the freshness of another.
-/

namespace Zephcraft.Swim

open BTreeMap MemberState Swim.Membership

variable {Addr : Type}

/-- Higher incarnations win, and within one the worse state. -/
def liveness (incarnation : U64) (state : MemberState) : U64 ×ₗ Byte :=
  toLex (incarnation, state.rank)

def MemberEntry.liveness (e : MemberEntry) : U64 ×ₗ Byte :=
  Swim.liveness e.incarnation (.fromU8 e.state)

/-- **What entries about one member come to**: the winner, and the latest time. -/
structure Winner (R : Set MemberEntry) (incarnation : U64) (state : MemberState)
    (lastHeardMs : U64) : Prop where
  liveness : IsGreatest (MemberEntry.liveness '' R) (liveness incarnation state)
  freshness : IsGreatest (MemberEntry.lastHeardMs '' R) lastHeardMs

mutual

/-- A node that had heard of nobody, and the entries of `E` that have reached it. -/
inductive Heard (A : AddrText Addr) (E : List MemberEntry) :
    Membership Addr → Set MemberEntry → Prop
  | start {s : Membership Addr} (h : s.members = ∅) : Heard A E s ∅
  | merge {s : Membership Addr} {R : Set MemberEntry} (h : Heard A E s R)
    (l : List (MemberEntry × Set MemberEntry)) (now : U64) (hl : ∀ x ∈ l, Carries A E x.1 x.2) :
      Heard A E (s.mergeMembers A (l.map Prod.fst) now) (R ∪ {o | ∃ x ∈ l, o ∈ x.2})

/-- An entry that may arrive, and the entries of `E` it stands for: itself, or what the node it is
exported by has heard of the member. What a node says of itself is an entry of `E`. -/
inductive Carries (A : AddrText Addr) (E : List MemberEntry) : MemberEntry → Set MemberEntry → Prop
  | original {e : MemberEntry} (he : e ∈ E) : Carries A E e {e}
  | exported {s : Membership Addr} {R : Set MemberEntry} {e : MemberEntry} (h : Heard A E s R)
      (he : e ∈ s.memberEntries A) (hid : e.id ≠ s.me) : Carries A E e {o ∈ R | o.id = e.id}

end

/-! ## One entry -/

variable {A : AddrText Addr} {R O : Set MemberEntry} {id : B32} {e : MemberEntry} {m : Member Addr}

/-- The record of a member is what the entries about it come to. -/
def Told (A : AddrText Addr) (R : Set MemberEntry) (id : B32) : Option (Member Addr) → Prop
  | none => {o ∈ R | o.id = id} = ∅
  | some m => Winner {o ∈ R | o.id = id} m.incarnation m.state m.lastHeardMs ∧ ∃ text, A.parse text
    = some m.addr

/-- What an entry stands for, if it can be merged. -/
structure Stands (A : AddrText Addr) (e : MemberEntry) (O : Set MemberEntry) : Prop where
  winner : Winner O e.incarnation (.fromU8 e.state) e.lastHeardMs
  about : ∀ o ∈ O, o.id = e.id
  parses : (A.parse e.addr).isSome

theorem winsOver_iff : e.winsOver m = true ↔ liveness m.incarnation m.state < e.liveness := by
  rw [MemberEntry.winsOver, MemberEntry.liveness, liveness, liveness, Prod.Lex.toLex_lt_toLex,
    eq_comm (a := m.incarnation)]
  simp

/-- An entry about another member changes nothing. -/
theorem Stands.told_of_ne (he : Stands A e O) (hid : e.id ≠ id) {known : Option (Member Addr)}
    (h : Told A R id known) :
    Told A (R ∪ O) id known := by
  have hs : {o ∈ R ∪ O | o.id = id} = {o ∈ R | o.id = id} := by
    ext o
    exact ⟨fun ⟨ho, hoid⟩ => ⟨ho.resolve_right fun h => hid ((he.about o h).symm.trans hoid), hoid⟩,
      fun ho => ⟨.inl ho.1, ho.2⟩⟩
  cases known with
  | none => exact hs.trans h
  | some m =>
    rw [Told, hs]
    exact h

theorem Stands.told_mergeOne (he : Stands A e O) {members : Members Addr}
    (h : Told A R id members[id]?) (now : U64) :
    Told A (R ∪ O) id (mergeOne A members e now).2[id]? := by
  obtain ⟨addr, ha⟩ := Option.isSome_iff_exists.mp he.parses
  by_cases hid : e.id = id
  · subst hid
    have hu : {o ∈ R ∪ O | o.id = e.id} = {o ∈ R | o.id = e.id} ∪ O := by
      ext o
      exact ⟨fun ⟨ho, hoid⟩ => ho.imp_left (⟨·, hoid⟩), fun ho => ho.elim (fun h => ⟨.inl h.1, h.2⟩)
        fun h =>
        ⟨.inr h, he.about o h⟩⟩
    rw [mergeOne, ha]
    cases hm : members[e.id]? with
    | none =>
      rw [hm] at h
      dsimp only
      rw [getElem?_insert_self, Told, hu, show {o ∈ R | o.id = e.id} = ∅ from h, Set.empty_union]
      exact ⟨he.winner, e.addr, ha⟩
    | some m =>
      rw [hm] at h
      obtain ⟨hwi, text, ht⟩ := h
      dsimp only
      rw [getElem?_insert_self, Told, hu]
      have hli : IsGreatest _ (max _ e.liveness) := hwi.liveness.union he.winner.liveness
      have hf := hwi.freshness.union he.winner.freshness
      rw [← Set.image_union] at hli hf
      by_cases hw : e.winsOver m = true <;> by_cases hl :
        m.lastHeardMs < e.lastHeardMs <;> simp only [hw, hl, if_true, if_false]
      · rw [max_eq_right (winsOver_iff.mp hw).le] at hli
        rw [max_eq_right hl.le] at hf
        exact ⟨⟨hli, hf⟩, e.addr, ha⟩
      · rw [max_eq_right (winsOver_iff.mp hw).le] at hli
        rw [max_eq_left (not_lt.mp hl)] at hf
        exact ⟨⟨hli, hf⟩, text, ht⟩
      · rw [max_eq_left (not_lt.mp (mt winsOver_iff.mpr hw))] at hli
        rw [max_eq_right hl.le] at hf
        exact ⟨⟨hli, hf⟩, e.addr, ha⟩
      · rw [max_eq_left (not_lt.mp (mt winsOver_iff.mpr hw))] at hli
        rw [max_eq_left (not_lt.mp hl)] at hf
        exact ⟨⟨hli, hf⟩, text, ht⟩
  · have hme : (mergeOne A members e now).2[id]? = members[id]? := by
      rw [mergeOne, ha]
      cases members[e.id]? <;> exact getElem?_insert_of_ne members hid _
    rw [hme]
    exact he.told_of_ne hid h

/-! ## A set of entries -/

theorem mergeEntry_spec (p : Membership Addr × Bool) (e : MemberEntry) (now : U64) :
    (mergeEntry A now p e).1.me = p.1.me ∧ (mergeEntry A now p e).1.members
      = if e.id = p.1.me then p.1.members else (mergeOne A p.1.members e now).2 := by
  rw [mergeEntry]
  split
  · split <;> exact ⟨rfl, rfl⟩
  · rcases mergeOne A p.1.members e now with ⟨_ | _, members⟩ <;> exact ⟨rfl, rfl⟩

theorem told_foldl {l : List (MemberEntry × Set MemberEntry)} (hl : ∀ x ∈ l, Stands A x.1 x.2)
    (now : U64) {p : Membership Addr × Bool} (h : ∀ id ≠ p.1.me, Told A R id p.1.members[id]?) :
    ((l.map Prod.fst).foldl (mergeEntry A now) p).1.me = p.1.me ∧ ∀ id ≠ p.1.me,
      Told A (R ∪ {o | ∃ x ∈ l, o ∈ x.2}) id
        ((l.map Prod.fst).foldl (mergeEntry A now) p).1.members[id]? := by
  induction l generalizing p R with
  | nil => exact ⟨rfl, by simpa using h⟩
  | cons x l ih =>
    obtain ⟨hx, hl⟩ := List.forall_mem_cons.mp hl
    obtain ⟨hme, hm⟩ := mergeEntry_spec (A := A) p x.1 now
    have hst : ∀ id ≠ (mergeEntry A now p x.1).1.me,
        Told A (R ∪ x.2) id (mergeEntry A now p x.1).1.members[id]? := by
      intro id hid
      rw [hme] at hid
      rw [hm]
      split
      · next hs => exact hx.told_of_ne (fun heq => hid (heq.symm.trans hs)) (h id hid)
      · exact hx.told_mergeOne (h id hid) now
    obtain ⟨hme', ht⟩ := ih hl hst
    refine ⟨hme'.trans hme, fun id hid => ?_⟩
    have hset : R ∪ {o | ∃ y ∈ x :: l, o ∈ y.2} = R ∪ x.2 ∪ {o | ∃ y ∈ l, o ∈ y.2} := by
      ext o
      simp [or_assoc]
    rw [hset]
    exact ht id (hme.symm ▸ hid)

/-! ## All that is delivered -/

/-- The addresses can be read, and still when a node has written them again. -/
structure Readable (A : AddrText Addr) (E : List MemberEntry) : Prop where
  entries : ∀ e ∈ E, (A.parse e.addr).isSome
  again : ∀ text addr, A.parse text = some addr → (A.parse (A.text addr)).isSome

variable {E : List MemberEntry} {s s' : Membership Addr}

theorem mergeMembers_spec {entries : List MemberEntry} {now : U64}
    (hme : (entries.foldl (mergeEntry A now) (s, false)).1.me = s.me) :
    (s.mergeMembers A entries now).me = s.me ∧ ∀ id ≠ s.me,
    (s.mergeMembers A entries now).members[id]?
      = (entries.foldl (mergeEntry A now) (s, false)).1.members[id]? := by
  rw [mergeMembers]
  dsimp only
  split
  · exact ⟨hme, fun id hid => getElem?_insert_of_ne _ (hme.symm ▸ Ne.symm hid) _⟩
  · exact ⟨hme, fun _ _ => rfl⟩

theorem stands_self (hp : (A.parse e.addr).isSome) : Stands A e {e} := by
  refine ⟨⟨?_, ?_⟩, fun _ ho => congrArg MemberEntry.id ho, hp⟩
  · rw [Set.image_singleton]
    exact isGreatest_singleton
  · rw [Set.image_singleton]
    exact isGreatest_singleton

mutual

/-- **What a node has heard is what its records say**, of everybody but itself. -/
theorem Heard.told {s : Membership Addr} {R : Set MemberEntry} (hA : Readable A E) :
    Heard A E s R → R ⊆ {e | e ∈ E} ∧ ∀ id ≠ s.me, Told A R id s.members[id]?
  | .start hempty => by
    refine ⟨Set.empty_subset _, fun id _ => ?_⟩
    rw [hempty, Std.ExtTreeMap.getElem?_empty]
    exact Set.sep_empty _
  | .merge (s := t) h l now hl => by
    obtain ⟨hsub, ht⟩ := h.told hA
    have hs := fun x hx => (hl x hx).stands hA
    obtain ⟨hme, hf⟩ := told_foldl (p := (t, false)) (fun x hx => (hs x hx).2) now ht
    obtain ⟨hme', hm⟩ := mergeMembers_spec hme
    refine ⟨Set.union_subset hsub fun o ⟨x, hx, ho⟩ => (hs x hx).1 ho, fun id hid => ?_⟩
    rw [hme'] at hid
    rw [hm id hid]
    exact hf id hid

theorem Carries.stands {e : MemberEntry} {O : Set MemberEntry} (hA : Readable A E) :
    Carries A E e O → O ⊆ {e | e ∈ E} ∧ Stands A e O
  | .original he => ⟨fun _ ho => ho ▸ he, stands_self (hA.entries _ he)⟩
  | .exported h he hid => by
    obtain ⟨hsub, hto⟩ := h.told hA
    obtain ⟨⟨id, m⟩, hm, rfl⟩ := List.mem_map.mp he
    have hk := hto id hid
    rw [Std.ExtTreeMap.mem_toList_iff_getElem?_eq_some.mp hm] at hk
    obtain ⟨hw, text, ht⟩ := hk
    refine ⟨fun o ho => hsub ho.1, ⟨?_, hw.freshness⟩, fun o ho => ho.2, hA.again text _ ht⟩
    rw [memberEntry, fromU8_toU8]
    exact hw.liveness

end

theorem MemberState.rank_injective : Function.Injective MemberState.rank := fun a b h => by
  cases a <;> cases b <;> first | rfl | cases h

/-- **Gossip converges**: whichever way all of `E` has come to two nodes, they have the same record
of every other node — none where no entry is about it, and otherwise the winner of the entries about
it with the latest time. -/
theorem gossip_converges {R R' : Set MemberEntry} (hA : Readable A E) (h : Heard A E s R)
    (h' : Heard A E s' R') (hall : ∀ e ∈ E, e ∈ R) (hall' : ∀ e ∈ E, e ∈ R') (id : B32)
    (hid : id ≠ s.me) (hid' : id ≠ s'.me) :
    (s.members[id]? = none ∧ s'.members[id]? = none ∧ ∀ e ∈ E, e.id ≠ id)
      ∨ ∃ m m', s.members[id]? = some m ∧ s'.members[id]? = some m'
        ∧ m.incarnation = m'.incarnation ∧ m.state = m'.state ∧ m.lastHeardMs = m'.lastHeardMs
        ∧ Winner {e | e ∈ E ∧ e.id = id} m.incarnation m.state m.lastHeardMs := by
  obtain ⟨hsub, htold⟩ := h.told hA
  obtain ⟨hsub', htold'⟩ := h'.told hA
  obtain rfl : R = {e | e ∈ E} := Set.Subset.antisymm hsub hall
  obtain rfl : R' = {e | e ∈ E} := Set.Subset.antisymm hsub' hall'
  have hs := htold id hid
  have hs' := htold' id hid'
  cases hm : s.members[id]? with
  | none =>
    rw [hm] at hs
    have hnone : ∀ e ∈ E, e.id ≠ id :=
      fun e he heq => (Set.eq_empty_iff_forall_notMem.mp hs e) ⟨he, heq⟩
    cases hm' : s'.members[id]? with
    | none => exact .inl ⟨rfl, rfl, hnone⟩
    | some m' =>
      rw [hm'] at hs'
      obtain ⟨e, he, -⟩ := hs'.1.freshness.1
      exact absurd he.2 (hnone e he.1)
  | some m =>
    rw [hm] at hs
    cases hm' : s'.members[id]? with
    | none =>
      rw [hm'] at hs'
      obtain ⟨e, he, -⟩ := hs.1.freshness.1
      exact absurd he (Set.eq_empty_iff_forall_notMem.mp hs' e)
    | some m' =>
      rw [hm'] at hs'
      have hlive := Prod.mk.inj (toLex.injective (hs.1.liveness.unique hs'.1.liveness))
      exact .inr ⟨m, m', rfl, rfl, hlive.1, rank_injective hlive.2,
        hs.1.freshness.unique hs'.1.freshness, hs.1⟩

/-! ## Two entries about one member -/

def unitText : AddrText Unit := ⟨fun _ => some (), fun _ => []⟩

/-- Member 5 is suspected, and has been heard of by those who do not know. -/
def twoEntries : List MemberEntry := [⟨5, [], 9, 1, 0⟩, ⟨5, [], 3, 2, 1⟩]

def twoHeard (me : B32) : Membership Unit :=
  (Membership.new me () 0 0).mergeMembers unitText twoEntries 0

theorem heard_two (me : B32) :
    ∃ R, Heard unitText twoEntries (twoHeard me) R ∧ ∀ e ∈ twoEntries, e ∈ R := by
  refine ⟨_, .merge (.start rfl) (twoEntries.map fun e => (e, {e})) 0 fun x hx => ?_, fun e he =>
    ?_⟩
  · obtain ⟨e, he, rfl⟩ := List.mem_map.mp hx
    exact .original he
  · exact .inr ⟨(e, {e}), List.mem_map.mpr ⟨e, he, rfl⟩, rfl⟩

/-- One node gets the entries, another what a third makes of them, which is neither. -/
theorem gossip_converges_exported :
    ∃ m m', (twoHeard 1).members[(5 : B32)]? = some m
      ∧ ((Membership.new 2 () 0 0).mergeMembers unitText ((twoHeard 3).memberEntries unitText)
        0).members[(5 : B32)]? = some m' ∧ m.incarnation = m'.incarnation ∧ m.state = m'.state
          ∧ m.lastHeardMs = m'.lastHeardMs := by
  obtain ⟨R, h, hall⟩ := heard_two 1
  obtain ⟨R', h', hall'⟩ := heard_two 3
  have hexport : (twoHeard 3).memberEntries unitText = [⟨5, [], 9, 2, 1⟩] := by decide +kernel
  have hcarries : Carries unitText twoEntries ⟨5, [], 9, 2, 1⟩ {o ∈ R' | o.id = 5} :=
    .exported h' (by simp [hexport]) (by decide +kernel)
  have hread : Readable unitText twoEntries := ⟨fun _ _ => rfl, fun _ _ _ => rfl⟩
  have hmerged : Heard unitText twoEntries _ _ :=
    .merge (.start (rfl : (Membership.new 2 () 0 0).members = ∅)) [(⟨5, [], 9, 2, 1⟩,
      {o ∈ R' | o.id = 5})] 0 (by simpa using hcarries)
  have hreached : ∀ e ∈ twoEntries, e.id = 5 := by decide +kernel
  have hme : 5 ≠ ((Membership.new 2 () 0 0).mergeMembers unitText [⟨5, [], 9, 2, 1⟩] 0).me := by
    decide +kernel
  obtain ⟨-, -, hnone⟩ | ⟨m, m', hm, hm', hi, hs, hl, -⟩ := gossip_converges hread h hmerged hall
    (fun e he => .inr ⟨_, List.mem_singleton_self _, hall' e he, hreached e he⟩) 5
      (by decide +kernel) hme
  · exact absurd rfl (hnone ⟨5, [], 9, 1, 0⟩ (by simp [twoEntries]))
  · exact ⟨m, m', hm, by rw [hexport]; exact hm', hi, hs, hl⟩

end Zephcraft.Swim
