import Zephcraft.Swim.Census

/-!
# Swim/Refutation — a node that is alive says so

What a node says after it has been accused has a higher incarnation than the accusation, and than
all that it has said and heard before — unless there is none higher. Incarnations come from the
wire, and the highest one can be had for the asking.
-/

namespace Zephcraft.Swim

open Std List Option MemberState Word Run

variable {Addr : Type} {A : AddrText Addr}

namespace Membership

/-! ## Counting up -/

variable {l : List U64} {entries : List MemberEntry} (i j : U64)

theorem val_bump : (bump i j).val = min (max j.val i.val + 1) (2 ^ 64 - 1) := by
  rw [bump, val_satAdd]
  rcases le_total j i with h | h
  · rw [max_eq_right h, max_eq_right (Fin.le_def.mp h)]
    rfl
  · rw [max_eq_left h, max_eq_left (Fin.le_def.mp h)]
    rfl

/-- The node gets past an incarnation by counting up: from its own, once for each accusation, or
from an accusation on. -/
def GetsPast (selfIncarnation : U64) (accusations : List U64) (incarnation : U64) : Prop :=
  incarnation.val < selfIncarnation.val + accusations.length
    ∨ ∃ before j after, accusations = before ++ j :: after ∧ incarnation.val ≤ j.val + after.length

theorem getsPast_cons {l : List U64} {i j k : U64} :
    GetsPast i (j :: l) k ↔ k.val < max j.val i.val + l.length + 1
      ∨ ∃ before j' after, l = before ++ j' :: after ∧ k.val ≤ j'.val + after.length := by
  rw [GetsPast, length_cons]
  constructor
  · rintro (hlt | ⟨before, j', after, heq, hle⟩)
    · exact .inl (by omega)
    · cases before with
      | nil =>
        obtain ⟨rfl, rfl⟩ := List.cons.inj heq
        exact .inl (by omega)
      | cons x before => exact .inr ⟨before, j', after, (List.cons.inj heq).2, hle⟩
  · rintro (hlt | ⟨before, j', after, rfl, hle⟩)
    · rcases le_total j.val i.val with hji | hij
      · exact .inl (by omega)
      · exact .inr ⟨[], j, l, rfl, by omega⟩
    · exact .inr ⟨j :: before, j', after, rfl, hle⟩

/-- **How far accusations make a node count**: past an incarnation that is not the highest, if it
gets past it at all. -/
theorem lt_foldl_bump_iff (l : List U64) (i k : U64) :
    k < l.foldl bump i ↔ k < top ∧ GetsPast i l k := by
  have htop : (top : U64).val = 2 ^ 64 - 1 := rfl
  induction l generalizing i with
  | nil =>
    have hi := i.isLt
    simp only [foldl_nil, GetsPast, Fin.lt_def, length_nil, nil_eq, append_eq_nil_iff, reduceCtorEq,
      and_false, false_and, exists_const, or_false]
    omega
  | cons j l ih =>
    rw [foldl_cons]
    refine (ih _).trans ?_
    rw [getsPast_cons, GetsPast, val_bump]
    refine and_congr_right fun hk => or_congr_left ?_
    rw [Fin.lt_def, htop] at hk
    omega

/-! ## What is said -/

/-- The record about itself that a node sends. -/
def ownEntry (A : AddrText Addr) (s : Membership Addr) : Option MemberEntry :=
  s.members[s.me]?.map (memberEntry A s.me)

theorem ownEntry_mergeMembers {s : Membership Addr} (h : ∃ e ∈ entries, accuses s.me e = true)
    (now : U64) :
    (s.mergeMembers A entries now).ownEntry A
      = some ⟨s.me, A.text s.addr, now, (charges s.me entries).foldl bump s.selfIncarnation,
        MemberState.alive.toU8⟩ := by
  obtain ⟨hme, ha, hs, hr⟩ := foldl_mergeEntry (A := A) now entries (s, false)
  have hany : entries.any (accuses s.me) = true := List.any_eq_true.mpr h
  rw [hany, Bool.or_true] at hr
  rw [mergeMembers]
  dsimp only
  rw [if_pos hr]
  dsimp only [ownEntry, refreshSelf]
  rw [BTreeMap.getElem?_insert_self, map_some, hme, ha, hs]
  rfl

/-! ## Who believes it -/

section Believes

variable {s : Membership Addr} {e : MemberEntry} {m : Member Addr}

theorem winsOver_alive (ha : e.state = MemberState.alive.toU8) :
    e.winsOver m = true ↔ m.incarnation < e.incarnation := by
  have hr : ¬ m.state.rank < (fromU8 e.state).rank := by
    rw [ha, fromU8_toU8]
    exact Fin.not_lt_zero _
  simp [MemberEntry.winsOver, hr]

/-- What a node says of itself wins over a record of it exactly if its address can be read and it is
newer. -/
theorem mergeOne_alive {members : Members Addr} (hm : members[e.id]? = some m)
    (ha : e.state = MemberState.alive.toU8) (now : U64) :
    (mergeOne A members e now).1 = true
      ↔ (A.parse e.addr).isSome ∧ m.incarnation < e.incarnation := by
  by_cases hp : (A.parse e.addr).isSome
  · obtain ⟨_, -, -, h⟩ := mergeOne_spec members now hp
    rw [(h m hm).2.1, winsOver_alive ha, and_iff_right hp]
  · rw [mergeOne, not_isSome_iff_eq_none.mp hp]
    simp

/-- **A node that is held to be dead is in the census again** exactly if what it says wins. -/
theorem mem_census_mergeMembers_alive (ho : e.id ≠ s.me) (hm : s.members[e.id]? = some m)
    (hd : m.state = .dead) (ha : e.state = MemberState.alive.toU8) {now : U64}
    (hret : now.satSub e.lastHeardMs < s.deadRetention) :
    e.id ∈ ((s.mergeMembers A [e] now).census now).map Prod.fst
      ↔ (A.parse e.addr).isSome ∧ m.incarnation < e.incarnation := by
  obtain ⟨dirty, heq⟩ := mergeEntry_of_not_accuses (A := A) (p := (s, false)) (e := e) now
    (Bool.eq_false_iff.mpr fun hacc => ho (accuses_eq_true.mp hacc).1)
  have hafter :
      s.mergeMembers A [e] now = { s with members := (mergeOne A s.members e now).2, dirty } := by
    rw [mergeMembers, foldl_cons, foldl_nil, heq]
    simp [ho]
  rw [hafter, mem_census, or_iff_right ho, and_iff_right ho]
  by_cases hp : (A.parse e.addr).isSome
  · obtain ⟨r, hr, hheard, h⟩ := mergeOne_spec s.members now hp
    obtain ⟨-, -, hstate⟩ := h m hm
    have hfresh : now.satSub r.lastHeardMs < s.deadRetention := by
      refine (Fin.le_def.mpr ?_).trans_lt hret
      rw [val_satSub, val_satSub]
      exact Nat.sub_le_sub_left (Fin.le_def.mp hheard) _
    simp only [Keeps, hr, BTreeMap.getElem?_insert_self, Option.some.injEq, exists_eq_left', hstate,
      hd, ha, fromU8_toU8]
    rw [and_iff_right hp, ← winsOver_alive ha]
    split <;> simp_all [fresh]
  · simp [Keeps, mergeOne, not_isSome_iff_eq_none.mp hp, hm, hd]

end Believes

theorem step_me (s : Membership Addr) (e : Event Addr) : (s.step A e).me = s.me := by
  cases e with
  | merge entries now => exact mergeMembers_me s entries now
  | act a => exact (quiet_act s a).me

variable (A) in
/-- **What a node says after an accusation wins on another node exactly if** its address can be
read, and it has counted up past the incarnation at which the other has it, which is not the
highest; and that is when a node that had it dead has it in the census again. -/
theorem refutation_wins_iff (me : B32) (addr : Addr) (suspectTimeout deadRetention : U64)
    (events : List (Event Addr)) (entries : List MemberEntry) (now : U64)
    (haccused : ∃ e ∈ entries, accuses me e = true)
    (other : Membership Addr) (hother : me ≠ other.me) (m : Member Addr)
    (hheld : other.members[me]? = some m) (later : U64) :
    let s := run (step A) (new me addr suspectTimeout deadRetention) events
    let getsPast := (A.parse (A.text s.addr)).isSome ∧ m.incarnation < top
      ∧ GetsPast s.selfIncarnation (charges me entries) m.incarnation
    ∃ own, (s.mergeMembers A entries now).ownEntry A = some own
      ∧ ((mergeOne A other.members own later).1 = true ↔ getsPast)
      ∧ (m.state = .dead → later.satSub now < other.deadRetention →
        (me ∈ ((other.mergeMembers A [own] later).census later).map Prod.fst ↔ getsPast)) := by
  have hme : (run (step A) (new me addr suspectTimeout deadRetention) events).me = me :=
    always (I := fun s : Membership Addr => s.me = me) rfl fun s e h => (step_me s e).trans h
  generalize run (step A) (new me addr suspectTimeout deadRetention) events = s at hme ⊢
  subst hme
  refine ⟨_, ownEntry_mergeMembers haccused now, ?_, fun hdead hret => ?_⟩
  · refine (mergeOne_alive hheld rfl later).trans ?_
    rw [lt_foldl_bump_iff]
  · refine (mem_census_mergeMembers_alive hother hheld hdead rfl hret).trans ?_
    rw [lt_foldl_bump_iff]

/-! ## The highest incarnation -/

/-- Addresses that are their own text; the empty one can not be read. -/
def plainText : AddrText Bytes := ⟨fun s => if s = [] then none else some s, id⟩

/-- The entry says that the node is dead, at an incarnation. -/
def deadAt (incarnation : U64) : MemberEntry := ⟨1, [7], 0, incarnation, MemberState.dead.toU8⟩

/-- A node that hears it is dead, and another that hears the same. -/
def accusedOf (incarnation : U64) : Membership Bytes :=
  (new 1 [7] 6000 600000).mergeMembers plainText [deadAt incarnation] 5

def otherHears (incarnation : U64) : Membership Bytes :=
  (new 2 [8] 6000 600000).mergeMembers plainText [deadAt incarnation] 5

def accusedOnce : List (Event Bytes) := [.merge [deadAt 3] 5]

/-- Accused a second time, at an incarnation it had not heard of, and that the other has it at. -/
theorem refutation_wins_iff_twice : ∃ own,
    ((run (step plainText) (new 1 [7] 6000 600000) accusedOnce).mergeMembers plainText [deadAt 9]
      6).ownEntry plainText = some own
      ∧ 1 ∈ (((otherHears 9).mergeMembers plainText [own] 7).census 7).map Prod.fst := by
  obtain ⟨own, hown, -, hcensus⟩ :=
    refutation_wins_iff plainText 1 [7] 6000 600000 accusedOnce [deadAt 9] 6 (by decide)
    (otherHears 9) (by decide +kernel) ⟨[7], 0, 9, .dead, none⟩ (by decide +kernel) 7
  exact ⟨own, hown, (hcensus rfl (by decide +kernel)).mpr
    ⟨by decide +kernel, by decide, .inr ⟨[], 9, [], by decide +kernel, le_rfl⟩⟩⟩

/-- **An accusation at the highest incarnation can not be refuted**: the other node goes on to have
it dead, and leaves it out. -/
theorem last_incarnation_not_refuted :
    (∃ own, (accusedOf top).ownEntry plainText = some own
        ∧ (mergeOne plainText (otherHears top).members own 6).1 = false)
      ∧ (((otherHears top).mergeMembers plainText ((accusedOf top).memberEntries plainText)
        6).census 6).map Prod.fst = [2] :=
  ⟨⟨⟨1, [7], 5, top, MemberState.alive.toU8⟩, by decide +kernel⟩, by decide +kernel⟩

end Membership

end Zephcraft.Swim
