import Zephcraft.Com.Quorum
import Zephcraft.Foundations.Blake3
import Zephcraft.Noded.HolderIndex

/-!
# Noded/DeathRepair — who repairs what a dead node held

Whoever holds an id ranks the holders it knows of, itself included, and repairs if it comes first.
Holders that know of each other agree on who that is.
-/

namespace Zephcraft.Noded

open Run Com List Std.ExtTreeSet

variable (hash : Bytes → B32)

def repairScore (cid h : B32) : B32 := hash (cid.toBytes ++ h.toBytes)

def repairerFor (cid : B32) (holders : List B32) : Option B32 :=
  holders.argmin (repairScore hash cid)

/-- The holders as the index lists them, those alive and not gone, and ourselves. -/
def repairCandidates (me gone : B32) (alive : BTreeSet B32) (listed : List B32) : List B32 :=
  Quorum.canonical ((listed.filter fun h => h ≠ gone && alive.contains h) ++ [me])

/-- `repair_our_share`: the ids we are elected for and the number of their holders, fewest first.
`listing` lists the index in some order. -/
def repairOurShare (me gone : B32) (alive : BTreeSet B32) (listing : B32 → List B32)
    (cids : List B32) : List (B32 × ℕ) :=
  (cids.filterMap fun c =>
    let cands := repairCandidates me gone alive (listing c)
    if repairerFor hash c cands = some me then some (c, cands.length) else none).mergeSort (·.2
      ≤ ·.2)

/-- A node died: it is taken from the index, its version is forgotten, and what we repair is counted
as lost. -/
def DeathRepair.onDeath (repair : DeathRepair) (me : B32) (alive : BTreeSet B32) (dead : B32) :
    DeathRepair :=
  let shared := repair.shared dead
  if shared.isEmpty then repair
  else
    let holders := (withdraw dead shared repair.holders).1
    let mine := repairOurShare hash me dead alive (fun c => (holdersOf holders c).toList) shared
    { heads := repair.heads.erase dead, holders
      pending := mine.foldl (fun p e => accrueInto p e.1 (-1)) repair.pending }

/-- The order of the candidates: by score, and by id where scores tie. -/
def repairRank (cid h : B32) : B32 ×ₗ B32 := toLex (repairScore hash cid h, h)

section Elected

variable {hash} {cid me gone m : B32} {alive : BTreeSet B32} {l : List B32}

theorem repairRank_injective : Function.Injective (repairRank hash cid) := fun _ _ h =>
  (Prod.mk.inj (toLex.injective h)).2

theorem rank_le_of_repairerFor (hl : l.Pairwise (· < ·)) (h : repairerFor hash cid l = some m) :
    m ∈ l ∧ ∀ a ∈ l, repairRank hash cid m ≤ repairRank hash cid a := by
  refine ⟨argmin_mem h, ?_⟩
  induction l generalizing m with
  | nil => exact fun a ha => absurd ha (by simp)
  | cons x l ih =>
    rw [repairerFor, argmin_cons] at h
    cases hr : l.argmin (repairScore hash cid) with
    | none =>
      obtain rfl := argmin_eq_none.mp hr
      cases h
      exact fun a ha => (mem_singleton.mp ha).symm ▸ le_rfl
    | some c =>
      have hc := ih hl.of_cons hr
      rw [hr] at h
      dsimp only at h
      split at h
      · next hlt =>
        cases h
        exact forall_mem_cons.mpr ⟨Prod.Lex.toLex_le_toLex.mpr (.inl hlt), hc⟩
      · next hle =>
        cases h
        refine forall_mem_cons.mpr ⟨le_rfl, fun a ha => Prod.Lex.toLex_le_toLex.mpr ?_⟩
        have hs := (not_lt.mp hle).trans (le_of_mem_argmin ha hr)
        exact hs.lt_or_eq.imp id fun heq => ⟨heq, (rel_of_pairwise_cons hl ha).le⟩

/-- **We are elected iff we come first** of the holders we know of. -/
theorem elected_iff : repairerFor hash cid (repairCandidates me gone alive l) = some me ↔
    ∀ h ∈ l, h ≠ gone → h ∈ alive → repairRank hash cid me ≤ repairRank hash cid h := by
  have hmem : ∀ h, h ∈ repairCandidates me gone alive l ↔ (h ∈ l ∧ h ≠ gone ∧ h ∈ alive) ∨ h = me :=
    fun h => by
    simp [repairCandidates]
  have hs : (repairCandidates me gone alive l).Pairwise (· < ·) := Quorum.pairwise_canonical _
  constructor
  · exact fun h a ha hg hal => (rank_le_of_repairerFor hs h).2 a ((hmem a).mpr (.inl ⟨ha, hg, hal⟩))
  · intro h
    cases hf : repairerFor hash cid (repairCandidates me gone alive l) with
    | none => exact absurd ((hmem me).mpr (.inr rfl)) (by simp [argmin_eq_none.mp hf])
    | some m =>
      obtain ⟨hm, hle⟩ := rank_le_of_repairerFor hs hf
      have hme := hle me ((hmem me).mpr (.inr rfl))
      rcases (hmem m).mp hm with ⟨hl, hg, hal⟩ | rfl
      · rw [repairRank_injective (le_antisymm hme (h m hl hg hal))]
      · rfl

theorem mem_repairOurShare {listing : B32 → List B32} {cids : List B32} :
    cid ∈ (repairOurShare hash me gone alive listing cids).map Prod.fst ↔ cid ∈ cids ∧
      ∀ h ∈ listing cid, h ≠ gone → h ∈ alive → repairRank hash cid me ≤ repairRank hash cid h := by
  rw [← elected_iff, repairOurShare]
  simp only [mem_map, mem_mergeSort, mem_filterMap]
  constructor
  · rintro ⟨e, ⟨c, hc, he⟩, rfl⟩
    split at he
    · next hel =>
      cases he
      exact ⟨hc, hel⟩
    · exact absurd he (by simp)
  · exact fun ⟨hc, hel⟩ => ⟨_, ⟨cid, hc, if_pos hel⟩, rfl⟩

end Elected

/-- **One survivor repairs an id**: of holders that know of each other, in whatever order each lists
the others, exactly one elects itself. -/
theorem exactly_one_repairs (hash : Bytes → B32) (cid gone : B32) {survivors : Finset B32}
    (hne : survivors.Nonempty) (hgone : gone ∉ survivors) {alive : B32 → BTreeSet B32}
    (halive : ∀ me ∈ survivors, ∀ h ∈ survivors, h ∈ alive me) {listing : B32 → B32 → List B32}
    (hlisting : ∀ me ∈ survivors, ∀ h, h ∈ listing me cid ↔ h ∈ survivors ∧ h ≠ me)
    {cids : B32 → List B32} (hcids : ∀ me ∈ survivors, cid ∈ cids me) :
    ∃! me, me ∈ survivors ∧
      cid ∈ (repairOurShare hash me gone (alive me) (listing me) (cids me)).map Prod.fst := by
  obtain ⟨first, hfirst, hle⟩ := survivors.exists_min_image (repairRank hash cid) hne
  refine ⟨first, ⟨hfirst, mem_repairOurShare.mpr ⟨hcids first hfirst, fun h hh _ _ => ?_⟩⟩, ?_⟩
  · exact hle h ((hlisting first hfirst h).mp hh).1
  · rintro me ⟨hme, hshare⟩
    by_contra hother
    have hrank :=
      (mem_repairOurShare.mp hshare).2 first ((hlisting me hme first).mpr ⟨hfirst, Ne.symm hother⟩)
      (fun h => hgone (h ▸ hfirst)) (halive me hme first hfirst)
    exact hother (repairRank_injective (le_antisymm hrank (hle me hme)))

theorem exactly_one_repairs_three :
    ∃! me, me ∈ ({1, 2, 3} : Finset B32) ∧ 7 ∈ (repairOurShare blake3 me 4
      (ofList [1, 2, 3] compare) (fun _ => [3, 2, 1].filter (· ≠ me)) [7]).map Prod.fst :=
  exactly_one_repairs blake3 7 4 (by decide) (by decide)
    (fun _ _ h hh => mem_ofList.mpr (by simpa using hh))
    (fun me _ h => by simp [or_comm, or_assoc]) (fun _ _ => mem_cons_self)

/-! ## A node that comes back -/

inductive FlapEvent where
  | death (dead : B32) (alive : BTreeSet B32)
  | check (peer : B32) (online : B32 → Bool)

namespace DeathRepair

variable (me : B32) (net : HoldingsNet) (mine : BTreeSet B32)

/-- Nodes die and are read; nobody publishes, and we hold what we hold. -/
def flap (repair : DeathRepair) : FlapEvent → DeathRepair
  | .death dead alive => repair.onDeath hash me alive dead
  | .check peer online => (repair.checkPeer net online mine peer).2

/-- For whatever we share with a dead node, another holder comes first. -/
def NotFirst (repair : DeathRepair) : FlapEvent → Prop
  | .death dead alive => ∀ c, dead ∈ holdersOf repair.holders c →
      ∃ h ∈ holdersOf repair.holders c, h ≠ dead ∧ h ∈ alive ∧ repairRank hash c h
        < repairRank hash c me
  | .check _ _ => True

/-- The versions read last are the latest ones. -/
def UpToDate (repair : DeathRepair) : Prop :=
  ∀ (peer k : B32) (v : U64), repair.heads[peer]? = some (v, k)
    → ∃ v', net.records[peer]? = some (k, v')

/-- Every count of the window is a loss. -/
def Losses (pending : BTreeMap B32 ℤ) : Prop := ∀ (c : B32) (n : ℤ), pending[c]? = some n → n < 0

variable {hash me net mine} {repair : DeathRepair}

theorem losses_accrueInto {pending : BTreeMap B32 ℤ} (h : Losses pending) (c : B32) :
    Losses (accrueInto pending c (-1)) ∧ accrueInto pending c (-1) ≠ ∅ := by
  have hneg : pending[c]?.getD 0 + -1 < 0 := by
    cases hc : pending[c]? with
    | none => decide
    | some n =>
      have := h c n hc
      rw [Option.getD_some]
      omega
  rw [accrueInto, if_neg hneg.ne]
  refine ⟨fun k n hk => ?_, fun he => ?_⟩
  · rw [BTreeMap.getElem?_insert] at hk
    split at hk
    · exact Option.some.inj hk ▸ hneg
    · exact h k n hk
  · have hc : (pending.insert c (pending[c]?.getD 0 + -1))[c]? = none := by rw [he]; simp
    rw [BTreeMap.getElem?_insert_self] at hc
    simp at hc

theorem losses_foldl (share : List (B32 × ℕ)) {pending : BTreeMap B32 ℤ} (h : Losses pending) :
    Losses (share.foldl (fun p e => accrueInto p e.1 (-1)) pending) ∧
      (share.foldl (fun p e => accrueInto p e.1 (-1)) pending = ∅ ↔ pending = ∅ ∧ share = []) := by
  induction share generalizing pending with
  | nil => simpa using h
  | cons e share ih =>
    obtain ⟨hl, hne⟩ := losses_accrueInto h e.1
    obtain ⟨hr, hiff⟩ := ih hl
    exact ⟨hr, hiff.trans (by simp [hne])⟩

/-- A death leaves nothing in the window iff somebody else repairs. -/
theorem onDeath_spec (h : Losses repair.pending) (dead : B32) (alive : BTreeSet B32) :
    Losses (repair.onDeath hash me alive dead).pending
      ∧ ((repair.onDeath hash me alive dead).pending = ∅ ↔
      repair.pending = ∅ ∧ NotFirst hash me repair (.death dead alive)) := by
  rw [onDeath]
  dsimp only
  split
  · next he =>
    refine ⟨h, (and_iff_left fun c hc => ?_).symm⟩
    rw [← mem_shared, List.isEmpty_iff.mp he] at hc
    simp at hc
  · refine ⟨(losses_foldl _ h).1, (losses_foldl _ h).2.trans (and_congr_right fun _ => ?_)⟩
    rw [← map_eq_nil_iff (f := Prod.fst), eq_nil_iff_forall_not_mem]
    refine forall_congr' fun c => ?_
    rw [mem_repairOurShare, mem_shared, not_and]
    refine imp_congr_right fun hc => ?_
    push Not
    refine exists_congr fun x => ?_
    rw [mem_toList, mem_holdersOf_withdraw]
    tauto

theorem checkPeer_spec (mine : BTreeSet B32) (h : UpToDate net repair) (peer : B32)
    (online : B32 → Bool) :
    UpToDate net (repair.checkPeer net online mine peer).2 ∧
      (repair.checkPeer net online mine peer).2.pending = repair.pending := by
  have hin : ∀ (v v' : U64) (k : B32), net.records[peer]? = some (k, v') → ∀ r : DeathRepair,
      r.heads = repair.heads.insert peer (v, k) → UpToDate net r := by
    intro v v' k hrec r hr q k' u hq
    rw [hr, BTreeMap.getElem?_insert] at hq
    split at hq
    · next heq =>
      cases hq
      exact ⟨v', heq ▸ hrec⟩
    · exact h q k' u hq
  rw [checkPeer]
  cases hc : net.changesSince online peer repair.heads[peer]? with
  | none => exact ⟨h, rfl⟩
  | some changes =>
    obtain ⟨⟨cid, v'⟩, hrec, hre⟩ := Option.bind_eq_some_iff.mp hc
    dsimp only at hre
    cases hk : repair.heads[peer]? with
    | some known =>
      -- the version is the one that was read last
      obtain ⟨v, k⟩ := known
      obtain ⟨u, hu⟩ := h peer k v hk
      cases hrec.symm.trans hu
      rw [hk, Option.filter_some, if_pos (decide_eq_true rfl)] at hre
      cases hre
      exact ⟨hin v v' cid hrec _ rfl, rfl⟩
    | none =>
      rw [hk, Option.filter_none] at hre
      obtain ⟨head, -, hre⟩ := Option.bind_eq_some_iff.mp hre
      obtain ⟨⟨chain, reached⟩, -, hre⟩ := Option.bind_eq_some_iff.mp hre
      cases reached with
      | true =>
        cases hre
        dsimp only
        split <;> exact ⟨hin v' v' cid hrec _ rfl, rfl⟩
      | false =>
        obtain ⟨set, -, hre⟩ := Option.bind_eq_some_iff.mp hre
        cases hre
        exact ⟨hin v' v' cid hrec _ rfl, rfl⟩

theorem flap_spec (hd : UpToDate net repair) (hl : Losses repair.pending) (event : FlapEvent) :
    UpToDate net (repair.flap hash me net mine event)
      ∧ Losses (repair.flap hash me net mine event).pending ∧
      ((repair.flap hash me net mine event).pending = ∅
        ↔ repair.pending = ∅ ∧ NotFirst hash me repair event) := by
  cases event with
  | death dead alive =>
    refine ⟨fun peer k v hk => ?_, onDeath_spec hl dead alive⟩
    rw [flap, onDeath] at hk
    dsimp only at hk
    split at hk
    · exact hd peer k v hk
    · rw [Std.ExtTreeMap.getElem?_erase] at hk
      split at hk
      · exact absurd hk (by simp)
      · exact hd peer k v hk
  | check peer online =>
    obtain ⟨hd', hp⟩ := checkPeer_spec mine hd peer online
    refine ⟨hd', ?_⟩
    rw [flap, hp]
    exact ⟨hl, (and_iff_left trivial).symm⟩

/-- **A node that dies and comes back leaves the window empty iff, whenever it died, another holder
came first for everything we share with it**: its return cancels nothing. -/
theorem flap_cancels_iff (hash : Bytes → B32) (me : B32) (net : HoldingsNet) (mine : BTreeSet B32)
    {repair : DeathRepair} (hdate : UpToDate net repair) (hempty : repair.pending = ∅)
    (events : List FlapEvent) :
    (run (flap hash me net mine) repair events).pending = ∅ ↔
      EachStep (flap hash me net mine) repair (NotFirst hash me) events := by
  suffices h : ∀ r : DeathRepair, UpToDate net r → Losses r.pending →
      ((run (flap hash me net mine) r events).pending = ∅ ↔
        r.pending = ∅ ∧ EachStep (flap hash me net mine) r (NotFirst hash me) events) from
    (h repair hdate fun c n hc => by simp [hempty] at hc).trans (and_iff_right hempty)
  induction events with
  | nil => exact fun r _ _ => by simp
  | cons event events ih =>
    intro r hr hlosses
    obtain ⟨hr', hlosses', hiff⟩ := flap_spec hr hlosses event
    rw [eachStep_cons, ← and_assoc, ← hiff]
    exact ih _ hr' hlosses'

/-- We are 1, and know that 2 holds 5 as we do. -/
def twoHoldsFive : DeathRepair :=
  ⟨(∅ : BTreeMap B32 (U64 × B32)).insert 2 (1, 9), (∅ : Holders).insert 5 (ofList [2] compare), ∅⟩

def fiveListed : HoldingsNet :=
  ⟨(∅ : BTreeMap B32 (B32 × U64)).insert 2 (9, 1),
    (∅ : BTreeMap B32 HoldingsManifest).insert 9 ⟨2, 1, .snapshot [5]⟩⟩

/-- 2 leaves and returns. -/
def twoFlaps : List FlapEvent := [.death 2 (ofList [1] compare), .check 2 fun _ => true]

theorem upToDate_twoHoldsFive : UpToDate fiveListed twoHoldsFive := by
  intro peer k v h
  rw [twoHoldsFive, BTreeMap.getElem?_insert] at h
  split at h
  · next heq =>
    cases h
    exact ⟨1, by rw [fiveListed, BTreeMap.getElem?_insert, if_pos heq]⟩
  · exact absurd h (by simp)

theorem flap_cancels_iff_two :
    (run (flap blake3 1 fiveListed (ofList [5] compare)) twoHoldsFive twoFlaps).pending = ∅ ↔
      EachStep (flap blake3 1 fiveListed (ofList [5] compare)) twoHoldsFive
        (NotFirst blake3 1) twoFlaps :=
  flap_cancels_iff blake3 1 fiveListed (ofList [5] compare) upToDate_twoHoldsFive rfl twoFlaps

/-- The loss of 5 is still counted once 2 is back and indexed again. -/
theorem flap_leaves_a_loss :
    let repair := run (flap blake3 1 fiveListed (ofList [5] compare)) twoHoldsFive twoFlaps
    twoHoldsFive.pending = ∅ ∧ 2 ∈ holdersOf repair.holders 5 ∧ repair.pending[(5 : B32)]?
      = some (-1) := by
  decide +kernel

end DeathRepair

end Zephcraft.Noded
