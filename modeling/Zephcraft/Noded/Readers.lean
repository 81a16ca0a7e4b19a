import Zephcraft.Noded.HolderIndex

/-!
# Noded/Readers — following what a node says it holds

Versions that say what changed are counted: one in sixteen is a whole set, and each other one is one
above the version it builds on. So a walk back meets a whole set before it has taken sixteen steps,
and a reader that applies what it learns has the set of the version it read.
-/

namespace Zephcraft.Noded

open Run Option Std.ExtTreeSet

theorem canonical_of_pairwise {l : List B32} (h : l.Pairwise (· < ·)) : canonical l = true := by
  induction l with
  | nil => rfl
  | cons a l ih =>
    cases l with
    | nil => rfl
    | cons b l =>
      rw [canonical, Bool.and_eq_true]
      exact ⟨decide_eq_true (List.rel_of_pairwise_cons h (.head _)), ih h.of_cons⟩

theorem canonical_toList (s : BTreeSet B32) : canonical s.toList = true :=
  canonical_of_pairwise (s.ordered_toList.imp fun h => compare_lt_iff_lt.mp h)

section Next

variable {pub : Publisher} {now : BTreeSet B32} {version : U64}

/-- A node publishes what its readers accept. -/
theorem verify_of_next {body : Body} (h : pub.next now = .ok (some (version, body))) (node : B32) :
    HoldingsManifest.verify ⟨node, version, body⟩ = true := by
  rcases Watch.next_cases h with rfl | ⟨p, -, rfl⟩
  · exact canonical_toList now
  · rw [HoldingsManifest.verify, Bool.and_eq_true, Bool.and_eq_true]
    refine ⟨⟨canonical_toList _, canonical_toList _⟩, ?_⟩
    rw [Bool.not_eq_true', List.any_eq_false]
    intro c ha hr
    rw [Std.ExtTreeSet.mem_toList, ← contains_iff_mem, BTreeSet.contains_filter] at ha
    rw [decide_eq_true_eq, Std.ExtTreeSet.mem_toList, ← contains_iff_mem,
      BTreeSet.contains_filter] at hr
    simp_all

theorem next_diff {a r : List B32} {prev : B32}
    (h : pub.next now = .ok (some (version, .diff a r prev))) :
    ∃ p, pub.last = some p ∧ p.cid = prev ∧ version.val = p.version.val + 1
      ∧ version.val % snapshotEvery ≠ 0 := by
  rw [Publisher.next] at h
  split at h
  · obtain ⟨v, -, heq⟩ := Except.bind_eq_ok.mp h
    exact absurd (Prod.mk.inj (Option.some.inj (Except.ok.inj heq))).2 (by simp)
  · next p hp =>
    dsimp only at h
    split at h
    · exact absurd (Except.ok.inj h) (by simp)
    · obtain ⟨v, hv, heq⟩ := Except.bind_eq_ok.mp h
      split at heq
      · exact absurd (Prod.mk.inj (Option.some.inj (Except.ok.inj heq))).2 (by simp)
      · next hd =>
        obtain ⟨rfl, hb⟩ := Prod.mk.inj (Option.some.inj (Except.ok.inj heq))
        injection hb with _ _ hpr
        exact ⟨p, hp, hpr, Word.addOrPanic_eq_ok.mp hv, hd⟩

end Next

namespace Watch

variable {cidOf : HoldingsManifest → B32} {w : Watch} {peer cid : B32} {m : HoldingsManifest}
  {cids : BTreeSet B32}

/-- What is there is acceptable, and a change is one version above what it builds on. -/
structure Chained (w : Watch) : Prop where
  verified : ∀ (cid : B32) (m : HoldingsManifest), w.net.objects[cid]? = some m → m.verify = true
  back : ∀ (cid : B32) (m : HoldingsManifest) a r prev, w.net.objects[cid]? = some m
    → m.body = .diff a r prev → m.version.val % snapshotEvery ≠ 0 ∧
      ∃ m', w.net.objects[prev]? = some m' ∧ m'.node = m.node ∧ m.version.val = m'.version.val + 1
  last : ∀ peer p, (w.publisher peer).last = some p →
    ∃ m, w.net.objects[p.cid]? = some m ∧ m.node = peer ∧ m.version = p.version
  head : ∀ (peer cid : B32) (v : U64), w.net.records[peer]? = some (cid, v) →
    ∃ m, w.net.objects[cid]? = some m ∧ m.node = peer

theorem chained_start (mine : BTreeSet B32) : Chained (start mine) := by
  constructor <;> simp [start, publisher, Publisher.fresh]

/-! ## The walk back -/

theorem Chained.fetchAt (h : Chained w) (hm : w.net.objects[cid]? = some m) :
    w.net.fetchAt (fun _ => true) m.node cid = some m := by
  rw [HoldingsNet.fetchAt, if_pos rfl, hm, filter_some, if_pos]
  rw [h.verified cid m hm, decide_eq_true rfl, Bool.and_self]

/-- A walk takes at most as many steps as the version is past a whole set. -/
theorem Chained.exists_walkChain (h : Chained w) (known : Option B32) (steps : ℕ)
    (hm : w.net.objects[cid]? = some m) (hs : m.version.val % snapshotEvery ≤ steps) :
    ∃ result, walkChain (w.net.fetchAt (fun _ => true) m.node) known steps m = some result := by
  induction steps generalizing cid m with
  | zero =>
    rw [walkChain]
    split
    · exact ⟨_, rfl⟩
    · next a r prev hb => exact absurd (Nat.le_zero.mp hs) (h.back cid m a r prev hm hb).1
  | succ steps ih =>
    rw [walkChain]
    split
    · exact ⟨_, rfl⟩
    · next a r prev hb =>
      split
      · exact ⟨_, rfl⟩
      · obtain ⟨hp, m', hm', hn, hv⟩ := h.back cid m a r prev hm hb
        obtain ⟨result, hr⟩ := ih hm' (by rw [snapshotEvery] at *; omega)
        dsimp only
        rw [← hn, h.fetchAt hm', bind_eq_bind, bind_some, hr]
        exact ⟨_, rfl⟩

theorem Chained.exists_changesSince (h : Chained w) (hs : Sound w) {v : U64}
    (hr : w.net.records[peer]? = some (cid, v)) (known : Option (U64 × B32)) :
    ∃ changes, w.net.changesSince (fun _ => true) peer known = some changes := by
  obtain ⟨m, hm, rfl⟩ := h.head peer cid v hr
  obtain ⟨⟨chain, reached⟩, hw⟩ := h.exists_walkChain (known.map Prod.snd) (2 * snapshotEvery) hm
    (by rw [snapshotEvery]; omega)
  obtain ⟨-, -, hset⟩ := walkChain_spec hs.faithful (fun cid m => fetchAt_eq_some) hm hw
  rw [HoldingsNet.changesSince, hr, bind_eq_bind, bind_some]
  dsimp only
  split
  · exact ⟨_, rfl⟩
  · rw [h.fetchAt hm, bind_eq_bind, bind_some, hw, bind_eq_bind, bind_some]
    cases reached with
    | true => exact ⟨_, rfl⟩
    | false =>
      obtain ⟨set, hf, -⟩ := hset rfl
      exact ⟨_, by rw [hf]; rfl⟩

/-! ## Publishing -/

theorem Chained.written (h : Chained w) (hnew : cid ∉ w.net.objects)
    (hn : (w.publisher m.node).next cids = .ok (some (m.version, m.body))) :
    Chained (w.written m cid cids) := by
  have hold : ∀ (k : B32) m', w.net.objects[k]? = some m'
      → (w.written m cid cids).net.objects[k]? = some m' := by
    intro k m' hk
    rw [objects_written, if_neg]
    · exact hk
    · rintro rfl
      exact hnew (Std.ExtTreeMap.mem_iff_isSome_getElem?.mpr (hk ▸ rfl))
  have ht : (w.written m cid cids).net.objects[cid]? = some m := by rw [objects_written, if_pos rfl]
  refine ⟨fun k m' hk => ?_, fun k m' a r prev hk hb => ?_, fun peer p hp => ?_, fun peer k v hr =>
    ?_⟩
  · rw [objects_written] at hk
    split at hk
    · cases hk
      exact verify_of_next hn m.node
    · exact h.verified k m' hk
  · rw [objects_written] at hk
    split at hk
    · cases hk
      rw [hb] at hn
      obtain ⟨p, hp, rfl, hve, hpa⟩ := next_diff hn
      obtain ⟨m', hm', hno, hv⟩ := h.last m.node p hp
      exact ⟨hpa, m', hold _ _ hm', hno, hv ▸ hve⟩
    · obtain ⟨hpa, m₀, hm₀, hre⟩ := h.back k m' a r prev hk hb
      exact ⟨hpa, m₀, hold _ _ hm₀, hre⟩
  · rw [publisher_written] at hp
    split at hp
    · next heq =>
      cases hp
      exact ⟨m, ht, heq, rfl⟩
    · obtain ⟨m', hm', hre⟩ := h.last peer p hp
      exact ⟨m', hold _ _ hm', hre⟩
  · rcases records_written w m cid cids peer with hs | ⟨rfl, hset⟩
    · obtain ⟨m', hm', hno⟩ := h.head peer k v (hs ▸ hr)
      exact ⟨m', hold _ _ hm', hno⟩
    · rw [hset] at hr
      cases hr
      exact ⟨m, ht, rfl⟩

/-- To set a publisher to one that remembers no more. -/
theorem Chained.setPublisher (h : Chained w) {pub : Publisher}
    (hpub : ∀ p, pub.last = some p → (w.publisher peer).last = some p) :
    Chained { w with publishers := w.publishers.insert peer pub } := by
  refine ⟨h.verified, h.back, fun q p hp => h.last q p ?_, h.head⟩
  change ((w.publishers.insert peer pub)[q]?.getD .fresh).last = some p at hp
  rw [BTreeMap.getElem?_insert] at hp
  split at hp
  · next heq => exact heq ▸ hpub p hp
  · exact hp

theorem Chained.publish (h : Chained w) (hnew : NewIds cidOf w (.publish peer cids)) :
    Chained (step cidOf w (.publish peer cids)) ∧ ∀ k ∈ w.net.objects,
      k ∈ (step cidOf w (.publish peer cids)).net.objects ∧
      ∀ c, (step cidOf w (.publish peer cids)).Lists k c ↔ w.Lists k c := by
  rw [step, Publisher.publish]
  cases hn : (w.publisher peer).next cids with
  | error e => exact ⟨h, fun k hk => ⟨hk, fun _ => Iff.rfl⟩⟩
  | ok result =>
    cases result with
    | none => exact ⟨h.setPublisher fun p hp => hp, fun k hk => ⟨hk, fun _ => Iff.rfl⟩⟩
    | some result =>
      obtain ⟨version, body⟩ := result
      have hid := hnew version body hn
      exact ⟨h.written (m := ⟨peer, version, body⟩) hid hn, fun k hk =>
        ⟨mem_objects_written.mpr (.inr hk), lists_written_of_mem hid hk⟩⟩

end Watch

/-! ## A reader -/

/-- The version a reader knows of a node, and the set it has for it. -/
structure HoldingsReader where
  known : Option (U64 × B32)
  set : BTreeSet B32

/-- A change is added and taken away, a whole set replaces. -/
def HoldingsReader.apply (reader : HoldingsReader) : Changes → HoldingsReader
  | .delta version head added removed =>
    ⟨some (version, head),
      removed.toList.foldl (·.erase ·) (added.toList.foldl (·.insert ·) reader.set)⟩
  | .reset version head set => ⟨some (version, head), set⟩

/-- Nodes that publish, and one who follows one of them. -/
structure Followed where
  world : Watch
  reader : HoldingsReader

inductive FollowEvent where
  | publish (peer : B32) (cids : BTreeSet B32)
  | restart (peer : B32)
  /-- The reader reads; everything can be fetched. -/
  | poll

namespace Followed

def start : Followed := ⟨.start ∅, ⟨none, ∅⟩⟩

variable (cidOf : HoldingsManifest → B32) (peer : B32) (s : Followed)

/-- What the reader would be told now. -/
def learns : Option Changes := s.world.net.changesSince (fun _ => true) peer s.reader.known

def step : FollowEvent → Followed
  | .publish q cids => { s with world := s.world.step cidOf (.publish q cids) }
  | .restart q => { s with world := s.world.step cidOf (.restart q) }
  | .poll => { s with reader := (s.learns peer).elim s.reader s.reader.apply }

def NewIds : FollowEvent → Prop
  | .publish q cids => s.world.NewIds cidOf (.publish q cids)
  | _ => True

/-- The reader has the set of the version it read last. -/
def Tracks : Prop := ∀ v k, s.reader.known = some (v, k) → ∀ c, c ∈ s.reader.set ↔ s.world.Lists k c

/-- Once the node has published, the reader is told of its latest version. -/
def Told : Prop :=
  ∀ cid v, s.world.net.records[peer]? = some (cid, v) →
    ∃ changes, s.learns peer = some changes ∧ (s.reader.apply changes).known.map Prod.snd = some cid

structure Valid (s : Followed) : Prop where
  sound : s.world.Sound
  chained : s.world.Chained
  tracks : s.Tracks
  there : ∀ v k, s.reader.known = some (v, k) → k ∈ s.world.net.objects

variable {cidOf peer} {s : Followed}

theorem Valid.told (h : Valid s) : s.Told peer := by
  intro cid v hr
  obtain ⟨changes, hc⟩ := h.chained.exists_changesSince h.sound hr s.reader.known
  refine ⟨changes, hc, ?_⟩
  obtain ⟨cid', v', hr', ht⟩ := changesSince_spec h.sound.faithful hc
  cases hr.symm.trans hr'
  cases changes with
  | delta version head added removed => exact congrArg some ht.1
  | reset version head set => exact congrArg some ht.1

theorem Valid.poll (h : Valid s) : Valid (step cidOf peer s .poll) := by
  rw [step]
  cases hc : s.learns peer with
  | none => exact h
  | some changes =>
    obtain ⟨cid, v, hr, ht⟩ := changesSince_spec h.sound.faithful hc
    have hcid := h.sound.recorded peer cid v hr
    cases changes with
    | delta version head added removed =>
      obtain ⟨rfl, u, k, hkn, ha⟩ := ht
      refine ⟨h.sound, h.chained, fun v' k' hk c => ?_, fun v' k' hk => ?_⟩ <;>
        cases hk
      · change c ∈ removed.toList.foldl _ _ ↔ _
        rw [BTreeSet.mem_foldl_erase, BTreeSet.mem_foldl_insert, Std.ExtTreeSet.mem_toList,
          Std.ExtTreeSet.mem_toList, h.tracks u k hkn c]
        obtain ⟨hiff, hd⟩ := ha c
        refine Iff.trans ?_ hiff.symm
        dsimp only at hd ⊢
        tauto
      · exact hcid
    | reset version head set =>
      obtain ⟨rfl, hset⟩ := ht
      refine ⟨h.sound, h.chained, fun v' k' hk c => ?_, fun v' k' hk => ?_⟩ <;>
        cases hk
      · exact hset c
      · exact hcid

theorem Valid.step (h : Valid s) {event : FollowEvent} (hnew : NewIds cidOf s event) :
    Valid (step cidOf peer s event) := by
  cases event with
  | publish q cids =>
    obtain ⟨hc, hold⟩ := h.chained.publish hnew
    exact ⟨h.sound.publish hnew, hc,
      fun v k hk c => (h.tracks v k hk c).trans ((hold k (h.there v k hk)).2 c).symm,
      fun v k hk => (hold k (h.there v k hk)).1⟩
  | restart q =>
    have hs : (s.world.step cidOf (.restart q)).Sound := h.sound.restart q
    exact ⟨hs, h.chained.setPublisher fun p hp => absurd hp (by simp), h.tracks, h.there⟩
  | poll => exact h.poll

/-- **A reader follows a node exactly**, whatever the node published and whenever it restarted: it
is always told of the latest version, and it has the set the node had at the version it read
last. -/
theorem reader_tracks (cidOf : HoldingsManifest → B32) (peer : B32) (events : List FollowEvent)
    (hnew : EachStep (Followed.step cidOf peer) start (NewIds cidOf) events) :
    EachState (Followed.step cidOf peer) start (fun s => s.Tracks ∧ s.Told peer) events :=
  eachState_of_invariant (I := Valid)
    ⟨Watch.sound_start ∅, Watch.chained_start ∅, fun _ _ hk => absurd hk (by simp [start]),
      fun _ _ hk => absurd hk (by simp [start])⟩
    (fun _ _ hvalid hevent => hvalid.step hevent)
      (fun _ hvalid => ⟨hvalid.tracks, hvalid.told⟩) hnew

/-- A whole set, a change, and a whole set after a restart. -/
def fiveThenSix : List FollowEvent :=
  [.publish 1 (ofList [5] compare), .poll, .publish 1 (ofList [5, 6] compare), .poll,
    .restart 1, .publish 1 (ofList [6] compare), .poll]

theorem newIds_fiveThenSix :
    EachStep (Followed.step Watch.byVersion 1) start (NewIds Watch.byVersion) fiveThenSix := by
  have hn : ∀ (w : Watch) (cids : BTreeSet B32) (v : U64),
      ((w.publisher 1).next cids).toOption.all (fun r => r.all (·.1 = v)) = true →
      (Word.truncate v.val : B32) ∉ w.net.objects → w.NewIds Watch.byVersion (.publish 1 cids) := by
    intro w cids v h hid version body hv
    rw [hv] at h
    obtain rfl : version = v := of_decide_eq_true h
    exact hid
  repeat' refine eachStep_cons.mpr ⟨?_, ?_⟩
  · exact hn _ _ 1 (by decide +kernel) (by decide +kernel)
  · trivial
  · exact hn _ _ 2 (by decide +kernel) (by decide +kernel)
  · trivial
  · trivial
  · exact hn _ _ 3 (by decide +kernel) (by decide +kernel)
  · trivial
  · exact eachStep_nil

theorem reader_tracks_fiveThenSix :
    EachStep (Followed.step Watch.byVersion 1) start (NewIds Watch.byVersion) fiveThenSix ∧
      EachState (Followed.step Watch.byVersion 1) start (fun s => s.Tracks ∧ s.Told 1) fiveThenSix ∧
      (run (Followed.step Watch.byVersion 1) start fiveThenSix).reader.set.toList = [6] :=
  ⟨newIds_fiveThenSix, reader_tracks Watch.byVersion 1 fiveThenSix newIds_fiveThenSix,
    by decide +kernel⟩

end Followed

end Zephcraft.Noded
