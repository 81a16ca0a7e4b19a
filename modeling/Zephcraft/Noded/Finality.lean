import Zephcraft.Foundations.Run
import Zephcraft.Noded.Canonical
import Zephcraft.Token.Ledger

/-!
# Noded/Finality — how long a canonical record stays canonical

A reader keeps the canonical records it has found and never looks again: a quorum's signatures
cannot be taken back. The chains only grow — but a member's *latest* record is what counts, and a
chain that has moved on no longer keeps the epoch.
-/

namespace Zephcraft.Noded

open Zephcraft.Core Com Reward Token List Option Std.ExtTreeMap Run

/-! ## One more write on a chain -/

/-- A write is committed on its author's chain. -/
def commit (chains : RecordChains) (member : B32) (payload : Bytes) : RecordChains :=
  chains.insert member (chains.getD member [] ++ [payload])

def Grows (chains chains' : RecordChains) : Prop :=
  ∀ (m : B32) (payloads : List Bytes), chains[m]? = some payloads →
    ∃ payloads', chains'[m]? = some payloads' ∧ payloads <+: payloads'

theorem Grows.refl (chains : RecordChains) : Grows chains chains :=
  fun _ payloads h => ⟨payloads, h, prefix_rfl⟩

theorem Grows.trans {chains chains' chains'' : RecordChains} (h : Grows chains chains')
    (h' : Grows chains' chains'') : Grows chains chains'' := by
  intro m payloads hm
  obtain ⟨payloads', hm', hpre⟩ := h m payloads hm
  obtain ⟨payloads'', hm'', hpre'⟩ := h' m payloads' hm'
  exact ⟨payloads'', hm'', hpre.trans hpre'⟩

theorem grows_commit (chains : RecordChains) (member : B32) (payload : Bytes) :
    Grows chains (commit chains member payload) := by
  intro m payloads hm
  rw [commit, BTreeMap.getElem?_insert]
  split_ifs with h
  · obtain rfl := h
    rw [getD_eq_getD_getElem?, hm]
    exact ⟨_, rfl, prefix_append _ _⟩
  · exact ⟨payloads, hm, prefix_rfl⟩

namespace RecordWire

variable {w : RecordWire} {q : Quorum} {chains chains' : RecordChains} {epoch : U64}
  {record : RewardRecord}

theorem CollisionFree.of_grows (h : w.CollisionFree chains') (hg : Grows chains chains') :
    w.CollisionFree chains := by
  have hsub : ∀ {payloads payloads' : List Bytes}, payloads <+: payloads' →
      ∀ sr ∈ w.attested payloads, sr ∈ w.attested payloads' := by
    rintro payloads _ ⟨more, rfl⟩ sr hsr
    rw [attested_append]
    exact mem_append_left _ hsr
  intro m m' payloads payloads' hm hm' sr hsr sr' hsr'
  obtain ⟨_, hgr, hpre⟩ := hg m payloads hm
  obtain ⟨_, hg', hpre'⟩ := hg m' payloads' hm'
  exact h m m' _ _ hgr hg' sr (hsub hpre sr hsr) sr' (hsub hpre' sr' hsr')

theorem Scanned.of_grows {scans : BTreeMap B32 MemberRecordCache} (h : w.Scanned chains scans)
    (hgr : Grows chains chains') : w.Scanned chains' scans := by
  intro m entry he
  obtain ⟨payloads, hc, pre, hpre, rfl⟩ := h m entry he
  obtain ⟨payloads', hc', hg⟩ := hgr m payloads hc
  exact ⟨payloads', hc', pre, hpre.trans hg, rfl⟩

variable (w q epoch) in
/-- A write that leaves an epoch's record alone. If its author is on the committee and it carries a
signed record, that is of an epoch close enough not to outdate this one; and if it is of this very
epoch, it repeats the author's latest, or it is the author's first and joins the quorum under a
valid signature. -/
def Harmless (record : RewardRecord) (chains : RecordChains) (member : B32) (payload : Bytes) :
    Prop :=
  member ∈ q.members → ∀ sr ∈ w.decode payload, sr.record.epoch.satSub recordsKept ≤ epoch
    ∧ (sr.record.epoch = epoch → w.latest (chains.getD member []) epoch = some sr
      ∨ w.latest (chains.getD member []) epoch = none ∧ sr.record = record
        ∧ sigValid w epoch record sr.sig)
deriving Decidable

theorem share_eq_kept (chains : RecordChains) (epoch : U64) (member : B32) :
    w.share chains epoch member = w.kept (chains.getD member []) epoch := by
  rw [share, getD_eq_getD_getElem?]
  cases chains[member]? <;> rfl

theorem latest_singleton (payload : Bytes) (epoch : U64) :
    w.latest [payload] epoch = (w.decode payload).filter fun sr => sr.record.epoch = epoch := by
  rw [latest, attested_cons]
  cases w.decode payload with
  | none => rfl
  | some sr =>
    by_cases h : sr.record.epoch = epoch <;> simp [h, attested, Option.filter]

variable {payload : Bytes} {member : B32} {caches : RecordCaches}

theorem kept_concat {payloads : List Bytes}
    (h : ∀ sr ∈ w.decode payload, sr.record.epoch.satSub recordsKept ≤ epoch) :
    w.kept (payloads ++ [payload]) epoch = if w.Outdated payloads epoch then none
        else (w.latest [payload] epoch).or (w.latest payloads epoch) := by
  have hs : w.Outdated (payloads ++ [payload]) epoch ↔ w.Outdated payloads epoch := by
    simp only [Outdated, attested_append, mem_append, or_and_right, exists_or]
    refine or_iff_left ?_
    rintro ⟨sr, hsr, hlt⟩
    have hd : sr ∈ w.decode payload := by simpa [attested] using hsr
    exact not_lt.mpr (h sr hd) hlt
  rw [kept, latest_append]
  simp only [hs]

/-- **After a harmless write** a member's share is the one it had, or a first one for the record. -/
theorem share_commit (hm : member ∈ q.members)
    (h : w.Harmless q epoch record chains member payload) :
    w.share (commit chains member payload) epoch member = w.share chains epoch member
      ∨ w.share chains epoch member = none ∧ ∃ sr,
        w.share (commit chains member payload) epoch member = some sr ∧ sr.record = record
          ∧ sigValid w epoch record sr.sig := by
  have hc : (commit chains member payload).getD member [] = chains.getD member [] ++ [payload] := by
    simp [commit]
  rw [share_eq_kept, share_eq_kept, hc, kept_concat fun sr hsr => (h hm sr hsr).1, kept]
  split_ifs with hold
  · exact .inl rfl
  · rw [latest_singleton]
    cases hd : w.decode payload with
    | none => exact .inl rfl
    | some sr =>
      by_cases he : sr.record.epoch = epoch
      · rw [filter_some_pos (by simpa using he)]
        rcases (h hm sr hd).2 he with hre | ⟨hf, hr, hv⟩
        · exact .inl hre.symm
        · exact .inr ⟨hf, sr, rfl, hr, hv⟩
      · rw [filter_some_neg (by simpa using he)]
        exact .inl rfl

theorem share_commit_of_ne {x : B32} (h : x ≠ member) (payload : Bytes) :
    w.share (commit chains member payload) epoch x = w.share chains epoch x := by
  rw [share, share, commit, BTreeMap.getElem?_insert_of_ne _ (Ne.symm h)]

theorem shares_commit (h : w.Harmless q epoch record chains member payload) :
    w.shares q (commit chains member payload) epoch = w.shares q chains epoch
      ∨ ∃ before after sr, w.shares q chains epoch = before ++ after
        ∧ w.shares q (commit chains member payload) epoch = before ++ sr :: after
        ∧ sr.record = record ∧ sigValid w epoch record sr.sig := by
  have ho : ∀ l : List B32, member ∉ l → l.filterMap (w.share (commit chains member payload) epoch)
        = l.filterMap (w.share chains epoch) := fun l hl =>
    filterMap_congr fun x hx => share_commit_of_ne (ne_of_mem_of_not_mem hx hl) payload
  by_cases hm : member ∈ q.members
  · obtain ⟨l, l', hs⟩ := append_of_mem hm
    have hn := q.nodup_members
    rw [hs, nodup_middle, nodup_cons, mem_append, not_or] at hn
    rw [shares, shares, hs, filterMap_append, filterMap_append, ho l hn.1.1,
      filterMap_cons, filterMap_cons, ho l' hn.1.2]
    rcases share_commit hm h with hsa | ⟨hno, sr, hso, hr, hv⟩
    · rw [hsa]
      exact .inl rfl
    · rw [hno, hso]
      exact .inr ⟨_, _, sr, rfl, rfl, hr, hv⟩
  · exact .inl (ho q.members hm)

/-! ## The record stands -/

/-- The record has a quorum of voices, and no other has. -/
structure Stands (w : RecordWire) (q : Quorum) (epoch : U64) (record : RewardRecord)
    (chains : RecordChains) : Prop where
  carried : w.sigsFor q chains epoch record ≠ []
  quorum : q.threshold ≤ (w.voices q chains epoch record).card
  only : ∀ record', q.threshold ≤ (w.voices q chains epoch record').card → record' = record

theorem Stands.commit (h : Stands w q epoch record chains)
    (hh : w.Harmless q epoch record chains member payload) :
    Stands w q epoch record (commit chains member payload) := by
  obtain ⟨hc, hq, ho⟩ := h
  simp only [voices, sigsFor] at hc hq ho
  rcases shares_commit hh with hs | ⟨before, after, sr, hb, ha, hr, hva⟩
  · refine ⟨?_, ?_, ?_⟩ <;> simp only [voices, sigsFor, hs]
    · exact hc
    · exact hq
    · exact ho
  · rw [hb] at hc hq ho
    have hot : ∀ record', record' ≠ record →
        (before ++ sr :: after).filter (fun sr => sr.record = record')
          = (before ++ after).filter fun sr => sr.record = record' := by
      intro record' hne
      have hd : ¬ sr.record = record' := fun heq => hne (heq.symm.trans hr)
      simp [filter_append, hd]
    refine ⟨?_, ?_, fun record' hv => ?_⟩
    · simp [sigsFor, ha, hr]
    · refine hq.trans (Finset.card_le_card ?_)
      have hco : (sr :: after).filter (fun sr => sr.record = record)
          = sr :: after.filter fun sr => sr.record = record :=
        filter_cons_of_pos (decide_eq_true hr)
      simp only [voices, sigsFor, ha, filter_append, map_append, hco, map_cons]
      exact heard_subset_insert hva _ _
    · by_contra hne
      simp only [voices, sigsFor, ha, hot record' hne] at hv
      exact hne (ho record' hv)

theorem Stands.found {order : List RecordAttestation → List RecordAttestation}
    (h : Stands w q epoch record chains) (hf : w.CollisionFree chains)
    (hu : Unread w chains caches epoch) (ho : Iterates order) :
    (w.canonicalRecord order (some q) chains caches epoch).2 = some record :=
  canonicalRecord_of_voices hf hu ho h.carried h.quorum h.only

/-! ## Runs of writes and reads -/

/-- The chains, and the caches of one reader of them. -/
structure Reading where
  chains : RecordChains
  caches : RecordCaches

/-- A member commits a write, or the reader looks for an epoch's record. -/
inductive Event where
  | write (member : B32) (payload : Bytes)
  | read (order : List RecordAttestation → List RecordAttestation) (epoch : U64)

variable (w) in
/-- One event; `committee` is the committee of each epoch. -/
def Reading.step (committee : U64 → Option Quorum) (r : Reading) : Event → Reading
  | .write member payload => { r with chains := commit r.chains member payload }
  | .read order epoch =>
    { r with caches := (w.canonicalRecord order (committee epoch) r.chains r.caches epoch).1 }

variable (w epoch) in
/-- What finality of an epoch asks of an event. Once the reader has found the record, a write leaves
it alone; when the reader looks for it, no two records have a quorum of voices. -/
def Reading.Settled (committee : U64 → Option Quorum) (r : Reading) : Event → Prop
  | .write member payload => ∀ record ∈ r.caches.canonicalCache[epoch]?, ∀ q ∈ committee epoch,
      w.Harmless q epoch record r.chains member payload
  | .read order e => Iterates order ∧ (e = epoch → ∀ q ∈ committee epoch, ∀ record record',
      q.threshold ≤ (w.voices q r.chains epoch record).card →
        q.threshold ≤ (w.voices q r.chains epoch record').card → record = record')

instance (w : RecordWire) (epoch : U64) (committee : U64 → Option Quorum) (r : Reading)
    (member : B32) (payload : Bytes) :
    Decidable (r.Settled w epoch committee (.write member payload)) :=
  inferInstanceAs (Decidable (∀ record ∈ r.caches.canonicalCache[epoch]?, ∀ q ∈ committee epoch,
    w.Harmless q epoch record r.chains member payload))

variable {committee : U64 → Option Quorum} {r : Reading}

theorem grows_run (r : Reading) (l : List Event) :
    Grows r.chains (run (Reading.step w committee) r l).chains := by
  refine always (I := fun r' : Reading => Grows r.chains r'.chains) (Grows.refl _) fun r' a h => ?_
  cases a with
  | write member payload => exact h.trans (grows_commit _ member payload)
  | read order e => exact h

theorem scanned_canonicalRecord (h : w.Scanned chains caches.recordScan)
    (order : List RecordAttestation → List RecordAttestation) (committee : Option Quorum)
    (epoch : U64) :
    w.Scanned chains (w.canonicalRecord order committee chains caches epoch).1.recordScan := by
  unfold canonicalRecord
  split
  · exact h
  · split
    · exact h
    · exact (foldl_gatherShare h epoch _ ∅).1

theorem getElem?_canonicalCache (caches : RecordCaches)
    (order : List RecordAttestation → List RecordAttestation) (committee : Option Quorum)
    (epoch e : U64) :
    (w.canonicalRecord order committee chains caches e).1.canonicalCache[epoch]?
      = if e = epoch then (w.canonicalRecord order committee chains caches e).2
        else caches.canonicalCache[epoch]? := by
  unfold canonicalRecord
  cases hc : caches.canonicalCache[e]? with
  | some record =>
    dsimp only
    split_ifs with h
    · rw [← h, hc]
    · rfl
  | none =>
    cases committee with
    | none =>
      dsimp only
      split_ifs with h
      · rw [← h, hc]
      · rfl
    | some q =>
      dsimp only
      generalize Option.map RecordAttestation.record _ = found
      cases found with
      | none =>
        split_ifs with h
        · rw [← h]
          exact hc
        · rfl
      | some record =>
        change (caches.canonicalCache.insert e record)[epoch]? = _
        rw [BTreeMap.getElem?_insert]

theorem canonicalRecord_of_cached (h : caches.canonicalCache[epoch]? = some record)
    (order : List RecordAttestation → List RecordAttestation) (committee : Option Quorum) :
    (w.canonicalRecord order committee chains caches epoch).2 = some record := by
  unfold canonicalRecord
  rw [h]

theorem cached_step (h : r.caches.canonicalCache[epoch]? = some record) (a : Event) :
    (r.step w committee a).caches.canonicalCache[epoch]? = some record := by
  cases a with
  | write member payload => exact h
  | read order e =>
    rw [Reading.step, getElem?_canonicalCache]
    split_ifs with he
    · obtain rfl := he
      exact canonicalRecord_of_cached h order _
    · exact h

/-- The reader's scans are of the chains, and what it keeps of the epoch stands. -/
structure Reading.Final (w : RecordWire) (committee : U64 → Option Quorum) (epoch : U64)
    (r : Reading) : Prop where
  scanned : w.Scanned r.chains r.caches.recordScan
  stands : ∀ record ∈ r.caches.canonicalCache[epoch]?,
    ∃ q ∈ committee epoch, Stands w q epoch record r.chains

theorem final_init (committee : U64 → Option Quorum) (epoch : U64) (chains : RecordChains) :
    Reading.Final w committee epoch ⟨chains, .empty⟩ :=
  ⟨scanned_empty chains, fun record h => by simp [RecordCaches.empty] at h⟩

theorem Reading.Final.stands_of_found (h : Reading.Final w committee epoch r)
    {order : List RecordAttestation → List RecordAttestation}
    (hs : r.Settled w epoch committee (.read order epoch)) (hfr : w.CollisionFree r.chains)
    (hf : (w.canonicalRecord order (committee epoch) r.chains r.caches epoch).2 = some record) :
    ∃ q ∈ committee epoch, Stands w q epoch record r.chains := by
  cases hc : r.caches.canonicalCache[epoch]? with
  | some record' =>
    rw [canonicalRecord_of_cached hc order, Option.some.injEq] at hf
    exact h.stands record (hf ▸ hc)
  | none =>
    cases hq : committee epoch with
    | none =>
      unfold canonicalRecord at hf
      simp [hc, hq] at hf
    | some q =>
      rw [hq] at hf
      obtain ⟨hca, hqu⟩ :=
        voices_of_canonicalRecord hfr ⟨h.scanned, hc⟩ hs.1 hf
      exact ⟨q, rfl, hca, hqu, fun record' hq' =>
        hs.2 rfl q hq record' record hq' hqu⟩

theorem Reading.Final.step (h : Reading.Final w committee epoch r) {a : Event}
    (hs : r.Settled w epoch committee a) (hf : w.CollisionFree r.chains) :
    Reading.Final w committee epoch (r.step w committee a) := by
  cases a with
  | write member payload =>
    refine ⟨h.scanned.of_grows (grows_commit _ member payload), fun record hr => ?_⟩
    obtain ⟨q, hq, hst⟩ := h.stands record hr
    exact ⟨q, hq, hst.commit (hs record hr q hq)⟩
  | read order e =>
    refine ⟨scanned_canonicalRecord h.scanned order _ e, fun record hr => ?_⟩
    rw [mem_def, Reading.step, getElem?_canonicalCache] at hr
    split_ifs at hr with he
    · obtain rfl := he
      exact h.stands_of_found hs hf hr
    · exact h.stands record hr

/-! ## The share of a claim -/

variable (w) in
/-- `reward_share`: what the canonical record of an epoch gives an account, and nothing before it is
final. -/
def rewardShare (order : List RecordAttestation → List RecordAttestation)
    (committee : U64 → Option Quorum) (chains : RecordChains) (caches : RecordCaches) (epoch : U64)
    (account : B32) : U64 :=
  match (w.canonicalRecord order (committee epoch) chains caches epoch).2 with
  | some record => record.shareOf account
  | none => 0

variable (w) in
/-- A ledger whose reward claims resolve from the records a reader finds. -/
def ledger (order : List RecordAttestation → List RecordAttestation)
    (committee : U64 → Option Quorum) (chains : RecordChains) (caches : RecordCaches) (L : Ledger) :
    Ledger :=
  { L with rewardShare := w.rewardShare order committee chains caches }

theorem applyPayload_rewardClaim {L : Ledger} {share share' : U64 → B32 → U64} {account : B32}
    (hd : L.decode payload = some (.rewardClaim epoch))
    (hs : share epoch account = share' epoch account) (state : TokenState) :
    { L with rewardShare := share }.applyPayload account state payload
      = { L with rewardShare := share' }.applyPayload account state payload := by
  have hw : ∀ f : U64 → B32 → U64,
      { L with rewardShare := f }.write account state payload
        = (applyToken state (.rewardClaim epoch) account ⟨none, some (f epoch account)⟩).map
            (LedgerOp.rewardClaim epoch, ·) := by
    intro f
    simp only [Ledger.write, hd, bind_eq_bind, bind_some, Ledger.resolve]
    cases applyToken state (.rewardClaim epoch) account ⟨none, some (f epoch account)⟩ <;> rfl
  rw [Ledger.applyPayload, Ledger.applyPayload, hw, hw, hs]

variable (w committee) in
/-- The chains, and a reader that started with empty caches, after a run. -/
def Reading.after (chains₀ : RecordChains) (l : List Event) : Reading :=
  run (Reading.step w committee) ⟨chains₀, .empty⟩ l

theorem Reading.after_append_cons (chains₀ : RecordChains) (earlier later : List Event)
    (a : Event) :
    Reading.after w committee chains₀ (earlier ++ a :: later) = run (Reading.step w committee)
          ((Reading.after w committee chains₀ earlier).step w committee a) later :=
  run_append _ _ earlier (a :: later)

theorem Reading.final_after {chains₀ : RecordChains} {l : List Event}
    (hs : EachStep (Reading.step w committee) ⟨chains₀, .empty⟩
      (Reading.Settled w epoch committee) l)
    (hf : w.CollisionFree (Reading.after w committee chains₀ l).chains) :
    Reading.Final w committee epoch (Reading.after w committee chains₀ l) := by
  refine invariant (C := fun r a => r.Settled w epoch committee a ∧ w.CollisionFree r.chains)
    (final_init committee epoch chains₀) (fun r a h hC => h.step hC.1 hC.2) fun pre a hp => ?_
  -- every chain on the way is a part of the chain at the end
  obtain ⟨more, rfl⟩ := (prefix_append pre [a]).trans hp
  refine ⟨hs pre a hp, hf.of_grows ?_⟩
  rw [Reading.after, run_append]
  exact grows_run _ more

/-- **Finality**: in every run of writes and reads in which every event is `Settled`, once the
reader found a record for the epoch every fresh reader finds it from then on, whatever order it
iterates in, and a committed reward claim for the epoch folds as it did when the record was
found. -/
theorem finalized_stays {chains₀ : RecordChains} {earlier later : List Event}
    {order₀ : List RecordAttestation → List RecordAttestation}
    (hsettled : EachStep (Reading.step w committee) ⟨chains₀, .empty⟩
      (Reading.Settled w epoch committee) (earlier ++ .read order₀ epoch :: later))
    (hfree : w.CollisionFree
      (Reading.after w committee chains₀ (earlier ++ .read order₀ epoch :: later)).chains)
    (hfound : (w.canonicalRecord order₀ (committee epoch)
      (Reading.after w committee chains₀ earlier).chains
      (Reading.after w committee chains₀ earlier).caches epoch).2 = some record)
    {order : List RecordAttestation → List RecordAttestation} (horder : Iterates order) :
    (w.canonicalRecord order (committee epoch)
        (Reading.after w committee chains₀ (earlier ++ .read order₀ epoch :: later)).chains .empty
        epoch).2 = some record
      ∧ ∀ (L : Ledger) (account : B32) (state : TokenState) (payload : Bytes),
        L.decode payload = some (.rewardClaim epoch) → (w.ledger order committee
              (Reading.after w committee chains₀ (earlier ++ .read order₀ epoch :: later)).chains
              .empty L).applyPayload account state payload
            = (w.ledger order₀ committee (Reading.after w committee chains₀ earlier).chains
                (Reading.after w committee chains₀ earlier).caches L).applyPayload
                  account state payload := by
  have hcached : (Reading.after w committee chains₀
      (earlier ++ .read order₀ epoch :: later)).caches.canonicalCache[epoch]? = some record := by
    rw [Reading.after_append_cons]
    refine always (I := fun r : Reading => r.caches.canonicalCache[epoch]? = some record) ?_
      fun r a h => cached_step h a
    rw [Reading.step, getElem?_canonicalCache, if_pos rfl]
    exact hfound
  obtain ⟨q, hq, hstands⟩ := (Reading.final_after hsettled hfree).stands record hcached
  have hfresh : (w.canonicalRecord order (committee epoch)
      (Reading.after w committee chains₀ (earlier ++ .read order₀ epoch :: later)).chains .empty
      epoch).2 = some record := by
    rw [hq]
    exact hstands.found hfree (unread_empty w _ epoch) horder
  refine ⟨hfresh, fun L account state payload hdecode => ?_⟩
  refine applyPayload_rewardClaim hdecode ?_ state
  rw [rewardShare, rewardShare, hfresh, hfound]

end RecordWire

def sameCommittee : U64 → Option Quorum := fun _ => some threeOfFour

/-- After the record of epoch 7 was read, the fourth member joins the quorum, the first goes on to
epoch 9, and the second repeats itself. -/
def laterWrites : List RecordWire.Event :=
  [.write 4 [4, 7, 50, 1], .write 1 [1, 9, 60, 1], .write 2 [2, 7, 50, 1]]

theorem finalized_stays_laterWrites :
    (fourBytes.canonicalRecord List.reverse (sameCommittee 7)
      (RecordWire.Reading.after fourBytes sameCommittee honestChains
        ([] ++ .read id 7 :: laterWrites)).chains .empty 7).2 = some (onlyShare 7 50) := by
  have hplain : RecordWire.Plain fourBytes threeOfFour honestChains 7 :=
    RecordWire.plain_of_ownSigned (by decide +kernel) (by decide +kernel)
  refine (RecordWire.finalized_stays ?_ (by decide +kernel) (by decide +kernel)
    fun atts => reverse_perm atts).1
  refine eachStep_cons.mpr ⟨⟨fun atts => List.Perm.refl atts, ?_⟩, ?_⟩
  · rintro - q hq record record' h h'
    obtain rfl : threeOfFour = q := Option.some.inj hq
    exact hplain.one record record' ((hplain.agree record).mp h) ((hplain.agree record').mp h')
  · exact eachStep_cons.mpr ⟨by decide +kernel, eachStep_cons.mpr ⟨by decide +kernel,
      eachStep_cons.mpr ⟨by decide +kernel, eachStep_nil⟩⟩⟩

/-- An account that claims its share of epoch 7. -/
def claimant : Ledger where
  decode := fun payload => match payload with
    | [epoch] => some (.rewardClaim (Word.truncate epoch.val))
    | _ => none
  sequences := .ofList ([(9, [[7]])] : List (B32 × List Bytes)) compare
  rewardShare := fun _ _ => 0

/-- **Finality is lost in honest operation**: three members attested epoch 7 and the claim against
it folded to 50; one of them attests epoch 18, and a reader that starts now finds no record for
epoch 7 and the balance gone. -/
theorem outdated_epoch_unfinalized :
    (fourBytes.canonicalRecord id (some threeOfFour) honestChains .empty 7).2
      = some (onlyShare 7 50)
        ∧ (fourBytes.canonicalRecord id (some threeOfFour) (commit honestChains 1 [1, 18, 70, 1])
          .empty 7).2 = none
      ∧ ((fourBytes.ledger id sameCommittee honestChains .empty claimant).balance 9).balance = 50
      ∧ ((fourBytes.ledger id sameCommittee (commit honestChains 1 [1, 18, 70, 1])
          .empty claimant).balance 9).balance = 0 := by
  decide +kernel

end Zephcraft.Noded
