import Zephcraft.Noded.RecordAttest
import Zephcraft.Settlement.Store

/-!
# Noded/RecordChain — reading an epoch's canonical record off the members' chains

Every committee member writes the records it signed to a chain of its own. A reader scans the
chains, keeps of each the latest record of every epoch — but none further back than the claim window
behind the newest epoch it saw there — groups what the members carry by record, and returns the
record of a group that is canonical.
-/

namespace Zephcraft.Noded

open Zephcraft.Core Com Reward Settlement List Option Std.ExtTreeMap

/-- The scan cache of one member's chain. -/
structure MemberRecordCache where
  nextNonce : ℕ
  byEpoch : BTreeMap U64 SignedRecord

/-- The caches of a reader: its scans, by member, and the canonical records it has found. -/
structure RecordCaches where
  recordScan : BTreeMap B32 MemberRecordCache
  canonicalCache : BTreeMap U64 RewardRecord

def RecordCaches.empty : RecordCaches := ⟨∅, ∅⟩

abbrev RecordChains := BTreeMap B32 (List Bytes)

/-- How far behind the newest epoch of a chain its records are kept: `CLAIM_WINDOW_EPOCHS + 2`. -/
def recordsKept : U64 := claimWindowEpochs + 2

/-- The epochs of a chain no longer kept. -/
def MemberRecordCache.prune (byEpoch : BTreeMap U64 SignedRecord) : BTreeMap U64 SignedRecord :=
  match byEpoch.keys.max? with
  | none => byEpoch
  | some maxEp => byEpoch.filter fun e _ => maxEp.satSub recordsKept ≤ e

namespace RecordWire

variable (w : RecordWire)

/-- One payload of a scan: the latest attestation for an epoch wins. -/
def index (byEpoch : BTreeMap U64 SignedRecord) (payload : Bytes) : BTreeMap U64 SignedRecord :=
  match w.decode payload with
  | some sr => byEpoch.insert sr.record.epoch sr
  | none => byEpoch

/-- Resume the scan of a chain, and prune. -/
def resume (cache : MemberRecordCache) (payloads : List Bytes) : MemberRecordCache :=
  ⟨max cache.nextNonce payloads.length,
    MemberRecordCache.prune ((payloads.drop cache.nextNonce).foldl w.index cache.byEpoch)⟩

/-- A member's latest signed record for an epoch, and the scans after looking. -/
def shareOfMember (chains : RecordChains) (scans : BTreeMap B32 MemberRecordCache)
    (member : B32) (epoch : U64) : BTreeMap B32 MemberRecordCache × Option SignedRecord :=
  match chains[member]? with
  | none => (scans, none)
  | some payloads =>
    let entry := w.resume (scans.getD member ⟨0, ∅⟩) payloads
    (scans.insert member entry, entry.byEpoch[epoch]?)

/-- A share joins the attestation of its record, or starts it. -/
def join (epoch : U64) (att : Option RecordAttestation) (sr : SignedRecord) : RecordAttestation :=
  match att with
  | some att => (att.addSig w sr.sig).1
  | none => .new epoch sr.record sr.sig

/-- One round of gathering: a member's share goes to the group of its record. -/
def gatherShare (chains : RecordChains) (epoch : U64)
    (acc : BTreeMap B32 MemberRecordCache × BTreeMap B32 RecordAttestation)
    (member : B32) :
    BTreeMap B32 MemberRecordCache × BTreeMap B32 RecordAttestation :=
  match w.shareOfMember chains acc.1 member epoch with
  | (scans, none) => (scans, acc.2)
  | (scans, some sr) =>
    (scans, acc.2.insert (w.cid sr.record) (w.join epoch acc.2[w.cid sr.record]? sr))

/-- The canonical record of an epoch, and the caches after looking. -/
def canonicalRecord (order : List RecordAttestation → List RecordAttestation)
    (committee : Option Quorum) (chains : RecordChains) (caches : RecordCaches) (epoch : U64) :
    RecordCaches × Option RewardRecord :=
  match caches.canonicalCache[epoch]? with
  | some record => (caches, some record)
  | none =>
    match committee with
    | none => (caches, none)
    | some q =>
      let (scans, groups) := q.members.foldl (w.gatherShare chains epoch) (caches.recordScan, ∅)
      let found := ((order (groups.toList.map Prod.snd)).find?
        fun att => att.isCanonical w q).map RecordAttestation.record
      (⟨scans, found.elim caches.canonicalCache (caches.canonicalCache.insert epoch)⟩, found)

/-! ## What a scan keeps -/

variable (payloads : List Bytes)

def attested : List SignedRecord := payloads.filterMap w.decode

/-- The latest signed record for an epoch on a chain. -/
def latest (epoch : U64) : Option SignedRecord :=
  ((w.attested payloads).filter fun sr => sr.record.epoch = epoch).getLast?

/-- Has the chain moved on too far for the epoch to be kept? -/
def Outdated (epoch : U64) : Prop :=
  ∃ sr ∈ w.attested payloads, epoch < sr.record.epoch.satSub recordsKept
deriving Decidable

/-- The record of an epoch a reader keeps of a chain. -/
def kept (epoch : U64) : Option SignedRecord :=
  if w.Outdated payloads epoch then none else w.latest payloads epoch

variable {w}

theorem attested_cons (payload : Bytes) (payloads : List Bytes) :
    w.attested (payload :: payloads) = (w.decode payload).toList ++ w.attested payloads := by
  rw [attested, attested, filterMap_cons]
  cases w.decode payload <;> rfl

variable {sr : SignedRecord} (payloads : List Bytes) (byEpoch : BTreeMap U64 SignedRecord)

theorem attested_append (more : List Bytes) :
    w.attested (payloads ++ more) = w.attested payloads ++ w.attested more := by
  simp [attested]

theorem latest_append (more : List Bytes) (epoch : U64) :
    w.latest (payloads ++ more) epoch = (w.latest more epoch).or (w.latest payloads epoch) := by
  rw [latest, latest, latest, attested_append, filter_append, getLast?_append]

theorem mem_of_latest {payloads : List Bytes} {epoch : U64}
    (h : w.latest payloads epoch = some sr) :
    sr ∈ w.attested payloads ∧ sr.record.epoch = epoch := by
  have hmem := mem_of_getLast? h
  rw [List.mem_filter] at hmem
  exact ⟨hmem.1, of_decide_eq_true hmem.2⟩

theorem isSome_latest {payloads : List Bytes} {epoch : U64} :
    (w.latest payloads epoch).isSome ↔ ∃ sr ∈ w.attested payloads, sr.record.epoch = epoch := by
  rw [latest, isSome_iff_ne_none, ne_eq, getLast?_eq_none_iff, filter_eq_nil_iff]
  simp

/-- **A scan indexes the latest record of every epoch**, over what was indexed before. -/
theorem getElem?_foldl_index (epoch : U64) :
    (payloads.foldl w.index byEpoch)[epoch]? = (w.latest payloads epoch).or byEpoch[epoch]? := by
  induction payloads generalizing byEpoch with
  | nil => rfl
  | cons payload payloads ih =>
    rw [foldl_cons, ih, ← singleton_append, latest_append, Option.or_assoc]
    congr 1
    rw [index, latest, attested_cons]
    cases w.decode payload with
    | none => rfl
    | some sr =>
      rw [BTreeMap.getElem?_insert]
      by_cases h : sr.record.epoch = epoch
      · simp [h, attested]
      · simp [h, attested]

theorem lt_satSub_of_le {epoch e e' : U64} (h : e ≤ e') (hlt : epoch < e.satSub recordsKept) :
    epoch < e'.satSub recordsKept := by
  rw [Fin.le_def] at h
  rw [Fin.lt_def, Word.val_satSub] at hlt ⊢
  omega

/-- Does an indexed epoch outdate this one? -/
def Stale (byEpoch : BTreeMap U64 SignedRecord) (epoch : U64) : Prop :=
  ∃ e ∈ byEpoch.keys, epoch < e.satSub recordsKept
deriving Decidable

theorem getElem?_prune (epoch : U64) :
    (MemberRecordCache.prune byEpoch)[epoch]?
      = if Stale byEpoch epoch then none else byEpoch[epoch]? := by
  rw [MemberRecordCache.prune]
  cases hmax : byEpoch.keys.max? with
  | none =>
    rw [max?_eq_none_iff] at hmax
    simp [Stale, hmax]
  | some maxEp =>
    obtain ⟨hmem, hle⟩ := max?_eq_some_iff.mp hmax
    rw [getElem?_filter']
    split_ifs with h
    · obtain ⟨e, he, hlt⟩ := h
      have hno : ¬ maxEp.satSub recordsKept ≤ epoch := not_le.mpr (lt_satSub_of_le (hle e he) hlt)
      cases byEpoch[epoch]? <;> simp [hno]
    · have hyes : maxEp.satSub recordsKept ≤ epoch :=
        not_lt.mp fun hlt => h ⟨maxEp, hmem, hlt⟩
      cases byEpoch[epoch]? <;> simp [hyes]

theorem stale_foldl_index {payloads : List Bytes} {byEpoch : BTreeMap U64 SignedRecord}
    {epoch : U64} :
    Stale (payloads.foldl w.index byEpoch) epoch
      ↔ w.Outdated payloads epoch ∨ Stale byEpoch epoch := by
  simp only [Stale, Outdated, Std.ExtTreeMap.mem_keys, mem_iff_isSome_getElem?,
    getElem?_foldl_index, isSome_or, Bool.or_eq_true, isSome_latest, or_and_right, exists_or]
  refine or_congr_left ⟨?_, ?_⟩
  · rintro ⟨e, ⟨sr, hsr, rfl⟩, hlt⟩
    exact ⟨sr, hsr, hlt⟩
  · rintro ⟨sr, hsr, hlt⟩
    exact ⟨_, ⟨sr, hsr, rfl⟩, hlt⟩

theorem mem_keys_prune {byEpoch : BTreeMap U64 SignedRecord} {e : U64} :
    e ∈ (MemberRecordCache.prune byEpoch).keys ↔ e ∈ byEpoch.keys ∧ ¬ Stale byEpoch e := by
  simp only [Std.ExtTreeMap.mem_keys, mem_iff_isSome_getElem?, getElem?_prune]
  split_ifs with h <;> simp [h]

theorem stale_prune {byEpoch : BTreeMap U64 SignedRecord} {epoch : U64} :
    Stale (MemberRecordCache.prune byEpoch) epoch ↔ Stale byEpoch epoch := by
  constructor
  · rintro ⟨e, he, hlt⟩
    exact ⟨e, (mem_keys_prune.mp he).1, hlt⟩
  · rintro ⟨e, he, hlt⟩
    obtain ⟨maxEp, hmax⟩ := ne_none_iff_exists'.mp (mt max?_eq_none_iff.mp (ne_nil_of_mem he))
    obtain ⟨hmem, hle⟩ := max?_eq_some_iff.mp hmax
    have hf : ¬ Stale byEpoch maxEp := by
      rintro ⟨e', he', hlt'⟩
      have := hle e' he'
      rw [Fin.lt_def, Word.val_satSub] at hlt'
      rw [Fin.le_def] at this
      omega
    exact ⟨maxEp, mem_keys_prune.mpr ⟨hmem, hf⟩, lt_satSub_of_le (hle e he) hlt⟩

variable (w) in
/-- The cache of a chain scanned from its start. -/
def scan : MemberRecordCache :=
  ⟨payloads.length, MemberRecordCache.prune (payloads.foldl w.index ∅)⟩

/-- **A scan keeps** the latest record of every epoch the chain has not outdated. -/
theorem getElem?_scan (epoch : U64) :
    (w.scan payloads).byEpoch[epoch]? = w.kept payloads epoch := by
  have he : ¬ Stale ∅ epoch := by simp [Stale]
  have hs : Stale (payloads.foldl w.index ∅) epoch ↔ w.Outdated payloads epoch :=
    stale_foldl_index.trans (or_iff_left he)
  rw [scan, getElem?_prune, getElem?_foldl_index, kept]
  simp [hs]

theorem prune_foldl_prune :
    MemberRecordCache.prune (payloads.foldl w.index (MemberRecordCache.prune byEpoch))
      = MemberRecordCache.prune (payloads.foldl w.index byEpoch) := by
  refine Std.ExtTreeMap.ext_getElem? fun epoch => ?_
  simp only [getElem?_prune, stale_foldl_index, stale_prune, getElem?_foldl_index]
  by_cases hs : Stale byEpoch epoch <;> simp [hs]

theorem resume_scan {pre payloads : List Bytes} (h : pre <+: payloads) :
    w.resume (w.scan pre) payloads = w.scan payloads := by
  obtain ⟨more, rfl⟩ := h
  rw [resume, scan, drop_left, prune_foldl_prune, ← foldl_append, scan]
  simp

theorem resume_empty : w.resume ⟨0, ∅⟩ payloads = w.scan payloads := by
  simp [resume, scan]

/-! ## Reading with caches -/

variable (w) in
/-- Every cached scan is the scan of a chain as it once was. -/
def Scanned (chains : RecordChains) (scans : BTreeMap B32 MemberRecordCache) : Prop :=
  ∀ (member : B32) (entry : MemberRecordCache), scans[member]? = some entry →
    ∃ payloads, chains[member]? = some payloads ∧ ∃ pre, pre <+: payloads ∧ entry = w.scan pre

theorem scanned_empty (chains : RecordChains) : w.Scanned chains ∅ := fun member entry h => by
  simp at h

variable (w) in
/-- The record of an epoch a reader has from a member. -/
def share (chains : RecordChains) (epoch : U64) (member : B32) : Option SignedRecord :=
  chains[member]?.bind fun payloads => w.kept payloads epoch

variable {chains : RecordChains} {scans : BTreeMap B32 MemberRecordCache} {epoch : U64}

/-- **Caches make no difference** to what is read of a member, and reading keeps them sound. -/
theorem shareOfMember_of_scanned (h : w.Scanned chains scans) (member : B32) (epoch : U64) :
    w.Scanned chains (w.shareOfMember chains scans member epoch).1
      ∧ (w.shareOfMember chains scans member epoch).2 = w.share chains epoch member := by
  rw [shareOfMember, share]
  cases hc : chains[member]? with
  | none => exact ⟨h, rfl⟩
  | some payloads =>
    have he : w.resume (scans.getD member ⟨0, ∅⟩) payloads = w.scan payloads := by
      rw [getD_eq_getD_getElem?]
      cases hs : scans[member]? with
      | none => exact resume_empty payloads
      | some entry =>
        obtain ⟨payloads', hc', pre, hpre, rfl⟩ := h member entry hs
        obtain rfl : payloads = payloads' := Option.some.inj (hc.symm.trans hc')
        exact resume_scan hpre
    refine ⟨?_, ?_⟩
    · intro m entry hm
      rw [BTreeMap.getElem?_insert] at hm
      split_ifs at hm with hkey
      · obtain rfl := hkey
        cases hm
        exact ⟨payloads, hc, payloads, prefix_rfl, he⟩
      · exact h m entry hm
    · change (w.resume (scans.getD member ⟨0, ∅⟩) payloads).byEpoch[epoch]? = _
      rw [he, getElem?_scan]
      rfl

variable (w) in
/-- A share goes to the group of its record. -/
def group (epoch : U64) (groups : BTreeMap B32 RecordAttestation) (sr : SignedRecord) :
    BTreeMap B32 RecordAttestation :=
  groups.insert (w.cid sr.record) (w.join epoch groups[w.cid sr.record]? sr)

theorem foldl_gatherShare (h : w.Scanned chains scans) (epoch : U64) (members : List B32)
    (groups : BTreeMap B32 RecordAttestation) :
    w.Scanned chains (members.foldl (w.gatherShare chains epoch) (scans, groups)).1
      ∧ (members.foldl (w.gatherShare chains epoch) (scans, groups)).2
        = (members.filterMap (w.share chains epoch)).foldl (w.group epoch) groups := by
  induction members generalizing scans groups with
  | nil => exact ⟨h, rfl⟩
  | cons member members ih =>
    obtain ⟨hs, hsh⟩ := shareOfMember_of_scanned h member epoch
    rw [foldl_cons, filterMap_cons, ← hsh, gatherShare]
    dsimp only
    generalize w.shareOfMember chains scans member epoch = read at hs
    obtain ⟨scans', share⟩ := read
    cases share with
    | none => exact ih hs groups
    | some sr => exact ih hs _

variable (w) in
/-- The shares of a committee's members, in their order. -/
def shares (q : Quorum) (chains : RecordChains) (epoch : U64) : List SignedRecord :=
  q.members.filterMap (w.share chains epoch)

variable (w) in
def groups (q : Quorum) (chains : RecordChains) (epoch : U64) : BTreeMap B32 RecordAttestation :=
  (w.shares q chains epoch).foldl (w.group epoch) ∅

/-- **What a reader finds** that has not found the epoch's record before: the record of the first
canonical group. -/
theorem canonicalRecord_snd {caches : RecordCaches} {q : Quorum}
    (hs : w.Scanned chains caches.recordScan) (hc : caches.canonicalCache[epoch]? = none)
    (order : List RecordAttestation → List RecordAttestation) :
    (w.canonicalRecord order (some q) chains caches epoch).2
      = ((order ((w.groups q chains epoch).toList.map Prod.snd)).find?
          fun att => att.isCanonical w q).map RecordAttestation.record := by
  rw [groups, shares, ← (foldl_gatherShare hs epoch q.members ∅).2, canonicalRecord, hc]

/-! ## The groups -/

variable (w) in
/-- The signatures the members carry on a record, in their order. -/
def sigsFor (q : Quorum) (chains : RecordChains) (epoch : U64) (record : RewardRecord) :
    List CommitteeSig :=
  ((w.shares q chains epoch).filter fun sr => sr.record = record).map SignedRecord.sig

variable (w) in
/-- Different records on the chains have different content ids. -/
def CollisionFree (chains : RecordChains) : Prop :=
  ∀ (m m' : B32) (payloads payloads' : List Bytes), chains[m]? = some payloads →
    chains[m']? = some payloads' → ∀ sr ∈ w.attested payloads, ∀ sr' ∈ w.attested payloads',
      w.cid sr.record = w.cid sr'.record → sr.record = sr'.record

variable {q : Quorum}

theorem mem_attested_of_mem_shares (h : sr ∈ w.shares q chains epoch) :
    ∃ (m : B32) (payloads : List Bytes), chains[m]? = some payloads ∧ sr ∈ w.attested payloads := by
  obtain ⟨m, -, hs⟩ := List.mem_filterMap.mp h
  obtain ⟨payloads, hc, hk⟩ := bind_eq_some_iff.mp hs
  rw [kept] at hk
  split_ifs at hk
  exact ⟨m, payloads, hc, (mem_of_latest hk).1⟩

theorem filter_cid_eq (hf : w.CollisionFree chains) (h : sr ∈ w.shares q chains epoch) :
    (w.shares q chains epoch).filter (fun sr' => w.cid sr'.record = w.cid sr.record)
      = (w.shares q chains epoch).filter fun sr' => sr'.record = sr.record := by
  refine filter_congr fun sr' h' => decide_eq_decide.mpr ⟨fun hcid => ?_, congrArg w.cid⟩
  obtain ⟨m, payloads, hc, hmem⟩ := mem_attested_of_mem_shares h
  obtain ⟨m', payloads', hc', hmem'⟩ := mem_attested_of_mem_shares h'
  exact hf m' m payloads' payloads hc' hc sr' hmem' sr hmem hcid

theorem foldl_join (first : SignedRecord) (rest : List SignedRecord) :
    (first :: rest).foldl (fun att sr => some (w.join epoch att sr)) none
      = some ((RecordAttestation.new epoch first.record first.sig).collect w
          (rest.map SignedRecord.sig)) := by
  rw [foldl_cons, join]
  generalize RecordAttestation.new epoch first.record first.sig = att
  induction rest generalizing att with
  | nil => rfl
  | cons sr rest ih => exact ih _

theorem getElem?_groups (key : B32) :
    (w.groups q chains epoch)[key]?
      = ((w.shares q chains epoch).filter fun sr => w.cid sr.record = key).foldl
          (fun att sr => some (w.join epoch att sr)) none := by
  have h := BTreeMap.getElem?_foldl_merge (fun sr : SignedRecord => w.cid sr.record) (w.join epoch)
    (w.shares q chains epoch) ∅ key
  rw [getElem?_empty] at h
  exact h

/-- **The groups** are the records some member carries, each with the signatures carried on it. -/
theorem mem_groups (hf : w.CollisionFree chains) {att : RecordAttestation} :
    att ∈ (w.groups q chains epoch).toList.map Prod.snd
      ↔ ∃ first rest, w.sigsFor q chains epoch att.record = first :: rest
        ∧ att = (RecordAttestation.new epoch att.record first).collect w rest := by
  constructor
  · intro h
    obtain ⟨⟨key, att⟩, hmem, rfl⟩ := List.mem_map.mp h
    dsimp only
    rw [mem_toList_iff_getElem?_eq_some, getElem?_groups] at hmem
    cases hl : (w.shares q chains epoch).filter fun sr => w.cid sr.record = key with
    | nil => simp [hl] at hmem
    | cons sr rest =>
      obtain ⟨hsr, hkey⟩ := List.mem_filter.mp (hl ▸ mem_cons_self : sr ∈ _)
      obtain rfl : w.cid sr.record = key := of_decide_eq_true hkey
      rw [hl, foldl_join, Option.some.injEq] at hmem
      have hr : sr.record = att.record := by
        rw [← hmem, RecordAttestation.collect_record]
        rfl
      rw [filter_cid_eq hf hsr, hr] at hl
      exact ⟨sr.sig, rest.map SignedRecord.sig, by rw [sigsFor, hl]; rfl, by
        rw [← hr]
        exact hmem.symm⟩
  · rintro ⟨first, rest, hs, hatt⟩
    obtain ⟨sr, rest', hl, rfl, rfl⟩ := map_eq_cons_iff.mp hs
    obtain ⟨hsr, hr⟩ := List.mem_filter.mp (hl ▸ mem_cons_self : sr ∈ _)
    replace hr : sr.record = att.record := of_decide_eq_true hr
    refine List.mem_map.mpr ⟨(w.cid sr.record, att), ?_, rfl⟩
    rw [mem_toList_iff_getElem?_eq_some, getElem?_groups, filter_cid_eq hf hsr,
      hr, hl, foldl_join, hr, ← hatt]

end RecordWire

end Zephcraft.Noded
