import Zephcraft.Noded.RecordChain

/-!
# Noded/Canonical — when the canonical record is the one a quorum attested

A record is *attested* by a member whose latest record for the epoch, on the member's own chain, is
this one under the member's own valid signature (`attesters`).
-/

namespace Zephcraft.Noded

open Zephcraft.Core Com Reward List Option Finset Word RecordAttestation

def Iterates (order : List RecordAttestation → List RecordAttestation) : Prop :=
  ∀ atts, (order atts).Perm atts

namespace RecordWire

variable (w : RecordWire) (q : Quorum) (chains : RecordChains) (epoch : U64)

/-- The members a reader counts for a record. -/
def voices (record : RewardRecord) : Finset B32 :=
  heard w q epoch record (w.sigsFor q chains epoch record)

/-- The members who attest a record: their latest for the epoch is this one, under their own valid
signature. -/
def attesters (record : RewardRecord) : Finset B32 :=
  q.body.filter fun x =>
    ∃ sr ∈ chains[x]?.bind fun payloads => w.latest payloads epoch,
      sr.record = record ∧ sr.sig.member = x ∧ sigValid w epoch record sr.sig

variable {w q chains epoch} {caches : RecordCaches} {record : RewardRecord}
  {order : List RecordAttestation → List RecordAttestation}

/-- A reader who has yet to find the epoch's record, with scans of the chains as they once were. -/
structure Unread (w : RecordWire) (chains : RecordChains) (caches : RecordCaches) (epoch : U64) :
    Prop where
  scanned : w.Scanned chains caches.recordScan
  uncached : caches.canonicalCache[epoch]? = none

theorem unread_empty (w : RecordWire) (chains : RecordChains) (epoch : U64) :
    Unread w chains .empty epoch :=
  ⟨scanned_empty chains, by simp [RecordCaches.empty]⟩

/-! ## What is found -/

theorem isCanonical_iff (hf : w.CollisionFree chains) {att : RecordAttestation}
    (h : att ∈ (w.groups q chains epoch).toList.map Prod.snd) :
    att.isCanonical w q ↔ q.threshold ≤ (w.voices q chains epoch att.record).card := by
  obtain ⟨first, rest, hsi, hatt⟩ := (mem_groups hf).mp h
  have hs : att.signers w q = w.voices q chains epoch att.record := by
    rw [voices, hsi, ← signers_collect, ← hatt]
  rw [isCanonical, hs, decide_eq_true_eq]

/-- **A record that is found** is carried by a member and has a quorum of voices. -/
theorem voices_of_canonicalRecord (hfr : w.CollisionFree chains)
    (hu : Unread w chains caches epoch) (ho : Iterates order)
    (h : (w.canonicalRecord order (some q) chains caches epoch).2 = some record) :
    w.sigsFor q chains epoch record ≠ [] ∧ q.threshold ≤ (w.voices q chains epoch record).card := by
  rw [canonicalRecord_snd hu.scanned hu.uncached, map_eq_some_iff] at h
  obtain ⟨att, hf, rfl⟩ := h
  have hmem := (ho _).mem_iff.mp (mem_of_find?_eq_some hf)
  have hc : att.isCanonical w q = true :=
    find?_some (p := fun att : RecordAttestation => att.isCanonical w q) hf
  refine ⟨?_, (isCanonical_iff hfr hmem).mp hc⟩
  obtain ⟨first, rest, hs, -⟩ := (mem_groups hfr).mp hmem
  rw [hs]
  exact cons_ne_nil first rest

theorem exists_group (hf : w.CollisionFree chains) (hs : w.sigsFor q chains epoch record ≠ [])
    (hv : q.threshold ≤ (w.voices q chains epoch record).card) :
    ∃ att ∈ (w.groups q chains epoch).toList.map Prod.snd,
      att.record = record ∧ att.isCanonical w q := by
  obtain ⟨first, rest, hl⟩ := exists_cons_of_ne_nil hs
  have hr : ((RecordAttestation.new epoch record first).collect w rest).record = record :=
    collect_record _ _
  have hmem : (RecordAttestation.new epoch record first).collect w rest
      ∈ (w.groups q chains epoch).toList.map Prod.snd :=
    (mem_groups hf).mpr ⟨first, rest, by rw [hr, hl], by rw [hr]⟩
  exact ⟨_, hmem, hr, (isCanonical_iff hf hmem).mpr (by rwa [hr])⟩

theorem exists_canonicalRecord (hfr : w.CollisionFree chains)
    (hu : Unread w chains caches epoch) (ho : Iterates order)
    (hs : w.sigsFor q chains epoch record ≠ [])
    (hv : q.threshold ≤ (w.voices q chains epoch record).card) :
    ∃ record', (w.canonicalRecord order (some q) chains caches epoch).2 = some record' := by
  obtain ⟨att, hmem, -, hc⟩ := exists_group hfr hs hv
  rw [canonicalRecord_snd hu.scanned hu.uncached]
  have hso := (find?_isSome (p := fun att : RecordAttestation => att.isCanonical w q)).mpr
    ⟨att, (ho _).mem_iff.mpr hmem, hc⟩
  obtain ⟨att', hf⟩ := isSome_iff_exists.mp hso
  exact ⟨att'.record, by rw [hf]; rfl⟩

/-- **Where one record alone has a quorum of voices**, it is what every reader finds. -/
theorem canonicalRecord_of_voices (hfr : w.CollisionFree chains)
    (hu : Unread w chains caches epoch) (ho : Iterates order)
    (hs : w.sigsFor q chains epoch record ≠ [])
    (hv : q.threshold ≤ (w.voices q chains epoch record).card)
    (hone : ∀ record', q.threshold ≤ (w.voices q chains epoch record').card → record' = record) :
    (w.canonicalRecord order (some q) chains caches epoch).2 = some record := by
  obtain ⟨record', hf⟩ := exists_canonicalRecord hfr hu ho hs hv
  rw [hf, hone record' (voices_of_canonicalRecord hfr hu ho hf).2]

/-- A group a hash map may well iterate to first. -/
def startingWith (att : RecordAttestation) (atts : List RecordAttestation) :
    List RecordAttestation :=
  if att ∈ atts then att :: atts.erase att else atts

theorem iterates_startingWith (att : RecordAttestation) : Iterates (startingWith att) := by
  intro atts
  rw [startingWith]
  split_ifs with h
  · exact (perm_cons_erase h).symm
  · exact List.Perm.refl _

theorem exists_order (hf : w.CollisionFree chains) (hu : Unread w chains caches epoch)
    (hs : w.sigsFor q chains epoch record ≠ [])
    (hv : q.threshold ≤ (w.voices q chains epoch record).card) :
    ∃ order, Iterates order
      ∧ (w.canonicalRecord order (some q) chains caches epoch).2 = some record := by
  obtain ⟨att, hmem, hr, hc⟩ := exists_group hf hs hv
  refine ⟨startingWith att, iterates_startingWith att, ?_⟩
  rw [canonicalRecord_snd hu.scanned hu.uncached, startingWith, if_pos hmem,
    find?_cons_of_pos (p := fun att : RecordAttestation => att.isCanonical w q) hc,
    map_some, hr]

/-! ## The exact condition -/

variable (w q chains epoch) in
/-- The attesters of a record who do not count: the first share of the record carries an invalid
signature in their name, or their own chain has outdated the epoch and no other share carries a
valid one. -/
def silenced (record : RewardRecord) : Finset B32 :=
  (w.attesters q chains epoch record).filter fun x =>
    Muted w epoch record (w.sigsFor q chains epoch record) x
      ∨ (∃ payloads ∈ chains[x]?, w.Outdated payloads epoch)
        ∧ ¬ Vouched w epoch record (w.sigsFor q chains epoch record) x

variable (w q chains epoch) in
/-- The members who count for a record without attesting it: some other share carries their
signature. -/
def borrowed (record : RewardRecord) : Finset B32 :=
  (q.body \ w.attesters q chains epoch record).filter fun x =>
    Vouched w epoch record (w.sigsFor q chains epoch record) x
      ∧ ¬ Muted w epoch record (w.sigsFor q chains epoch record) x

theorem mem_attesters {x : B32} :
    x ∈ w.attesters q chains epoch record ↔ x ∈ q.members ∧ ∃ payloads, chains[x]? = some payloads
        ∧ ∃ sr, w.latest payloads epoch = some sr ∧ sr.record = record ∧ sr.sig.member = x
          ∧ sigValid w epoch record sr.sig := by
  simp only [attesters, Finset.mem_filter, Quorum.mem_body, Option.mem_def, bind_eq_some_iff]
  constructor
  · rintro ⟨hx, sr, ⟨payloads, hc, hl⟩, hr⟩
    exact ⟨hx, payloads, hc, sr, hl, hr⟩
  · rintro ⟨hx, payloads, hc, sr, hl, hr⟩
    exact ⟨hx, sr, ⟨payloads, hc, hl⟩, hr⟩

theorem mem_sigsFor {s : CommitteeSig} :
    s ∈ w.sigsFor q chains epoch record
      ↔ ∃ m ∈ q.members, w.share chains epoch m = some ⟨record, s⟩ := by
  simp only [sigsFor, shares, List.mem_map, List.mem_filter, List.mem_filterMap, decide_eq_true_eq]
  constructor
  · rintro ⟨⟨_, _⟩, ⟨⟨m, hm, hs⟩, rfl⟩, rfl⟩
    exact ⟨m, hm, hs⟩
  · rintro ⟨m, hm, hs⟩
    exact ⟨⟨record, s⟩, ⟨⟨m, hm, hs⟩, rfl⟩, rfl⟩

theorem vouched_of_mem_attesters {x : B32} (h : x ∈ w.attesters q chains epoch record)
    (hk : ¬ ∃ payloads ∈ chains[x]?, w.Outdated payloads epoch) :
    Vouched w epoch record (w.sigsFor q chains epoch record) x := by
  obtain ⟨hx, payloads, hc, sr, hl, rfl, hm, hv⟩ := mem_attesters.mp h
  have hcu : ¬ w.Outdated payloads epoch := fun hold => hk ⟨payloads, hc, hold⟩
  refine ⟨sr.sig, mem_sigsFor.mpr ⟨x, hx, ?_⟩, hm, hv⟩
  rw [share, hc, bind_some, kept, if_neg hcu, hl]

theorem silenced_eq_sdiff :
    w.silenced q chains epoch record
      = w.attesters q chains epoch record \ w.voices q chains epoch record := by
  ext x
  rw [silenced, Finset.mem_filter, mem_sdiff, voices, mem_heard]
  refine and_congr_right fun hx => ?_
  have hm := (mem_attesters.mp hx).1
  have hv := mt (vouched_of_mem_attesters hx)
  tauto

theorem borrowed_eq_sdiff :
    w.borrowed q chains epoch record
      = w.voices q chains epoch record \ w.attesters q chains epoch record := by
  ext x
  simp only [borrowed, voices, heard, Finset.mem_filter, mem_sdiff]
  tauto

variable (w q chains epoch record) in
/-- **The count**: the voices are the attesters, less the silenced, plus the borrowed. -/
theorem card_voices_add_silenced :
    (w.voices q chains epoch record).card + (w.silenced q chains epoch record).card
      = (w.attesters q chains epoch record).card + (w.borrowed q chains epoch record).card := by
  rw [silenced_eq_sdiff, borrowed_eq_sdiff]
  have hv := card_inter_add_card_sdiff (w.voices q chains epoch record)
    (w.attesters q chains epoch record)
  have ha := card_inter_add_card_sdiff (w.attesters q chains epoch record)
    (w.voices q chains epoch record)
  rw [inter_comm] at ha
  omega

/-- No record loses its quorum to silenced attesters, none gains one by borrowed signatures, and at
most one has one. -/
structure Plain (w : RecordWire) (q : Quorum) (chains : RecordChains) (epoch : U64) : Prop where
  unlost : ∀ record, q.threshold ≤ (w.attesters q chains epoch record).card →
    q.threshold + (w.silenced q chains epoch record).card
      ≤ (w.attesters q chains epoch record).card + (w.borrowed q chains epoch record).card
  ungained : ∀ record, (w.attesters q chains epoch record).card < q.threshold →
    (w.attesters q chains epoch record).card + (w.borrowed q chains epoch record).card
      < q.threshold + (w.silenced q chains epoch record).card
  one : ∀ record record', q.threshold ≤ (w.attesters q chains epoch record).card →
    q.threshold ≤ (w.attesters q chains epoch record').card → record = record'

theorem Plain.agree (h : Plain w q chains epoch) (record : RewardRecord) :
    q.threshold ≤ (w.voices q chains epoch record).card
      ↔ q.threshold ≤ (w.attesters q chains epoch record).card := by
  have hc := card_voices_add_silenced w q chains epoch record
  constructor
  · intro hv
    by_contra hfew
    have := h.ungained record (not_le.mp hfew)
    omega
  · intro ha
    have := h.unlost record ha
    omega

theorem sigsFor_ne_nil (h : 0 < (w.voices q chains epoch record).card) :
    w.sigsFor q chains epoch record ≠ [] := by
  obtain ⟨x, hx⟩ := card_pos.mp h
  obtain ⟨-, ⟨s, hs, -⟩, -⟩ := mem_heard.mp hx
  exact ne_nil_of_mem hs

theorem Plain.threshold_pos (h : Plain w q chains epoch) : 0 < q.threshold := by
  by_contra hz
  obtain hz : q.threshold = 0 := Nat.eq_zero_of_not_pos hz
  have hs := h.one ⟨0, 0, [], [], 0, none, [], [], 0, 0, 0⟩ ⟨1, 0, [], [], 0, none, [], [], 0, 0, 0⟩
    (by rw [hz]; exact Nat.zero_le _) (by rw [hz]; exact Nat.zero_le _)
  exact absurd (congrArg RewardRecord.epoch hs) (by decide)

/-- **Reading with no caches finds a record exactly when a quorum attested it**, for every record
and whatever the order of iteration, if and only if voices and attesters agree on the quorum and no
two records have one. -/
theorem canonicalRecord_iff_quorum (hfree : w.CollisionFree chains) :
    (∀ order, Iterates order → ∀ record,
        (w.canonicalRecord order (some q) chains .empty epoch).2 = some record
          ↔ q.threshold ≤ (w.attesters q chains epoch record).card)
      ↔ Plain w q chains epoch := by
  have hunread := unread_empty w chains epoch
  constructor
  · intro h
    have hid : Iterates fun atts => atts := fun atts => List.Perm.refl atts
    refine ⟨fun record hattesters => ?_, fun record hfew => ?_, ?_⟩
    · have hfound := (h _ hid record).mpr hattesters
      have hvoices := (voices_of_canonicalRecord hfree hunread hid hfound).2
      rw [← card_voices_add_silenced]
      exact Nat.add_le_add_right hvoices _
    · rw [← card_voices_add_silenced]
      refine Nat.add_lt_add_right (not_le.mp fun hvoices => not_le.mpr hfew ?_) _
      obtain ⟨order, horder, hfound⟩ := exists_order hfree hunread
        (sigsFor_ne_nil ((Nat.zero_le _).trans_lt hfew |>.trans_le hvoices)) hvoices
      exact (h order horder record).mp hfound
    · intro record record' hattesters hattesters'
      exact Option.some.inj
        (((h _ hid record).mpr hattesters).symm.trans ((h _ hid record').mpr hattesters'))
  · intro hplain order horder record
    constructor
    · intro hfound
      exact (hplain.agree record).mp (voices_of_canonicalRecord hfree hunread horder hfound).2
    · intro hattesters
      have hvoices := (hplain.agree record).mpr hattesters
      exact canonicalRecord_of_voices hfree hunread horder
        (sigsFor_ne_nil (hplain.threshold_pos.trans_le hvoices)) hvoices fun record' hvoices' =>
          hplain.one record' record ((hplain.agree record').mp hvoices') hattesters

/-! ## Members who play by the rules -/

variable (w q chains epoch) in
/-- No member's chain has outdated the epoch, and each member's latest record for it carries the
member's own valid signature. -/
def OwnSigned : Prop :=
  ∀ x ∈ q.members, ∀ payloads ∈ chains[x]?, ¬ w.Outdated payloads epoch
    ∧ ∀ sr ∈ w.latest payloads epoch, sr.sig.member = x ∧ sigValid w epoch sr.record sr.sig

instance (w : RecordWire) (q : Quorum) (chains : RecordChains) (epoch : U64) :
    Decidable (w.OwnSigned q chains epoch) :=
  decidableBAll (fun x : B32 => ∀ payloads ∈ chains[x]?, ¬ w.Outdated payloads epoch
    ∧ ∀ sr ∈ w.latest payloads epoch, sr.sig.member = x ∧ sigValid w epoch sr.record sr.sig) _

theorem OwnSigned.of_mem_sigsFor (h : w.OwnSigned q chains epoch) {s : CommitteeSig}
    (hs : s ∈ w.sigsFor q chains epoch record) :
    sigValid w epoch record s ∧ s.member ∈ w.attesters q chains epoch record := by
  obtain ⟨m, hm, hsh⟩ := mem_sigsFor.mp hs
  obtain ⟨payloads, hc, hk⟩ := bind_eq_some_iff.mp hsh
  obtain ⟨hcu, hown⟩ := h m hm payloads hc
  rw [kept, if_neg hcu] at hk
  obtain ⟨rfl, hv⟩ := hown _ hk
  exact ⟨hv, mem_attesters.mpr ⟨hm, payloads, hc, _, hk, rfl, rfl, hv⟩⟩

theorem eq_of_mem_attesters {record' : RewardRecord} {x : B32}
    (h : x ∈ w.attesters q chains epoch record) (h' : x ∈ w.attesters q chains epoch record') :
    record = record' := by
  obtain ⟨-, payloads, hc, sr, hl, rfl, -⟩ := mem_attesters.mp h
  obtain ⟨-, payloads', hc', sr', hl', rfl, -⟩ := mem_attesters.mp h'
  obtain rfl : payloads = payloads' := Option.some.inj (hc.symm.trans hc')
  rw [Option.some.inj (hl.symm.trans hl')]

/-- **Where every member plays by the rules and quorums intersect**, reading is right. -/
theorem plain_of_ownSigned (h : w.OwnSigned q chains epoch) (hsiz : q.isIntersectionSized) :
    Plain w q chains epoch := by
  have hsi : ∀ record, w.silenced q chains epoch record = ∅ := by
    intro record
    refine filter_eq_empty_iff.mpr fun x hx => ?_
    rintro (⟨s, hs, -, hin⟩ | ⟨⟨payloads, hc, hold⟩, -⟩)
    · exact hin (h.of_mem_sigsFor (mem_of_mem_head? hs)).1
    · exact (h x (mem_attesters.mp hx).1 payloads hc).1 hold
  have hb : ∀ record, w.borrowed q chains epoch record = ∅ := by
    intro record
    refine filter_eq_empty_iff.mpr fun x hx => ?_
    rintro ⟨⟨s, hs, rfl, -⟩, -⟩
    exact (mem_sdiff.mp hx).2 (h.of_mem_sigsFor hs).2
  refine ⟨fun record ha => ?_, fun record hfew => ?_, fun record record' hr hr' => ?_⟩
  · rw [hsi, hb]
    exact ha
  · rw [hsi, hb]
    exact hfew
  · have hsub : ∀ r, w.attesters q chains epoch r ⊆ q.body := fun r => Finset.filter_subset _ _
    have hro : q.body.card
        < (w.attesters q chains epoch record).card + (w.attesters q chains epoch record').card := by
      have := Quorum.isIntersectionSized_iff.mp hsiz
      omega
    obtain ⟨x, hx⟩ := inter_nonempty_of_card_lt_card_add_card (hsub record) (hsub record') hro
    rw [mem_inter] at hx
    exact eq_of_mem_attesters hx.1 hx.2

/-! ## On given chains -/

variable (w chains) in
theorem collisionFree_iff :
    w.CollisionFree chains
      ↔ ∀ c ∈ chains.toList, ∀ c' ∈ chains.toList, ∀ sr ∈ w.attested c.2, ∀ sr' ∈ w.attested c'.2,
        w.cid sr.record = w.cid sr'.record → sr.record = sr'.record := by
  simp only [CollisionFree, Prod.forall, Std.ExtTreeMap.mem_toList_iff_getElem?_eq_some]
  exact ⟨fun h m ps hm m' ps' hm' => h m m' ps ps' hm hm', fun h m m' ps ps' hm hm' =>
    h m ps hm m' ps' hm'⟩

instance (w : RecordWire) (chains : RecordChains) : Decidable (w.CollisionFree chains) :=
  decidable_of_iff _ (collisionFree_iff w chains).symm

end RecordWire

/-- A record that gives one provider a share. -/
def onlyShare (epoch : U64) (amount : U64) : RewardRecord :=
  ⟨epoch, amount, [⟨9, amount, 0, 0⟩], [], 0, none, [], [], 0, 0, 0⟩

/-- Signatures that show their key, and ids that show what tells the records below apart. -/
def openWire : RecordWire :=
  ⟨.transparent, fun r => truncate (r.epoch.val * 2 ^ 64 + r.pool.val), fun _ => none⟩

/-- Payloads of four bytes: the member named, the epoch, the amount, and whether to sign. -/
def fourBytes : RecordWire :=
  { openWire with
    decode := fun payload =>
      match payload with
      | [member, epoch, amount, signs] =>
        let record := onlyShare (truncate epoch.val) (truncate amount.val)
        some ⟨record, if signs = 1 then signShare openWire record.epoch record (truncate member.val)
          else ⟨truncate member.val, []⟩⟩
      | _ => none }

def threeOfFour : Quorum := .genesis [1, 2, 3, 4] 3

/-- Three members sign the record of epoch 7; the fourth has written nothing. -/
def honestChains : RecordChains :=
  .ofList ([(1, [[1, 7, 50, 1]]), (2, [[2, 7, 50, 1]]), (3, [[3, 7, 50, 1]])] :
    List (B32 × List Bytes)) compare

theorem canonicalRecord_iff_quorum_honestChains :
    (∀ order, Iterates order → ∀ record,
        (fourBytes.canonicalRecord order (some threeOfFour) honestChains .empty 7).2 = some record
          ↔ threeOfFour.threshold ≤ (fourBytes.attesters threeOfFour honestChains 7 record).card)
      ∧ threeOfFour.threshold
        ≤ (fourBytes.attesters threeOfFour honestChains 7 (onlyShare 7 50)).card :=
  ⟨(RecordWire.canonicalRecord_iff_quorum (by decide +kernel)).mpr
    (RecordWire.plain_of_ownSigned (by decide +kernel) (by decide +kernel)), by decide +kernel⟩

/-- Members 2, 3 and 4 sign the record of epoch 7; member 1 carries it under no signature at all, in
member 2's name. -/
def spoiledChains : RecordChains :=
  .ofList ([(1, [[2, 7, 50, 0]]), (2, [[2, 7, 50, 1]]), (3, [[3, 7, 50, 1]]),
    (4, [[4, 7, 50, 1]])] : List (B32 × List Bytes)) compare

/-- **One member undoes a quorum**: three of four attest the record and no reader finds it. -/
theorem spoiled_share_hides_quorum :
    threeOfFour.threshold ≤ (fourBytes.attesters threeOfFour spoiledChains 7 (onlyShare 7 50)).card
      ∧ (fourBytes.canonicalRecord id (some threeOfFour) spoiledChains .empty 7).2 = none := by
  decide +kernel

end Zephcraft.Noded
