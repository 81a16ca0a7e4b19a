import Zephcraft.Com.Quorum
import Zephcraft.Reward.Record

/-!
# Noded/RecordAttest — committee signatures on an epoch's record

Each member of an epoch's committee signs the record it computed; an attestation collects the
signatures on one record and is canonical once a quorum of the committee is among them. The first
signature is taken unchecked, so that an invalid one in a member's name mutes that member.
-/

namespace Zephcraft.Noded

open Zephcraft.Core Com Reward List

/-- One committee member's signature attesting an epoch record. -/
structure CommitteeSig where
  member : B32
  sig : Bytes
deriving DecidableEq

/-- An epoch record and the signatures attesting it. -/
structure RecordAttestation where
  epoch : U64
  record : RewardRecord
  sigs : List CommitteeSig
deriving DecidableEq

/-- What a member writes to its records chain: the record it computed, and its signature. -/
structure SignedRecord where
  record : RewardRecord
  sig : CommitteeSig
deriving DecidableEq

/-- What records are written and read with: the signature scheme, the content id of a record's
encoding, and how a committed payload decodes. -/
structure RecordWire where
  scheme : SigScheme
  cid : RewardRecord → B32
  decode : Bytes → Option SignedRecord

/-- `RECORD_DOMAIN`. -/
def recordDomain : Bytes := ascii "craftec/epoch-record/1"

variable (w : RecordWire) (epoch : U64) (record : RewardRecord)

/-- The bytes a member signs: the domain, the epoch and the record's content id. -/
def recordSigningBytes : Bytes :=
  recordDomain ++ epoch.toLeBytes ++ (w.cid record).toBytes

def signShare (identity : w.scheme.Secret) :
    CommitteeSig :=
  ⟨w.scheme.nodeId identity, w.scheme.sign identity (recordSigningBytes w epoch record)⟩

/-- Is this a signature, by the member it names, over the epoch and the record? -/
def sigValid (s : CommitteeSig) : Bool :=
  w.scheme.verifyBytes s.member (recordSigningBytes w epoch record) s.sig

namespace RecordAttestation

variable (w : RecordWire)

/-- Start an attestation from one member's signature, which is not checked. -/
def new (epoch : U64) (record : RewardRecord) (first : CommitteeSig) : RecordAttestation :=
  ⟨epoch, record, [first]⟩

variable (a : RecordAttestation)

/-- Add another signature, unless its member is there already or it is invalid; was it added? -/
def addSig (s : CommitteeSig) : RecordAttestation × Bool :=
  if (a.sigs.any fun x => x.member = s.member) || !sigValid w a.epoch a.record s then (a, false)
  else ({ a with sigs := a.sigs ++ [s] }, true)

/-- The committee members who validly signed. -/
def signers (committee : Quorum) : Finset B32 :=
  ((a.sigs.filter fun s => committee.isMember s.member && sigValid w a.epoch a.record s).map
    CommitteeSig.member).toFinset

def isCanonical (committee : Quorum) : Bool :=
  committee.threshold ≤ (a.signers w committee).card

variable {w}

variable {a : RecordAttestation} {committee : Quorum} {x : B32}

theorem mem_signers :
    x ∈ a.signers w committee
      ↔ x ∈ committee.members ∧ ∃ s ∈ a.sigs, s.member = x ∧ sigValid w a.epoch a.record s := by
  simp only [signers, Quorum.isMember, mem_toFinset, mem_map, mem_filter,
    Bool.and_eq_true, decide_eq_true_eq]
  constructor
  · rintro ⟨s, ⟨hs, hm, hv⟩, rfl⟩
    exact ⟨hm, s, hs, rfl, hv⟩
  · rintro ⟨hm, s, hs, rfl, hv⟩
    exact ⟨s, ⟨hs, hm, hv⟩, rfl⟩

/-! ## Collecting signatures -/

variable (w) in
/-- The attestation after a list of further signatures. -/
def collect (sigs : List CommitteeSig) : RecordAttestation :=
  sigs.foldl (fun a s => (a.addSig w s).1) a

@[simp] theorem addSig_epoch (a : RecordAttestation) (s : CommitteeSig) :
    (a.addSig w s).1.epoch = a.epoch := by
  unfold addSig
  split <;> rfl

@[simp] theorem addSig_record (a : RecordAttestation) (s : CommitteeSig) :
    (a.addSig w s).1.record = a.record := by
  unfold addSig
  split <;> rfl

@[simp] theorem collect_record (a : RecordAttestation) (sigs : List CommitteeSig) :
    (a.collect w sigs).record = a.record := by
  induction sigs generalizing a with
  | nil => rfl
  | cons s sigs ih => exact (ih _).trans (addSig_record a s)

def Names (x : B32) : Prop := ∃ s ∈ a.sigs, s.member = x

theorem addSig_cases (a : RecordAttestation) (s : CommitteeSig) :
    (a.Names s.member ∨ ¬ sigValid w a.epoch a.record s) ∧ (a.addSig w s).1 = a
      ∨ ¬ a.Names s.member ∧ sigValid w a.epoch a.record s
        ∧ (a.addSig w s).1 = { a with sigs := a.sigs ++ [s] } := by
  have hn : (a.sigs.any fun x => x.member = s.member) = true ↔ a.Names s.member := by
    simp [Names]
  unfold addSig
  split_ifs with hadd
  · rw [Bool.or_eq_true, hn, Bool.not_eq_true'] at hadd
    exact .inl ⟨hadd.imp_right (by simp), rfl⟩
  · rw [Bool.or_eq_true, hn, Bool.not_eq_true', not_or, Bool.not_eq_false] at hadd
    exact .inr ⟨hadd.1, hadd.2, rfl⟩

theorem mem_signers_addSig {s : CommitteeSig} :
    x ∈ (a.addSig w s).1.signers w committee ↔ x ∈ a.signers w committee
        ∨ x ∈ committee.members ∧ ¬ a.Names x ∧ s.member = x ∧ sigValid w a.epoch a.record s := by
  rcases a.addSig_cases s (w := w) with ⟨hno, hfst⟩ | ⟨hn, hva, hfst⟩
  · rw [hfst]
    refine (or_iff_left ?_).symm
    rintro ⟨-, hn, rfl, hva⟩
    exact hno.elim hn fun h => h hva
  · rw [hfst, mem_signers, mem_signers]
    constructor
    · rintro ⟨hx, t, ht, rfl, hv⟩
      obtain ht | rfl : t ∈ a.sigs ∨ t = s := by simpa using ht
      · exact .inl ⟨hx, t, ht, rfl, hv⟩
      · exact .inr ⟨hx, hn, rfl, hv⟩
    · rintro (⟨hx, t, ht, rfl, hv⟩ | ⟨hx, -, rfl, -⟩)
      · exact ⟨hx, t, mem_append_left _ ht, rfl, hv⟩
      · exact ⟨hx, s, by simp, rfl, hva⟩

theorem names_addSig {s : CommitteeSig} :
    (a.addSig w s).1.Names x ↔ a.Names x ∨ s.member = x ∧ sigValid w a.epoch a.record s := by
  rcases a.addSig_cases s (w := w) with ⟨hno, hfst⟩ | ⟨-, hv, hfst⟩
  · rw [hfst]
    refine (or_iff_left_of_imp ?_).symm
    rintro ⟨rfl, hv⟩
    exact hno.elim id fun h => absurd hv h
  · simp [hfst, Names, or_and_right, exists_or, hv]

/-- **A list of further signatures**: those that count are the valid ones of members not named
before. -/
theorem mem_signers_collect {sigs : List CommitteeSig} :
    x ∈ (a.collect w sigs).signers w committee ↔ x ∈ a.signers w committee
        ∨ x ∈ committee.members ∧ ¬ a.Names x
          ∧ ∃ s ∈ sigs, s.member = x ∧ sigValid w a.epoch a.record s := by
  induction sigs generalizing a with
  | nil => simp [collect]
  | cons s sigs ih =>
    change x ∈ ((a.addSig w s).1.collect w sigs).signers w committee ↔ _
    rw [ih, mem_signers_addSig, names_addSig, addSig_epoch, addSig_record]
    simp only [mem_cons, exists_eq_or_imp]
    tauto

end RecordAttestation

/-! ## Who is heard -/

/-- Does a valid signature of `x` stand among these? -/
def Vouched (sigs : List CommitteeSig) (x : B32) : Prop :=
  ∃ s ∈ sigs, s.member = x ∧ sigValid w epoch record s
deriving Decidable

/-- Is the first of these an invalid signature in the name of `x`? -/
def Muted (sigs : List CommitteeSig) (x : B32) : Prop :=
  ∃ s ∈ sigs.head?, s.member = x ∧ ¬ sigValid w epoch record s

instance (w : RecordWire) (epoch : U64) (record : RewardRecord) (sigs : List CommitteeSig)
    (x : B32) : Decidable (Muted w epoch record sigs x) :=
  match h : sigs.head? with
  | none => isFalse fun ⟨_, hs, _⟩ => by simp [h] at hs
  | some s => decidable_of_iff (s.member = x ∧ ¬ sigValid w epoch record s) (by simp [Muted, h])

/-- The members a list of signatures on a record comes to. -/
def heard (committee : Quorum) (epoch : U64) (record : RewardRecord)
    (sigs : List CommitteeSig) : Finset B32 :=
  committee.body.filter fun x => Vouched w epoch record sigs x ∧ ¬ Muted w epoch record sigs x

theorem mem_heard {w : RecordWire} {committee : Quorum} {epoch : U64} {record : RewardRecord}
    {sigs : List CommitteeSig} {x : B32} :
    x ∈ heard w committee epoch record sigs
      ↔ x ∈ committee.members ∧ Vouched w epoch record sigs x ∧ ¬ Muted w epoch record sigs x := by
  simp [heard]

/-- **The signers of an attestation** are the members heard among the signatures it was given. -/
theorem signers_collect (w : RecordWire) (committee : Quorum) (epoch : U64) (record : RewardRecord)
    (first : CommitteeSig) (sigs : List CommitteeSig) :
    ((RecordAttestation.new epoch record first).collect w sigs).signers w committee
      = heard w committee epoch record (first :: sigs) := by
  ext x
  rw [RecordAttestation.mem_signers_collect, RecordAttestation.mem_signers, mem_heard]
  simp only [RecordAttestation.new, RecordAttestation.Names, Vouched, Muted, mem_cons,
    exists_eq_or_imp, head?_cons, Option.mem_def, Option.some.injEq, exists_eq_left']
  tauto

theorem heard_subset_insert {w : RecordWire} {committee : Quorum} {epoch : U64}
    {record : RewardRecord} {s : CommitteeSig} (hs : sigValid w epoch record s)
    (before after : List CommitteeSig) :
    heard w committee epoch record (before ++ after)
      ⊆ heard w committee epoch record (before ++ s :: after) := by
  intro x hx
  obtain ⟨hmem, ⟨t, ht, hv⟩, hm⟩ := mem_heard.mp hx
  refine mem_heard.mpr ⟨hmem, ⟨t, ?_, hv⟩, ?_⟩
  · rcases mem_append.mp ht with ht | ht <;> simp [ht]
  · rintro ⟨t, ht, hn, hin⟩
    cases before with
    | nil =>
      obtain rfl : s = t := by simpa using ht
      exact hin hs
    | cons b before => exact hm ⟨t, ht, hn, hin⟩

end Zephcraft.Noded
