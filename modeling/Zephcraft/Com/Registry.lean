import Zephcraft.Core.Identity
import Zephcraft.Foundations.LastWriter

/-!
# Com/Registry — owner-signed heads, and the registry's transition

A head says under which content id an owner's name stands, at which version; the owner signs it. The
registry state has one head for each `(owner, name)`: the transition `apply` takes a submission of a
strictly higher version, and `merge` takes over another replica's heads the same way.
-/

namespace Zephcraft.Com

open Zephcraft.Core List LastWriter

/-- What a head is for: an owner and a name of theirs. -/
abbrev HeadKey := B32 × Bytes

instance instTransOrdHeadKey : Std.TransOrd HeadKey := inferInstance

instance instLawfulEqOrdHeadKey : Std.LawfulEqOrd HeadKey := inferInstance

/-- The bytes an owner signs: the name is framed by its length, the numbers are big-endian. -/
def headSigningBytes (owner : B32) (name : Bytes) (cid : B32) (version : U64) : Bytes :=
  ascii "craftec/head/1" ++ owner.toBytes ++ (leBytes 4 (name.length % 2 ^ 32)).reverse ++ name
    ++ cid.toBytes ++ version.toLeBytes.reverse

/-- **What an owner signs says the head**: the one field of no fixed width is found by the length of
the whole. -/
theorem headSigningBytes_inj {owner owner' : B32} {name name' : Bytes} {cid cid' : B32}
    {version version' : U64}
    (h : headSigningBytes owner name cid version = headSigningBytes owner' name' cid' version') :
    owner = owner' ∧ name = name' ∧ cid = cid' ∧ version = version' := by
  have hna : name.length = name'.length := by
    simpa [headSigningBytes, B32.toBytes, U64.toLeBytes] using congrArg List.length h
  simp only [headSigningBytes, append_assoc, append_cancel_left_eq] at h
  obtain ⟨ho, hf⟩ := prefixCode_toBytes h
  obtain ⟨-, hn⟩ := append_inj hf (by simp)
  obtain ⟨hs, hr⟩ := append_inj hn hna
  obtain ⟨hcid, hl⟩ := prefixCode_toBytes hr
  have hv : version = version' :=
    Fin.ext (leBytes_inj (k := 8) (by norm_num; omega) (by norm_num; omega) (reverse_injective hl))
  exact ⟨ho, hs, hcid, hv⟩

/-- An owner's signed registration of a head. -/
structure HeadSubmission where
  owner : B32
  name : Bytes
  cid : B32
  version : U64
  signature : Bytes

/-- One row of the registry, with the owner's signature. -/
@[ext] structure HeadEntry where
  owner : B32
  name : Bytes
  cid : B32
  version : U64
  signature : Bytes
deriving DecidableEq

namespace HeadEntry

def key (e : HeadEntry) : HeadKey := (e.owner, e.name)

def verify (S : SigScheme) (e : HeadEntry) : Bool :=
  S.verifyBytes e.owner (headSigningBytes e.owner e.name e.cid e.version) e.signature

end HeadEntry

/-- What a head says, without the signature. -/
structure Head where
  owner : B32
  name : Bytes
  cid : B32
  version : U64
deriving DecidableEq

def Head.signingBytes (h : Head) : Bytes := headSigningBytes h.owner h.name h.cid h.version

def HeadEntry.head (e : HeadEntry) : Head := ⟨e.owner, e.name, e.cid, e.version⟩

/-- Among the heads that were signed there is one the signature on this head may be from: the owner
signed the same bytes. -/
def HeadEntry.Vouched (signed : List Head) (e : HeadEntry) : Prop :=
  ∃ h ∈ signed, h.owner = e.owner ∧ h.signingBytes = e.head.signingBytes
deriving Decidable

theorem HeadEntry.Vouched.mem {signed : List Head} {e : HeadEntry} (h : e.Vouched signed) :
    e.head ∈ signed := by
  obtain ⟨⟨owner, name, cid, version⟩, hmem, -, hb⟩ := h
  obtain ⟨rfl, rfl, rfl, rfl⟩ := headSigningBytes_inj hb
  exact hmem

namespace HeadSubmission

def key (sub : HeadSubmission) : HeadKey := (sub.owner, sub.name)

/-- Sign a head with the owner's identity. -/
def sign (S : SigScheme) (identity : S.Secret) (name : Bytes) (cid : B32) (version : U64) :
    HeadSubmission :=
  let owner := S.nodeId identity
  ⟨owner, name, cid, version, S.sign identity (headSigningBytes owner name cid version)⟩

def verify (S : SigScheme) (sub : HeadSubmission) : Bool :=
  S.verifyBytes sub.owner (headSigningBytes sub.owner sub.name sub.cid sub.version) sub.signature

def entry (sub : HeadSubmission) : HeadEntry :=
  ⟨sub.owner, sub.name, sub.cid, sub.version, sub.signature⟩

@[simp] theorem key_entry (sub : HeadSubmission) : sub.entry.key = sub.key := rfl

end HeadSubmission

/-- Why a submission is refused. -/
inductive Rejection where
  | badSignature
  | staleVersion
deriving DecidableEq

/-- The registry state: the head of each key. -/
@[ext] structure RegistryState where
  rows : BTreeMap HeadKey HeadEntry
  keyed : ∀ (k : HeadKey) (e : HeadEntry), rows[k]? = some e → e.key = k

namespace RegistryState

def empty : RegistryState := ⟨∅, by simp⟩

variable (state : RegistryState)

/-- The heads, in the order of their keys. -/
def entries : List HeadEntry := state.rows.toList.map Prod.snd

def encode : Bytes :=
  varint state.entries.length ++ state.entries.flatMap fun e =>
    e.owner.toBytes ++ lengthPrefixed e.name ++ e.cid.toBytes ++ varint e.version.val
      ++ lengthPrefixed e.signature

def root (blake3 : Bytes → B32) (state : RegistryState) : B32 := blake3 state.encode

def resolve (owner : B32) (name : Bytes) : Option HeadEntry :=
  state.rows[(owner, name)]?

def upsert (e : HeadEntry) : RegistryState where
  rows := state.rows.insert e.key e
  keyed k x hx := by
    rw [BTreeMap.getElem?_insert] at hx
    split at hx
    · rename_i hk
      exact Option.some.inj hx ▸ hk
    · exact state.keyed k x hx

variable (S : SigScheme)

/-- The registry's transition: a verified submission of a strictly higher version. -/
def apply (state : RegistryState) (sub : HeadSubmission) :
    Except Rejection RegistryState :=
  if ¬ sub.verify S then .error .badSignature
  else match state.rows[sub.key]? with
    | some held => if sub.version ≤ held.version then .error .staleVersion
      else .ok (state.upsert sub.entry)
    | none => .ok (state.upsert sub.entry)

/-- Take one head over, if it verifies and nothing as high is there. -/
def mergeEntry (state : RegistryState) (e : HeadEntry) : RegistryState :=
  if ¬ e.verify S then state
  else match state.rows[e.key]? with
    | some held => if held.version < e.version then state.upsert e else state
    | none => state.upsert e

def mergeEntries (state : RegistryState) (entries : List HeadEntry) :
    RegistryState :=
  entries.foldl (mergeEntry S) state

def merge (state other : RegistryState) : RegistryState :=
  other.entries.foldl (mergeEntry S) state

/-! ## As a last-writer-wins store -/

theorem rows_mergeEntry (S : SigScheme) (state : RegistryState) (e : HeadEntry) :
    (state.mergeEntry S e).rows
      = if e.verify S then keep HeadEntry.key HeadEntry.version state.rows e
        else state.rows := by
  unfold mergeEntry keep
  by_cases hv : e.verify S
  · rw [if_neg (not_not.mpr hv), if_pos hv]
    cases state.rows[e.key]? with
    | none => rfl
    | some held =>
      dsimp only
      split <;> rfl
  · rw [if_pos hv, if_neg hv]

theorem rows_mergeEntries (S : SigScheme) (state : RegistryState) (es : List HeadEntry) :
    (state.mergeEntries S es).rows
      = (es.filter (HeadEntry.verify S)).foldl (keep HeadEntry.key HeadEntry.version)
          state.rows := by
  induction es generalizing state with
  | nil => rfl
  | cons e es ih =>
    have hs :
        (state.mergeEntries S (e :: es)).rows = ((state.mergeEntry S e).mergeEntries S es).rows :=
      rfl
    rw [hs, ih, rows_mergeEntry]
    by_cases hv : e.verify S <;> simp [hv]

theorem mem_of_mem_mergeEntries {S : SigScheme} {es : List HeadEntry} {e : HeadEntry}
    (he : e ∈ (empty.mergeEntries S es).entries) : e ∈ es := by
  have hl : LastWriter.Latest HeadEntry.key HeadEntry.version _ _ :=
    latest_empty.foldl_keep (es.filter (HeadEntry.verify S))
  rw [entries, rows_mergeEntries] at he
  exact (mem_filter.mp (hl.values_subset he)).1

/-! ## Key by key -/

theorem filter_entries_eq (state : RegistryState) (k : HeadKey) :
    state.entries.filter (·.key = k) = state.rows[k]?.toList := by
  have hk : (state.rows.toList.filter fun p => p.2.key = k) = state.rows.toList.filter fun p => p.1
      = k := by
    refine filter_congr fun p hp => ?_
    rw [state.keyed p.1 p.2 (Std.ExtTreeMap.mem_toList_iff_getElem?_eq_some.mp hp)]
  have hmap :
      state.entries.filter (·.key = k) = (state.rows.toList.filter fun p => p.2.key
        = k).map Prod.snd := by
    rw [entries, filter_map]
    rfl
  rw [hmap, hk, BTreeMap.filter_toList_eq, map_map]
  exact map_id _

theorem mem_entries_iff {state : RegistryState} {e : HeadEntry} :
    e ∈ state.entries ↔ state.rows[e.key]? = some e := by
  rw [← Option.mem_toList, ← filter_entries_eq, mem_filter]
  simp

theorem rows_mergeEntries_filter {S : SigScheme} {state : RegistryState}
    (hv : ∀ e ∈ state.entries, e.verify S) (p : HeadKey → Bool)
    (k : HeadKey) : (empty.mergeEntries S (state.entries.filter fun e => p e.key)).rows[k]?
      = if p k then state.rows[k]? else none := by
  have hall :
      (state.entries.filter fun e => p e.key).filter (HeadEntry.verify S)
        = state.entries.filter fun e => p e.key :=
    filter_eq_self.mpr fun e he => hv e (mem_filter.mp he).1
  have hl : LastWriter.Latest HeadEntry.key HeadEntry.version
      (empty.mergeEntries S (state.entries.filter fun e => p e.key)).rows
        (state.entries.filter fun e => p e.key) := by
    rw [rows_mergeEntries, hall]
    simpa [empty] using latest_empty.foldl_keep (state.entries.filter fun e => p e.key)
  have hg : ∀ {e}, e ∈ state.entries.filter (fun e => p e.key)
      ↔ state.rows[e.key]? = some e ∧ p e.key := by
    intro e
    rw [mem_filter, mem_entries_iff]
  refine Option.ext fun e => ⟨fun he => ?_, fun he => ?_⟩
  · obtain ⟨hmem, rfl⟩ := hl.mem k e he
    obtain ⟨hrow, hp⟩ := hg.mp hmem
    rwa [if_pos hp]
  · split at he
    · rename_i hp
      obtain rfl := state.keyed k e he
      obtain ⟨held, hh, -⟩ := hl.top e (hg.mpr ⟨he, hp⟩)
      obtain ⟨hmem, hkey⟩ := hl.mem _ held hh
      have hrow := (hg.mp hmem).1
      rw [hkey, he] at hrow
      rw [hh, hrow]
    · cases he

end RegistryState

end Zephcraft.Com
