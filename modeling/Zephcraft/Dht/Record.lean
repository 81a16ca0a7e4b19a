import Zephcraft.Core.Identity
import Zephcraft.Foundations.OrderedMap

/-!
# Dht/Record — signed records, and how long a node keeps them

A node keeps one record per key and publisher, the one of the highest number, until a time that is
set when the record is accepted.
-/

namespace Zephcraft.Dht

open Zephcraft.Core Std Option

/-- A signed record. -/
structure StoredRecord where
  key : B32
  publisher : B32
  seq : U64
  value : Bytes
  sig : Bytes
deriving DecidableEq

namespace StoredRecord

def signingBytes (key publisher : B32) (seq : U64) (value : Bytes) : Bytes :=
  key.toBytes ++ publisher.toBytes ++ (leBytes 8 seq.val).reverse ++ value

variable (S : SigScheme)

def sign (identity : S.Secret) (key : B32) (seq : U64) (value : Bytes) : StoredRecord where
  key
  publisher := S.nodeId identity
  seq
  value
  sig := S.sign identity (signingBytes key (S.nodeId identity) seq value)

def verify (r : StoredRecord) : Bool :=
  S.verifyBytes r.publisher (signingBytes r.key r.publisher r.seq r.value) r.sig

@[simp] theorem verify_sign (identity : S.Secret) (key : B32) (seq : U64) (value : Bytes) :
    (sign S identity key seq value).verify S = true :=
  S.verifyBytes_sign identity _

end StoredRecord

/-- The records of one key by their publishers, each with the time it is kept until. -/
abbrev PerKey := BTreeMap B32 (StoredRecord × U64)

abbrev Records := BTreeMap B32 PerKey

namespace Records

/-- The record of a publisher under a key, and the time it is kept until. -/
def held (m : Records) (key publisher : B32) : Option (StoredRecord × U64) :=
  (m.getD key ∅)[publisher]?

/-- File a record under its key and its publisher. -/
def file (m : Records) (rec : StoredRecord) (expires : U64) : Records :=
  m.insert rec.key ((m.getD rec.key ∅).insert rec.publisher (rec, expires))

def unexpired (now : U64) (perKey : PerKey) : PerKey := perKey.filter fun _ e => now < e.2

/-- What a sweep leaves; no key stays without records. -/
def sweep (m : Records) (now : U64) : Records :=
  m.filterMap fun _ perKey => if (unexpired now perKey).isEmpty then none
    else some (unexpired now perKey)

theorem held_file (m : Records) (rec : StoredRecord) (expires : U64) (key publisher : B32) :
    (m.file rec expires).held key publisher
      = if rec.key = key ∧ rec.publisher = publisher then some (rec, expires)
        else m.held key publisher := by
  rw [held, file, ExtTreeMap.getD_eq_getD_getElem?, BTreeMap.getElem?_insert]
  by_cases hkey : rec.key = key
  · subst hkey
    rw [if_pos rfl, getD_some, BTreeMap.getElem?_insert, held]
    by_cases hp : rec.publisher = publisher <;> simp [hp]
  · rw [if_neg hkey, if_neg fun h => hkey h.1, held, ExtTreeMap.getD_eq_getD_getElem?]

theorem held_sweep (m : Records) (now : U64) (key publisher : B32) :
    (m.sweep now).held key publisher = (m.held key publisher).filter fun e => now < e.2 := by
  rw [held, sweep, held, ExtTreeMap.getD_eq_getD_getElem?, ExtTreeMap.getD_eq_getD_getElem?,
    ExtTreeMap.getElem?_filterMap']
  cases m[key]? with
  | none => simp
  | some perKey =>
    have hl : (unexpired now perKey)[publisher]? = perKey[publisher]?.filter fun e => now
        < e.2 := by
      rw [unexpired, ExtTreeMap.getElem?_filter']
    rw [bind_some, getD_some, ← hl]
    split
    · next he => simp [ExtTreeMap.isEmpty_iff.mp he]
    · rfl

end Records

/-- The records a node keeps, each filed under its key and its publisher. -/
structure RecordStore where
  inner : Records
  ttlMillis : U64
  filed : ∀ key publisher e, inner.held key publisher = some e
    → e.1.key = key ∧ e.1.publisher = publisher

namespace RecordStore

def new (ttlMillis : U64) : RecordStore where
  inner := ∅
  ttlMillis
  filed key publisher e h := by simp [Records.held] at h

variable (s : RecordStore)

def held (key publisher : B32) : Option (StoredRecord × U64) := s.inner.held key publisher

variable (S : SigScheme)

/-- The store with a record filed. -/
def filing (rec : StoredRecord) (expires : U64) : RecordStore where
  inner := s.inner.file rec expires
  ttlMillis := s.ttlMillis
  filed := by
    intro key publisher e he
    rw [Records.held_file] at he
    split at he
    · next hown => exact Option.some.inj he ▸ hown
    · exact s.filed key publisher e he

/-- Store a record, unless its signature is bad or the one that is there is as new. -/
def put (rec : StoredRecord) (now : U64) : Bool × RecordStore :=
  if rec.verify S then
    if (s.held rec.key rec.publisher).any fun existing => rec.seq ≤ existing.1.seq then (false, s)
    else (true, s.filing rec (now.satAdd s.ttlMillis))
  else (false, s)

/-- The records under a key that are kept beyond `now`. -/
def get (key : B32) (now : U64) : List StoredRecord :=
  ((s.inner.getD key ∅).toList.filter fun e => now < e.2.2).map fun e => e.2.1

/-- Drop the records that are not kept beyond `now`; how many they were. -/
def expire (now : U64) : ℕ × RecordStore :=
  (BTreeMap.total (fun _ perKey => perKey.size - (Records.unexpired now perKey).size) s.inner, {
    inner := s.inner.sweep now
    ttlMillis := s.ttlMillis
    filed := by
      intro key publisher e he
      rw [Records.held_sweep] at he
      exact s.filed key publisher e (filter_eq_some_iff.mp he).1 })

/-! ## What is held -/

variable {S} {s : RecordStore} {rec : StoredRecord} {now : U64}

theorem held_put_of_ne {key publisher : B32} (h : ¬ (rec.key = key ∧ rec.publisher = publisher)) :
    (s.put S rec now).2.held key publisher = s.held key publisher := by
  unfold put
  split
  · split
    · rfl
    · exact (Records.held_file _ _ _ _ _).trans (if_neg h)
  · rfl

theorem held_put_of_lt (hv : rec.verify S = true)
    (h : ∀ e, s.held rec.key rec.publisher = some e → e.1.seq < rec.seq) :
    (s.put S rec now).2.held rec.key rec.publisher = some (rec, now.satAdd s.ttlMillis) := by
  rw [put, if_pos hv, if_neg]
  · exact (Records.held_file _ _ _ _ _).trans (if_pos ⟨rfl, rfl⟩)
  · cases hh : s.held rec.key rec.publisher with
    | none => simp
    | some e => simpa using h e hh

theorem put_of_held {expires : U64} (h : s.held rec.key rec.publisher = some (rec, expires)) :
    (s.put S rec now).2 = s := by
  unfold put
  split
  · rw [if_pos (by simp [h])]
  · rfl

theorem held_expire (s : RecordStore) (now : U64) (key publisher : B32) :
    (s.expire now).2.held key publisher = (s.held key publisher).filter fun e => now < e.2 :=
  Records.held_sweep s.inner now key publisher

theorem mem_get :
    rec ∈ s.get rec.key now ↔ ∃ expires, s.held rec.key rec.publisher = some (rec, expires)
      ∧ now < expires := by
  have he : ∀ publisher e, (publisher, e) ∈ (s.inner.getD rec.key ∅).toList
      ↔ s.held rec.key publisher = some e :=
    fun _ _ => ExtTreeMap.mem_toList_iff_getElem?_eq_some
  simp only [get, List.mem_map, List.mem_filter, decide_eq_true_eq, Prod.exists, he]
  constructor
  · rintro ⟨publisher, r, expires, ⟨hh, hl⟩, rfl⟩
    obtain rfl := (s.filed _ _ _ hh).2
    exact ⟨expires, hh, hl⟩
  · rintro ⟨expires, hh, hl⟩
    exact ⟨rec.publisher, rec, expires, ⟨hh, hl⟩, rfl⟩

end RecordStore

end Zephcraft.Dht
