import Zephcraft.Foundations.Blake3

/-!
# Sql/Store — the object store under a database

Pages, index nodes and roots are objects, stored under the hash of their bytes. A private database
seals its pages and nodes first. What the pager needs of the store is that it is **faithful**: an
object that was put is what its content id gets, for good.
-/

namespace Zephcraft.Sql

open List

/-- The key of a private database: what was sealed with it opens again. Sealing is deterministic. -/
structure Cipher where
  sealDeterministic : Bytes → Bytes
  openSealed : Bytes → Option Bytes
  openSealed_seal : ∀ plain, openSealed (sealDeterministic plain) = some plain

/-- A mark, and every byte shifted by the key: for concrete runs. -/
def Cipher.shift (key : Byte) : Cipher where
  sealDeterministic plain := 1 :: plain.map (· + key)
  openSealed
    | 1 :: stored => some (stored.map (· - key))
    | _ => none
  openSealed_seal plain := by simp [Function.comp_def]

/-- What a database's objects are named by, and sealed with if it is private. -/
structure Medium where
  hash : Bytes → B32
  cipher : Option Cipher

/-- A public database: its objects are stored as they are. -/
def publicMedium : Medium := ⟨blake3, none⟩

def privateMedium : Medium := ⟨blake3, some (.shift 5)⟩

namespace Medium

variable (M : Medium)

/-- The bytes an index node or a page is stored as. -/
def sealIndex (plain : Bytes) : Bytes :=
  match M.cipher with
  | some dek => dek.sealDeterministic plain
  | none => plain

/-- The bytes behind what is stored; a wrong key opens nothing. -/
def openIndex (stored : Bytes) : Option Bytes :=
  match M.cipher with
  | some dek => dek.openSealed stored
  | none => some stored

@[simp] theorem openIndex_sealIndex (plain : Bytes) :
    M.openIndex (M.sealIndex plain) = some plain := by
  unfold openIndex sealIndex
  cases M.cipher with
  | none => rfl
  | some dek => exact dek.openSealed_seal plain

end Medium

/-- The objects that were put, the oldest first. An object whose content id is taken is not
written. -/
structure ObjectStore where
  objects : List Bytes

namespace ObjectStore

variable (M : Medium) (store : ObjectStore)

def get (cid : B32) : Option Bytes :=
  store.objects.find? fun data => M.hash data = cid

def put (data : Bytes) : B32 × ObjectStore :=
  (M.hash data, ⟨store.objects ++ [data]⟩)

@[simp] theorem put_fst (store : ObjectStore) (data : Bytes) : (store.put M data).1 = M.hash data :=
  rfl

@[simp] theorem objects_put (store : ObjectStore) (data : Bytes) :
    (store.put M data).2.objects = store.objects ++ [data] := rfl

/-- **A faithful store**: no two objects have one content id. -/
def Faithful : Prop :=
  ∀ a ∈ store.objects, ∀ b ∈ store.objects, M.hash a = M.hash b → a = b
deriving Decidable

def Nonzero : Prop := ∀ a ∈ store.objects, M.hash a ≠ 0
deriving Decidable

variable {M} {store store' : ObjectStore}

theorem Faithful.mono (h : store'.Faithful M) (hsub : store.objects ⊆ store'.objects) :
    store.Faithful M :=
  fun a ha b hb => h a (hsub ha) b (hsub hb)

theorem Nonzero.mono (h : store'.Nonzero M) (hsub : store.objects ⊆ store'.objects) :
    store.Nonzero M :=
  fun a ha => h a (hsub ha)

theorem hash_of_get {cid : B32} {data : Bytes} (h : store.get M cid = some data) :
    M.hash data = cid := by
  simpa using find?_some h

theorem Faithful.get_hash (h : store.Faithful M) {data : Bytes} (hd : data ∈ store.objects) :
    store.get M (M.hash data) = some data := by
  rw [get]
  cases hf : store.objects.find? fun x => M.hash x = M.hash data with
  | none =>
    have := find?_eq_none.mp hf data hd
    simp at this
  | some found =>
    have hh : M.hash found = M.hash data := by simpa using find?_some hf
    rw [h found (mem_of_find?_eq_some hf) data hd hh]

theorem Nonzero.get_zero (h : store.Nonzero M) : store.get M 0 = none :=
  find?_eq_none.mpr fun data hd => by simpa using h data hd

end ObjectStore

end Zephcraft.Sql
