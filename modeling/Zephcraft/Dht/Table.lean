import Mathlib.Data.Nat.Log
import Zephcraft.Foundations.Lowest
import Zephcraft.Foundations.Run

/-!
# Dht/Table — the routing table

The distance of two keys is their exclusive or, as a number. A contact is kept in the bucket of the
highest bit of its distance from us, and a bucket keeps those it has.
-/

namespace Zephcraft.Dht

open Run Ranking List

/-- `K` -/
def bucketSize : ℕ := 20

/-- A node and its address. -/
structure Contact (A : Type*) where
  id : B32
  addr : A

def distance (a b : B32) : B32 := ⟨a.val ^^^ b.val, Nat.xor_lt_two_pow a.isLt b.isLt⟩

/-- A byte of a key, the highest first. -/
def byteAt (key : B32) (i : ℕ) : ℕ := key.val / 2 ^ (8 * (31 - i)) % 2 ^ 8

/-- `leading_zeros` of a byte that is not zero. -/
def leadingZeros (x : ℕ) : ℕ := 7 - x.log2

/-- The place of the highest bit in which two keys differ, by the first byte in which they do. -/
def bucketIndex (self other : B32) : Option ℕ :=
  ((List.range 32).find? fun i => byteAt self i ^^^ byteAt other i ≠ 0).map fun i =>
    255 - (i * 8 + leadingZeros (byteAt self i ^^^ byteAt other i))

/-- One bucket per distance. -/
structure RoutingTable (A : Type*) where
  selfId : B32
  buckets : List (List (Contact A))

namespace RoutingTable

variable {A : Type*}

def new (selfId : B32) : RoutingTable A := ⟨selfId, List.replicate 256 []⟩

/-- A contact of the bucket moves to its back, with its new address; a new one is added if there is
room. -/
def refresh (contact : Contact A) (bucket : List (Contact A)) : List (Contact A) :=
  match bucket.find? fun c => c.id = contact.id with
  | some existing => (bucket.eraseP fun c => c.id = contact.id)
    ++ [{ existing with addr := contact.addr }]
  | none => if bucket.length < bucketSize then bucket ++ [contact] else bucket

variable (t : RoutingTable A)

def insert (contact : Contact A) : RoutingTable A :=
  match bucketIndex t.selfId contact.id with
  | none => t
  | some idx => { t with buckets := t.buckets.modify idx (refresh contact) }

def remove (id : B32) : RoutingTable A :=
  match bucketIndex t.selfId id with
  | none => t
  | some idx => { t with buckets := t.buckets.modify idx fun b => b.filter fun c => c.id ≠ id }

def contacts : List (Contact A) := t.buckets.flatten

def closest (target : B32) (count : ℕ) : List (Contact A) :=
  lowest (fun c => distance c.id target) count t.contacts

end RoutingTable

/-! ## Distances -/

section Distance

variable {self other : B32} {i : ℕ}

theorem byteAt_xor (i : ℕ) : byteAt self i ^^^ byteAt other i = byteAt (distance self other) i := by
  rw [byteAt, byteAt, byteAt, distance, ← Nat.xor_mod_two_pow, ← Nat.xor_div_two_pow]

/-- Where the first bytes are zero the number is small. -/
theorem val_lt_of_bytes {d : B32} (hi : i ≤ 32) (h : ∀ j < i, byteAt d j = 0) :
    d.val < 2 ^ (8 * (32 - i)) := by
  induction i with
  | zero => exact d.isLt
  | succ i ih =>
    have hlt := ih (by omega) fun j hj => h j (by omega)
    have hb := h i (Nat.lt_succ_self i)
    rw [byteAt, Nat.mod_eq_of_lt] at hb
    · rw [show 32 - (i + 1) = 31 - i by omega]
      exact (Nat.div_eq_zero_iff.mp hb).resolve_left (by positivity)
    · rw [Nat.div_lt_iff_lt_mul (by positivity), ← pow_add]
      exact hlt.trans_eq (congrArg _ (by omega))

/-- **The bucket of a key is the place of the highest bit of its distance.** -/
theorem distance_of_bucketIndex (h : bucketIndex self other = some i) :
    2 ^ i ≤ (distance self other).val ∧ (distance self other).val < 2 ^ (i + 1) ∧ i < 256 := by
  obtain ⟨j, hj, rfl⟩ := Option.map_eq_some_iff.mp h
  obtain ⟨hne, hmem, hb⟩ := find?_range_eq_some.mp hj
  have hj32 := mem_range.mp hmem
  rw [byteAt_xor, decide_eq_true_eq] at hne
  rw [byteAt_xor]
  have hlt := val_lt_of_bytes hj32.le fun k hk => by
    have hk := hb k hk
    rwa [Bool.not_eq_true', decide_eq_false_iff_not, not_not, byteAt_xor] at hk
  generalize distance self other = d at *
  -- what stands above the byte is zero, so the byte is the quotient
  have hby : byteAt d j = d.val / 2 ^ (8 * (31 - j)) := by
    rw [byteAt, Nat.mod_eq_of_lt]
    rw [Nat.div_lt_iff_lt_mul (by positivity), ← pow_add]
    exact hlt.trans_eq (congrArg _ (by omega))
  have hlog : (byteAt d j).log2 < 8 := (Nat.log2_lt hne).mpr (Nat.mod_lt _ (by norm_num))
  have hp : 255 - (j * 8 + leadingZeros (byteAt d j)) = (byteAt d j).log2 + 8 * (31 - j) := by
    rw [leadingZeros]
    omega
  rw [hp]
  have hle := Nat.log2_self_le hne
  have hgt := Nat.lt_log2_self (n := byteAt d j)
  refine ⟨?_, ?_, by omega⟩ <;> rw [hby] at hle hgt ⊢
  · rw [pow_add]
    exact (Nat.mul_le_mul_right _ hle).trans (Nat.div_mul_le_self _ _)
  · rw [Nat.add_right_comm, pow_add]
    exact (Nat.div_lt_iff_lt_mul (by positivity)).mp hgt

theorem distance_left_injective {a b t : B32} (h : distance a t = distance b t) : a = b :=
  Fin.ext (Nat.xor_left_inj.mp (congrArg Fin.val h))

end Distance

namespace RoutingTable

variable {A : Type*} {t : RoutingTable A} {idx : ℕ}

/-- A bucket in order. -/
structure BucketOk (own : B32) (i : ℕ) (bucket : List (Contact A)) : Prop where
  near : ∀ c ∈ bucket, 2 ^ i ≤ (distance own c.id).val ∧ (distance own c.id).val < 2 ^ (i + 1)
  room : bucket.length ≤ bucketSize
  once : (bucket.map Contact.id).Nodup

/-- A table in order. -/
def WellFormed (t : RoutingTable A) : Prop :=
  t.buckets.length = 256 ∧ ∀ i bucket, t.buckets[i]? = some bucket → BucketOk t.selfId i bucket

section Bucket

variable {own : B32} {bucket : List (Contact A)} {contact : Contact A}

theorem BucketOk.sublist (h : BucketOk own idx bucket) {rest : List (Contact A)}
    (hr : rest.Sublist bucket) :
    BucketOk own idx rest :=
  ⟨fun c hc => h.near c (hr.subset hc), hr.length_le.trans h.room, h.once.sublist (hr.map _)⟩

theorem BucketOk.push (h : BucketOk own idx bucket) (hidx : bucketIndex own contact.id = some idx)
    (hr : bucket.length < bucketSize) (hnew : ∀ c ∈ bucket, c.id ≠ contact.id) :
    BucketOk own idx (bucket ++ [contact]) := by
  obtain ⟨hlow, hh, -⟩ := distance_of_bucketIndex hidx
  refine ⟨fun c hc => ?_, by simpa using hr, ?_⟩
  · rcases mem_append.mp hc with hc | hc
    · exact h.near c hc
    · rw [mem_singleton.mp hc]
      exact ⟨hlow, hh⟩
  · rw [map_append, nodup_append]
    refine ⟨h.once, nodup_singleton _, fun a ha b hb => ?_⟩
    obtain ⟨c, hc, rfl⟩ := mem_map.mp ha
    rw [map_singleton, mem_singleton] at hb
    exact hb ▸ hnew c hc

theorem BucketOk.refresh (h : BucketOk own idx bucket)
    (hidx : bucketIndex own contact.id = some idx) :
    BucketOk own idx (refresh contact bucket) := by
  rw [RoutingTable.refresh]
  split
  · next existing hf =>
    have hid : existing.id = contact.id := by simpa using find?_some hf
    obtain ⟨c, before, behind, -, hc, hb, he⟩ := exists_of_eraseP
      (p := fun c => decide (c.id = contact.id)) (mem_of_find?_eq_some hf) (decide_eq_true hid)
    rw [he]
    have hr := h.room
    have ho := h.once
    rw [hb] at hr ho
    refine (h.sublist (hb ▸ (sublist_cons_self c behind).append_left before)).push (hid.symm ▸ hidx)
      (by simp at hr ⊢; omega) fun c' hc' => ?_
    rw [map_append, map_cons, nodup_middle, nodup_cons, ← map_append] at ho
    rintro heq
    exact ho.1 (mem_map.mpr ⟨c', hc', (heq.trans hid).trans (of_decide_eq_true hc).symm⟩)
  · next hn =>
    split
    · next hr => exact h.push hidx hr fun c hc heq => by simpa [heq] using find?_eq_none.mp hn c hc
    · exact h

end Bucket

theorem WellFormed.modify (h : t.WellFormed) {f : List (Contact A) → List (Contact A)}
    (hf : ∀ bucket, BucketOk t.selfId idx bucket → BucketOk t.selfId idx (f bucket)) :
    WellFormed { t with buckets := t.buckets.modify idx f } := by
  refine ⟨(length_modify _ _ _).trans h.1, fun i bucket hbu => ?_⟩
  rw [getElem?_modify] at hbu
  obtain ⟨b, hb, rfl⟩ := Option.map_eq_some_iff.mp hbu
  split
  · next heq => exact heq ▸ hf b (heq ▸ h.2 i b hb)
  · exact h.2 i b hb

/-- What happens to the table. -/
inductive Event (A : Type*) where
  | insert (contact : Contact A)
  | remove (id : B32)

def step (t : RoutingTable A) : Event A → RoutingTable A
  | .insert contact => t.insert contact
  | .remove id => t.remove id

theorem WellFormed.step (h : t.WellFormed) (event : Event A) : (t.step event).WellFormed := by
  cases event with
  | insert contact =>
    rw [RoutingTable.step, insert]
    split
    · exact h
    · next hidx => exact h.modify fun bucket hb => hb.refresh hidx
  | remove id =>
    rw [RoutingTable.step, remove]
    split
    · exact h
    · exact h.modify fun bucket hb => hb.sublist filter_sublist

/-- No id is there twice: a number has one highest bit. -/
theorem WellFormed.nodup_ids (h : t.WellFormed) : (t.contacts.map Contact.id).Nodup := by
  rw [contacts, map_flatten, nodup_flatten]
  refine ⟨fun l hl => ?_, pairwise_map.mpr (pairwise_iff_getElem.mpr fun i j hi hj hij => ?_)⟩
  · obtain ⟨bucket, hb, rfl⟩ := mem_map.mp hl
    obtain ⟨i, hi⟩ := mem_iff_getElem?.mp hb
    exact (h.2 i bucket hi).once
  · rw [disjoint_left]
    rintro id hid hid'
    obtain ⟨c, hc, rfl⟩ := mem_map.mp hid
    obtain ⟨c', hc', heq⟩ := mem_map.mp hid'
    have hh := ((h.2 i _ (getElem?_eq_getElem hi)).near c hc).2
    have hlow := ((h.2 j _ (getElem?_eq_getElem hj)).near c' hc').1
    rw [heq] at hlow
    have := Nat.pow_le_pow_right two_pos hij
    omega

/-- What `closest` has to return. -/
structure Nearest (held : List (Contact A)) (target : B32) (n : ℕ) (l : List (Contact A)) :
    Prop where
  among : l ⊆ held
  count : l.length = min n held.length
  increasing : l.Pairwise fun a b => distance a.id target < distance b.id target
  nearest : ∀ c ∈ held, c ∉ l → ∀ c' ∈ l, distance c'.id target < distance c.id target

/-- The lowest by distance are the nearest, if no id is there twice. -/
theorem nearest_lowest {held : List (Contact A)} (h : (held.map Contact.id).Nodup) (target : B32)
    (n : ℕ) :
    Nearest held target n (lowest (fun c => distance c.id target) n held) := by
  have hap : Apart (fun c : Contact A => distance c.id target) held := fun a ha b hb heq =>
    inj_on_of_nodup_map h ha hb (distance_left_injective heq)
  exact ⟨fun _ => mem_of_mem_lowest, length_lowest, pairwise_lowest h.of_map hap,
    fun c hc hout c' hc' => lt_of_notMem_lowest h.of_map hap hc' hc hout⟩

/-- **The table is in order after any inserts and removals**: buckets are by the highest bit of the
distance and hold at most `K`, no id is there twice and ours not at all; and what is closest to a
target is exactly that. -/
theorem table_in_order (selfId : B32) (events : List (Event A)) :
    (run step (new selfId) events).selfId = selfId ∧ (run step (new selfId) events).WellFormed ∧
      ((run step (new selfId) events).contacts.map Contact.id).Nodup ∧
      (∀ c ∈ (run step (new selfId) events).contacts, c.id ≠ selfId) ∧
      ∀ target n, Nearest (run step (new selfId) events).contacts target n
        ((run step (new selfId) events).closest target n) := by
  obtain ⟨hself, hformed⟩ :
    (run step (new selfId) events).selfId = selfId ∧ (run step (new selfId) events).WellFormed :=
    always (I := fun t : RoutingTable A => t.selfId = selfId ∧ t.WellFormed)
      ⟨rfl, length_replicate, fun i bucket hi => by
        obtain rfl := eq_of_mem_replicate (mem_of_getElem? hi)
        exact ⟨by simp, Nat.zero_le _, nodup_nil⟩⟩
      fun t event ht => ⟨by
        cases event with
        | insert contact => rw [step, insert]; split <;> exact ht.1
        | remove id => rw [step, remove]; split <;> exact ht.1, ht.2.step event⟩
  refine ⟨hself, hformed, hformed.nodup_ids, fun c hc heq => ?_, fun target n =>
    nearest_lowest hformed.nodup_ids target n⟩
  obtain ⟨bucket, hbucket, hmem⟩ := mem_flatten.mp hc
  obtain ⟨i, hi⟩ := mem_iff_getElem?.mp hbucket
  have hlow := ((hformed.2 i bucket hi).near c hmem).1
  have hzero : (distance selfId selfId).val = 0 := Nat.xor_self _
  rw [heq, hself, hzero] at hlow
  simp at hlow

end RoutingTable

end Zephcraft.Dht
