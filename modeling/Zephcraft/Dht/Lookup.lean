import Mathlib.Data.Fintype.Card
import Zephcraft.Dht.Record
import Zephcraft.Dht.Table
import Zephcraft.Foundations.LastWriter

/-!
# Dht/Lookup — asking ever closer contacts

A search asks the closest contacts it knows of and has not asked, a few at a time, and takes in what
they answer, until all of the closest have been asked. Answers are arbitrary; that a contact is
asked only once is what ends it.
-/

namespace Zephcraft.Dht

open Zephcraft.Core Ranking List Finset Std.ExtTreeMap

variable {A : Type*}

/-- `ALPHA` -/
def alpha : ℕ := 3

/-- What a contact answers; nothing, if it does not. -/
structure Answer (A : Type*) where
  records : List StoredRecord
  closer : List (Contact A)

/-- `merge` -/
def mergeRecord : BTreeMap B32 StoredRecord → StoredRecord → BTreeMap B32 StoredRecord :=
  LastWriter.keep StoredRecord.publisher StoredRecord.seq

/-- A search under way: whom it knows of, whom it has asked, and the best records so far. -/
structure Search (A : Type*) where
  known : BTreeMap B32 (Contact A)
  asked : List (Contact A)
  best : BTreeMap B32 StoredRecord

def learnContacts (known : BTreeMap B32 (Contact A)) (l : List (Contact A)) :
    BTreeMap B32 (Contact A) :=
  l.foldl (fun known c => known.insert c.id c) known

namespace Search

/-- A search from the contacts and the records at hand. -/
def start (contacts : List (Contact A)) (records : List StoredRecord) : Search A :=
  ⟨learnContacts ∅ contacts, [], records.foldl mergeRecord ∅⟩

variable (target : B32)

def shortlist (s : Search A) : List (Contact A) :=
  lowest (fun c => distance c.id target) bucketSize (s.known.toList.map Prod.snd)

def batch (s : Search A) : List (Contact A) :=
  ((s.shortlist target).filter fun c => c.id ∉ s.asked.map Contact.id).take alpha

variable (valid : StoredRecord → Bool) (ask : Contact A → Answer A)

/-- Ask some contacts and take in what they answer. -/
def round (s : Search A) (batch : List (Contact A)) : Search A where
  known := learnContacts s.known (batch.flatMap fun c => (ask c).closer)
  asked := s.asked ++ batch
  best := ((batch.flatMap fun c => (ask c).records).filter valid).foldl mergeRecord s.best

/-- How many ids have not been asked. -/
def unasked (s : Search A) : ℕ :=
  (Finset.univ.filter fun id : B32 => id ∉ s.asked.map Contact.id).card

variable {target valid ask} {s : Search A}

theorem notMem_of_mem_batch {c : Contact A} (h : c ∈ s.batch target) :
    c ∈ s.shortlist target ∧ c.id ∉ s.asked.map Contact.id := by
  simpa using List.mem_filter.mp (mem_of_mem_take h)

theorem unasked_round_lt (h : s.batch target ≠ []) :
    (s.round valid ask (s.batch target)).unasked < s.unasked := by
  obtain ⟨c, hc⟩ := exists_mem_of_ne_nil _ h
  refine card_lt_card (ssubset_iff_of_subset ?_ |>.mpr ⟨c.id, ?_, ?_⟩)
  · intro id hid
    simp only [round, Finset.mem_filter, mem_univ, true_and, map_append, mem_append,
      not_or] at hid ⊢
    exact hid.1
  · simpa using (notMem_of_mem_batch hc).2
  · simp only [round, Finset.mem_filter, mem_univ, true_and, map_append, mem_append, not_or,
      not_and, not_not]
    exact fun _ => List.mem_map_of_mem hc

variable (target valid ask) in
/-- The loop of `lookup` and of `get`. -/
def loop (s : Search A) : Search A :=
  if s.batch target = [] then s else loop (s.round valid ask (s.batch target))
termination_by s.unasked
decreasing_by
  rename_i h
  exact unasked_round_lt h

end Search

/-- `lookup` from the contacts that are closest by the table; whom it asked, and what it returns. -/
def lookup (target : B32) (atHand : List (Contact A)) (findNode : Contact A → List (Contact A)) :
    List (Contact A) × List (Contact A) :=
  let s := (Search.start atHand []).loop target (fun _ => true) fun c => ⟨[], findNode c⟩
  (s.asked, s.shortlist target)

/-- `get` from the contacts that are closest by the table and the node's own records; whom it asked,
and what it returns. -/
def get (S : SigScheme) (key : B32) (atHand : List (Contact A)) (own : List StoredRecord)
    (findValue : Contact A → Answer A) : List (Contact A) × List StoredRecord :=
  let s := (Search.start atHand own).loop key (fun r => r.key = key && r.verify S) findValue
  (s.asked, s.best.toList.map Prod.snd)

/-! ## Whom a search knows of -/

theorem getElem?_learnContacts {known : BTreeMap B32 (Contact A)} {l : List (Contact A)} {id : B32}
    {c : Contact A} (h : (learnContacts known l)[id]? = some c) :
    (c ∈ l ∧ c.id = id) ∨ known[id]? = some c := by
  induction l generalizing known with
  | nil => exact .inr h
  | cons x l ih =>
    rcases ih h with ⟨hc, hid⟩ | hk
    · exact .inl ⟨List.mem_cons_of_mem x hc, hid⟩
    · rw [BTreeMap.getElem?_insert] at hk
      split at hk
      · next hid =>
        cases hk
        exact .inl ⟨List.mem_cons_self, hid⟩
      · exact .inr hk

theorem mem_learnContacts (known : BTreeMap B32 (Contact A)) (l : List (Contact A)) (id : B32) :
    id ∈ learnContacts known l ↔ id ∈ known ∨ id ∈ l.map Contact.id := by
  induction l generalizing known with
  | nil => simp [learnContacts]
  | cons x l ih =>
    rw [learnContacts, foldl_cons, ← learnContacts, ih, Std.ExtTreeMap.mem_insert,
      Std.compare_eq_iff_eq, List.map_cons, List.mem_cons, or_assoc, or_left_comm, eq_comm]

section Learned

variable {l : List (Contact A)}

theorem mem_values_learnContacts {c : Contact A} (h : c ∈ (learnContacts ∅ l).toList.map Prod.snd) :
    c ∈ l ∧ (learnContacts ∅ l)[c.id]? = some c := by
  obtain ⟨e, he, rfl⟩ := List.mem_map.mp h
  have hat := mem_toList_iff_getElem?_eq_some.mp he
  rcases getElem?_learnContacts hat with ⟨hc, hid⟩ | hn
  · exact ⟨hc, hid ▸ hat⟩
  · exact absurd hn (by simp)

theorem ids_learnContacts :
    ((learnContacts ∅ l).toList.map Prod.snd).map Contact.id = (learnContacts ∅ l).keys := by
  rw [List.map_map, ← map_fst_toList_eq_keys]
  refine map_congr_left fun e he => ?_
  rcases getElem?_learnContacts (mem_toList_iff_getElem?_eq_some.mp he) with ⟨-, hid⟩ | hn
  · exact hid
  · exact absurd hn (by simp)

theorem nearest_learnContacts (l : List (Contact A)) (target : B32) (n : ℕ) :
    RoutingTable.Nearest ((learnContacts ∅ l).toList.map Prod.snd) target n
      (lowest (fun c => distance c.id target) n ((learnContacts ∅ l).toList.map Prod.snd)) :=
  RoutingTable.nearest_lowest (ids_learnContacts ▸ nodup_keys) target n

end Learned

/-- A search that has come to its end: whom it asked, and what it returns of the contacts it
learned. -/
structure Converged (target : B32) (learned asked result : List (Contact A)) : Prop where
  once : (asked.map Contact.id).Nodup
  queried : ∀ c ∈ result, c.id ∈ asked.map Contact.id
  among : result ⊆ learned
  count : result.length = min bucketSize (learned.map Contact.id).toFinset.card
  increasing : result.Pairwise fun a b => distance a.id target < distance b.id target
  nearest : ∀ c ∈ learned, (∀ c' ∈ result, c'.id ≠ c.id)
    → ∀ c' ∈ result, distance c'.id target < distance c.id target

namespace Search

variable {target : B32} {valid : StoredRecord → Bool} {ask : Contact A → Answer A} {s : Search A}
  {atHand : List (Contact A)} {own : List StoredRecord}

/-- What a search has is what it was given and what those it asked answered. -/
structure Consistent (valid : StoredRecord → Bool) (ask : Contact A → Answer A)
    (atHand : List (Contact A)) (own : List StoredRecord) (s : Search A) : Prop where
  once : (s.asked.map Contact.id).Nodup
  known : s.known = learnContacts ∅ (atHand ++ s.asked.flatMap fun c => (ask c).closer)
  best : LastWriter.Latest StoredRecord.publisher StoredRecord.seq s.best
    (own ++ (s.asked.flatMap fun c => (ask c).records).filter valid)

variable (valid ask atHand own) in
theorem consistent_start : Consistent valid ask atHand own (start atHand own) := by
  refine ⟨nodup_nil, by simp [start], ?_⟩
  have hl :
      LastWriter.Latest StoredRecord.publisher StoredRecord.seq (own.foldl mergeRecord ∅)
        ([] ++ own) :=
    LastWriter.latest_empty.foldl_keep own
  simpa [start] using hl

theorem Consistent.round (h : Consistent valid ask atHand own s) :
    Consistent valid ask atHand own (s.round valid ask (s.batch target)) := by
  refine ⟨?_, ?_, ?_⟩
  · have hn :=
      (nearest_learnContacts (atHand ++ s.asked.flatMap fun c => (ask c).closer) target
        bucketSize).increasing
    rw [← h.known] at hn
    have hids : ((s.shortlist target).map Contact.id).Nodup :=
      pairwise_map.mpr (hn.imp fun hlt heq => hlt.ne (congrArg (distance · target) heq))
    refine (map_append ▸ nodup_append).mpr ⟨h.once, ?_, fun a ha b hb heq => ?_⟩
    · exact hids.sublist (((take_sublist _ _).trans filter_sublist).map _)
    · obtain ⟨c, hc, rfl⟩ := List.mem_map.mp hb
      exact (notMem_of_mem_batch hc).2 (heq ▸ ha)
  · rw [Search.round]
    dsimp only
    rw [h.known, learnContacts, learnContacts, learnContacts, ← foldl_append, append_assoc,
      flatMap_append]
  · rw [Search.round]
    dsimp only
    rw [flatMap_append, filter_append, ← append_assoc]
    exact h.best.foldl_keep _

theorem Consistent.loop (h : Consistent valid ask atHand own s) (target : B32) :
    Consistent valid ask atHand own (s.loop target valid ask)
      ∧ (s.loop target valid ask).batch target = [] := by
  fun_induction Search.loop target valid ask s with
  | case1 s hend => exact ⟨h, hend⟩
  | case2 s hgo ih => exact ih h.round

/-- Where nobody is left to ask, the search has converged. -/
theorem Consistent.converged (h : Consistent valid ask atHand own s) (hend : s.batch target = []) :
    Converged target (atHand ++ s.asked.flatMap fun c => (ask c).closer) s.asked
      (s.shortlist target) := by
  have hn :=
    nearest_learnContacts (atHand ++ s.asked.flatMap fun c => (ask c).closer) target bucketSize
  have hids := ids_learnContacts (l := atHand ++ s.asked.flatMap fun c => (ask c).closer)
  have hmem := mem_learnContacts ∅ (atHand ++ s.asked.flatMap fun c => (ask c).closer)
  rw [shortlist, h.known]
  refine ⟨h.once, fun c hc => ?_, fun c hc => (mem_values_learnContacts (hn.among hc)).1, ?_,
    hn.increasing,
    fun c hc hout c' hc' => ?_⟩
  · by_contra hnot
    have hin : c ∈ (s.shortlist target).filter fun c => c.id ∉ s.asked.map Contact.id :=
      List.mem_filter.mpr ⟨by rwa [shortlist, h.known], decide_eq_true hnot⟩
    rw [batch, take_eq_nil_iff] at hend
    exact hend.elim (fun h => absurd h (by decide)) fun h => absurd (h ▸ hin) (by simp)
  · rw [hn.count, ← length_map Contact.id, hids, ← toFinset_card_of_nodup nodup_keys]
    refine congrArg (fun s => min bucketSize (Finset.card s)) (Finset.ext fun id => ?_)
    rw [mem_toFinset, mem_toFinset, Std.ExtTreeMap.mem_keys, hmem]
    simp
  · have hh :
        c.id ∈ ((learnContacts ∅ (atHand ++ s.asked.flatMap fun c => (ask c).closer)).toList.map
          Prod.snd).map
        Contact.id := by
      rw [hids, Std.ExtTreeMap.mem_keys, hmem]
      exact .inr (List.mem_map_of_mem hc)
    obtain ⟨x, hx, hid⟩ := List.mem_map.mp hh
    exact hid ▸ hn.nearest x hx (fun hin => hout x hin hid) c' hc'

end Search

/-- The records that a search returns of those it was offered: for each publisher one of the highest
number, and in whatever order they are offered the same ones, if the numbers of a publisher
differ. -/
structure Highest (offered result : List StoredRecord) : Prop where
  once : (result.map StoredRecord.publisher).Nodup
  among : result ⊆ offered
  top : ∀ r ∈ offered, ∃ r' ∈ result, r'.publisher = r.publisher ∧ r.seq ≤ r'.seq
  orderless : (∀ r ∈ offered, ∀ r' ∈ offered, r.publisher = r'.publisher → r.seq = r'.seq → r = r')
    → ∀ offered' : List StoredRecord, offered'.Perm offered
    → (offered'.foldl mergeRecord ∅).toList.map Prod.snd = result

theorem highest_of_latest {best : BTreeMap B32 StoredRecord} {offered : List StoredRecord}
    (h : LastWriter.Latest StoredRecord.publisher StoredRecord.seq best offered) :
    Highest offered (best.toList.map Prod.snd) := by
  refine ⟨?_, h.values_subset, fun r hr => h.dominated hr, fun hd offered' hp => ?_⟩
  · have hk : (best.toList.map Prod.snd).map StoredRecord.publisher = best.toList.map Prod.fst := by
      rw [List.map_map]
      exact map_congr_left fun e he => (h.mem _ _ (mem_toList_iff_getElem?_eq_some.mp he)).2
    rw [hk]
    exact BTreeMap.nodup_keys_toList best
  · have hl :
        LastWriter.Latest StoredRecord.publisher StoredRecord.seq (offered'.foldl mergeRecord ∅)
          offered :=
      (LastWriter.latest_empty.foldl_keep offered').congr fun r => by simpa using hp.mem_iff
    rw [hl.ext h fun r hr r' hr' hkey hra _ => hd r hr r' hr' hkey hra]

/-- **A lookup ends with the closest contacts**, of those it was given or learned, each of them
asked, and nobody asked twice; **and a get ends there too, with the highest records**, of the node's
own and of the valid ones it was answered. -/
theorem lookup_and_get_converge (S : SigScheme) (target : B32) (atHand : List (Contact A))
    (own : List StoredRecord) (findNode : Contact A → List (Contact A))
    (findValue : Contact A → Answer A) :
    Converged target (atHand ++ (lookup target atHand findNode).1.flatMap findNode)
      (lookup target atHand findNode).1 (lookup target atHand findNode).2 ∧
      (∃ closest, Converged target
        (atHand ++ (get S target atHand own findValue).1.flatMap fun c => (findValue c).closer)
        (get S target atHand own findValue).1 closest) ∧
      Highest (own ++ ((get S target atHand own findValue).1.flatMap fun c =>
        (findValue c).records).filter
        fun r => r.key = target && r.verify S) (get S target atHand own findValue).2 := by
  -- the loops are named, so that the kernel does not compute them
  obtain ⟨s, hs⟩ :
    ∃ s, (Search.start atHand []).loop target (fun _ => true) (fun c => ⟨[], findNode c⟩) = s :=
      ⟨_, rfl⟩
  obtain ⟨t, ht⟩ :
    ∃ t, (Search.start atHand own).loop target (fun r => r.key = target && r.verify S) findValue
      = t := ⟨_, rfl⟩
  obtain ⟨hlookup, hend⟩ :=
    (Search.consistent_start (fun _ => true) (fun c => ⟨[], findNode c⟩) atHand []).loop target
  obtain ⟨hget, hend'⟩ :=
    (Search.consistent_start (fun r => r.key = target && r.verify S) findValue atHand own).loop
      target
  have hlookup' : lookup target atHand findNode = (s.asked, s.shortlist target) := by
    rw [lookup, hs]
  have hget' : get S target atHand own findValue = (t.asked, t.best.toList.map Prod.snd) := by
    rw [get, ht]
  rw [hs] at hlookup hend
  rw [ht] at hget hend'
  rw [hlookup', hget']
  exact ⟨hlookup.converged hend, ⟨_, hget.converged hend'⟩, highest_of_latest hget.best⟩

end Zephcraft.Dht
