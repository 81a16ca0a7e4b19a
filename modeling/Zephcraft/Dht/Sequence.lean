import Zephcraft.Dht.Record
import Zephcraft.Foundations.Run

/-!
# Dht/Sequence — the numbers of the records a node returns

A record is compared with the one that is held, whether or not that one's time is up. So the number
of what is held goes down only where a sweep forgets it.
-/

namespace Zephcraft.Dht

open Zephcraft.Core Run

namespace RecordStore

variable (S : SigScheme)

/-- Take in one record of a file; how many were taken in. -/
def loadOne (now : U64) (acc : ℕ × RecordStore) (p : StoredRecord × U64) : ℕ × RecordStore :=
  if p.2 ≤ now then acc
  else if !p.1.verify S then acc
  else if (acc.2.held p.1.key p.1.publisher).any fun existing => p.1.seq ≤ existing.1.seq then acc
  else (acc.1 + 1, acc.2.filing p.1 p.2)

/-- `load_from`, for what the file decodes to; it may be missing or corrupt. -/
def loadFrom (s : RecordStore) (file : Option (List (StoredRecord × U64))) (now : U64) :
    ℕ × RecordStore :=
  (file.getD []).foldl (loadOne S now) (0, s)

end RecordStore

/-- A node's records, and its clock. -/
structure Keeper where
  store : RecordStore
  clock : U64

namespace Keeper

/-- What happens to the store and its file. -/
inductive Event where
  | put (rec : StoredRecord)
  | expire
  | save
  /-- A file is loaded, whoever wrote it. -/
  | load (file : Option (List (StoredRecord × U64)))
  | advance (t : U64)

variable (S : SigScheme)

def step (w : Keeper) : Event → Keeper
  | .put rec => { w with store := (w.store.put S rec w.clock).2 }
  | .expire => { w with store := (w.store.expire w.clock).2 }
  | .save => w
  | .load file => { w with store := (w.store.loadFrom S file w.clock).2 }
  | .advance t => { w with clock := max w.clock t }

/-- The records of a publisher under a key that are returned. -/
def returned (w : Keeper) (key publisher : B32) : List StoredRecord :=
  (w.store.get key w.clock).filter fun r => r.publisher = publisher

/-- A sweep does not forget what is held for the key and the publisher. -/
def Remembers (key publisher : B32) (w : Keeper) : Event → Prop
  | .expire => ∀ e, w.store.held key publisher = some e → w.clock < e.2
  | _ => True

/-- Something of at least this number is held. -/
def HoldsFrom (key publisher : B32) (seq : U64) (store : RecordStore) : Prop :=
  ∃ e, store.held key publisher = some e ∧ seq ≤ e.1.seq

variable {S} {w : Keeper} {store : RecordStore} {key publisher : B32} {seq : U64}
  {rec : StoredRecord}

theorem held_of_returned (h : rec ∈ w.returned key publisher) :
    ∃ expires, w.store.held key publisher = some (rec, expires) := by
  obtain ⟨hget, hp⟩ := List.mem_filter.mp h
  obtain ⟨e, he, rfl⟩ := List.mem_map.mp hget
  have hh : w.store.held key e.1 = some e.2 :=
    Std.ExtTreeMap.mem_toList_iff_getElem?_eq_some.mp (List.mem_of_mem_filter he)
  obtain rfl : e.1 = publisher := (w.store.filed _ _ _ hh).2.symm.trans (of_decide_eq_true hp)
  exact ⟨e.2.2, hh⟩

/-- What is filed over a record has a higher number. -/
theorem HoldsFrom.filing (h : HoldsFrom key publisher seq store) {expires : U64}
    (hnew : ¬ (store.held rec.key rec.publisher).any (fun existing => rec.seq ≤ existing.1.seq)
      = true) :
    HoldsFrom key publisher seq (store.filing rec expires) := by
  obtain ⟨e, he, hseq⟩ := h
  have hh := Records.held_file store.inner rec expires key publisher
  split at hh
  · next hown =>
    obtain ⟨rfl, rfl⟩ := hown
    rw [he, Option.any_some, decide_eq_true_eq, not_le] at hnew
    exact ⟨(rec, expires), hh, hseq.trans hnew.le⟩
  · exact ⟨e, hh.trans he, hseq⟩

theorem HoldsFrom.loadOne (h : HoldsFrom key publisher seq store) (n : ℕ) (now : U64)
    (p : StoredRecord × U64) :
    HoldsFrom key publisher seq (RecordStore.loadOne S now (n, store) p).2 := by
  rw [RecordStore.loadOne]
  split
  · exact h
  · split
    · exact h
    · split
      · exact h
      · next hnew => exact h.filing hnew

theorem HoldsFrom.step (h : HoldsFrom key publisher seq w.store) {event : Event}
    (hev : Remembers key publisher w event) :
    HoldsFrom key publisher seq (w.step S event).store := by
  cases event with
  | put rec =>
    change HoldsFrom key publisher seq (w.store.put S rec w.clock).2
    rw [RecordStore.put]
    split
    · split
      · exact h
      · next hnew => exact h.filing hnew
    · exact h
  | expire =>
    obtain ⟨e, he, hseq⟩ := h
    refine ⟨e, (RecordStore.held_expire w.store w.clock key publisher).trans ?_, hseq⟩
    rw [he, Option.filter_some, if_pos (decide_eq_true (hev e he))]
  | save => exact h
  | load file =>
    suffices hfold :
        ∀ (l : List (StoredRecord × U64)) (acc : ℕ × RecordStore), HoldsFrom key publisher seq acc.2
          → HoldsFrom key publisher seq (l.foldl (RecordStore.loadOne S w.clock) acc).2 from hfold _
            (0, w.store) h
    intro l
    induction l with
    | nil => exact fun _ hacc => hacc
    | cons p l ih => exact fun acc hacc => ih _ (hacc.loadOne acc.1 w.clock p)
  | advance t => exact h

/-- **The number returned for a key and a publisher never goes down while it is remembered**: from
any state, over any events of which no sweep forgets the record, whatever is put or loaded. -/
theorem seq_never_decreases (S : SigScheme) (key publisher : B32) (w : Keeper) (events : List Event)
    (h : EachStep (step S) w (Remembers key publisher) events) :
    ∀ r ∈ w.returned key publisher, ∀ r' ∈ (run (step S) w events).returned key publisher,
    r.seq ≤ r'.seq := by
  intro r hr r' hr'
  obtain ⟨expires, hheld⟩ := held_of_returned hr
  obtain ⟨e, he, hseq⟩ :=
    invariant (I := fun w => HoldsFrom key publisher r.seq w.store) ⟨_, hheld, le_rfl⟩
    (fun _ _ hholds hevent => hholds.step hevent) h
  obtain ⟨expires', hheld'⟩ := held_of_returned hr'
  cases he.symm.trans hheld'
  exact hseq

def numbered (seq : U64) : StoredRecord := .sign .transparent (7 : B32) 1 seq []

/-- Ten milliseconds are kept; number 5 is there since the start. -/
def fiveHeld : Keeper := ⟨((RecordStore.new 10).put .transparent (numbered 5) 0).2, 0⟩

theorem seq_never_decreases_fiveHeld :
    numbered 5 ∈ fiveHeld.returned 1 7 ∧ numbered 6 ∈ (run (step .transparent) fiveHeld
      [.put (numbered 3), .save, .load (some [(numbered 6, 9)]), .advance 8]).returned 1 7
      ∧ (numbered 5).seq ≤ (numbered 6).seq := by
  have hfive : numbered 5 ∈ fiveHeld.returned 1 7 := by decide +kernel
  have hsix : numbered 6 ∈ (run (step .transparent) fiveHeld
    [.put (numbered 3), .save, .load (some [(numbered 6, 9)]), .advance 8]).returned 1 7 := by
      decide +kernel
  have hremembers : EachStep (step .transparent) fiveHeld (Remembers 1 7)
      [.put (numbered 3), .save, .load (some [(numbered 6, 9)]), .advance 8] :=
    eachStep_cons.mpr ⟨trivial,
      eachStep_cons.mpr ⟨trivial, eachStep_cons.mpr ⟨trivial, eachStep_cons.mpr
      ⟨trivial, eachStep_nil⟩⟩⟩⟩
  exact ⟨hfive, hsix, seq_never_decreases .transparent 1 7 fiveHeld _ hremembers _ hfive _ hsix⟩

/-- Number 5 is returned, and once a sweep has forgotten it an older record is taken and
returned. -/
theorem older_after_sweep :
    fiveHeld.returned 1 7 = [numbered 5] ∧
      (run (step .transparent) fiveHeld [.advance 20, .expire, .put (numbered 3)]).returned 1 7
        = [numbered 3] := by
  decide +kernel

end Keeper

end Zephcraft.Dht
