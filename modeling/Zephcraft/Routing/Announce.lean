import Zephcraft.Dht.Record
import Zephcraft.Foundations.Blake3
import Zephcraft.Foundations.Run

/-!
# Routing/Announce — heads, and what announcing them again does

The head of an app is a record under a key that its owner and its name give, numbered by its
version. Owners announce their heads again and again, the governors with a heartbeat far below the
time a record is kept.
-/

namespace Zephcraft.Routing

open Zephcraft.Core Dht RecordStore Run

def kindApp : Byte := 9

/-- The key of a record that belongs to an owner. -/
def ownedKey (kind : Byte) (owner : B32) (name : Bytes) : B32 :=
  blake3 (kind :: owner.toBytes ++ name)

/-- The announced head. -/
structure AppPayload where
  name : Bytes
  wasmCid : B32
  version : U64

def AppPayload.encode (p : AppPayload) : Bytes :=
  lengthPrefixed p.name ++ p.wasmCid.toBytes ++ varint p.version.val

/-- The record that announces an app; its number is the version. -/
def announceApp (S : SigScheme) (identity : S.Secret) (name : Bytes) (wasmCid : B32)
    (version : U64) : StoredRecord :=
  .sign S identity (ownedKey kindApp (S.nodeId identity) name) version
    (AppPayload.encode ⟨name, wasmCid, version⟩)

/-- A node that is responsible for a key, and its clock. -/
structure Responsible where
  store : RecordStore
  clock : U64

namespace Responsible

inductive Event where
  /-- The head is announced, again. -/
  | announce
  /-- Some other record arrives. -/
  | store (rec : StoredRecord)
  | expire
  | advance (t : U64)

variable (S : SigScheme) (head : StoredRecord)

def receive (w : Responsible) (rec : StoredRecord) : Responsible :=
  { w with store := (w.store.put S rec w.clock).2 }

def step (w : Responsible) : Event → Responsible
  | .announce => w.receive S head
  | .store rec => w.receive S rec
  | .expire => { w with store := (w.store.expire w.clock).2 }
  | .advance t => { w with clock := max w.clock t }

def Returned (w : Responsible) : Prop := head ∈ w.store.get head.key w.clock
deriving Decidable

/-- The event is not another record of the same key and publisher. -/
def Foreign : Event → Prop
  | .store rec => ¬ (rec.key = head.key ∧ rec.publisher = head.publisher)
  | .announce | .expire | .advance _ => True

instance : DecidablePred (Foreign head)
  | .store _ => inferInstanceAs (Decidable (¬ _))
  | .announce | .expire | .advance _ => inferInstanceAs (Decidable True)

variable {S head} {w : Responsible} {expires : U64}

variable (S head) in
theorem clock_le_step (w : Responsible) (e : Event) : w.clock ≤ (w.step S head e).clock := by
  cases e with
  | advance t => exact le_max_left _ _
  | announce | store rec | expire => exact le_rfl

theorem returned_iff (h : w.store.held head.key head.publisher = some (head, expires)) :
    w.Returned head ↔ w.clock < expires := by
  refine mem_get.trans ⟨?_, fun hl => ⟨expires, h, hl⟩⟩
  rintro ⟨expires', hh, hl⟩
  cases h.symm.trans hh
  exact hl

/-- **Before its time, no event changes what is held of the head**: an announcement is refused, a
sweep passes it by. -/
theorem held_step {e : Event} (hf : Foreign head e)
    (h : w.store.held head.key head.publisher = some (head, expires)) (hl : w.clock < expires) :
    (w.step S head e).store.held head.key head.publisher = some (head, expires) := by
  cases e with
  | announce =>
    change (w.store.put S head w.clock).2.held _ _ = _
    rw [put_of_held h, h]
  | store rec => exact (held_put_of_ne hf).trans h
  | expire =>
    refine (held_expire _ _ _ _).trans ?_
    rw [h]
    simpa using hl
  | advance t => exact h

/-- **A run from a state that holds the head**: it is returned at every instant exactly if the run
is over by its time. -/
theorem eachState_returned_iff (h : w.store.held head.key head.publisher = some (head, expires))
    {events : List Event} (hf : ∀ e ∈ events, Foreign head e) :
    EachState (step S head) w (Returned head) events
      ↔ (run (step S head) w events).clock < expires := by
  -- along with it: the head is held as long as its time is not up
  suffices hboth :
      (EachState (step S head) w (Returned head) events
        ↔ (run (step S head) w events).clock < expires)
      ∧ ((run (step S head) w events).clock < expires →
        (run (step S head) w events).store.held head.key head.publisher
          = some (head, expires)) from hboth.1
  induction events using List.reverseRecOn with
  | nil => exact ⟨eachState_nil.trans (returned_iff h), fun _ => h⟩
  | append_singleton events e ih =>
    obtain ⟨hiff, hh⟩ := ih fun e he => hf e (List.mem_append_left _ he)
    rw [eachState_concat, run_concat, hiff]
    have hc := clock_le_step S head (run (step S head) w events) e
    have hnext (hl) := held_step (S := S) (hf e (by simp)) (hh hl) hl
    refine ⟨⟨fun ⟨hl, hreturned⟩ => (returned_iff (hnext hl)).mp hreturned, fun hl => ?_⟩,
      fun hl => ?_⟩
    · have hb := hc.trans_lt hl
      exact ⟨hb, (returned_iff (hnext hb)).mpr hl⟩
    · exact hnext (hc.trans_lt hl)

variable (S) in
/-- **A head is returned at every instant after its first announcement exactly if the schedule is
over by the time that this announcement has set.** -/
theorem head_kept_iff (identity : S.Secret) (name : Bytes) (wasmCid : B32) (version : U64)
    (w : Responsible)
    (hfirst : ∀ e, w.store.held (ownedKey kindApp (S.nodeId identity) name) (S.nodeId identity)
      = some e → e.1.seq < version) (events : List Event) (hforeign :
        ∀ e ∈ events, Foreign (announceApp S identity name wasmCid version) e) :
    EachState (step S (announceApp S identity name wasmCid version))
        (w.step S (announceApp S identity name wasmCid version) .announce)
        (Returned (announceApp S identity name wasmCid version)) events
      ↔ (run (step S (announceApp S identity name wasmCid version))
          (w.step S (announceApp S identity name wasmCid version) .announce) events).clock
        < w.clock.satAdd w.store.ttlMillis :=
  eachState_returned_iff (held_put_of_lt (StoredRecord.verify_sign S _ _ _ _) hfirst) hforeign

/-- The announcements come with gaps below `ttl`, up to the end; `last` is the time of the one
before. -/
def gapsBelow (ttl : U64) : U64 → U64 → List Event → Bool
  | last, clock, [] => clock.val < last.val + ttl.val
  | last, clock, .announce :: events => clock.val < last.val + ttl.val && gapsBelow ttl clock clock
    events
  | last, clock, .advance t :: events => gapsBelow ttl last (max clock t) events
  | last, clock, .store _ :: events | last, clock, .expire :: events =>
    gapsBelow ttl last clock events

/-! ## The governance head -/

def govHeadName : Bytes := ascii "\x01governance-chain"

/-- At least this often the head is announced, in milliseconds. -/
def announceHeartbeat : ℕ := 600000

/-- Is it time to publish? After a change of the chain, and after the heartbeat. -/
def publishIfDue (seq : U64) (lastAnnounce : Option (U64 × U64)) (now : U64) : Bool :=
  match lastAnnounce with
  | some (lastSeq, announced) => lastSeq ≠ seq || announceHeartbeat ≤ (now.satSub announced).val
  | none => true

/-- What a governor whose chain does not change does at the given ticks. -/
def governanceTicks (seq : U64) : Option (U64 × U64) → List U64 → List Event
  | _, [] => []
  | lastAnnounce, now :: ticks =>
    if publishIfDue seq lastAnnounce now then .advance now :: .announce :: governanceTicks seq
      (some (seq, now)) ticks
    else .advance now :: governanceTicks seq lastAnnounce ticks

/-! ## Two days of a chain that does not change -/

def hours (n : ℕ) : U64 := .truncate (n * 3600000)

/-- A node that keeps records for two days. -/
def freshNode : Responsible := ⟨.new (hours 48), 0⟩

/-- The head of a chain that is at its genesis. -/
def genesisHead : StoredRecord := announceApp .transparent (1 : B32) govHeadName 7 1

/-- One day of the head: announced once more, swept, and returned. -/
theorem head_kept_iff_oneDay :
    EachState (step .transparent genesisHead) (freshNode.step .transparent genesisHead .announce)
      (Returned genesisHead) [.advance (hours 22), .announce, .expire, .advance (hours 24)] :=
  (head_kept_iff .transparent (1 : B32) govHeadName 7 1 freshNode (by intro e he; cases he) _
    (by decide +kernel)).mpr (by decide +kernel)

/-- **The head of a chain that does not change is lost** after two days, although it is announced
every 22 hours. -/
theorem announced_head_lost :
    gapsBelow freshNode.store.ttlMillis 0 0 (governanceTicks 0 (some (0, 0)) [hours 22, hours 44,
      hours 66]) = true ∧ ¬ EachState (step .transparent genesisHead) (freshNode.step .transparent
        genesisHead .announce) (Returned genesisHead) (governanceTicks 0 (some (0, 0)) [hours 22,
          hours 44, hours 66]) := by
  decide +kernel

end Responsible

end Zephcraft.Routing
