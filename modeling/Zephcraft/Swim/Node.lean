import Zephcraft.Foundations.Codec
import Zephcraft.Foundations.OrderedMap
import Zephcraft.Foundations.Run

/-!
# Swim/Node — who is there, as one node has heard

Every node keeps a record of every other: where it is, when it was last heard of, and whether it is
alive. The records travel with the gossip.
-/

namespace Zephcraft.Swim

open Std

/-- What is thought of a member. -/
inductive MemberState where
  | alive
  | suspect
  | dead
deriving DecidableEq

namespace MemberState

def rank : MemberState → Byte
  | alive => 0
  | suspect => 1
  | dead => 2

def toU8 (s : MemberState) : Byte := s.rank

def fromU8 (v : Byte) : MemberState := if v = 1 then suspect else if v = 2 then dead else alive

@[simp] theorem fromU8_toU8 (s : MemberState) : fromU8 s.toU8 = s := by
  cases s <;> decide

end MemberState

structure AddrText (Addr : Type) where
  parse : Bytes → Option Addr
  text : Addr → Bytes

variable {Addr : Type}

/-- What is known of a member. -/
structure Member (Addr : Type) where
  addr : Addr
  lastHeardMs : U64
  incarnation : U64
  state : MemberState
  /-- When this node first had it as a suspect. -/
  suspectSinceMs : Option U64
deriving DecidableEq

namespace Member

def alive (addr : Addr) (lastHeardMs : U64) : Member Addr := ⟨addr, lastHeardMs, 0, .alive, none⟩

def setLiveness (m : Member Addr) (incarnation : U64) (state : MemberState) (now : U64) :
    Member Addr :=
  { m with
    incarnation
    state
    suspectSinceMs := match state with
      | .suspect => some (m.suspectSinceMs.getD now)
      | .alive | .dead => none }

end Member

/-- A member as gossiped. -/
structure MemberEntry where
  id : B32
  addr : Bytes
  lastHeardMs : U64
  incarnation : U64
  state : Byte
deriving DecidableEq

def memberEntry (A : AddrText Addr) (id : B32) (m : Member Addr) : MemberEntry :=
  ⟨id, A.text m.addr, m.lastHeardMs, m.incarnation, m.state.toU8⟩

abbrev Members (Addr : Type) := BTreeMap B32 (Member Addr)

/-- Does the entry win over the record: by its incarnation, and within one by the worse state? -/
def MemberEntry.winsOver (e : MemberEntry) (existing : Member Addr) : Bool :=
  existing.incarnation < e.incarnation
    || (e.incarnation = existing.incarnation && existing.state.rank
      < (MemberState.fromU8 e.state).rank)

/-- Merge one entry; did it change who is alive? How fresh a record is goes by itself. -/
def mergeOne (A : AddrText Addr) (members : Members Addr) (e : MemberEntry) (now : U64) :
    Bool × Members Addr :=
  match A.parse e.addr with
  | none => (false, members)
  | some addr =>
    let state := MemberState.fromU8 e.state
    match members[e.id]? with
    | some existing =>
      let won :=
        if e.winsOver existing then existing.setLiveness e.incarnation state now else existing
      let fresh :=
        if existing.lastHeardMs < e.lastHeardMs then { won with lastHeardMs := e.lastHeardMs, addr }
          else won
      (e.winsOver existing, members.insert e.id fresh)
    | none =>
      (true, members.insert e.id
        ⟨addr, e.lastHeardMs, e.incarnation, state, if state = .suspect then some now else none⟩)

def gossipRepeats : ℕ := 6

/-- A node's view. -/
structure Membership (Addr : Type) where
  me : B32
  /-- The address of the transport. -/
  addr : Addr
  suspectTimeout : U64
  deadRetention : U64
  selfIncarnation : U64
  members : Members Addr
  /-- The addresses of the active view. -/
  active : BTreeMap B32 Addr
  /-- How often each change is still to be sent. -/
  dirty : BTreeMap B32 ℕ

namespace Membership

def new (me : B32) (addr : Addr) (suspectTimeout deadRetention : U64) : Membership Addr :=
  ⟨me, addr, suspectTimeout, deadRetention, 0, ∅, ∅, ∅⟩

variable (A : AddrText Addr) (s : Membership Addr) (now : U64)

/-- Put the own record, as it is now, among the members. -/
def refreshSelf : Membership Addr :=
  { s with members := s.members.insert s.me ⟨s.addr, now, s.selfIncarnation, .alive, none⟩ }

def memberEntries : List MemberEntry := s.members.toList.map fun e => memberEntry A e.1 e.2

/-- Does the entry say of `me` that it is not alive? -/
def accuses (me : B32) (e : MemberEntry) : Bool := e.id = me && MemberState.fromU8 e.state ≠ .alive

/-- The incarnation that refutes an entry. -/
def bump (selfIncarnation incarnation : U64) : U64 := (max incarnation selfIncarnation).satAdd 1

/-- One entry of a set; `refute` is whether there was something to refute. -/
def mergeEntry (p : Membership Addr × Bool) (e : MemberEntry) : Membership Addr × Bool :=
  if e.id = p.1.me then
    if MemberState.fromU8 e.state ≠ .alive then
      ({ p.1 with selfIncarnation := bump p.1.selfIncarnation e.incarnation }, true)
    else p
  else
    match mergeOne A p.1.members e now with
    | (true, members) => ({ p.1 with members, dirty := p.1.dirty.insert e.id gossipRepeats }, p.2)
    | (false, members) => ({ p.1 with members }, p.2)

/-- Merge a set of entries, and refute what they say of the node itself. -/
def mergeMembers (entries : List MemberEntry) (now : U64) : Membership Addr :=
  let merged := entries.foldl (mergeEntry A now) (s, false)
  if merged.2 then
    { merged.1.refreshSelf now with dirty := merged.1.dirty.insert s.me gossipRepeats }
  else merged.1

/-- The sender of a message has been heard. -/
def noteHeard (id : B32) (now : U64) : Membership Addr :=
  if id = s.me then s
  else match s.members[id]? with
    | some m => { s with members := s.members.insert id { m with lastHeardMs := now } }
    | none =>
      match s.active[id]? with
      | some addr =>
        { s with
          members := s.members.insert id (.alive addr now)
          dirty := s.dirty.insert id gossipRepeats }
      | none => s

/-- The member has answered a probe: what this node suspected it of is cleared. -/
def probed (id : B32) (addr : Addr) (now : U64) : Membership Addr :=
  match s.members[id]? with
  | some m =>
    let heard := { m with lastHeardMs := now, addr }
    let cleared :=
      if heard.state = .suspect then heard.setLiveness heard.incarnation .alive now else heard
    { s with members := s.members.insert id cleared }
  | none =>
    { s with
      members := s.members.insert id (.alive addr now), dirty := s.dirty.insert id gossipRepeats }

/-- Neither the member nor those asked to reach it got an answer. -/
def suspect (id : B32) (now : U64) : Membership Addr :=
  match s.members[id]? with
  | some m =>
    if m.state = .alive then
      { s with
        members := s.members.insert id (m.setLiveness m.incarnation .suspect now)
        dirty := s.dirty.insert id gossipRepeats }
    else s
  | none => s

def markDead (id : B32) (now : U64) : Membership Addr :=
  match s.members[id]? with
  | some m =>
    { s with
      members := s.members.insert id (m.setLiveness m.incarnation .dead now)
      dirty := s.dirty.insert id gossipRepeats
      active := s.active.erase id }
  | none => { s with active := s.active.erase id }

/-- Those suspected for too long are dead. -/
def promoteSuspects : Membership Addr :=
  let expired := s.members.toList.filter fun e =>
    e.2.state = .suspect && e.2.suspectSinceMs.any fun since => s.suspectTimeout ≤ now.satSub since
  expired.foldl (fun s e => s.markDead e.1 now) s

/-- Has the member been heard of within the retention? -/
def fresh (m : Member Addr) : Bool := now.satSub m.lastHeardMs < s.deadRetention

def pruneMembers : Membership Addr :=
  { s with members := s.members.filter fun id m => id = s.me || s.fresh now m }

/-- Send what has changed, and count down. -/
def epidemicPush : List MemberEntry × Membership Addr :=
  let s := s.refreshSelf now
  (s.dirty.toList.filterMap fun d => s.members[d.1]?.map (memberEntry A d.1),
    { s with dirty := s.dirty.filterMap fun _ count => if count - 1 = 0 then none
      else some (count - 1) })

/-- Those that may be elected: the node itself, and who is not dead and has been heard of. -/
def census : List (B32 × Addr) :=
  (s.me, s.addr) :: (s.members.toList.filter fun e => e.1 ≠ s.me && e.2.state
    ≠ .dead && s.fresh now e.2).map
    fun e => (e.1, e.2.addr)

/-! ## Runs -/

/-- What happens at the node itself. -/
inductive Local (Addr : Type) where
  | refreshSelf (now : U64)
  | noteHeard (id : B32) (now : U64)
  | probed (id : B32) (addr : Addr) (now : U64)
  | suspect (id : B32) (now : U64)
  | promoteSuspects (now : U64)
  | pruneMembers (now : U64)
  | epidemicPush (now : U64)
  /-- The active view changes. -/
  | link (id : B32) (addr : Option Addr)
  /-- The transport has another address. -/
  | rebind (addr : Addr)

inductive Event (Addr : Type) where
  /-- Entries arrive, from whomever. -/
  | merge (entries : List MemberEntry) (now : U64)
  | act (a : Local Addr)

def act (s : Membership Addr) : Local Addr → Membership Addr
  | .refreshSelf now => s.refreshSelf now
  | .noteHeard id now => s.noteHeard id now
  | .probed id addr now => s.probed id addr now
  | .suspect id now => s.suspect id now
  | .promoteSuspects now => s.promoteSuspects now
  | .pruneMembers now => s.pruneMembers now
  | .epidemicPush now => (s.epidemicPush A now).2
  | .link id (some addr) => { s with active := s.active.insert id addr }
  | .link id none => { s with active := s.active.erase id }
  | .rebind addr => { s with addr }

def step (s : Membership Addr) : Event Addr → Membership Addr
  | .merge entries now => s.mergeMembers A entries now
  | .act a => s.act A a

end Membership

end Zephcraft.Swim
