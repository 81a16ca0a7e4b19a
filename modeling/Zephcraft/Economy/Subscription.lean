import Zephcraft.Foundations.OrderedMap
import Zephcraft.Foundations.Word

/-!
# Economy/Subscription — windowed egress entitlements

A payment buys bytes of rewardable serving that expire; serving draws on them oldest grant first.
While the seeding phase lasts, an account that draws is first granted a free allowance, once a
window.
-/

namespace Zephcraft.Economy

open Word

def oneToken : U64 := 100000000

/-- The default egress price: bytes of rewardable serving one whole token funds. -/
def defaultBytesPerToken : U64 := 1099511627776

/-- Bytes every account is granted a window without paying, in the seeding phase. -/
def seedingPaidTierBytes : U64 := 1099511627776

/-- One entitlement: the bytes left of it, and the first epoch at which it is dead. -/
structure Grant where
  expiresAt : U64
  remaining : U64

/-- The entitlements of every consumer, oldest grant first, and the free allowance. -/
structure SubscriptionLedger where
  grants : BTreeMap B32 (List Grant)
  seedingPaidTier : U64
  seedingWindow : U64
  seedingNext : BTreeMap B32 U64

namespace SubscriptionLedger

/-- No entitlement yet; the seeding allowance on. -/
def new : SubscriptionLedger := ⟨∅, seedingPaidTierBytes, 0, ∅⟩

variable (l : SubscriptionLedger)

/-- The seeding eligibility of every account, for the snapshot. -/
def seedingEligibility : List (B32 × U64) := l.seedingNext.toList

/-- Restore the seeding eligibility from a snapshot: of two epochs for an account the later wins. -/
def restoreSeedingEligibility (rows : List (B32 × U64)) :
    SubscriptionLedger :=
  { l with seedingNext := l.seedingNext.raise rows }

/-- Apply the governed allowance and the window it lives for. -/
def setSeedingPaidTier (bytes windowEpochs : U64) : SubscriptionLedger :=
  { l with seedingPaidTier := bytes, seedingWindow := windowEpochs }

variable (consumer : B32)

/-- Append a grant to a consumer's queue. -/
def pushGrant (g : Grant) : SubscriptionLedger :=
  { l with grants := l.grants.insert consumer (l.grants.getD consumer [] ++ [g]) }

/-- Replace a consumer's queue, dropping the entry of an empty one. -/
def setQueue (q : List Grant) : SubscriptionLedger :=
  { l with grants := if q.isEmpty then l.grants.erase consumer else l.grants.insert consumer q }

/-- Buy an entitlement of `tokens × bytesPerToken` bytes, `tokens` being in base units. -/
def purchase (tokens bytesPerToken epoch window : U64) :
    SubscriptionLedger :=
  let bytes : U64 := truncate ((tokens.toU128.satMul bytesPerToken.toU128).val / oneToken.val)
  if bytes = 0 then l else l.pushGrant consumer ⟨epoch.satAdd window, bytes⟩

/-- Drop a consumer's expired grants, a prefix of its queue. -/
def expire (epoch : U64) : SubscriptionLedger :=
  match l.grants[consumer]? with
  | none => l
  | some q => l.setQueue consumer (q.dropWhile fun g => g.expiresAt ≤ epoch)

/-- Grant the seeding allowance to a consumer that may have it at `epoch`. -/
def seed (epoch : U64) : SubscriptionLedger :=
  let eligible := l.seedingNext.getD consumer 0 ≤ epoch
  if 0 < l.seedingPaidTier ∧ eligible then
    let window := if l.seedingWindow = 0 then 1 else l.seedingWindow
    let l := l.pushGrant consumer ⟨epoch.satAdd window, l.seedingPaidTier⟩
    { l with seedingNext := l.seedingNext.insert consumer (epoch.satAdd window) }
  else l

/-- The drawing loop: take from the front until nothing is wanted or nothing is left. Returns the
queue and how much was `used`. -/
def drain : List Grant → U64 → U64 → Except Panic (List Grant × U64)
  | [], _, used => return ([], used)
  | front :: q, want, used =>
    if want = 0 then return (front :: q, used)
    else do
      let take := min front.remaining want
      let remaining := front.remaining.satSub take
      let used ← used.addOrPanic take
      -- a front with something left has given all that was wanted, and ends the loop
      if remaining = 0 then drain q (want.satSub take) used
      else return ({ front with remaining := remaining } :: q, used)

/-- Draw up to `bytes` of a consumer's unexpired entitlement; returns how much was drawn. -/
def allocate (bytes epoch : U64) : Except Panic (SubscriptionLedger × U64) :=
  let l := (l.expire consumer epoch).seed consumer epoch
  match l.grants[consumer]? with
  | none => return (l, 0)
  | some q => do
    let (q, used) ← drain q bytes 0
    return (l.setQueue consumer q, used)

/-- Every consumer holding unexpired entitlement at `epoch`, and how much. -/
def balances (epoch : U64) : List (B32 × U64) :=
  l.grants.toList.filterMap fun e =>
    let rem := ((e.2.filter fun g => epoch < g.expiresAt).map Grant.remaining).foldl satAdd 0
    if 0 < rem then some (e.1, rem) else none

/-- A consumer's unexpired remaining entitlement. -/
def available (epoch : U64) : U64 :=
  match l.grants[consumer]? with
  | some q => ((q.filter fun g => epoch < g.expiresAt).map Grant.remaining).foldl satAdd 0
  | none => 0

/-! ## Drawing never overflows -/

/-- **The drawing loop returns**: what it has used and what it still wants never add up to more than
was asked for. -/
theorem drain_eq_ok (q : List Grant) (want used : U64) (h : used.val + want.val < 2 ^ 64) :
    ∃ q' used', drain q want used = .ok (q', used')
      ∧ used.val ≤ used'.val ∧ used'.val ≤ used.val + want.val := by
  induction q generalizing want used with
  | nil => exact ⟨[], used, rfl, le_rfl, Nat.le_add_right _ _⟩
  | cons front q ih =>
    unfold drain
    split
    · exact ⟨front :: q, used, rfl, le_rfl, Nat.le_add_right _ _⟩
    · have ht : (min front.remaining want).val ≤ want.val := min_le_right front.remaining want
      have hlt : used.val + (min front.remaining want).val < 2 ^ 64 := by omega
      have hadd : used.addOrPanic (min front.remaining want) = .ok ⟨_, hlt⟩ :=
        addOrPanic_eq_ok.mpr rfl
      simp only [hadd, bind, Except.bind]
      split
      · obtain ⟨q', used', hq, hle, hle'⟩ :=
          ih (want.satSub (min front.remaining want))
            ⟨used.val + (min front.remaining want).val, hlt⟩
            (by dsimp only [val_satSub]; omega)
        dsimp only [val_satSub] at hle hle'
        exact ⟨q', used', hq, by omega, by omega⟩
      · exact ⟨_, ⟨_, hlt⟩, rfl, Nat.le_add_right _ _, Nat.add_le_add_left ht _⟩

theorem allocate_eq_ok (l : SubscriptionLedger) (consumer : B32) (bytes epoch : U64) :
    ∃ l' used, l.allocate consumer bytes epoch = .ok (l', used) ∧ used ≤ bytes := by
  unfold allocate
  dsimp only
  split
  · exact ⟨_, 0, rfl, Nat.zero_le _⟩
  · rename_i q _
    obtain ⟨q', used, hq, -, hle⟩ := drain_eq_ok q bytes 0 (by simp)
    refine ⟨_, used, by simp only [hq, bind, Except.bind]; rfl, ?_⟩
    simpa using hle

end SubscriptionLedger

end Zephcraft.Economy
