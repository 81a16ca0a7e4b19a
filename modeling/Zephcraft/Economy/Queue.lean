import Zephcraft.Economy.Subscription

/-!
# Economy/Queue — what a draw reads of the ledger

A consumer's grants are a queue, and an operation on the ledger is an operation on one queue. A draw
first drops the expired front, so two ledgers that differ in expired fronts only (`SameLive`) draw
the same and show the same balances.
-/

namespace Zephcraft.Economy

open Std.ExtTreeMap

namespace SubscriptionLedger

variable (l : SubscriptionLedger)

/-- A consumer's queue, empty if it has no entry. -/
def queue (consumer : B32) : List Grant := l.grants.getD consumer []

theorem queue_pushGrant (l : SubscriptionLedger) (c c' : B32) (g : Grant) :
    (l.pushGrant c g).queue c' = if c = c' then l.queue c ++ [g] else l.queue c' := by
  simp only [queue, pushGrant, Std.ExtTreeMap.getD_insert, Std.LawfulEqCmp.compare_eq_iff_eq]

theorem queue_setQueue (l : SubscriptionLedger) (c c' : B32) (q : List Grant) :
    (l.setQueue c q).queue c' = if c = c' then q else l.queue c' := by
  unfold queue setQueue
  cases q with
  | nil => simp [getD_erase]
  | cons g q => simp [Std.ExtTreeMap.getD_insert]

/-! ## The live part of a queue -/

def unexpired (epoch : U64) (q : List Grant) : List Grant :=
  q.dropWhile fun g => g.expiresAt ≤ epoch

theorem unexpired_append (epoch : U64) (q r : List Grant) :
    unexpired epoch (q ++ r) = unexpired epoch (unexpired epoch q ++ r) := by
  simp only [unexpired, List.dropWhile_append, List.dropWhile_idempotent]

def live (consumer : B32) (epoch : U64) : List Grant :=
  unexpired epoch (l.queue consumer)

theorem queue_expire (l : SubscriptionLedger) (c c' : B32) (epoch : U64) :
    (l.expire c epoch).queue c' = if c = c' then l.live c epoch else l.queue c' := by
  unfold expire
  cases h : l.grants[c]? with
  | none =>
    have hq : l.queue c = [] := by
      rw [queue, getD_eq_getD_getElem?, h]
      rfl
    by_cases hc : c = c'
    · subst hc
      simp [live, hq, unexpired]
    · simp [hc]
  | some q =>
    have hq : l.queue c = q := by
      rw [queue, getD_eq_getD_getElem?, h]
      rfl
    dsimp only
    rw [queue_setQueue, live, hq]
    rfl

@[simp] theorem seedingNext_expire (l : SubscriptionLedger) (c : B32) (epoch : U64) :
    (l.expire c epoch).seedingNext = l.seedingNext := by
  unfold expire
  split <;> rfl

@[simp] theorem seedingPaidTier_expire (l : SubscriptionLedger) (c : B32) (epoch : U64) :
    (l.expire c epoch).seedingPaidTier = l.seedingPaidTier := by
  unfold expire
  split <;> rfl

@[simp] theorem seedingWindow_expire (l : SubscriptionLedger) (c : B32) (epoch : U64) :
    (l.expire c epoch).seedingWindow = l.seedingWindow := by
  unfold expire
  split <;> rfl

theorem allocate_eq (l : SubscriptionLedger) (c : B32) (bytes epoch : U64) :
    l.allocate c bytes epoch = let l₁ := (l.expire c epoch).seed c epoch
        (fun r => (l₁.setQueue c r.1, r.2)) <$> drain (l₁.queue c) bytes 0 := by
  unfold allocate
  dsimp only
  generalize (l.expire c epoch).seed c epoch = l₁
  cases h : l₁.grants[c]? with
  | none =>
    have hq : l₁.queue c = [] := by
      rw [queue, getD_eq_getD_getElem?, h]
      rfl
    have he : l₁.grants.erase c = l₁.grants := by
      ext k v
      rw [getElem?_erase]
      split
      · rename_i hk
        obtain rfl : c = k := by simpa using hk
        simp [h]
      · rfl
    simp [hq, drain, setQueue, he, pure, Except.pure]
  | some q =>
    have hq : l₁.queue c = q := by
      rw [queue, getD_eq_getD_getElem?, h]
      rfl
    rw [hq]
    rfl

/-! ## The allowance -/

/-- A consumer that draws at `epoch` is granted the allowance. -/
def Eligible (c : B32) (epoch : U64) : Prop :=
  0 < l.seedingPaidTier ∧ l.seedingNext.getD c 0 ≤ epoch
deriving Decidable

def allowanceWindow : U64 := if l.seedingWindow = 0 then 1 else l.seedingWindow

@[simp] theorem seedingPaidTier_seed (l : SubscriptionLedger) (c : B32) (epoch : U64) :
    (l.seed c epoch).seedingPaidTier = l.seedingPaidTier := by
  unfold seed
  dsimp only
  split <;> rfl

@[simp] theorem seedingWindow_seed (l : SubscriptionLedger) (c : B32) (epoch : U64) :
    (l.seed c epoch).seedingWindow = l.seedingWindow := by
  unfold seed
  dsimp only
  split <;> rfl

theorem seedingNext_seed (l : SubscriptionLedger) (c : B32) (epoch : U64) :
    (l.seed c epoch).seedingNext
      = if l.Eligible c epoch then l.seedingNext.insert c (epoch.satAdd l.allowanceWindow)
        else l.seedingNext := by
  unfold seed
  dsimp only
  split
  · rename_i h
    exact (if_pos (show l.Eligible c epoch from h)).symm
  · rename_i h
    exact (if_neg (show ¬ l.Eligible c epoch from h)).symm

theorem seeding_purchase (l : SubscriptionLedger) (c : B32) (tokens price epoch window : U64) :
    (l.purchase c tokens price epoch window).seedingPaidTier = l.seedingPaidTier
      ∧ (l.purchase c tokens price epoch window).seedingWindow = l.seedingWindow
      ∧ (l.purchase c tokens price epoch window).seedingNext = l.seedingNext := by
  unfold purchase
  dsimp only
  split <;> exact ⟨rfl, rfl, rfl⟩

theorem seeding_allocate {l m : SubscriptionLedger} {c : B32} {bytes epoch used : U64}
    (h : l.allocate c bytes epoch = .ok (m, used)) :
    m.seedingPaidTier = l.seedingPaidTier ∧ m.seedingWindow = l.seedingWindow ∧ m.seedingNext
        = if l.Eligible c epoch then l.seedingNext.insert c (epoch.satAdd l.allowanceWindow)
          else l.seedingNext := by
  rw [allocate_eq] at h
  cases hd : drain (((l.expire c epoch).seed c epoch).queue c) bytes 0 with
  | error e => simp [hd] at h
  | ok r =>
    obtain ⟨rfl, -⟩ : ((l.expire c epoch).seed c epoch).setQueue c r.1 = m ∧ r.2 = used := by
      simpa [hd] using h
    refine ⟨by simp [setQueue], by simp [setQueue], ?_⟩
    change ((l.expire c epoch).seed c epoch).seedingNext = _
    have he : (l.expire c epoch).Eligible c epoch ↔ l.Eligible c epoch := by
      simp [Eligible]
    have hw : (l.expire c epoch).allowanceWindow = l.allowanceWindow := by
      simp [allowanceWindow]
    simp only [seedingNext_seed, he, hw, seedingNext_expire]

/-! ## Ledgers that a draw cannot tell apart -/

/-- The same allowance and the same live queues. -/
structure SameLive (epoch : U64) (l l' : SubscriptionLedger) : Prop where
  tier : l'.seedingPaidTier = l.seedingPaidTier
  window : l'.seedingWindow = l.seedingWindow
  next : l'.seedingNext = l.seedingNext
  live : ∀ c, l'.live c epoch = l.live c epoch

variable {epoch : U64} {l l' : SubscriptionLedger}

theorem SameLive.pushGrant (h : SameLive epoch l l') (c : B32) (g : Grant) :
    SameLive epoch (l.pushGrant c g) (l'.pushGrant c g) := by
  refine ⟨h.tier, h.window, h.next, fun c' => ?_⟩
  have hl := h.live c
  simp only [SubscriptionLedger.live, queue_pushGrant] at hl ⊢
  split
  · rw [unexpired_append, hl, ← unexpired_append]
  · exact h.live c'

theorem SameLive.purchase (h : SameLive epoch l l') (c : B32) (tokens price e window : U64) :
    SameLive epoch (l.purchase c tokens price e window) (l'.purchase c tokens price e window) := by
  unfold SubscriptionLedger.purchase
  dsimp only
  split
  · exact h
  · exact h.pushGrant c _

theorem SameLive.setQueue (h : SameLive epoch l l') (c : B32) (q : List Grant) :
    SameLive epoch (l.setQueue c q) (l'.setQueue c q) := by
  refine ⟨h.tier, h.window, h.next, fun c' => ?_⟩
  simp only [SubscriptionLedger.live, queue_setQueue]
  split
  · rfl
  · exact h.live c'

theorem SameLive.expire (h : SameLive epoch l l') (c : B32) :
    SameLive epoch (l.expire c epoch) (l'.expire c epoch) := by
  refine ⟨by simp [h.tier], by simp [h.window], by simp [h.next], fun c' => ?_⟩
  have hl := h.live c
  simp only [SubscriptionLedger.live, queue_expire] at hl ⊢
  split
  · rw [hl]
  · exact h.live c'

theorem SameLive.seed (h : SameLive epoch l l') (c : B32) :
    SameLive epoch (l.seed c epoch) (l'.seed c epoch) := by
  unfold SubscriptionLedger.seed
  rw [h.tier, h.window, h.next]
  dsimp only
  split
  · have hp := h.pushGrant c ⟨epoch.satAdd (if l.seedingWindow = 0 then 1 else l.seedingWindow),
      l.seedingPaidTier⟩
    exact ⟨h.tier, h.window, congrArg (fun m : BTreeMap B32 U64 => m.insert c _) h.next, hp.live⟩
  · exact h

theorem SameLive.queue_seed (h : SameLive epoch l l') (c : B32) :
    ((l'.expire c epoch).seed c epoch).queue c = ((l.expire c epoch).seed c epoch).queue c := by
  have hq : (l'.expire c epoch).queue c = (l.expire c epoch).queue c := by
    simp only [queue_expire, if_true, h.live c]
  have hexp := h.expire c
  unfold SubscriptionLedger.seed
  rw [hexp.tier, hexp.window, hexp.next]
  dsimp only
  split
  · refine (queue_pushGrant _ c c _).trans (Eq.trans ?_ (queue_pushGrant _ c c _).symm)
    rw [if_pos rfl, if_pos rfl, hq]
  · exact hq

theorem SameLive.allocate (h : SameLive epoch l l') {c : B32} {bytes used : U64}
    {m : SubscriptionLedger} (hm : l.allocate c bytes epoch = .ok (m, used)) :
    ∃ m', l'.allocate c bytes epoch = .ok (m', used) ∧ SameLive epoch m m' := by
  rw [allocate_eq] at hm ⊢
  dsimp only at hm ⊢
  rw [h.queue_seed c]
  cases hd : drain (((l.expire c epoch).seed c epoch).queue c) bytes 0 with
  | error e => simp [hd] at hm
  | ok r =>
    obtain ⟨rfl, rfl⟩ : _ = m ∧ r.2 = used := by simpa [hd] using hm
    exact ⟨_, rfl, ((h.expire c).seed c).setQueue c r.1⟩

/-! ## Balances -/

def remaining (epoch : U64) (q : List Grant) : U64 :=
  ((q.filter fun g => epoch < g.expiresAt).map Grant.remaining).foldl Word.satAdd 0

theorem remaining_unexpired (epoch : U64) (q : List Grant) :
    remaining epoch (unexpired epoch q) = remaining epoch q := by
  induction q with
  | nil => rfl
  | cons g q ih =>
    by_cases hg : g.expiresAt ≤ epoch
    · rw [show unexpired epoch (g :: q) = unexpired epoch q by simp [unexpired, hg], ih]
      simp [remaining, hg]
    · rw [show unexpired epoch (g :: q) = g :: q by simp [unexpired, hg]]

/-- The balance a queue shows: nothing if it is empty. -/
def shown (epoch : U64) (q : List Grant) : Option U64 :=
  if 0 < remaining epoch q then some (remaining epoch q) else none

theorem balances_eq (l : SubscriptionLedger) (epoch : U64) :
    l.balances epoch = (l.grants.filterMap fun _ q => shown epoch q).toList := by
  rw [toList_filterMap]
  refine List.filterMap_congr fun e _ => ?_
  unfold shown remaining
  split <;> rename_i h <;> simp [h]

theorem getElem?_shown (l : SubscriptionLedger) (epoch : U64) (c : B32) :
    (l.grants.filterMap fun _ q => shown epoch q)[c]? = shown epoch (l.live c epoch) := by
  rw [getElem?_filterMap', live, queue, getD_eq_getD_getElem?]
  cases l.grants[c]? with
  | none => rfl
  | some q => simp [shown, remaining_unexpired]

theorem SameLive.balances (h : SameLive epoch l l') : l'.balances epoch = l.balances epoch := by
  rw [balances_eq, balances_eq]
  congr 1
  refine ext_getElem? fun c => ?_
  rw [getElem?_shown, getElem?_shown, h.live]

end SubscriptionLedger

end Zephcraft.Economy
