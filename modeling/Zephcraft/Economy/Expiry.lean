import Zephcraft.Economy.Held
import Zephcraft.Foundations.Run

/-!
# Economy/Expiry — is expired entitlement ever spent?

Expired grants are dropped from the front of a consumer's queue, up to the first that is alive; the
draw then takes grants as they come. Where every grant expires no earlier than the ones before it,
what is left is alive.
-/

namespace Zephcraft.Economy

open List Std.ExtTreeMap Word Grant SubscriptionLedger Run

/-! ## What a draw takes from a queue -/

/-- The bytes left in the grants of a queue that are alive at an epoch. -/
def alive (epoch : U64) (q : List Grant) : ℕ := granted (q.filter fun g => epoch < g.expiresAt)

def dead (epoch : U64) (q : List Grant) : ℕ := granted (q.filter fun g => g.expiresAt ≤ epoch)

/-- The queue without its first `want` bytes. -/
def drained : List Grant → ℕ → List Grant
  | [], _ => []
  | g :: q, want =>
    if want = 0 then g :: q
    else if g.remaining.val ≤ want then drained q (want - g.remaining.val)
    else { g with remaining := g.remaining.satSub (truncate want) } :: q

/-- The dead grants of a queue that have bytes left are further back than a draw of `want` bytes. -/
def OutOfReach (epoch : U64) (q : List Grant) (want : ℕ) : Prop :=
  ∀ pre g post, q = pre ++ g :: post → g.expiresAt ≤ epoch → 0 < g.remaining → want ≤ granted pre

section Queue

variable {epoch : U64} {q r : List Grant} {g : Grant} {want : ℕ}

theorem alive_add_dead (epoch : U64) (q : List Grant) :
    alive epoch q + dead epoch q = granted q := by
  induction q with
  | nil => rfl
  | cons g q ih =>
    rw [alive, dead] at ih ⊢
    by_cases h : epoch < g.expiresAt
    · simp [h, not_le.mpr h, ← ih, Nat.add_assoc]
    · simp [h, not_lt.mp h, ← ih]
      omega

theorem dead_append : dead epoch (q ++ r) = dead epoch q + dead epoch r := by simp [dead]

theorem dead_cons :
    dead epoch (g :: q) = (if g.expiresAt ≤ epoch then g.remaining.val else 0) + dead epoch q := by
  by_cases h : g.expiresAt ≤ epoch <;> simp [dead, h]

theorem unexpired_of_dead (hg : g.expiresAt ≤ epoch) :
    unexpired epoch (g :: q) = unexpired epoch q := by
  simp [unexpired, hg]

theorem unexpired_of_alive (hg : ¬ g.expiresAt ≤ epoch) : unexpired epoch (g :: q) = g :: q := by
  simp [unexpired, hg]

theorem alive_unexpired (epoch : U64) (q : List Grant) :
    alive epoch (unexpired epoch q) = alive epoch q := by
  induction q with
  | nil => rfl
  | cons g q ih =>
    by_cases hg : g.expiresAt ≤ epoch
    · have hk : alive epoch (g :: q) = alive epoch q := by simp [alive, hg]
      rw [unexpired_of_dead hg, hk, ih]
    · rw [unexpired_of_alive hg]

theorem val_remaining (epoch : U64) (q : List Grant) :
    (SubscriptionLedger.remaining epoch q).val = min (alive epoch q) (2 ^ 64 - 1) := by
  rw [SubscriptionLedger.remaining, val_foldl_satAdd, List.map_map]
  simp only [Fin.val_zero, Nat.zero_add]
  rfl

theorem outOfReach_nil : OutOfReach epoch [] want := fun pre g post h => by simp at h

/-- **One grant first**: if it is dead nothing may be wanted of it, and the rest gives what it does
not. -/
theorem outOfReach_cons : OutOfReach epoch (g :: q) want
    ↔ (g.expiresAt ≤ epoch → 0 < g.remaining → want = 0)
      ∧ OutOfReach epoch q (want - g.remaining.val) := by
  constructor
  · intro h
    refine ⟨fun hd hpos => Nat.le_zero.mp (h [] g q rfl hd hpos), fun pre x post hq hd hpos => ?_⟩
    have := h (g :: pre) x post (by rw [hq, cons_append]) hd hpos
    rw [granted_cons] at this
    omega
  · rintro ⟨hf, hr⟩ pre x post hq hd hpos
    cases pre with
    | nil =>
      obtain ⟨rfl, rfl⟩ := List.cons.inj hq
      exact (hf hd hpos).le
    | cons y pre =>
      obtain ⟨rfl, rfl⟩ := List.cons.inj hq
      have := hr pre x post rfl hd hpos
      rw [granted_cons]
      omega

theorem outOfReach_append (hr : ∀ g ∈ r, epoch < g.expiresAt) :
    OutOfReach epoch (q ++ r) want ↔ OutOfReach epoch q want := by
  induction q generalizing want with
  | nil =>
    refine ⟨fun _ => outOfReach_nil, fun _ pre g post hs hd => ?_⟩
    exact absurd hd (not_le.mpr (hr g (by rw [← nil_append r, hs]; simp)))
  | cons g q ih => rw [cons_append, outOfReach_cons, outOfReach_cons, ih]

theorem val_truncate_of_lt {w : U64} (h : want < w.val) : (truncate want : U64).val = want := by
  rw [val_truncate, Nat.mod_eq_of_lt (h.trans w.isLt)]

theorem granted_drained (q : List Grant) (want : ℕ) :
    granted (drained q want) + min want (granted q) = granted q := by
  induction q generalizing want with
  | nil => simp [drained]
  | cons g q ih =>
    rw [drained, granted_cons]
    split
    · subst want
      simp
    · split
      · have := ih (want - g.remaining.val)
        omega
      · rename_i hlt
        rw [granted_cons, val_satSub, val_truncate_of_lt (not_le.mp hlt)]
        omega

@[simp] theorem drained_zero (q : List Grant) : drained q 0 = q := by cases q <;> simp [drained]

/-- **A draw leaves the dead grants as they are exactly if it does not reach them.** -/
theorem dead_drained_iff (epoch : U64) (q : List Grant) (want : ℕ) :
    dead epoch (drained q want) ≤ dead epoch q ∧ (dead epoch (drained q want) = dead epoch q
      ↔ OutOfReach epoch q want) := by
  induction q generalizing want with
  | nil => exact ⟨le_rfl, fun _ => outOfReach_nil, fun _ => rfl⟩
  | cons g q ih =>
    obtain ⟨hle, hiff⟩ := ih (want - g.remaining.val)
    have hpos : 0 < g.remaining ↔ 0 < g.remaining.val := Fin.lt_def
    rw [outOfReach_cons, ← hiff, hpos, drained]
    by_cases hz : want = 0
    · simp [hz]
    rw [if_neg hz]
    by_cases hall : g.remaining.val ≤ want
    · rw [if_pos hall, dead_cons]
      by_cases hd : g.expiresAt ≤ epoch
      · simp only [hd, if_true, true_imp_iff]
        omega
      · simp only [hd, if_false, false_imp_iff, true_and, Nat.zero_add]
        exact ⟨hle, trivial⟩
    · rw [if_neg hall, dead_cons, dead_cons, Nat.sub_eq_zero_of_le (by omega), drained_zero]
      by_cases hd : g.expiresAt ≤ epoch
      · simp only [hd, if_true, true_imp_iff, val_satSub, val_truncate_of_lt (not_le.mp hall)]
        omega
      · simp [hd]

end Queue

namespace SubscriptionLedger

variable {epoch : U64} {g : Grant} (q : List Grant)

theorem drain_eq_drained (want used : U64) (h : used.val + want.val < 2 ^ 64) :
    ∃ used' : U64, drain q want used = .ok (drained q want.val, used')
      ∧ used'.val = used.val + min want.val (granted q) := by
  induction q generalizing want used with
  | nil => exact ⟨used, rfl, by simp⟩
  | cons front q ih =>
    rw [drain, drained]
    by_cases hz : want = 0
    · subst hz
      exact ⟨used, by simp [pure, Except.pure], by simp⟩
    · have hval : want.val ≠ 0 := fun hv => hz (Fin.ext hv)
      have hmin : (min front.remaining want).val = min front.remaining.val want.val := by
        rcases le_total front.remaining want with hle | hle
        · rw [min_eq_left hle, min_eq_left (Fin.le_def.mp hle)]
        · rw [min_eq_right hle, min_eq_right (Fin.le_def.mp hle)]
      obtain ⟨sum, hadd, hsum⟩ : ∃ sum : U64, used.addOrPanic (min front.remaining want) = .ok sum
          ∧ sum.val = used.val + min front.remaining.val want.val :=
        ⟨⟨used.val + (min front.remaining want).val, by omega⟩, addOrPanic_eq_ok.mpr rfl,
          by rw [← hmin]⟩
      simp only [if_neg hz, if_neg hval, hadd, bind, Except.bind]
      rcases le_or_gt front.remaining.val want.val with hle | hgt
      · -- the whole front is taken, and the rest of the wish goes to the rest of the queue
        have hr : front.remaining.satSub (min front.remaining want) = 0 := Fin.ext (by
          rw [val_satSub, hmin]
          simp only [Fin.val_zero]
          omega)
        have hw :
            (want.satSub (min front.remaining want)).val = want.val - front.remaining.val := by
          rw [val_satSub, hmin]
          omega
        obtain ⟨used', hd, hu⟩ := ih (want.satSub (min front.remaining want)) sum (by omega)
        rw [if_pos hr, if_pos hle]
        refine ⟨used', by rw [hd, hw], ?_⟩
        rw [hu, hw, granted_cons]
        omega
      · have hmin' : min front.remaining want = want := min_eq_right (Fin.le_def.mpr hgt.le)
        have hr : front.remaining.satSub want ≠ 0 := fun heq => by
          have := congrArg Fin.val heq
          rw [val_satSub] at this
          simp only [Fin.val_zero] at this
          omega
        have ht : (truncate want.val : U64) = want := Fin.ext (by
          rw [val_truncate, Nat.mod_eq_of_lt want.isLt])
        rw [hmin', if_neg hr, if_neg (not_le.mpr hgt), ht]
        refine ⟨sum, rfl, ?_⟩
        rw [granted_cons]
        omega

/-! ## A purchase -/

/-- The grant a purchase pushes, if it buys anything. -/
def bought (tokens bytesPerToken epoch window : U64) : List Grant :=
  let bytes : U64 := truncate ((tokens.toU128.satMul bytesPerToken.toU128).val / oneToken.val)
  if bytes = 0 then [] else [⟨epoch.satAdd window, bytes⟩]

theorem queue_purchase (l : SubscriptionLedger) (c c' : B32) (tokens price epoch window : U64) :
    (l.purchase c tokens price epoch window).queue c'
      = if c = c' then l.queue c ++ bought tokens price epoch window else l.queue c' := by
  unfold purchase bought
  dsimp only
  split
  · split
    · subst c'
      rw [append_nil]
    · rfl
  · rw [queue_pushGrant]

theorem mem_bought {tokens price window : U64} (h : g ∈ bought tokens price epoch window) :
    g.expiresAt = epoch.satAdd window ∧ 0 < g.remaining := by
  unfold bought at h
  dsimp only at h
  split at h
  · simp at h
  · rename_i hne
    obtain rfl := mem_singleton.mp h
    exact ⟨rfl, Fin.lt_def.mpr (Nat.pos_of_ne_zero fun hz => hne (Fin.ext hz))⟩

/-! ## A draw -/

variable (l : SubscriptionLedger)

/-- The grant a draw at an epoch is preceded by, if the consumer may have its allowance. -/
def due (c : B32) (epoch : U64) : List Grant :=
  if l.Eligible c epoch then [⟨epoch.satAdd l.allowanceWindow, l.seedingPaidTier⟩] else []

def allowance (c : B32) (epoch : U64) : ℕ :=
  if l.Eligible c epoch then l.seedingPaidTier.val else 0

section Draw

variable (l : SubscriptionLedger) (c : B32) (bytes epoch : U64)

theorem granted_due : granted (l.due c epoch) = l.allowance c epoch := by
  rw [due, allowance]
  split <;> simp

theorem allowance_lt : l.allowance c epoch < 2 ^ 64 := by
  rw [allowance]
  split
  · exact l.seedingPaidTier.isLt
  · omega

theorem available_eq : l.available c epoch = remaining epoch (l.queue c) := by
  rw [available, queue, getD_eq_getD_getElem?]
  cases l.grants[c]? <;> rfl

theorem val_available : (l.available c epoch).val = min (alive epoch (l.queue c)) (2 ^ 64 - 1) := by
  rw [available_eq, val_remaining]

variable (q : List Grant) (c' : B32)

theorem queue_seed :
    (l.seed c epoch).queue c' = if c = c' then l.queue c ++ l.due c epoch else l.queue c' := by
  unfold seed due
  dsimp only
  split
  · rename_i h
    rw [if_pos (show l.Eligible c epoch from h)]
    exact queue_pushGrant l c c' _
  · rename_i h
    rw [if_neg (show ¬ l.Eligible c epoch from h), append_nil]
    split
    · subst c'
      rfl
    · rfl

theorem queue_seed_expire : ((l.expire c epoch).seed c epoch).queue c'
    = if c = c' then l.live c epoch ++ l.due c epoch else l.queue c' := by
  have he : (l.expire c epoch).Eligible c epoch ↔ l.Eligible c epoch := by simp [Eligible]
  have hw : (l.expire c epoch).allowanceWindow = l.allowanceWindow := by simp [allowanceWindow]
  have hdue : (l.expire c epoch).due c epoch = l.due c epoch := by
    simp only [due, he, hw, seedingPaidTier_expire]
  rw [queue_seed, hdue, queue_expire, queue_expire, if_pos rfl]
  split <;> rfl

/-- The ledger after a draw that leaves its consumer the queue `q`. -/
def drewTo (q : List Grant) : SubscriptionLedger :=
  { l.setQueue c q with
    seedingNext :=
      if l.Eligible c epoch then l.seedingNext.insert c (epoch.satAdd l.allowanceWindow)
        else l.seedingNext }

theorem queue_drewTo : (l.drewTo c epoch q).queue c' = if c = c' then q else l.queue c' :=
  queue_setQueue l c c' q

theorem setQueue_setQueue (r : List Grant) : (l.setQueue c q).setQueue c r = l.setQueue c r := by
  have hg : ((l.setQueue c q).setQueue c r).grants = (l.setQueue c r).grants := by
    refine Std.ExtTreeMap.ext_getElem? fun k => ?_
    simp only [setQueue]
    split_ifs <;> simp only [Std.ExtTreeMap.getElem?_insert, getElem?_erase] <;> split_ifs <;> rfl
  exact congrArg (fun grants => { l with grants := grants }) hg

theorem pushGrant_eq_setQueue (g : Grant) : l.pushGrant c g = l.setQueue c (l.queue c ++ [g]) := by
  simp [pushGrant, setQueue, queue]

theorem setQueue_seed_expire :
    ((l.expire c epoch).seed c epoch).setQueue c q = l.drewTo c epoch q := by
  have hex : (l.expire c epoch).setQueue c q = l.setQueue c q := by
    unfold expire
    split
    · rfl
    · exact setQueue_setQueue l c _ q
  have hel : (l.expire c epoch).Eligible c epoch ↔ l.Eligible c epoch := by simp [Eligible]
  unfold seed drewTo
  dsimp only
  by_cases h : l.Eligible c epoch
  · have hp := setQueue_setQueue (l.expire c epoch) c
      ((l.expire c epoch).queue c ++ [⟨epoch.satAdd l.allowanceWindow, l.seedingPaidTier⟩]) q
    rw [← pushGrant_eq_setQueue, hex] at hp
    rw [if_pos (show 0 < (l.expire c epoch).seedingPaidTier ∧ _ from hel.mpr h), if_pos h,
      seedingWindow_expire, seedingPaidTier_expire]
    change { ((l.expire c epoch).pushGrant c ⟨epoch.satAdd l.allowanceWindow,
      l.seedingPaidTier⟩).setQueue c q with
      seedingNext := (l.expire c epoch).seedingNext.insert c (epoch.satAdd l.allowanceWindow) } = _
    rw [hp, seedingNext_expire]
  · rw [if_neg (show ¬ (0 < (l.expire c epoch).seedingPaidTier ∧ _) from fun he => h (hel.mp he)),
      if_neg h, hex]
    rfl

/-- **A draw drains** what is behind the expired front and the allowance that is due. -/
theorem allocate_eq_drained : ∃ used, l.allocate c bytes epoch
      = .ok (l.drewTo c epoch (drained (l.live c epoch ++ l.due c epoch) bytes.val), used)
      ∧ used.val = min bytes.val (granted (l.live c epoch) + l.allowance c epoch) := by
  obtain ⟨used, hd, hu⟩ := drain_eq_drained (l.live c epoch ++ l.due c epoch) bytes 0 (by simp)
  refine ⟨used, ?_, ?_⟩
  · rw [allocate_eq]
    dsimp only
    rw [queue_seed_expire, if_pos rfl, hd]
    exact congrArg (fun l' => Except.ok (l', used)) (setQueue_seed_expire l c epoch _)
  · rw [hu, granted_append, granted_due]
    simp

end Draw

/-! ## Runs -/

inductive LedgerOp
  | purchase (consumer : B32) (tokens bytesPerToken epoch window : U64)
  | allocate (consumer : B32) (bytes epoch : U64)
  | setSeedingPaidTier (bytes windowEpochs : U64)
  | balances (epoch : U64)

def step : LedgerOp → SubscriptionLedger
  | .purchase c tokens price epoch window => l.purchase c tokens price epoch window
  | .allocate c bytes epoch =>
    match l.allocate c bytes epoch with
    | .ok (l', _) => l'
    | .error _ => l
  | .setSeedingPaidTier bytes window => l.setSeedingPaidTier bytes window
  | .balances _ => l

/-- A draw of `used` bytes that leaves `l'`: all that is available and allowed, up to what was asked
for, is drawn; and what is available afterwards is what it did not take, with what is left of the
allowance (which is dead at once in the last epoch). -/
@[mk_iff] structure Drawn (l : SubscriptionLedger) (c : B32) (bytes epoch : U64)
    (l' : SubscriptionLedger) (used : U64) : Prop where
  used_eq : used.val = min bytes.val ((l.available c epoch).val + l.allowance c epoch)
  left_eq : (l'.available c epoch).val
    = (l.available c epoch).val - min bytes.val (l.available c epoch).val
      + if epoch.val < 2 ^ 64 - 1 then l.allowance c epoch
        - (used.val - min bytes.val (l.available c epoch).val) else 0

/-- A draw gives what it should; the other calls draw nothing. -/
def Honest : LedgerOp → Prop
  | .allocate c bytes epoch => ∃ r, l.allocate c bytes epoch = .ok r ∧ Drawn l c bytes epoch r.1 r.2
  | _ => True

/-- A draw does not reach a dead grant, and the balances it is told by fit their counter. -/
def Sound : LedgerOp → Prop
  | .allocate c bytes epoch =>
    let total := alive epoch (l.queue c)
    let allowance := l.allowance c epoch
    -- a full counter shows no difference if just the excess is drawn
    if total < 2 ^ 64 then
      total + allowance + 1 = 2 ^ 64 + bytes.val
        ∨ total + allowance + 1 < 2 ^ 64 + bytes.val ∧ OutOfReach epoch (l.live c epoch) bytes.val
    else bytes.val = allowance
  | _ => True

/-- What is alive and allowed fits its counter. -/
def Fits : LedgerOp → Prop
  | .allocate c _ epoch => alive epoch (l.queue c) + l.allowance c epoch < 2 ^ 64
  | _ => True

/-- A grant that is pushed expires no earlier than those before it. -/
def InOrder : LedgerOp → Prop
  | .purchase c _ _ epoch window => ∀ g ∈ l.queue c, g.expiresAt ≤ epoch.satAdd window
  | .allocate c _ epoch => ∀ g ∈ l.live c epoch, ∀ s ∈ l.due c epoch, g.expiresAt ≤ s.expiresAt
  | _ => True

/-- Every queue is in the order its grants expire in. -/
def Ordered : Prop := ∀ c, ((l.queue c).map expiresAt).Pairwise (· ≤ ·)

instance (l l' : SubscriptionLedger) (c : B32) (bytes epoch used : U64) :
    Decidable (Drawn l c bytes epoch l' used) :=
  decidable_of_iff _ (drawn_iff l c bytes epoch l' used).symm

instance decidableHonest (l : SubscriptionLedger) : DecidablePred l.Honest
  | .purchase .. | .setSeedingPaidTier .. | .balances _ => isTrue trivial
  | .allocate c bytes epoch =>
    match h : l.allocate c bytes epoch with
    | .ok r => decidable_of_iff (Drawn l c bytes epoch r.1 r.2)
        ⟨fun hdrawn => ⟨r, h, hdrawn⟩, fun ⟨_, hr, hdrawn⟩ => Except.ok.inj (h.symm.trans hr)
          ▸ hdrawn⟩
    | .error _ => isFalse fun ⟨_, hr, _⟩ => nomatch h.symm.trans hr

instance decidableInOrder (l : SubscriptionLedger) : DecidablePred l.InOrder
  | .purchase c _ _ epoch window =>
    inferInstanceAs (Decidable (∀ g ∈ l.queue c, g.expiresAt ≤ epoch.satAdd window))
  | .allocate c _ epoch =>
    inferInstanceAs (Decidable (∀ g ∈ l.live c epoch, ∀ s ∈ l.due c epoch, g.expiresAt
      ≤ s.expiresAt))
  | .setSeedingPaidTier .. | .balances _ => isTrue trivial

instance decidableFits (l : SubscriptionLedger) : DecidablePred l.Fits
  | .allocate c _ epoch => inferInstanceAs (Decidable (alive epoch (l.queue c) + l.allowance c epoch
    < 2 ^ 64))
  | .purchase .. | .setSeedingPaidTier .. | .balances _ => isTrue trivial

theorem alive_last (h : ¬ epoch.val < 2 ^ 64 - 1) (q : List Grant) : alive epoch q = 0 := by
  have hn : (q.filter fun g => epoch < g.expiresAt) = [] := by
    refine filter_eq_nil_iff.mpr fun g _ => ?_
    have hl : g.expiresAt.val ≤ epoch.val := by omega
    simpa using Fin.le_def.mpr hl
  rw [alive, hn, granted_nil]

theorem live_last (h : ¬ epoch.val < 2 ^ 64 - 1) (l : SubscriptionLedger) (c : B32) :
    l.live c epoch = [] := by
  refine dropWhile_eq_nil_iff.mpr fun g _ => ?_
  have hl : g.expiresAt.val ≤ epoch.val := by omega
  simpa using Fin.le_def.mpr hl

theorem lt_of_mem_due (h : epoch.val < 2 ^ 64 - 1) {l : SubscriptionLedger} {c : B32}
    (hg : g ∈ l.due c epoch) :
    epoch < g.expiresAt := by
  rw [due] at hg
  split at hg
  · obtain rfl := mem_singleton.mp hg
    have hw : 0 < l.allowanceWindow.val := by
      rw [allowanceWindow]
      split
      · decide
      · rename_i hne
        exact Nat.pos_of_ne_zero fun hz => hne (Fin.ext hz)
    refine Fin.lt_def.mpr ?_
    dsimp only
    rw [val_satAdd]
    omega
  · simp at hg

theorem honest_allocate_iff (l : SubscriptionLedger) (c : B32) (bytes epoch : U64) :
    l.Honest (.allocate c bytes epoch) ↔ l.Sound (.allocate c bytes epoch) := by
  obtain ⟨used, hok, hu⟩ := l.allocate_eq_drained c bytes epoch
  generalize hl' : l.drewTo c epoch _ = l' at hok
  have hh : l.Honest (.allocate c bytes epoch) ↔ Drawn l c bytes epoch l' used :=
    ⟨fun ⟨r, hr, hd⟩ => by
      obtain rfl : (l', used) = r := Except.ok.inj (hok.symm.trans hr)
      exact hd, fun hd => ⟨(l', used), hok, hd⟩⟩
  have hbe := l.val_available c epoch
  have ha := l'.val_available c epoch
  have hq : l'.queue c = drained (l.live c epoch ++ l.due c epoch) bytes.val := by
    rw [← hl', queue_drewTo, if_pos rfl]
  rw [hq] at ha
  have hti := l.allowance_lt c epoch
  rw [hh, drawn_iff, hu, hbe, ha, Sound]
  by_cases hl : epoch.val < 2 ^ 64 - 1
  · have hal : alive epoch (l.live c epoch) = alive epoch (l.queue c) := alive_unexpired epoch _
    have hs := alive_add_dead epoch (l.live c epoch)
    obtain ⟨hle, hiff⟩ := dead_drained_iff epoch (l.live c epoch ++ l.due c epoch) bytes.val
    rw [outOfReach_append fun g hg => lt_of_mem_due hl hg] at hiff
    have hn : dead epoch (l.due c epoch) = 0 := by
      have he : ((l.due c epoch).filter fun g => g.expiresAt ≤ epoch) = [] :=
        filter_eq_nil_iff.mpr fun g hg => by simpa using lt_of_mem_due hl hg
      rw [dead, he, granted_nil]
    have hlef := alive_add_dead epoch (drained (l.live c epoch ++ l.due c epoch) bytes.val)
    have ht := granted_drained (l.live c epoch ++ l.due c epoch) bytes.val
    rw [granted_append, granted_due] at ht
    rw [dead_append, hn] at hle hiff
    have hb := bytes.isLt
    rw [if_pos hl, ← hiff]
    -- the counter shows what is alive, unless that is too much for it
    by_cases hc : alive epoch (l.queue c) < 2 ^ 64
    · rw [if_pos hc, min_eq_left (Nat.le_sub_one_of_lt hc)]
      rcases le_total bytes.val (alive epoch (l.queue c)) with hle | hle
      · have hd : min bytes.val (granted (l.live c epoch) + l.allowance c epoch) = bytes.val := by
          omega
        rw [hd] at ht
        rw [hd, min_eq_left hle,
          min_eq_left (show bytes.val ≤ alive epoch (l.queue c) + l.allowance c epoch by omega)]
        omega
      · rw [min_eq_right hle]
        rcases le_total bytes.val (granted (l.live c epoch) + l.allowance c epoch) with hall | hall
        · rw [min_eq_left hall] at ht ⊢
          omega
        · rw [min_eq_right hall] at ht ⊢
          omega
    · have hd : min bytes.val (granted (l.live c epoch) + l.allowance c epoch) = bytes.val := by
        omega
      rw [if_neg hc, min_eq_right (show 2 ^ 64 - 1 ≤ alive epoch (l.queue c) by omega),
        min_eq_left (Nat.le_sub_one_of_lt hb), hd]
      rw [hd] at ht
      omega
  · rw [alive_last hl, alive_last hl, live_last hl, granted_nil]
    have hre : OutOfReach epoch [] bytes.val := outOfReach_nil
    simp only [hre, and_true, if_neg hl]
    have hb := bytes.isLt
    simp
    omega

/-! ## Grants in order -/

theorem drained_sublist (want : ℕ) :
    ((drained q want).map expiresAt).Sublist (q.map expiresAt) := by
  induction q generalizing want with
  | nil => simp [drained]
  | cons g q ih =>
    rw [drained]
    split
    · exact List.Sublist.refl _
    · split
      · exact (ih _).cons _
      · exact List.Sublist.refl _

theorem lt_of_mem_unexpired {q : List Grant} (hq : (q.map expiresAt).Pairwise (· ≤ ·))
    (hg : g ∈ unexpired epoch q) : epoch < g.expiresAt := by
  induction q with
  | nil => simp [unexpired] at hg
  | cons first q ih =>
    rw [map_cons, pairwise_cons] at hq
    by_cases hf : first.expiresAt ≤ epoch
    · rw [unexpired_of_dead hf] at hg
      exact ih hq.2 hg
    · rw [unexpired_of_alive hf] at hg
      rcases mem_cons.mp hg with rfl | hmem
      · exact not_le.mp hf
      · exact (not_le.mp hf).trans_le (hq.1 _ (mem_map_of_mem hmem))

theorem outOfReach_of_ordered {q : List Grant} (hq : (q.map expiresAt).Pairwise (· ≤ ·))
    (epoch : U64) (want : ℕ) :
    OutOfReach epoch (unexpired epoch q) want := fun pre g post hs hd => by
  have hmem : g ∈ unexpired epoch q := by
    rw [hs]
    simp
  exact absurd hd (not_le.mpr (lt_of_mem_unexpired hq hmem))

theorem pairwise_append {q r : List Grant} (hq : (q.map expiresAt).Pairwise (· ≤ ·))
    (hr : (r.map expiresAt).Pairwise (· ≤ ·)) (hle : ∀ g ∈ q, ∀ s ∈ r, g.expiresAt ≤ s.expiresAt) :
    ((q ++ r).map expiresAt).Pairwise (· ≤ ·) := by
  rw [map_append, List.pairwise_append]
  refine ⟨hq, hr, fun x hx y hy => ?_⟩
  obtain ⟨g, hg, rfl⟩ := List.mem_map.mp hx
  obtain ⟨s, hs, rfl⟩ := List.mem_map.mp hy
  exact hle g hg s hs

variable {l : SubscriptionLedger} {op : LedgerOp}

theorem Ordered.step (h : l.Ordered) (hop : l.InOrder op) : (l.step op).Ordered := by
  intro c'
  cases op with
  | purchase c tokens price epoch window =>
    rw [SubscriptionLedger.step, queue_purchase]
    split
    · subst c'
      refine pairwise_append (h c) ?_ fun g hg s hs => ?_
      · rw [bought]
        split <;> simp
      · rw [(mem_bought hs).1]
        exact hop g hg
    · exact h c'
  | allocate c bytes epoch =>
    obtain ⟨used, hok, -⟩ := l.allocate_eq_drained c bytes epoch
    rw [SubscriptionLedger.step, hok]
    dsimp only
    rw [queue_drewTo]
    split
    · refine (pairwise_append ?_ ?_ hop).sublist (drained_sublist _ _)
      · exact (h c).sublist ((dropWhile_sublist _).map _)
      · rw [due]
        split <;> simp
    · exact h c'
  | setSeedingPaidTier bytes window => exact h c'
  | balances epoch => exact h c'

theorem Ordered.sound (h : l.Ordered) (hf : l.Fits op) : l.Sound op := by
  cases op with
  | allocate c bytes epoch =>
    have hf : alive epoch (l.queue c) + l.allowance c epoch < 2 ^ 64 := hf
    have hr : OutOfReach epoch (l.live c epoch) bytes.val :=
      outOfReach_of_ordered (h c) epoch bytes.val
    rw [Sound]
    simp only [hr, and_true]
    rw [if_pos (by omega)]
    omega
  | purchase | setSeedingPaidTier | balances => trivial

theorem honest_iff_sound (l : SubscriptionLedger) (op : LedgerOp) : l.Honest op ↔ l.Sound op := by
  cases op with
  | allocate c bytes epoch => exact honest_allocate_iff l c bytes epoch
  | purchase | setSeedingPaidTier | balances => exact Iff.rfl

/-- **Expired entitlement is not spent, exactly as long as no draw reaches it** — from any ledger,
along any calls, with whatever windows and allowances, and where the balances fit their counter.
None does while grants are pushed in the order they expire in. -/
theorem expired_never_spent_iff (l₀ : SubscriptionLedger) (ops : List LedgerOp) :
    (EachStep step l₀ Honest ops ↔ EachStep step l₀ Sound ops)
      ∧ (l₀.Ordered → EachStep step l₀ InOrder ops → EachStep step l₀ Fits ops →
        EachStep step l₀ Honest ops) := by
  have hiff : EachStep step l₀ Honest ops ↔ EachStep step l₀ Sound ops :=
    ⟨fun h pre op hp => (honest_iff_sound _ op).mp (h pre op hp), fun h pre op hp =>
      (honest_iff_sound _ op).mpr (h pre op hp)⟩
  refine ⟨hiff, fun h₀ horder hfits => hiff.mpr ?_⟩
  refine eachStep_of_invariant (I := Ordered) (C := fun l op => l.InOrder op ∧ l.Fits op) h₀
    (fun l op h hC => h.step hC.1)
      (fun l op h hC => h.sound hC.2) fun pre op hp => ⟨horder pre op hp, hfits pre op hp⟩

/-- An entitlement of five bytes, bought at `epoch` for `window` epochs. -/
def fiveBytes (epoch window : U64) : LedgerOp := .purchase 1 oneToken 5 epoch window

theorem expired_never_spent_iff_inTurn :
    EachStep step new Honest
      [.setSeedingPaidTier 3 4, fiveBytes 0 2, .allocate 1 6 1, .balances 1, fiveBytes 2 6,
        .allocate 1 9 5] :=
  (expired_never_spent_iff new _).2 (fun c => by simp [queue, new]) (by decide +kernel)
    (by decide +kernel)

/-- Of two purchases the second has the shorter window: dead at epoch 3, it is drawn at epoch 5,
when five bytes are available. -/
theorem expired_spent :
    ¬ EachStep step new Honest [.setSeedingPaidTier 0 0, fiveBytes 0 10, fiveBytes 1 2,
      .allocate 1 10 5] := by
  decide +kernel

end SubscriptionLedger

end Zephcraft.Economy
