import Zephcraft.Economy.Queue
import Zephcraft.Settlement.Money

/-!
# Settlement/Closing — what closing an epoch reads

A close folds the payments, allocates the cheques, expires what left the claim window and hands the
rest to the reward program.
-/

namespace Zephcraft.Settlement

open Economy Reward List Std.ExtTreeMap SubscriptionLedger

namespace SettlementStore

/-- The store a record is computed on: the payments added, the old records expired. -/
def Tally.base (t : Tally) (epoch poolAdd : U64) : SettlementStore :=
  (t.store.payIn poolAdd).expire epoch

/-- What the reward program is given at the end of a close. -/
def Tally.input (t : Tally) (epoch poolAdd : U64) : RewardInput :=
  (t.base epoch poolAdd).rewardInput epoch (contributionsOf t) (entitlementsOf t epoch)

section Inversion

variable {blake3 : Bytes → B32} {s s' : SettlementStore} {epoch : U64}
  {paid : List (B32 × U64)} {cheques : List BoardCheque} {record : RewardRecord}

/-- **A close whose payments and cheques were gathered** ends with the reward program. -/
theorem settleEpochFromCheques_of_gather {t : Tally} {poolAdd : U64}
    (hf : s.records[epoch]? = none) (hg : s.gather epoch paid cheques = .ok (t, poolAdd)) :
    s.settleEpochFromCheques blake3 epoch paid cheques
      = match compute blake3 (t.input epoch poolAdd) with
        | .ok record => .ok ((t.base epoch poolAdd).publish epoch record, record)
        | .error _ => .error (t.base epoch poolAdd) := by
  have hrec : (t.store.payIn poolAdd).records[epoch]? = none := by
    obtain ⟨-, hr, -⟩ := Money.mk.injEq .. ▸ money_gather.1 hg
    rw [show (t.store.payIn poolAdd).records = s.records from hr]
    exact hf
  simp only [settleEpochFromCheques, hf, hg, bind, Except.bind, settleEpoch, hrec]
  rfl

theorem settleEpochFromCheques_of_error {s₁ : SettlementStore} (hf : s.records[epoch]? = none)
    (hg : s.gather epoch paid cheques = .error s₁) :
    s.settleEpochFromCheques blake3 epoch paid cheques = .error s₁ := by
  simp only [settleEpochFromCheques, hf, hg, bind, Except.bind]

theorem settleEpochFromCheques_eq_ok (hf : s.records[epoch]? = none) :
    s.settleEpochFromCheques blake3 epoch paid cheques = .ok (s', record)
      ↔ ∃ t poolAdd, s.gather epoch paid cheques = .ok (t, poolAdd)
        ∧ compute blake3 (t.input epoch poolAdd) = .ok record
        ∧ s' = (t.base epoch poolAdd).publish epoch record := by
  cases hg : s.gather epoch paid cheques with
  | error s₁ => simp [settleEpochFromCheques_of_error hf hg]
  | ok r =>
    obtain ⟨t, poolAdd⟩ := r
    rw [settleEpochFromCheques_of_gather hf hg]
    cases hc : compute blake3 (t.input epoch poolAdd) with
    | error _ => simp [hc]
    | ok rec =>
      simp only [Except.ok.injEq, Prod.mk.injEq]
      constructor
      · rintro ⟨rfl, rfl⟩
        exact ⟨t, poolAdd, ⟨rfl, rfl⟩, hc, rfl⟩
      · rintro ⟨t', poolAdd', ⟨rfl, rfl⟩, hc', rfl⟩
        obtain rfl : rec = record := by simpa [hc] using hc'
        exact ⟨rfl, rfl⟩

end Inversion

/-! ## Expiry, entry by entry -/

variable {t u : Tally} (l : List U64)

theorem foldl_dropRecord_eq (s : SettlementStore) :
    l.foldl dropRecord s = { s with
          records := (l.foldl dropRecord s).records
          claimed := (l.foldl dropRecord s).claimed } := by
  induction l generalizing s with
  | nil => rfl
  | cons e l ih => exact ih (s.dropRecord e)

theorem expire_eq (s : SettlementStore) (epoch : U64) :
    s.expire epoch = { s with
          records := (s.expire epoch).records
          claimed := (s.expire epoch).claimed } :=
  foldl_dropRecord_eq _ s

theorem getElem?_foldl_dropRecord (s : SettlementStore) (e : U64) :
    (l.foldl dropRecord s).records[e]? = if e ∈ l then none else s.records[e]? := by
  induction l generalizing s with
  | nil => simp
  | cons d l ih =>
    rw [foldl_cons, ih, dropRecord, getElem?_erase]
    by_cases hd : d = e
    · simp [hd]
    · simp [hd, Ne.symm hd]

theorem contains_foldl_dropRecord (s : SettlementStore) (k : U64 × B32) :
    (l.foldl dropRecord s).claimed.contains k = (s.claimed.contains k && decide (k.1 ∉ l)) := by
  induction l generalizing s with
  | nil => simp
  | cons d l ih =>
    rw [foldl_cons, ih, dropRecord, BTreeSet.contains_filter, Bool.and_assoc]
    simp

/-- The first epoch that is still in the claim window. -/
def cutoff (epoch : U64) : U64 := epoch.satSub claimWindowEpochs

theorem mem_stale {s : SettlementStore} {epoch e : U64} :
    e ∈ s.records.keys.filter (fun e => e < epoch.satSub claimWindowEpochs)
      ↔ s.records.contains e = true ∧ e < cutoff epoch := by
  rw [List.mem_filter, Std.ExtTreeMap.mem_keys, Std.ExtTreeMap.contains_iff_mem, decide_eq_true_iff]
  rfl

theorem getElem?_expire (s : SettlementStore) (epoch e : U64) :
    (s.expire epoch).records[e]? = if e < cutoff epoch then none else s.records[e]? := by
  refine (getElem?_foldl_dropRecord _ s e).trans ?_
  simp only [mem_stale, contains_eq_isSome_getElem?]
  by_cases hc : e < cutoff epoch
  · cases s.records[e]? <;> simp [hc]
  · simp [hc]

theorem contains_expire (s : SettlementStore) (epoch : U64) (k : U64 × B32) :
    (s.expire epoch).claimed.contains k
      = (s.claimed.contains k && !(s.records.contains k.1 && decide (k.1 < cutoff epoch))) := by
  refine (contains_foldl_dropRecord _ s k).trans ?_
  congr 1
  rw [← Bool.decide_coe (_ && _), ← decide_not]
  simp only [mem_stale, Bool.and_eq_true, decide_eq_true_iff]

/-! ## Stores that a close cannot tell apart -/

/-- What the loops read is the same: but for the records, the marks, the expired grants and the
running totals of providers outside `providers`, the two stores agree. -/
structure Alike (epoch : U64) (providers : List B32) (s r : SettlementStore) : Prop where
  frame : r = { s with
    records := r.records, claimed := r.claimed, subs := r.subs, rewardable := r.rewardable,
    committed := r.committed }
  subs : s.subs.SameLive epoch r.subs
  rewardable : ∀ p ∈ providers, r.rewardable.getD p 0 = s.rewardable.getD p 0

variable {epoch : U64} {providers : List B32} {s r : SettlementStore}

theorem Alike.foldPaid (h : Alike epoch providers s r) (poolAdd : U64) (p : B32 × U64) :
    Alike epoch providers (foldPaid epoch (s, poolAdd) p).1 (foldPaid epoch (r, poolAdd) p).1
      ∧ (SettlementStore.foldPaid epoch (r, poolAdd) p).2
        = (SettlementStore.foldPaid epoch (s, poolAdd) p).2 := by
  obtain ⟨frame, subs, rewardable⟩ := h
  generalize r.records = R, r.claimed = K, r.subs = L, r.rewardable = W, r.committed = C
    at frame subs rewardable
  subst frame
  unfold SettlementStore.foldPaid
  dsimp only
  split
  · exact ⟨⟨rfl, subs, rewardable⟩, rfl⟩
  · exact ⟨⟨rfl, subs.purchase _ _ _ _ _, rewardable⟩, rfl⟩

theorem Alike.foldl_foldPaid (paid : List (B32 × U64)) :
    ∀ {s r : SettlementStore} (_ : Alike epoch providers s r) (poolAdd : U64),
      Alike epoch providers (paid.foldl (SettlementStore.foldPaid epoch) (s, poolAdd)).1
        (paid.foldl (SettlementStore.foldPaid epoch) (r, poolAdd)).1
      ∧ (paid.foldl (SettlementStore.foldPaid epoch) (r, poolAdd)).2
        = (paid.foldl (SettlementStore.foldPaid epoch) (s, poolAdd)).2 := by
  induction paid with
  | nil => exact fun h _ => ⟨h, rfl⟩
  | cons p paid ih =>
    intro s r h poolAdd
    obtain ⟨hs, hadd⟩ := h.foldPaid poolAdd p
    simp only [foldl_cons]
    rw [show SettlementStore.foldPaid epoch (r, poolAdd) p
      = ((SettlementStore.foldPaid epoch (r, poolAdd) p).1,
        (SettlementStore.foldPaid epoch (s, poolAdd) p).2) by rw [← hadd]]
    exact ih hs _

theorem draw_congr {l l' : SubscriptionLedger} (h : l.SameLive epoch l')
    (wm : BTreeMap (B32 × B32) U64) (c : BoardCheque) :
    (draw epoch l' wm c).2 = (draw epoch l wm c).2
      ∧ (draw epoch l wm c).1.SameLive epoch (draw epoch l' wm c).1 := by
  unfold draw
  dsimp only
  split
  · exact ⟨rfl, h⟩
  · obtain ⟨m, used, hok, -⟩ := l.allocate_eq_ok c.consumer
      (c.cumulativeBytes.satSub (wm.getD (c.provider, c.consumer) 0)) epoch
    obtain ⟨m', hok', hm⟩ := h.allocate hok
    rw [hok, hok']
    exact ⟨rfl, hm⟩

theorem seeding_draw (epoch : U64) (l : SubscriptionLedger) (wm : BTreeMap (B32 × B32) U64)
    (c : BoardCheque) :
    (draw epoch l wm c).1.seedingPaidTier = l.seedingPaidTier
      ∧ (draw epoch l wm c).1.seedingWindow = l.seedingWindow
      ∧ ((draw epoch l wm c).1.seedingNext = l.seedingNext
        ∨ l.Eligible c.consumer epoch ∧ (draw epoch l wm c).1.seedingNext
          = l.seedingNext.insert c.consumer (epoch.satAdd l.allowanceWindow)) := by
  unfold draw
  dsimp only
  split
  · exact ⟨rfl, rfl, .inl rfl⟩
  · obtain ⟨m, used, hok, -⟩ := l.allocate_eq_ok c.consumer
      (c.cumulativeBytes.satSub (wm.getD (c.provider, c.consumer) 0)) epoch
    obtain ⟨ht, hw, hn⟩ := seeding_allocate hok
    rw [hok]
    refine ⟨ht, hw, ?_⟩
    by_cases he : l.Eligible c.consumer epoch
    · exact .inr ⟨he, by rw [hn, if_pos he]⟩
    · exact .inl (by rw [hn, if_neg he])

theorem bump_rel {m m' : BTreeMap B32 U64} {k : B32} (h : m'.getD k 0 = m.getD k 0) (d : U64)
    {E : SettlementStore → SettlementStore → Prop} (hE : E s r) :
    Except.Rel E (fun a b => ∃ v, a = m.insert k v ∧ b = m'.insert k v)
      ((bump m k d).mapError fun _ => s) ((bump m' k d).mapError fun _ => r) := by
  unfold bump
  rw [h]
  cases (m.getD k 0).addOrPanic d with
  | error _ => exact .error hE
  | ok v => exact .ok ⟨v, rfl, rfl⟩

/-- Tallies of stores that the loops cannot tell apart; only the named providers have earned. -/
structure Tally.Alike (epoch : U64) (providers : List B32) (t u : Tally) : Prop where
  store : SettlementStore.Alike epoch providers t.store u.store
  contrib : u.contrib = t.contrib
  spent : u.spent = t.spent
  earned : ∀ p, t.contrib.contains p = true → p ∈ providers

theorem Alike.drawn (h : Alike epoch providers s r) (c : BoardCheque) :
    Alike epoch providers (s.drawn epoch c) (r.drawn epoch c) := by
  obtain ⟨frame, subs, rewardable⟩ := h
  generalize r.records = R, r.claimed = K, r.subs = L, r.rewardable = W, r.committed = C
    at frame subs rewardable
  subst frame
  exact ⟨rfl, (draw_congr subs _ c).2, rewardable⟩

theorem Alike.draw (h : Alike epoch providers s r) (c : BoardCheque) :
    (SettlementStore.draw epoch r.subs r.servedPairWm c).2
      = (SettlementStore.draw epoch s.subs s.servedPairWm c).2 := by
  have hwm : r.servedPairWm = s.servedPairWm := by rw [h.frame]
  rw [hwm]
  exact (draw_congr h.subs _ c).1

theorem Tally.Alike.allocateCheque (h : Tally.Alike epoch providers t u) {c : BoardCheque}
    (hc : c.provider ∈ providers) :
    Except.Rel (fun _ _ => True) (Tally.Alike epoch providers)
      (SettlementStore.allocateCheque epoch t c) (SettlementStore.allocateCheque epoch u c) := by
  obtain ⟨store, contrib, spent, earned⟩ := h
  have hd := store.drawn c
  rw [allocateCheque_eq, allocateCheque_eq, store.draw c, contrib, spent]
  dsimp only
  split
  · exact .ok ⟨hd, rfl, rfl, earned⟩
  · refine (bump_rel rfl _ trivial).bind ?_
    rintro _ _ ⟨v, rfl, rfl⟩
    refine (bump_rel rfl _ trivial).bind ?_
    rintro _ _ ⟨w, rfl, rfl⟩
    refine (bump_rel (hd.rewardable _ hc) _ trivial).bind ?_
    rintro _ _ ⟨x, rfl, rfl⟩
    refine .ok ⟨⟨?_, hd.subs, fun p hp => ?_⟩, rfl, rfl, fun p hp => ?_⟩
    · have hf := hd.frame
      generalize (u.store.drawn epoch c).records = R, (u.store.drawn epoch c).claimed = K,
        (u.store.drawn epoch c).subs = L, (u.store.drawn epoch c).rewardable = W,
        (u.store.drawn epoch c).committed = C at hf ⊢
      rw [hf]
    · simp only [Std.ExtTreeMap.getD_insert]
      split
      · rfl
      · exact hd.rewardable p hp
    · rw [Std.ExtTreeMap.contains_insert, Bool.or_eq_true] at hp
      rcases hp with hp | hp
      · have heq : c.provider = p := by simpa using hp
        exact heq ▸ hc
      · exact earned p hp

theorem Alike.gather (h : Alike epoch providers s r) (paid : List (B32 × U64))
    {cheques : List BoardCheque} (hc : ∀ c ∈ cheques, c.provider ∈ providers) :
    Except.Rel (fun _ _ => True) (fun x y => Tally.Alike epoch providers x.1 y.1 ∧ y.2 = x.2)
      (s.gather epoch paid cheques) (r.gather epoch paid cheques) := by
  obtain ⟨hf, hadd⟩ := h.foldl_foldPaid paid 0
  have hs : Tally.Alike epoch providers
      ⟨(paid.foldl (SettlementStore.foldPaid epoch) (s, 0)).1, ∅, ∅⟩
      ⟨(paid.foldl (SettlementStore.foldPaid epoch) (r, 0)).1, ∅, ∅⟩ :=
    ⟨hf, rfl, rfl, fun p hp => by simp at hp⟩
  have hl := List.foldlM_rel (E := fun _ _ => True) (f := SettlementStore.allocateCheque epoch)
    (g := SettlementStore.allocateCheque epoch) (l := chequeOrder cheques)
    (fun c hmem t u htu => htu.allocateCheque (hc c ((perm_insertionSort _ _).mem_iff.mp hmem)))
    hs
  exact hl.bind fun t u htu => .ok ⟨htu, hadd⟩

theorem Tally.Alike.contributionsOf (h : Tally.Alike epoch providers t u) :
    SettlementStore.contributionsOf u = SettlementStore.contributionsOf t := by
  unfold SettlementStore.contributionsOf
  rw [h.contrib]
  refine map_congr_left fun e he => ?_
  have hmem : t.contrib.contains e.1 = true := by
    rw [contains_eq_isSome_getElem?,
      mem_toList_iff_getElem?_eq_some.mp (show (e.1, e.2) ∈ t.contrib.toList from he)]
    rfl
  rw [h.store.rewardable e.1 (h.earned e.1 hmem)]

theorem Tally.Alike.entitlementsOf (h : Tally.Alike epoch providers t u) :
    SettlementStore.entitlementsOf u epoch = SettlementStore.entitlementsOf t epoch := by
  unfold SettlementStore.entitlementsOf
  rw [h.spent, h.store.subs.balances]

theorem expire_congr (hr : r.records = s.records) (hc : r.claimed = s.claimed) (epoch : U64) :
    (r.expire epoch).records = (s.expire epoch).records
      ∧ (r.expire epoch).claimed = (s.expire epoch).claimed := by
  constructor
  · refine Std.ExtTreeMap.ext_getElem? fun e => ?_
    rw [getElem?_expire, getElem?_expire, hr]
  · refine Std.ExtTreeSet.ext_contains fun k => ?_
    rw [contains_expire, contains_expire, hr, hc]

theorem unallocated_expire_congr (h : r.money = s.money) (epoch : U64) :
    (r.expire epoch).unallocated = (s.expire epoch).unallocated := by
  obtain ⟨hp, hr, hc, -, hpa⟩ := Money.mk.injEq .. ▸ h
  obtain ⟨hrec, hcla⟩ := expire_congr hr hc epoch
  have ho : (r.expire epoch).owedOutstanding = (s.expire epoch).owedOutstanding := by
    rw [owedOutstanding, owedOutstanding, hrec, hcla]
  rw [unallocated, unallocated, ho, expire_eq r, expire_eq s]
  simp only [hp, hpa]

/-- The record a call published, if it returned. -/
def published : Except SettlementStore (SettlementStore × RewardRecord) → Option RewardRecord
  | .ok (_, record) => some record
  | .error _ => none

/-- What is left to a close besides the loops: the marks and the earmarks that survive expiry. -/
structure SameClaims (epoch : U64) (s r : SettlementStore) : Prop where
  marks : (r.expire epoch).claimed = (s.expire epoch).claimed
  owed : (r.expire epoch).owedOutstanding = (s.expire epoch).owedOutstanding

theorem Tally.Alike.input (h : Tally.Alike epoch providers t u) (poolAdd : U64)
    (hc : SameClaims epoch t.store u.store) : u.input epoch poolAdd = t.input epoch poolAdd := by
  have hf := h.store.frame
  have hb : ∀ v : Tally, (v.base epoch poolAdd).claimed = (v.store.expire epoch).claimed
      ∧ (v.base epoch poolAdd).owedOutstanding = (v.store.expire epoch).owedOutstanding := by
    intro v
    obtain ⟨hr, hk⟩ := expire_congr (s := v.store) (r := v.store.payIn poolAdd) rfl rfl epoch
    exact ⟨hk, by unfold owedOutstanding; rw [Tally.base, hr, hk]⟩
  have hn : u.store.subs.seedingNext = t.store.subs.seedingNext := h.store.subs.next
  unfold Tally.input rewardInput unallocated snapshot seedingEligibility
  rw [(hb u).1, (hb u).2, (hb t).1, (hb t).2, hc.marks, hc.owed, h.contributionsOf,
    h.entitlementsOf]
  unfold Tally.base
  rw [expire_eq (u.store.payIn poolAdd), expire_eq (t.store.payIn poolAdd)]
  simp only [payIn, hn]
  rw [hf]

theorem SameClaims.congr {s₁ r₁ : SettlementStore} (h : SameClaims epoch s r)
    (hs : s₁.money = s.money) (hr : r₁.money = r.money) : SameClaims epoch s₁ r₁ := by
  obtain ⟨-, hs, hs', -⟩ := Money.mk.injEq .. ▸ hs
  obtain ⟨-, hr, hr', -⟩ := Money.mk.injEq .. ▸ hr
  obtain ⟨es, es'⟩ := expire_congr hs hs' epoch
  obtain ⟨er, er'⟩ := expire_congr hr hr' epoch
  refine ⟨by rw [er', es', h.marks], ?_⟩
  have ho := h.owed
  unfold owedOutstanding at ho ⊢
  rw [er, er', es, es']
  exact ho

/-- **Two stores that a close cannot tell apart publish the same record**, or none. -/
theorem Alike.published_eq {blake3 : Bytes → B32} {cheques : List BoardCheque}
    (h : Alike epoch (cheques.map BoardCheque.provider) s r) (hcl : SameClaims epoch s r)
    (hs : s.records[epoch]? = none) (hr : r.records[epoch]? = none) (paid : List (B32 × U64)) :
    published (r.settleEpochFromCheques blake3 epoch paid cheques)
      = published (s.settleEpochFromCheques blake3 epoch paid cheques) := by
  have hg := h.gather paid (fun (c : BoardCheque) (hc : c ∈ cheques) => mem_map_of_mem hc)
  cases hgs : s.gather epoch paid cheques with
  | error s₁ =>
    cases hgr : r.gather epoch paid cheques with
    | error r₁ =>
      rw [settleEpochFromCheques_of_error hs hgs, settleEpochFromCheques_of_error hr hgr]
      rfl
    | ok y =>
      rw [hgs, hgr] at hg
      cases hg
  | ok x =>
    cases hgr : r.gather epoch paid cheques with
    | error r₁ =>
      rw [hgs, hgr] at hg
      cases hg
    | ok y =>
      rw [hgs, hgr] at hg
      obtain ⟨t, poolAdd⟩ := x
      obtain ⟨u, poolAdd'⟩ := y
      obtain ⟨htu, hadd⟩ : Tally.Alike _ _ t u ∧ poolAdd' = poolAdd := by
        cases hg with
        | ok h => exact h
      obtain rfl : poolAdd = poolAdd' := hadd.symm
      have hin := htu.input poolAdd (hcl.congr (money_gather.1 hgs) (money_gather.1 hgr))
      rw [settleEpochFromCheques_of_gather hs hgs, settleEpochFromCheques_of_gather hr hgr, hin]
      cases compute blake3 (t.input epoch poolAdd) <;> rfl

end SettlementStore

end Zephcraft.Settlement
