import Zephcraft.Economy.Held
import Zephcraft.Settlement.Claims
import Zephcraft.Settlement.Restart

/-!
# Settlement/Entitled — what is rewarded was paid for

Bytes are rewarded out of a consumer's grants. A grant is bought with the advance of the consumer's
paid watermark, or is a seeding allowance, which an account has at most once a window.
-/

namespace Zephcraft.Settlement

open Economy Reward SettlementStore List Option Finset Std.ExtTreeMap SubscriptionLedger

/-! ## Budgets -/

variable (g : Governed)

/-- The governed epochs an allowance lives for. -/
def Governed.allowanceWindow : U64 := if g.seedingWindow = 0 then 1 else g.seedingWindow

theorem Governed.allowanceWindow_pos (g : Governed) : 0 < g.allowanceWindow.val := by
  unfold Governed.allowanceWindow
  split
  · decide
  · rename_i h
    exact Nat.pos_of_ne_zero fun h0 => h (Fin.ext h0)

/-- No epoch runs past the clock: the end of an allowance granted in it is a `u64`. -/
def InTime (epochs : List U64) : Prop :=
  ∀ e ∈ epochs, e.val + g.allowanceWindow.val < 2 ^ 64

/-- `n` allowances fit between the first and the last epoch, and the next one is due at `next`. -/
def Spaced (epochs : List U64) (n : ℕ) (next : U64) : Prop :=
  n ≠ 0 → ∃ first ∈ epochs.head?, ∃ last ∈ epochs.getLast?,
    first.val + n * g.allowanceWindow.val ≤ next.val ∧ next.val ≤ last.val + g.allowanceWindow.val

/-- What a consumer has spent and what it holds are covered by the bytes it paid for and the
allowances it was granted. -/
def Budget (epochs : List U64) (bought spent : ℕ) (c : B32) (l : SubscriptionLedger) : Prop :=
  ∃ n, spent + l.held c ≤ bought + g.seedingPaidTier.val * n
    ∧ (InTime g epochs → Spaced g epochs n (l.seedingNext.getD c 0))

section Budget

variable {g : Governed} {epochs : List U64} {bought spent : ℕ} {c : B32} {l : SubscriptionLedger}

theorem Budget.mono (h : Budget g epochs bought spent c l) {bought' spent' : ℕ}
    (hb : bought ≤ bought') (hs : spent' ≤ spent) : Budget g epochs bought' spent' c l := by
  obtain ⟨n, hle, hsp⟩ := h
  exact ⟨n, by omega, hsp⟩

theorem Budget.later (h : Budget g epochs bought spent c l) {e : U64} (he : ∀ d ∈ epochs, d < e) :
    Budget g (epochs ++ [e]) bought spent c l := by
  obtain ⟨n, hle, hs⟩ := h
  refine ⟨n, hle, fun hin hn => ?_⟩
  obtain ⟨first, hf, last, hl, hlow, hh⟩ :=
    hs (fun d hd => hin d (mem_append_left _ hd)) hn
  refine ⟨first, ?_, e, by simp, hlow, ?_⟩
  · rw [head?_append]
    simp [Option.mem_def.mp hf]
  · have := Fin.lt_def.mp (he last (mem_of_getLast? hl))
    omega

theorem Budget.purchase (h : Budget g epochs bought spent c l) (c' : B32)
    (tokens price epoch window : U64) :
    Budget g epochs (bought + if c' = c then tokens.val * price.val / Economy.oneToken.val else 0)
      spent c (l.purchase c' tokens price epoch window) := by
  obtain ⟨n, hle, hs⟩ := h
  have hh := l.held_purchase_le c' c tokens price epoch window
  refine ⟨n, by omega, ?_⟩
  rw [(l.seeding_purchase c' tokens price epoch window).2.2]
  exact hs

theorem Spaced.succ {n : ℕ} {next epoch : U64} (h : Spaced g epochs n next)
    (hl : epochs.getLast? = some epoch) (hf : ∀ e ∈ epochs, e ≤ epoch) (hdue : next ≤ epoch)
    (hin : InTime g epochs) : Spaced g epochs (n + 1) (epoch.satAdd g.allowanceWindow) := by
  intro _
  have hmem := hin epoch (mem_of_getLast? hl)
  obtain ⟨first, hh⟩ : ∃ first, epochs.head? = some first := by
    cases epochs with
    | nil => simp at hl
    | cons e es => exact ⟨e, rfl⟩
  have hle := Fin.le_def.mp (hf first (mem_of_head? hh))
  have hdue := Fin.le_def.mp hdue
  refine ⟨first, hh, epoch, hl, ?_, ?_⟩
  · rw [Word.val_satAdd_of_lt hmem, Nat.add_mul, Nat.one_mul]
    by_cases hn : n = 0
    · simp only [hn, Nat.zero_mul]
      omega
    · obtain ⟨first', hh', -, -, hlow, -⟩ := h hn
      obtain rfl : first = first' := by simpa [hh] using hh'
      omega
  · rw [Word.val_satAdd_of_lt hmem]

theorem Budget.allocate (h : Budget g epochs bought spent c l) {c' : B32} {bytes epoch used : U64}
    {m : SubscriptionLedger} (hok : l.allocate c' bytes epoch = .ok (m, used))
    (ht : l.seedingPaidTier = g.seedingPaidTier) (hw : l.seedingWindow = g.seedingWindow)
    (hl : epochs.getLast? = some epoch) (hf : ∀ e ∈ epochs, e ≤ epoch) :
    Budget g epochs bought (spent + if c' = c then used.val else 0) c m := by
  obtain ⟨n, hle, hs⟩ := h
  have hh := held_allocate_le hok c
  have ha : l.allowanceWindow = g.allowanceWindow := by
    rw [allowanceWindow, Governed.allowanceWindow, hw]
  obtain ⟨-, -, hn⟩ := seeding_allocate hok
  rw [ht] at hh
  by_cases hg : c' = c ∧ l.Eligible c' epoch
  · obtain ⟨rfl, he⟩ := hg
    refine ⟨n + 1, ?_, fun hin => ?_⟩
    · rw [if_pos rfl, if_pos ⟨rfl, he⟩] at hh
      rw [if_pos rfl, Nat.mul_add, Nat.mul_one]
      omega
    · rw [hn, if_pos he, getD_insert_self, ha]
      exact (hs hin).succ hl hf he.2 hin
  · rw [if_neg hg] at hh
    refine ⟨n, by omega, fun hin => ?_⟩
    have hsa : m.seedingNext.getD c 0 = l.seedingNext.getD c 0 := by
      rw [hn]
      split
      · rename_i he
        have hne : c' ≠ c := fun hc => hg ⟨hc, he⟩
        simp [Std.ExtTreeMap.getD_insert, hne]
      · rfl
    rw [hsa]
    exact hs hin

/-- **What a budget leaves to spend**: the bytes paid for, and an allowance for every window
begun. -/
theorem Budget.spent_le (h : Budget g epochs bought spent c l) (hin : InTime g epochs) :
    spent ≤ bought + g.seedingPaidTier.val
      * (((epochs.getLastD 0).val - (epochs.headD 0).val) / g.allowanceWindow.val + 1) := by
  obtain ⟨n, hle, hs⟩ := h
  refine (Nat.le_add_right spent _).trans (hle.trans (Nat.add_le_add_left ?_ _))
  refine Nat.mul_le_mul_left _ ?_
  by_cases hn : n = 0
  · rw [hn]
    exact Nat.zero_le _
  · obtain ⟨first, hf, last, hl, hlow, hh⟩ := hs hin hn
    rw [headD_eq_head?_getD, getLastD_eq_getLast?, Option.mem_def.mp hf,
      Option.mem_def.mp hl, getD_some, getD_some]
    obtain ⟨k, rfl⟩ := Nat.exists_eq_succ_of_ne_zero hn
    rw [Nat.succ_mul] at hlow
    exact Nat.succ_le_succ ((Nat.le_div_iff_mul_le g.allowanceWindow_pos).mpr (by omega))

end Budget

/-! ## What a run was given -/

/-- The paid figures seen for one account, in order. -/
def figures (paid : List (B32 × U64)) (c : B32) : List U64 :=
  (paid.filter fun p => p.1 = c).map Prod.snd

/-- How far the figures rose above the first. -/
def rise (figures : List U64) : ℕ := (figures.max?.getD 0).val - (figures.headD 0).val

/-- The bytes that an account's payments since it was first seen pay for. -/
def bytesPaid (paid : List (B32 × U64)) (c : B32) : ℕ :=
  rise (figures paid c) * g.bytesPerToken.val / Economy.oneToken.val

/-- The largest cheque presented for a pair. -/
def largestCheque (cheques : List BoardCheque) (p c : B32) : ℕ :=
  (((cheques.filter fun q => q.provider = p
    ∧ q.consumer = c).map BoardCheque.cumulativeBytes).max?.getD 0).val

theorem figures_concat (paid : List (B32 × U64)) (p : B32 × U64) (c : B32) :
    figures (paid ++ [p]) c = figures paid c ++ if p.1 = c then [p.2] else [] := by
  by_cases h : p.1 = c <;> simp [figures, filter_append, h]

theorem max?_concat (l : List U64) (a : U64) :
    (l ++ [a]).max? = some (l.max?.elim a fun m => max a m) := by
  cases l with
  | nil => rfl
  | cons x xs =>
    rw [cons_append, max?_cons', max?_cons', foldl_append, foldl_cons,
      foldl_nil, elim_some, max_comm]

theorem le_max?_of_mem {l : List U64} {a : U64} (h : a ∈ l) : a ≤ l.max?.getD 0 := by
  cases hmax : l.max? with
  | none =>
    rw [max?_eq_none_iff.mp hmax] at h
    simp at h
  | some m => exact (max?_eq_some_iff.mp hmax).2 a h

theorem max?_mono {l l' : List U64} (h : l ⊆ l') : l.max?.getD 0 ≤ l'.max?.getD 0 := by
  cases hmax : l.max? with
  | none => exact Nat.zero_le _
  | some m => exact le_max?_of_mem (h (max?_mem hmax))

theorem headD_le_max? (l : List U64) : l.headD 0 ≤ l.max?.getD 0 := by
  cases l with
  | nil => exact le_rfl
  | cons x xs => exact le_max?_of_mem (by simp)

theorem le_largestCheque {cheques : List BoardCheque} {q : BoardCheque} (h : q ∈ cheques) :
    q.cumulativeBytes.val ≤ largestCheque cheques q.provider q.consumer :=
  Fin.le_def.mp (le_max?_of_mem (List.mem_map_of_mem (List.mem_filter.mpr ⟨h, by simp⟩)))

theorem largestCheque_append_le (cheques more : List BoardCheque) (p c : B32) :
    largestCheque cheques p c ≤ largestCheque (cheques ++ more) p c :=
  Fin.le_def.mp (max?_mono (map_subset _ (by simp [filter_append])))

/-- **One more figure of an account**: what its advance pays for is part of what the rise pays
for. -/
theorem bytesPaid_concat (g : Governed) (paid : List (B32 × U64)) (p : B32 × U64) {w : U64}
    (hw : (figures paid p.1).max? = some w) :
    bytesPaid g paid p.1 + (p.2.satSub w).val * g.bytesPerToken.val / Economy.oneToken.val
      ≤ bytesPaid g (paid ++ [p]) p.1 := by
  have hh := Fin.le_def.mp (headD_le_max? (figures paid p.1))
  have hs : (figures paid p.1 ++ [p.2]).headD 0 = (figures paid p.1).headD 0 := by
    cases hf : figures paid p.1 with
    | nil => simp [hf] at hw
    | cons x xs => rfl
  refine Nat.div_add_div_le_add_div.trans (Nat.div_le_div_right ?_)
  rw [← Nat.add_mul]
  refine Nat.mul_le_mul_right _ ?_
  rw [figures_concat, if_pos rfl, rise, rise, hs, max?_concat, hw, Word.val_satSub]
  rw [hw] at hh
  simp only [getD_some, elim_some] at hh ⊢
  rw [Fin.coe_max]
  omega

/-! ## One call -/

theorem Budget.draw {g : Governed} {epochs : List U64} {bought spent : ℕ} {c : B32}
    {l : SubscriptionLedger} (h : Budget g epochs bought spent c l) {epoch : U64}
    (wm : BTreeMap (B32 × B32) U64) (q : BoardCheque)
    (ht : l.seedingPaidTier = g.seedingPaidTier) (hw : l.seedingWindow = g.seedingWindow)
    (hl : epochs.getLast? = some epoch) (hf : ∀ e ∈ epochs, e ≤ epoch) :
    Budget g epochs bought
      (spent + if q.consumer = c then (SettlementStore.draw epoch l wm q).2.val else 0) c
      (SettlementStore.draw epoch l wm q).1 := by
  unfold SettlementStore.draw
  dsimp only
  by_cases hnew : q.cumulativeBytes.satSub (wm.getD (q.provider, q.consumer) 0) = 0
  · rw [if_pos hnew]
    exact h.mono le_rfl (by simp)
  · obtain ⟨m, used, hok, -⟩ := l.allocate_eq_ok q.consumer
      (q.cumulativeBytes.satSub (wm.getD (q.provider, q.consumer) 0)) epoch
    rw [if_neg hnew, hok]
    exact h.allocate hok ht hw hl hf

theorem sum_getD_insert {m : BTreeMap (B32 × B32) U64} {k : B32 × B32} {v : U64}
    (h : m.getD k 0 ≤ v) (p : B32) :
    ∑ c : B32, ((m.insert k v).getD (p, c) 0).val
      = ∑ c : B32, (m.getD (p, c) 0).val + if k.1 = p then v.val - (m.getD k 0).val else 0 := by
  have hrow : ∀ c : B32, ((m.insert k v).getD (p, c) 0).val
      = (m.getD (p, c) 0).val + if k.2 = c then (if k.1 = p then v.val - (m.getD k 0).val else 0)
        else 0 := by
    intro c
    rw [Std.ExtTreeMap.getD_insert]
    by_cases hk : k = (p, c)
    · subst hk
      have := Fin.le_def.mp h
      simp only [Std.ReflCmp.compare_self, if_true]
      omega
    · have hne : ¬ (k.1 = p ∧ k.2 = c) := fun ⟨h₁, h₂⟩ => hk (Prod.ext h₁ h₂)
      simp only [Std.LawfulEqCmp.compare_eq_iff_eq, hk, if_false]
      by_cases h₂ : k.2 = c
      · rw [if_pos h₂, if_neg fun h₁ => hne ⟨h₁, h₂⟩, Nat.add_zero]
      · rw [if_neg h₂, Nat.add_zero]
  rw [sum_congr rfl fun c _ => hrow c, sum_add_distrib, sum_ite_eq, if_pos (mem_univ _)]

/-- The store is where the payments and cheques of the run have brought it, `spent` of every
account's entitlement being gone. -/
structure Metering (g : Governed) (epochs : List U64) (paid : List (B32 × U64))
    (cheques : List BoardCheque) (spent : B32 → ℕ) (s : SettlementStore) : Prop where
  price : s.bytesPerToken = g.bytesPerToken
  tier : s.subs.seedingPaidTier = g.seedingPaidTier
  window : s.subs.seedingWindow = g.seedingWindow
  marks : ∀ c : B32, s.paidWatermark[c]? = (figures paid c).max?
  budget : ∀ c, Budget g epochs (bytesPaid g paid c) (spent c) c s.subs
  served : ∀ p c, (s.servedPairWm.getD (p, c) 0).val ≤ largestCheque cheques p c
  rewardable : ∀ p, (s.rewardable.getD p 0).val ≤ ∑ c : B32, (s.servedPairWm.getD (p, c) 0).val

section Call

variable {g : Governed} {epochs : List U64} {paid : List (B32 × U64)}
  {cheques : List BoardCheque} {spent : B32 → ℕ} {s : SettlementStore}

theorem Metering.mono (h : Metering g epochs paid cheques spent s) {spent' : B32 → ℕ}
    (hle : ∀ c, spent' c ≤ spent c) : Metering g epochs paid cheques spent' s :=
  { h with budget := fun c => (h.budget c).mono le_rfl (hle c) }

theorem Metering.congr (h : Metering g epochs paid cheques spent s) (s' : SettlementStore)
    (hs : s' = { s with
      protocol := s'.protocol, records := s'.records, claimed := s'.claimed,
      pendingPayouts := s'.pendingPayouts, pendingPaid := s'.pendingPaid,
      pendingPaidMarks := s'.pendingPaidMarks, pendingServedMarks := s'.pendingServedMarks,
      committed := s'.committed }) : Metering g epochs paid cheques spent s' := by
  rw [hs]
  exact ⟨h.price, h.tier, h.window, h.marks, h.budget, h.served, h.rewardable⟩

theorem Metering.later (h : Metering g epochs paid cheques spent s) {e : U64}
    (he : ∀ d ∈ epochs, d < e) (more : List BoardCheque) :
    Metering g (epochs ++ [e]) paid (cheques ++ more) spent s :=
  { h with
    budget := fun c => (h.budget c).later he
    served := fun p c => (h.served p c).trans (largestCheque_append_le cheques more p c) }

theorem Metering.foldPaid (h : Metering g epochs paid cheques spent s) (epoch poolAdd : U64)
    (p : B32 × U64) :
    Metering g epochs (paid ++ [p]) cheques spent
      (SettlementStore.foldPaid epoch (s, poolAdd) p).1 := by
  have hma := h.marks p.1
  have hm : ∀ c : B32, (s.paidWatermark.insert p.1 ((s.paidWatermark[p.1]?).elim p.2
      fun w => max p.2 w))[c]? = (figures (paid ++ [p]) c).max? := by
    intro c
    rw [BTreeMap.getElem?_insert, figures_concat, hma]
    by_cases hc : p.1 = c
    · subst hc
      rw [if_pos rfl, if_pos rfl, max?_concat]
    · rw [if_neg hc, if_neg hc, append_nil, h.marks]
  have ho : ∀ c, p.1 ≠ c → bytesPaid g (paid ++ [p]) c = bytesPaid g paid c := by
    intro c hc
    rw [bytesPaid, figures_concat, if_neg hc, append_nil, bytesPaid]
  unfold SettlementStore.foldPaid
  dsimp only
  cases hw : s.paidWatermark[p.1]? with
  | none =>
    rw [hw] at hm
    refine { h with marks := hm, budget := fun c => (h.budget c).mono ?_ le_rfl }
    by_cases hc : p.1 = c
    · -- the first figure of an account pays for nothing
      have hnil : figures paid c = [] := by
        rw [← max?_eq_none_iff, ← hc, ← hma, hw]
      simp [bytesPaid, rise, hnil]
    · exact (ho c hc).ge
  | some w =>
    rw [hw] at hm hma
    obtain ⟨ht, hwi, -⟩ := s.subs.seeding_purchase p.1 (p.2.satSub w) s.bytesPerToken epoch
      s.windowEpochs
    refine { h with
      tier := ht.trans h.tier
      window := hwi.trans h.window
      marks := hm
      budget := fun c => ((h.budget c).purchase p.1 (p.2.satSub w) s.bytesPerToken epoch
        s.windowEpochs).mono ?_ le_rfl }
    by_cases hc : p.1 = c
    · subst hc
      rw [if_pos rfl, h.price]
      exact bytesPaid_concat g paid p hma.symm
    · rw [if_neg hc, ho c hc, Nat.add_zero]

theorem Metering.foldl_foldPaid (epoch : U64) (more : List (B32 × U64)) :
    ∀ {paid : List (B32 × U64)} {s : SettlementStore} (poolAdd : U64),
      Metering g epochs paid cheques spent s →
      Metering g epochs (paid ++ more) cheques spent
        (more.foldl (SettlementStore.foldPaid epoch) (s, poolAdd)).1 := by
  induction more with
  | nil =>
    intro paid s poolAdd h
    rwa [append_nil]
  | cons p more ih =>
    intro paid s poolAdd h
    have hs := ih (SettlementStore.foldPaid epoch (s, poolAdd) p).2 (h.foldPaid epoch poolAdd p)
    rwa [append_assoc] at hs

/-- **One draw**: what it takes is spent by the consumer, and no more is added to what the provider
has earned than its watermark advanced. -/
theorem Metering.drawn (h : Metering g epochs paid cheques spent s) {epoch : U64} {q : BoardCheque}
    (hq : q ∈ cheques) (hl : epochs.getLast? = some epoch) (hf : ∀ e ∈ epochs, e ≤ epoch)
    {earned : BTreeMap B32 U64}
    (he : ∀ p, (earned.getD p 0).val ≤ (s.rewardable.getD p 0).val
      + if q.provider = p then (draw epoch s.subs s.servedPairWm q).2.val else 0) :
    Metering g epochs paid cheques
      (fun c => spent c + if q.consumer = c then (draw epoch s.subs s.servedPairWm q).2.val else 0)
      { s.drawn epoch q with rewardable := earned } := by
  obtain ⟨ht, hw, -⟩ := seeding_draw epoch s.subs s.servedPairWm q
  have ha : s.servedPairWm.getD (q.provider, q.consumer) 0
      ≤ max q.cumulativeBytes (s.servedPairWm.getD (q.provider, q.consumer) 0) := le_max_right _ _
  refine ⟨h.price, ht.trans h.tier, hw.trans h.window, h.marks, fun c =>
    (h.budget c).draw s.servedPairWm q h.tier h.window hl hf, fun p c => ?_, fun p => ?_⟩
  · change ((s.servedPairWm.insert (q.provider, q.consumer) _).getD (p, c) 0).val ≤ _
    rw [Std.ExtTreeMap.getD_insert]
    split
    · rename_i hk
      obtain ⟨rfl, rfl⟩ : q.provider = p ∧ q.consumer = c := by simpa using hk
      rw [Fin.coe_max]
      exact max_le (le_largestCheque hq) (h.served _ _)
    · exact h.served p c
  · change (earned.getD p 0).val ≤ ∑ c : B32, ((s.servedPairWm.insert (q.provider, q.consumer)
      (max q.cumulativeBytes (s.servedPairWm.getD (q.provider, q.consumer) 0))).getD (p, c) 0).val
    rw [sum_getD_insert ha]
    refine (he p).trans (Nat.add_le_add (h.rewardable p) ?_)
    split
    · refine (draw_le epoch s.subs s.servedPairWm q).trans ?_
      rw [Fin.coe_max]
      omega
    · exact le_rfl

variable {epoch : U64}

theorem Metering.gather (h : Metering g epochs paid cheques spent s) (more : List (B32 × U64))
    {now : List BoardCheque} (hnow : ∀ q ∈ now, q ∈ cheques) (hl : epochs.getLast? = some epoch)
    (hf : ∀ e ∈ epochs, e ≤ epoch) :
    (∀ t poolAdd, s.gather epoch more now = .ok (t, poolAdd) →
        Metering g epochs (paid ++ more) cheques (fun c => spent c + (t.spent.getD c 0).val)
          t.store)
      ∧ ∀ s', s.gather epoch more now = .error s' →
        Metering g epochs (paid ++ more) cheques spent s' := by
  have hs : Metering g epochs (paid ++ more) cheques
      (fun c => spent c + ((∅ : BTreeMap B32 U64).getD c 0).val)
      (more.foldl (SettlementStore.foldPaid epoch) (s, 0)).1 :=
    (h.foldl_foldPaid epoch more 0).mono fun c => by simp
  have hr : ∀ q ∈ now, ∀ t t' : Tally,
      Metering g epochs (paid ++ more) cheques (fun c => spent c + (t.spent.getD c 0).val) t.store →
      Drew epoch t q t' →
      Metering g epochs (paid ++ more) cheques (fun c => spent c + (t'.spent.getD c 0).val)
        t'.store := by
    intro q hq t t' ht hd
    rw [hd.store]
    refine (ht.drawn (hnow q hq) hl hf fun p => (hd.rewardable p).le).mono fun c => ?_
    rw [hd.spent c, Nat.add_assoc]
  constructor
  · intro t poolAdd hg
    exact gather_invariant (I := fun t => Metering g epochs (paid ++ more) cheques
      (fun c => spent c + (t.spent.getD c 0).val) t.store) hg hs hr
  · intro s' hg
    obtain ⟨q, hq, t, ht, rfl⟩ :=
      gather_eq_error (I := fun t => Metering g epochs (paid ++ more) cheques
      (fun c => spent c + (t.spent.getD c 0).val) t.store) hg hs hr
    exact (ht.drawn (hnow q hq) hl hf fun p => Nat.le_add_right _ _).mono fun c => by omega

theorem spent_foldl_remaining (c : B32) (l : List (B32 × U64)) :
    ∀ m : BTreeMap B32 (U64 × U64),
      ((l.foldl (fun m e => m.insert e.1 ((m.getD e.1 (0, 0)).1, e.2)) m).getD c (0, 0)).1
        = (m.getD c (0, 0)).1 := by
  induction l with
  | nil => exact fun m => rfl
  | cons e l ih =>
    intro m
    rw [foldl_cons, ih, Std.ExtTreeMap.getD_insert]
    split
    · rename_i hc
      obtain rfl : e.1 = c := by simpa using hc
      rfl
    · rfl

theorem spent_foldl_le (c : B32) {bound : U64} {l : List (B32 × U64)}
    (hl : ∀ e ∈ l, e.1 = c → e.2 ≤ bound) :
    ∀ m : BTreeMap B32 (U64 × U64), (m.getD c (0, 0)).1 ≤ bound →
      ((l.foldl (fun m e => m.insert e.1 (e.2, (m.getD e.1 (0, 0)).2)) m).getD c (0, 0)).1
        ≤ bound := by
  induction l with
  | nil => exact fun m hm => hm
  | cons e l ih =>
    intro m hm
    obtain ⟨he, hr⟩ := List.forall_mem_cons.mp hl
    refine ih hr _ ?_
    rw [Std.ExtTreeMap.getD_insert]
    split
    · rename_i hc
      exact he (by simpa using hc)
    · exact hm

theorem spentBy_entitlementsOf_le (t : Tally) (epoch : U64) (c : B32) :
    spentBy (entitlementsOf t epoch) c ≤ (t.spent.getD c 0).val := by
  unfold entitlementsOf
  rw [spentBy_rows, spent_foldl_remaining]
  refine Fin.le_def.mp (spent_foldl_le c (fun e he hc => ?_) _ (by simp))
  have hrow : t.spent[e.1]? = some e.2 := mem_toList_iff_getElem?_eq_some.mp he
  rw [getD_eq_getD_getElem?, ← hc, hrow, getD_some]

/-- **One call**: the store is where the payments and cheques have brought it, and the record shows
at most what was spent. -/
theorem Metering.settle (blake3 : Bytes → B32) (h : Metering g epochs paid cheques spent s)
    (more : List (B32 × U64)) {now : List BoardCheque} (hnow : ∀ q ∈ now, q ∈ cheques)
    (hl : epochs.getLast? = some epoch) (hfi : ∀ e ∈ epochs, e ≤ epoch)
    (hf : s.records[epoch]? = none) :
    Metering g epochs (paid ++ more) cheques
      (fun c => spent c + ((published (s.settleEpochFromCheques blake3 epoch more now)).toList.map
        fun r => spentBy r.entitlements c).sum)
      (after (s.settleEpochFromCheques blake3 epoch more now)) := by
  obtain ⟨hok, he⟩ := h.gather more hnow hl hfi
  cases hg : s.gather epoch more now with
  | error s' =>
    rw [settleEpochFromCheques_of_error hf hg]
    exact (he s' hg).mono fun c => by simp [published]
  | ok r =>
    obtain ⟨t, poolAdd⟩ := r
    have hb : ∀ {spent' : B32 → ℕ}, Metering g epochs (paid ++ more) cheques spent' t.store →
        Metering g epochs (paid ++ more) cheques spent' (t.base epoch poolAdd) := fun ht =>
      ht.congr _ (by rw [Tally.base, expire_eq, payIn])
    rw [settleEpochFromCheques_of_gather hf hg]
    cases hc : compute blake3 (t.input epoch poolAdd) with
    | error _ => exact (hb (hok t poolAdd hg)).mono fun c => by simp [published]
    | ok record =>
      have hrow : ∀ c, spentBy record.entitlements c ≤ (t.spent.getD c 0).val := by
        intro c
        obtain ⟨-, -, shares, -, -, -, -, -, hr⟩ := compute_eq_ok hc
        rw [hr]
        exact (spentBy_byConsumer_le _ c).trans (spentBy_entitlementsOf_le t epoch c)
      refine ((hb (hok t poolAdd hg)).congr ((t.base epoch poolAdd).publish epoch record)
        rfl).mono fun c => ?_
      simpa [published] using hrow c

end Call

/-! ## Runs -/

structure Inputs where
  epoch : U64
  paid : List (B32 × U64)
  cheques : List BoardCheque

/-- Settle an epoch, or put a fresh ledger in the place of the old one, restoring its
eligibility. -/
inductive Turn where
  | settle (i : Inputs)
  | replaceLedger

/-- A store, with what it was given and the records it returned so far. -/
structure Meter where
  store : SettlementStore
  inputs : List Inputs
  records : List RewardRecord

/-- A fresh ledger that restores the seeding eligibility of the old one. -/
def SettlementStore.replaceLedger (s : SettlementStore) : SettlementStore :=
  { s with
    subs := (SubscriptionLedger.new.setSeedingPaidTier s.subs.seedingPaidTier
      s.subs.seedingWindow).restoreSeedingEligibility s.subs.seedingEligibility }

def Inputs.settle (blake3 : Bytes → B32) (i : Inputs) (s : SettlementStore) :
    Except SettlementStore (SettlementStore × RewardRecord) :=
  s.settleEpochFromCheques blake3 i.epoch i.paid i.cheques

namespace Meter

/-- A fresh store under governed parameters. -/
def init (g : Governed) : Meter := ⟨g.fresh, [], []⟩

def step (blake3 : Bytes → B32) (m : Meter) : Turn → Meter
  | .settle i =>
    ⟨after (i.settle blake3 m.store), m.inputs ++ [i],
      m.records ++ (published (i.settle blake3 m.store)).toList⟩
  | .replaceLedger => { m with store := m.store.replaceLedger }

variable (m : Meter)

def epochs : List U64 := m.inputs.map Inputs.epoch

def paid : List (B32 × U64) := m.inputs.flatMap Inputs.paid

def cheques : List BoardCheque := m.inputs.flatMap Inputs.cheques

/-- The entitlement a consumer spent, summed over all records. -/
def spent (c : B32) : ℕ := (m.records.map fun r => spentBy r.entitlements c).sum

/-- Epochs are settled in increasing order. -/
def Increasing : Turn → Prop
  | .settle i => ∀ e ∈ m.epochs, e < i.epoch
  | .replaceLedger => True

instance (m : Meter) : (t : Turn) → Decidable (m.Increasing t)
  | .settle i => decidableBAll (fun e : U64 => e < i.epoch) _
  | .replaceLedger => isTrue trivial

/-- The store is metered, and holds records of the epochs settled only. -/
structure Sound (g : Governed) (m : Meter) : Prop where
  metering : Metering g m.epochs m.paid m.cheques m.spent m.store
  settled : ∀ e, m.store.records.contains e = true → e ∈ m.epochs

theorem sound_init (g : Governed) : (init g).Sound g := by
  refine ⟨⟨rfl, rfl, rfl, fun c => ?_, fun c => ⟨0, ?_, fun _ h => absurd rfl h⟩, fun p c => ?_,
    fun p => ?_⟩, fun e he => ?_⟩
  · simp [init, Governed.fresh, SettlementStore.new, Meter.paid, figures]
  · simp [init, Meter.spent, Governed.fresh, SubscriptionLedger.new,
      setSeedingPaidTier, held, queue]
  · simp [init, Governed.fresh, SettlementStore.new]
  · simp [init, Governed.fresh, SettlementStore.new]
  · simp [init, Governed.fresh, SettlementStore.new] at he

variable {blake3 : Bytes → B32} {g : Governed} {m : Meter}

theorem Sound.settle (h : m.Sound g) {i : Inputs} (hi : ∀ e ∈ m.epochs, e < i.epoch) :
    (m.step blake3 (.settle i)).Sound g := by
  have hf : m.store.records[i.epoch]? = none := by
    by_contra hso
    have hold := h.settled i.epoch (by
      rw [contains_eq_isSome_getElem?]
      exact isSome_iff_ne_none.mpr hso)
    exact absurd (hi i.epoch hold) (lt_irrefl _)
  have hmem : ∀ q ∈ i.cheques, q ∈ m.cheques ++ i.cheques := fun q hq => mem_append_right _ hq
  have hle : ∀ e ∈ m.epochs ++ [i.epoch], e ≤ i.epoch := by
    intro e he
    rcases mem_append.mp he with hold | hnew
    · exact (hi e hold).le
    · exact (List.mem_singleton.mp hnew).le
  have hs := (h.metering.later hi i.cheques).settle blake3 i.paid hmem (by simp) hle hf
  have hep : (m.step blake3 (.settle i)).epochs = m.epochs ++ [i.epoch] := by simp [step, epochs]
  have hp : (m.step blake3 (.settle i)).paid = m.paid ++ i.paid := by simp [step, Meter.paid]
  have hc : (m.step blake3 (.settle i)).cheques = m.cheques ++ i.cheques := by
    simp [step, Meter.cheques]
  refine ⟨?_, fun e he => ?_⟩
  · rw [hep, hp, hc]
    refine hs.mono fun c => ?_
    simp [step, Meter.spent, Inputs.settle]
  · rw [hep]
    have hk : KeepsClaims m.store (after (i.settle blake3 m.store)) _ :=
      keepsClaims_settle i.epoch i.paid i.cheques
    rcases hk.records e he with hold | hnew
    · exact mem_append_left _ (h.settled e hold)
    · exact mem_append_right _ (List.mem_singleton.mpr (eq_of_mem_adds_settle hnew))

theorem Sound.replaceLedger (h : m.Sound g) : (m.step blake3 .replaceLedger).Sound g := by
  have hn : (∅ : BTreeMap B32 U64).raise m.store.subs.seedingEligibility
      = m.store.subs.seedingNext := raise_empty_toList _
  refine ⟨{ h.metering with budget := fun c => ?_ }, h.settled⟩
  obtain ⟨n, hle, hs⟩ := h.metering.budget c
  refine ⟨n, ?_, ?_⟩
  · have hno : m.store.replaceLedger.subs.held c = 0 := by
      simp [SettlementStore.replaceLedger, held, queue,
        restoreSeedingEligibility, setSeedingPaidTier,
        SubscriptionLedger.new]
    refine le_trans ?_ hle
    exact Nat.add_le_add_left (hno.trans_le (Nat.zero_le _)) _
  · intro hin
    change Spaced g m.epochs n (((∅ : BTreeMap B32 U64).raise
      m.store.subs.seedingEligibility).getD c 0)
    rw [hn]
    exact hs hin

end Meter

/-- **Rewarded bytes were paid for.** In every run of closes with increasing epochs, the ledger
being replaced by a fresh one at any time in between: what a consumer spends is at most what its
paid figures rose by buys — and, with a seeding allowance, one allowance more for every window begun
— and what a provider has earned is at most what its consumers' largest cheques add up to. -/
theorem rewarded_bytes_were_paid_for (blake3 : Bytes → B32) (g : Governed) (turns : List Turn)
    (hepochs : Run.EachStep (Meter.step blake3) (.init g) Meter.Increasing turns) :
    let m := Run.run (Meter.step blake3) (.init g) turns
    (∀ c, (g.seedingPaidTier = 0 → m.spent c ≤ bytesPaid g m.paid c)
        ∧ (1 ≤ g.seedingWindow.val → (∀ e ∈ m.epochs, e.val + g.seedingWindow.val < 2 ^ 64) →
          m.spent c ≤ bytesPaid g m.paid c + g.seedingPaidTier.val
            * (((m.epochs.getLastD 0).val - (m.epochs.headD 0).val) / g.seedingWindow.val + 1)))
      ∧ ∀ p, (m.store.rewardable.getD p 0).val ≤ ∑ c : B32, largestCheque m.cheques p c := by
  intro m
  have hsound : m.Sound g := Run.invariant (I := Meter.Sound g) (Meter.sound_init g)
    (fun m t h ht => by
      cases t with
      | settle i => exact h.settle ht
      | replaceLedger => exact h.replaceLedger) hepochs
  refine ⟨fun c => ⟨fun htier => ?_, fun hwindow hin => ?_⟩, fun p => ?_⟩
  · obtain ⟨n, hle, -⟩ := hsound.metering.budget c
    rw [htier, Fin.val_zero, Nat.zero_mul, Nat.add_zero] at hle
    omega
  · have hallow : g.allowanceWindow = g.seedingWindow := by
      rw [Governed.allowanceWindow, if_neg]
      rintro h0
      rw [h0] at hwindow
      simp at hwindow
    have hle := (hsound.metering.budget c).spent_le (by rwa [InTime, hallow])
    rwa [hallow] at hle
  · exact (hsound.metering.rewardable p).trans
      (Finset.sum_le_sum fun c _ => hsound.metering.served p c)

/-- A base unit buys a byte, and an allowance of fifty bytes is due every other epoch. -/
def seeded : Governed := ⟨100000000, 4, 50, 2, 28800, 1000000⟩

/-- Account `9` draws on its allowance, then on what it paid, then on its next allowance. -/
def mixedTurns : List Turn :=
  [.settle ⟨3, [(9, 100)], [⟨7, 9, 30, 0⟩]⟩, .replaceLedger,
    .settle ⟨4, [(9, 140)], [⟨7, 9, 90, 1⟩]⟩, .settle ⟨5, [], [⟨8, 9, 80, 2⟩]⟩]

theorem rewarded_bytes_were_paid_for_mixedTurns :
    let m := Run.run (Meter.step blake3) (.init seeded) mixedTurns
    m.spent 9 = 120 ∧ m.epochs = [3, 4, 5] ∧ bytesPaid seeded m.paid 9 = 40
      ∧ m.spent 9 ≤ bytesPaid seeded m.paid 9 + seeded.seedingPaidTier.val
        * (((m.epochs.getLastD 0).val - (m.epochs.headD 0).val) / seeded.seedingWindow.val + 1)
      ∧ (m.store.rewardable.getD 7 0).val ≤ ∑ c : B32, largestCheque m.cheques 7 c := by
  intro m
  have hepochs : m.epochs = [3, 4, 5] := by decide +kernel
  obtain ⟨hspent, hearned⟩ :=
    rewarded_bytes_were_paid_for blake3 seeded mixedTurns (by decide +kernel)
  refine ⟨by decide +kernel, hepochs, by decide +kernel, (hspent 9).2 (by decide) ?_, hearned 7⟩
  change ∀ e ∈ m.epochs, _
  rw [hepochs]
  simp [seeded]

end Zephcraft.Settlement
