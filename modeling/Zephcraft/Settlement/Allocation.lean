import Zephcraft.Settlement.Store

/-!
# Settlement/Allocation — when the allocation loop's sums fit

One round of the loop draws on a consumer's entitlement (`draw`) and adds the amount to three
accumulators with a checked `+=`.
-/

namespace Zephcraft.Settlement

open Economy List Except

namespace SettlementStore

/-- What a cheque draws: nothing if its watermark has passed it, else what the entitlement gives of
the bytes past the watermark. -/
def draw (epoch : U64) (subs : SubscriptionLedger) (wm : BTreeMap (B32 × B32) U64)
    (c : BoardCheque) : SubscriptionLedger × U64 :=
  let delta := c.cumulativeBytes.satSub (wm.getD (c.provider, c.consumer) 0)
  if delta = 0 then (subs, 0)
  else
    match subs.allocate c.consumer delta epoch with
    | .ok r => r
    | .error _ => (subs, 0)

/-- The amounts a loop over the cheques draws, one by one. -/
def allocations (epoch : U64) :
    SubscriptionLedger → BTreeMap (B32 × B32) U64 → List BoardCheque → List (BoardCheque × U64)
  | _, _, [] => []
  | subs, wm, c :: cs =>
    let r := draw epoch subs wm c
    let advanced := max c.cumulativeBytes (wm.getD (c.provider, c.consumer) 0)
    (c, r.2) :: allocations epoch r.1 (wm.insert (c.provider, c.consumer) advanced) cs

/-- The store after a cheque's watermark and entitlement have moved. -/
def drawn (epoch : U64) (s : SettlementStore) (c : BoardCheque) : SettlementStore :=
  { (s.advanceServed c).1 with subs := (draw epoch s.subs s.servedPairWm c).1 }

variable {key : BoardCheque → B32} {m : BTreeMap B32 U64} {c : BoardCheque}
  {l : List (BoardCheque × U64)} {m' : BTreeMap B32 U64} {d : U64} {t s : SettlementStore}
  {paid : List (B32 × U64)} {cheques : List BoardCheque} (epoch : U64)

/-- **One round**: draw, and unless nothing was drawn add the amount to the three accumulators. -/
theorem allocateCheque_eq (t : Tally) (c : BoardCheque) :
    allocateCheque epoch t c = let amount := (draw epoch t.store.subs t.store.servedPairWm c).2
        let s := t.store.drawn epoch c
        if amount = 0 then .ok { t with store := s }
        else do
          let contrib ← (bump t.contrib c.provider amount).mapError fun _ => s
          let spent ← (bump t.spent c.consumer amount).mapError fun _ => s
          let total ← (bump s.rewardable c.provider amount).mapError fun _ => s
          return ⟨{ s with rewardable := total }, contrib, spent⟩ := by
  obtain ⟨l, used, hok, -⟩ := t.store.subs.allocate_eq_ok c.consumer
    (c.cumulativeBytes.satSub (t.store.servedPairWm.getD (c.provider, c.consumer) 0)) epoch
  by_cases h0 : c.cumulativeBytes.satSub (t.store.servedPairWm.getD (c.provider, c.consumer) 0) = 0
  · simp only [allocateCheque, advanceServed, drawn, draw, h0, if_true]
    rfl
  · simp only [allocateCheque, advanceServed, drawn, draw, h0, if_false, hok, Except.mapError, bind,
      Except.bind]
    split <;> rfl

theorem draw_le (l : SubscriptionLedger) (wm : BTreeMap (B32 × B32) U64) (q : BoardCheque) :
    (draw epoch l wm q).2.val ≤ q.cumulativeBytes.val
      - (wm.getD (q.provider, q.consumer) 0).val := by
  unfold draw
  dsimp only
  split
  · exact Nat.zero_le _
  · obtain ⟨m, used, hok, hle⟩ := l.allocate_eq_ok q.consumer
      (q.cumulativeBytes.satSub (wm.getD (q.provider, q.consumer) 0)) epoch
    rw [hok]
    exact hle

/-! ## Accumulators -/

/-- Every row of an accumulator can hold what the allocations will add to it. -/
def Fits (key : BoardCheque → B32) (m : BTreeMap B32 U64) (l : List (BoardCheque × U64)) :
    Prop :=
  ∀ k, (m.getD k 0).val + ((l.filter fun a => key a.1 = k).map fun a => a.2.val).sum < 2 ^ 64

theorem fits_nil (key : BoardCheque → B32) (m : BTreeMap B32 U64) : Fits key m [] := by
  intro k
  simp

theorem fits_cons_zero : Fits key m ((c, 0) :: l) ↔ Fits key m l := by
  refine forall_congr' fun k => ?_
  by_cases h : key c = k <;> simp [h]

theorem bump_eq_ok {k : B32} :
    bump m k d = .ok m' ↔ ∃ v : U64, v.val = (m.getD k 0).val + d.val ∧ m.insert k v = m' := by
  simp [bump, Except.bind_eq_ok, Word.addOrPanic_eq_ok, pure, Except.pure]

/-- **One addition at a time**: the next one goes through, and the rest fit what it leaves. -/
theorem fits_cons : Fits key m ((c, d) :: l) ↔ ∃ m', bump m (key c) d = .ok m' ∧ Fits key m' l := by
  have hrow : ∀ {v : U64}, v.val = (m.getD (key c) 0).val + d.val → ∀ k,
      ((m.insert (key c) v).getD k 0).val + ((l.filter fun a => key a.1 = k).map fun a =>
        a.2.val).sum = (m.getD k 0).val
        + ((((c, d) :: l).filter fun a => key a.1 = k).map fun a => a.2.val).sum := by
    intro v hv k
    rw [Std.ExtTreeMap.getD_insert]
    by_cases h : key c = k
    · subst h
      simp [hv, Nat.add_assoc]
    · simp [h]
  constructor
  · intro h
    have hlt : (m.getD (key c) 0).val + d.val < 2 ^ 64 := by
      have := h (key c)
      simp only [filter_cons, decide_true, if_true, map_cons, sum_cons] at this
      omega
    refine ⟨_, bump_eq_ok.mpr ⟨⟨_, hlt⟩, rfl, rfl⟩, fun k => ?_⟩
    rw [hrow rfl]
    exact h k
  · rintro ⟨m', hm, h⟩ k
    obtain ⟨v, hv, rfl⟩ := bump_eq_ok.mp hm
    rw [← hrow hv]
    exact h k

theorem getD_of_bump {k : B32} (h : bump m k d = .ok m') (p : B32) :
    (m'.getD p 0).val = (m.getD p 0).val + if k = p then d.val else 0 := by
  obtain ⟨v, hv, rfl⟩ := bump_eq_ok.mp h
  rw [Std.ExtTreeMap.getD_insert]
  by_cases hk : k = p
  · subst hk
    simp [hv]
  · simp [hk]

theorem Fits.mono (h : Fits key m l) (hle : ∀ k, m'.getD k 0 ≤ m.getD k 0) : Fits key m' l :=
  fun k =>
  lt_of_le_of_lt (Nat.add_le_add_right (hle k) _) (h k)

/-! ## The loop -/

/-- **What a round that returned did**: the pair's watermark and the consumer's entitlement moved,
and the amount drawn was added to the provider's and the consumer's rows. -/
structure Drew (epoch : U64) (t : Tally) (c : BoardCheque) (t' : Tally) : Prop where
  store : t'.store = { t.store.drawn epoch c with rewardable := t'.store.rewardable }
  contrib : ∀ p, (t'.contrib.getD p 0).val = (t.contrib.getD p 0).val
    + if c.provider = p then (draw epoch t.store.subs t.store.servedPairWm c).2.val else 0
  spent : ∀ p, (t'.spent.getD p 0).val = (t.spent.getD p 0).val
    + if c.consumer = p then (draw epoch t.store.subs t.store.servedPairWm c).2.val else 0
  rewardable : ∀ p, (t'.store.rewardable.getD p 0).val = (t.store.rewardable.getD p 0).val
    + if c.provider = p then (draw epoch t.store.subs t.store.servedPairWm c).2.val else 0
  earned : ∀ p, t'.contrib.contains p = true → t.contrib.contains p = true ∨ c.provider = p

theorem drew_of_allocateCheque {epoch : U64} {t t' : Tally}
    (h : allocateCheque epoch t c = .ok t') :
    Drew epoch t c t' := by
  rw [allocateCheque_eq] at h
  dsimp only at h
  split at h
  · rename_i h0
    obtain rfl : _ = t' := Except.ok.inj h
    refine ⟨rfl, fun p => ?_, fun p => ?_, fun p => ?_, fun p hp => .inl hp⟩ <;>
      simp [h0, drawn, advanceServed]
  · obtain ⟨contrib, hc, h⟩ := Except.bind_eq_ok.mp h
    obtain ⟨spent, hs, h⟩ := Except.bind_eq_ok.mp h
    obtain ⟨total, ht, h⟩ := Except.bind_eq_ok.mp h
    obtain rfl : _ = t' := Except.ok.inj h
    have hc := mapError_eq_ok.mp hc
    refine ⟨rfl, getD_of_bump hc, getD_of_bump (mapError_eq_ok.mp hs),
      getD_of_bump (mapError_eq_ok.mp ht), fun p hp => ?_⟩
    obtain ⟨v, -, rfl⟩ := bump_eq_ok.mp hc
    rw [Std.ExtTreeMap.contains_insert, Bool.or_eq_true] at hp
    exact hp.symm.imp_right fun hk => by simpa using hk

theorem drawn_of_allocateCheque {epoch : U64} {t : Tally}
    (h : allocateCheque epoch t c = .error s) :
    s = t.store.drawn epoch c := by
  rw [allocateCheque_eq] at h
  dsimp only at h
  split at h
  · simp at h
  · unfold bump at h
    cases h₁ : (t.contrib.getD c.provider 0).addOrPanic
      (draw epoch t.store.subs t.store.servedPairWm c).2 with
    | error _ => simpa [h₁, bind, Except.bind, Except.mapError] using h.symm
    | ok _ =>
      cases h₂ : (t.spent.getD c.consumer 0).addOrPanic
        (draw epoch t.store.subs t.store.servedPairWm c).2 with
      | error _ => simpa [h₁, h₂, bind, Except.bind, Except.mapError, pure,
        Except.pure] using h.symm
      | ok _ =>
        cases h₃ : ((t.store.drawn epoch c).rewardable.getD c.provider 0).addOrPanic
          (draw epoch t.store.subs t.store.servedPairWm c).2 with
        | error _ =>
          simpa [h₁, h₂, h₃, bind, Except.bind, Except.mapError, pure, Except.pure] using h.symm
        | ok _ => simp [h₁, h₂, h₃, bind, Except.bind, Except.mapError, pure, Except.pure] at h

/-! ## What a gathering moves -/

/-- But for the watermarks, the entitlements and the running totals, `t` is `s`. -/
abbrev Moved (s t : SettlementStore) : Prop :=
  t = { s with
    paidWatermark := t.paidWatermark, servedPairWm := t.servedPairWm, subs := t.subs,
    rewardable := t.rewardable, pendingPaidMarks := t.pendingPaidMarks,
    pendingServedMarks := t.pendingServedMarks }

theorem Moved.foldPaid (h : Moved s t) (epoch poolAdd : U64) (p : B32 × U64) :
    Moved s (foldPaid epoch (t, poolAdd) p).1 := by
  unfold SettlementStore.foldPaid
  dsimp only
  split <;> exact (by rw [h])

theorem Moved.foldl_foldPaid (paid : List (B32 × U64)) (poolAdd : U64) (h : Moved s t) :
    Moved s (paid.foldl (SettlementStore.foldPaid epoch) (t, poolAdd)).1 := by
  induction paid generalizing t poolAdd with
  | nil => exact h
  | cons p paid ih => exact ih _ (h.foldPaid epoch poolAdd p)

theorem Moved.drawn (h : Moved s t) (epoch : U64) (c : BoardCheque)
    (rewardable : BTreeMap B32 U64) :
    Moved s { t.drawn epoch c with rewardable := rewardable } := by
  unfold SettlementStore.drawn advanceServed
  rw [h]

theorem gather_ok_iff {epoch : U64} {t : Tally} {poolAdd : U64} :
    s.gather epoch paid cheques = .ok (t, poolAdd)
      ↔ (chequeOrder cheques).foldlM (allocateCheque epoch)
          ⟨(paid.foldl (foldPaid epoch) (s, 0)).1, ∅, ∅⟩ = .ok t
        ∧ (paid.foldl (foldPaid epoch) (s, 0)).2 = poolAdd := by
  simp only [gather, Except.bind_eq_ok, pure, Except.pure, Except.ok.injEq, Prod.mk.injEq]
  constructor
  · rintro ⟨t', ht, rfl, ha⟩
    exact ⟨ht, ha⟩
  · rintro ⟨ht, ha⟩
    exact ⟨t, ht, rfl, ha⟩

theorem mem_chequeOrder : c ∈ chequeOrder cheques ↔ c ∈ cheques :=
  (perm_insertionSort _ cheques).mem_iff

/-- **The invariant rule of the gathering**: what holds after the payments and is kept by every
round holds of the tally. -/
theorem gather_invariant {epoch : U64} {t : Tally} {poolAdd : U64} {I : Tally → Prop}
    (h : s.gather epoch paid cheques = .ok (t, poolAdd))
    (h₀ : I ⟨(paid.foldl (foldPaid epoch) (s, 0)).1, ∅, ∅⟩)
    (hs : ∀ c ∈ cheques, ∀ t t', I t → Drew epoch t c t' → I t') : I t :=
  List.foldlM_invariant (gather_ok_iff.mp h).1 h₀ fun c hc t t' ht h =>
    hs c (mem_chequeOrder.mp hc) t t' ht (drew_of_allocateCheque h)

theorem gather_eq_error {s' : SettlementStore} {epoch : U64} {I : Tally → Prop}
    (h : s.gather epoch paid cheques = .error s')
    (h₀ : I ⟨(paid.foldl (foldPaid epoch) (s, 0)).1, ∅, ∅⟩)
    (hs : ∀ c ∈ cheques, ∀ t t', I t → Drew epoch t c t' → I t') :
    ∃ c ∈ cheques, ∃ t, I t ∧ s' = t.store.drawn epoch c := by
  have hlo : (chequeOrder cheques).foldlM (allocateCheque epoch)
      ⟨(paid.foldl (foldPaid epoch) (s, 0)).1, ∅, ∅⟩ = .error s' := by
    unfold gather at h
    dsimp only at h
    cases hl : (chequeOrder cheques).foldlM (allocateCheque epoch)
      ⟨(paid.foldl (foldPaid epoch) (s, 0)).1, ∅, ∅⟩ with
    | ok t => simp [hl, bind, Except.bind, pure, Except.pure] at h
    | error e => simpa [hl, bind, Except.bind] using h
  obtain ⟨c, hc, t, ht, herr⟩ := List.foldlM_eq_error hlo h₀ fun c hc t t' ht h =>
    hs c (mem_chequeOrder.mp hc) t t' ht (drew_of_allocateCheque h)
  exact ⟨c, mem_chequeOrder.mp hc, t, ht, drawn_of_allocateCheque herr⟩

/-- **A gathering leaves the other fields alone**, whether it returns or panics. -/
theorem moved_of_gather {epoch : U64} :
    (∀ {t a}, s.gather epoch paid cheques = .ok (t, a) → Moved s t.store)
      ∧ ∀ {s'}, s.gather epoch paid cheques = .error s' → Moved s s' := by
  have hs : Moved s (paid.foldl (foldPaid epoch) (s, 0)).1 := Moved.foldl_foldPaid epoch paid 0 rfl
  have hr : ∀ c ∈ cheques, ∀ t t' : Tally, Moved s t.store → Drew epoch t c t' →
      Moved s t'.store := fun c _ t t' ht hd => by
    rw [hd.store]
    exact ht.drawn epoch c _
  constructor
  · exact fun h => gather_invariant (I := fun t => Moved s t.store) h hs hr
  · intro s' h
    obtain ⟨c, -, t, ht, rfl⟩ := gather_eq_error (I := fun t => Moved s t.store) h hs hr
    exact ht.drawn epoch c _

/-- **The loop returns exactly when every accumulator can hold its allocations.** -/
theorem foldlM_allocateCheque_eq_ok (cheques : List BoardCheque) (t : Tally) :
    (∃ t', cheques.foldlM (allocateCheque epoch) t = .ok t') ↔ Fits BoardCheque.provider t.contrib
            (allocations epoch t.store.subs t.store.servedPairWm cheques)
        ∧ Fits BoardCheque.consumer t.spent
            (allocations epoch t.store.subs t.store.servedPairWm cheques)
        ∧ Fits BoardCheque.provider t.store.rewardable
            (allocations epoch t.store.subs t.store.servedPairWm cheques) := by
  induction cheques generalizing t with
  | nil => exact ⟨fun _ => ⟨fits_nil _ _, fits_nil _ _, fits_nil _ _⟩, fun _ => ⟨t, rfl⟩⟩
  | cons c cheques ih =>
    simp only [foldlM_cons, Except.bind_eq_ok, allocateCheque_eq, allocations]
    split
    · rename_i h0
      simp only [h0, fits_cons_zero, Except.ok.injEq, exists_eq_left']
      exact ih _
    · simp only [fits_cons, Except.bind_eq_ok, mapError_eq_ok, pure, Except.pure, Except.ok.injEq]
      constructor
      · rintro ⟨t', t₁, ⟨contrib, hc, spent, hs, total, ht, rfl⟩, h⟩
        obtain ⟨f1, f2, f3⟩ := (ih _).mp ⟨t', h⟩
        exact ⟨⟨contrib, hc, f1⟩, ⟨spent, hs, f2⟩, ⟨total, ht, f3⟩⟩
      · rintro ⟨⟨contrib, hc, f1⟩, ⟨spent, hs, f2⟩, ⟨total, ht, f3⟩⟩
        obtain ⟨t', h⟩ :=
          (ih ⟨{ t.store.drawn epoch c with rewardable := total }, contrib, spent⟩).mpr ⟨f1, f2, f3⟩
        exact ⟨t', _, ⟨contrib, hc, spent, hs, total, ht, rfl⟩, h⟩

end SettlementStore

end Zephcraft.Settlement
