import Zephcraft.Foundations.Reorder
import Zephcraft.Reward.Shares

/-!
# Reward/Canonical — a record does not see how its input was listed

The rows of an input are gathered by provider and by consumer, and its marks and its state are
sorted. So the order of the lists does not matter, and neither does whether what a provider
contributed, or a consumer spent, is one row or several.
-/

namespace Zephcraft.Reward

open List Std.ExtTreeMap BTreeMap Except

/-- Lists of contributions that say the same: in another order, or with two rows of a provider made
one. -/
inductive SameContributions : List Contribution → List Contribution → Prop
  | perm {l l' : List Contribution} (h : l.Perm l') : SameContributions l l'
  | merge {c c' both : Contribution} (l : List Contribution) (hc : c'.provider = c.provider)
    (hboth : both.provider = c.provider) (hbytes : both.bytes.val = c.bytes.val + c'.bytes.val)
      (hcumulative : both.cumulativeBytes = max c.cumulativeBytes c'.cumulativeBytes) :
      SameContributions (c :: c' :: l) (both :: l)
  | symm {l l' : List Contribution} (h : SameContributions l l') : SameContributions l' l
  | trans {l l' l'' : List Contribution} (h : SameContributions l l')
    (h' : SameContributions l' l'') : SameContributions l l''

/-- Lists of entitlements that say the same. -/
inductive SameEntitlements : List Entitlement → List Entitlement → Prop
  | perm {l l' : List Entitlement} (h : l.Perm l') : SameEntitlements l l'
  | merge {e e' both : Entitlement} (l : List Entitlement) (he : e'.consumer = e.consumer)
    (hboth : both.consumer = e.consumer)
      (hspent : both.spent = e.spent.satAdd e'.spent) (hremaining : both.remaining
        = max e.remaining e'.remaining) :
      SameEntitlements (e :: e' :: l) (both :: l)
  | symm {l l' : List Entitlement} (h : SameEntitlements l l') : SameEntitlements l' l
  | trans {l l' l'' : List Entitlement} (h : SameEntitlements l l') (h' : SameEntitlements l' l'') :
    SameEntitlements l l''

/-- Snapshots with the same rows, in any order. -/
structure SameState (s s' : EconomicSnapshot) : Prop where
  pool : s'.pool = s.pool
  minted : s'.minted = s.minted
  paidWatermarks : s.paidWatermarks.Perm s'.paidWatermarks
  servedWatermarks : s.servedWatermarks.Perm s'.servedWatermarks
  seedingNext : s.seedingNext.Perm s'.seedingNext
  claimed : s.claimed.Perm s'.claimed

structure Rearranged (i i' : RewardInput) : Prop where
  epoch : i'.epoch = i.epoch
  pool : i'.pool = i.pool
  contributions : SameContributions i.contributions i'.contributions
  entitlements : SameEntitlements i.entitlements i'.entitlements
  cumulativeIssued : i'.cumulativeIssued = i.cumulativeIssued
  issuance : i'.issuance = i.issuance
  paidMarks : i.paidMarks.Perm i'.paidMarks
  servedMarks : i.servedMarks.Perm i'.servedMarks
  paid : i'.paid = i.paid
  claimPayouts : i'.claimPayouts = i.claimPayouts
  state : SameState i.state i'.state

/-! ## Gathering the contributions -/

variable {m m' : BTreeMap B32 (U128 × U64)} {a b both : Contribution}

theorem addContribution_eq_ok :
    addContribution m a = .ok m'
      ↔ ∃ bytes : U128, bytes.val = (m.getD a.provider (0, 0)).1.val + a.bytes.val
      ∧ m.insert a.provider (bytes, max (m.getD a.provider (0, 0)).2 a.cumulativeBytes) = m' := by
  simp [addContribution, bind_eq_ok, Word.addOrPanic_eq_ok, pure, Except.pure]

theorem addContribution_twice_eq_ok (hp : b.provider = a.provider) :
    (addContribution m a >>= fun m => addContribution m b) = .ok m'
      ↔ ∃ bytes : U128, bytes.val = (m.getD a.provider (0, 0)).1.val + (a.bytes.val + b.bytes.val)
        ∧ m.insert a.provider (bytes,
          max (m.getD a.provider (0, 0)).2 (max a.cumulativeBytes b.cumulativeBytes)) = m' := by
  simp only [bind_eq_ok, addContribution_eq_ok, hp]
  constructor
  · rintro ⟨_, ⟨first, hf, rfl⟩, bytes, hb, rfl⟩
    rw [getD_insert_self] at hb ⊢
    refine ⟨bytes, by dsimp only at hb; omega, ?_⟩
    rw [insert_insert, max_assoc]
  · rintro ⟨bytes, hb, rfl⟩
    have hlt := bytes.isLt
    refine ⟨_, ⟨⟨(m.getD a.provider (0, 0)).1.val + a.bytes.val, by omega⟩, rfl, rfl⟩, bytes, ?_,
      ?_⟩
    · rw [getD_insert_self]
      dsimp only
      omega
    · rw [getD_insert_self, insert_insert, max_assoc]

theorem addContribution_swap (hp : b.provider ≠ a.provider)
    (h : (addContribution m a >>= fun m => addContribution m b) = .ok m') :
    (addContribution m b >>= fun m => addContribution m a) = .ok m' := by
  simp only [bind_eq_ok, addContribution_eq_ok] at h ⊢
  obtain ⟨_, ⟨first, hf, rfl⟩, second, hs, rfl⟩ := h
  rw [Std.ExtTreeMap.getD_insert, if_neg (by simpa using hp.symm)] at hs ⊢
  refine ⟨_, ⟨second, hs, rfl⟩, first, ?_, ?_⟩
  · rwa [Std.ExtTreeMap.getD_insert, if_neg (by simpa using hp)]
  · rw [Std.ExtTreeMap.getD_insert, if_neg (by simpa using hp), insert_comm _ hp]

theorem addContribution_comm (a b : Contribution) (m : BTreeMap B32 (U128 × U64)) :
    (addContribution m a >>= fun m => addContribution m b)
      = (addContribution m b >>= fun m => addContribution m a) := by
  refine eq_of_ok_iff fun m' => ?_
  by_cases hp : b.provider = a.provider
  · rw [addContribution_twice_eq_ok hp, addContribution_twice_eq_ok hp.symm, hp,
      Nat.add_comm b.bytes.val, max_comm b.cumulativeBytes]
  · exact ⟨addContribution_swap hp, addContribution_swap (Ne.symm hp)⟩

theorem byProvider_eq {l l' : List Contribution} (h : SameContributions l l') :
    byProvider l' = byProvider l := by
  induction h with
  | perm h => exact (h.foldlM_eq addContribution_comm ∅).symm
  | merge l hc hbo hb hcu =>
    simp only [byProvider, foldlM_cons, ← bind_assoc]
    congr 1
    refine eq_of_ok_iff fun m' => ?_
    rw [addContribution_eq_ok, addContribution_twice_eq_ok hc, hbo, hb, hcu]
  | symm _ ih => exact ih.symm
  | trans _ _ ih ih' => exact ih'.trans ih

/-! ## Merging the entitlements -/

/-- The row of a consumer, raised by an entitlement. -/
def addEntitlement (m : BTreeMap B32 (U64 × U64)) (e : Entitlement) : BTreeMap B32 (U64 × U64) :=
  m.insert e.consumer ((m.getD e.consumer (0, 0)).1.satAdd e.spent,
    max (m.getD e.consumer (0, 0)).2 e.remaining)

theorem satAdd_assoc (x y z : U64) : (x.satAdd y).satAdd z = x.satAdd (y.satAdd z) := by
  refine Fin.ext ?_
  simp only [Word.val_satAdd]
  omega

theorem satAdd_comm (x y : U64) : x.satAdd y = y.satAdd x := by
  refine Fin.ext ?_
  simp only [Word.val_satAdd]
  omega

theorem addEntitlement_twice (m : BTreeMap B32 (U64 × U64)) {e e' : Entitlement}
    (hc : e'.consumer = e.consumer) :
    addEntitlement (addEntitlement m e) e'
      = m.insert e.consumer ((m.getD e.consumer (0, 0)).1.satAdd (e.spent.satAdd e'.spent),
          max (m.getD e.consumer (0, 0)).2 (max e.remaining e'.remaining)) := by
  rw [addEntitlement, addEntitlement, hc, getD_insert_self, insert_insert]
  dsimp only
  rw [satAdd_assoc, max_assoc]

theorem addEntitlement_comm (m : BTreeMap B32 (U64 × U64)) (e e' : Entitlement) :
    addEntitlement (addEntitlement m e) e' = addEntitlement (addEntitlement m e') e := by
  by_cases hc : e'.consumer = e.consumer
  · rw [addEntitlement_twice m hc, addEntitlement_twice m hc.symm, hc, satAdd_comm e.spent,
      max_comm e.remaining]
  · rw [addEntitlement, addEntitlement, addEntitlement, addEntitlement, Std.ExtTreeMap.getD_insert,
      if_neg (by simpa using Ne.symm hc), Std.ExtTreeMap.getD_insert, if_neg (by simpa using hc),
      insert_comm _ (Ne.symm hc)]

theorem byConsumer_eq {l l' : List Entitlement} (h : SameEntitlements l l') :
    byConsumer l' = byConsumer l := by
  have hro : l'.foldl addEntitlement ∅ = l.foldl addEntitlement ∅ := by
    induction h with
    | perm h => exact (h.foldl_eq' (fun e _ e' _ m => addEntitlement_comm m e e') ∅).symm
    | merge l hc hb hs hr =>
      rw [foldl_cons, foldl_cons, foldl_cons, addEntitlement_twice ∅ hc, addEntitlement, hb, hs, hr]
    | symm _ ih => exact ih.symm
    | trans _ _ ih ih' => exact ih'.trans ih
  exact congrArg (fun rows : BTreeMap B32 (U64 × U64) => rows.toList.map fun e =>
    (⟨e.1, e.2.1, e.2.2⟩ : Entitlement)) hro

/-! ## The record -/

theorem sortDedupByKey_eq {α κ : Type*} [Ord α] [Std.TransOrd α] [Std.LawfulEqOrd α] [DecidableEq κ]
    (key : α → κ) {l l' : List α} (h : l.Perm l') :
    sortDedupByKey key l' = sortDedupByKey key l := by
  rw [sortDedupByKey, sortDedupByKey, h.insertionSort_compare_eq]

theorem settledState_eq {i i' : RewardInput} (h : Rearranged i i') (issued : U64) :
    settledState i' issued = settledState i issued := by
  simp only [settledState, h.state.pool, h.paid, h.claimPayouts, h.cumulativeIssued,
    sortDedupByKey_eq _ h.state.paidWatermarks, sortDedupByKey_eq _ h.state.servedWatermarks,
    sortDedupByKey_eq _ h.state.seedingNext, sortDedupByKey_eq _ h.state.claimed]

/-- **The record is canonical**: inputs that say the same have the same record, its state hash
included, or none. -/
theorem compute_eq_of_rearranged (blake3 : Bytes → B32) {i i' : RewardInput} (h : Rearranged i i') :
    compute blake3 i' = compute blake3 i := by
  simp only [compute, recordOf, byProvider_eq h.contributions, byConsumer_eq h.entitlements,
    settledState_eq h, sortDedupByKey_eq _ h.paidMarks, sortDedupByKey_eq _ h.servedMarks, h.epoch,
    h.pool, h.cumulativeIssued, h.issuance]

/-- The three providers with two marks of one payer, and two rows of a consumer. -/
def listedTwice : RewardInput :=
  { threeProviders with
    entitlements := [⟨4, 1, 7⟩, ⟨5, 2, 2⟩, ⟨4, 3, 6⟩]
    paidMarks := [(4, 9), (5, 1), (4, 8)] }

/-- The same, merged where that can be done and in another order. -/
def listedOnce : RewardInput :=
  { threeProviders with
    contributions := [⟨1, 2, 5⟩, ⟨2, 3, 3⟩, ⟨3, 2, 2⟩, ⟨9, 0, 0⟩]
    entitlements := [⟨4, 4, 7⟩, ⟨5, 2, 2⟩]
    paidMarks := [(4, 8), (4, 9), (5, 1)] }

theorem rearranged_listedOnce : Rearranged listedTwice listedOnce where
  epoch := rfl
  pool := rfl
  contributions := by
    have hp :
        listedTwice.contributions.Perm [⟨1, 1, 5⟩, ⟨1, 1, 4⟩, ⟨2, 3, 3⟩, ⟨3, 2, 2⟩, ⟨9, 0, 0⟩] := by
      decide +kernel
    exact .trans (.perm hp) (.merge _ rfl rfl rfl rfl)
  entitlements := by
    have hp : listedTwice.entitlements.Perm [⟨4, 1, 7⟩, ⟨4, 3, 6⟩, ⟨5, 2, 2⟩] := by decide +kernel
    exact .trans (.perm hp) (.merge _ rfl rfl rfl rfl)
  cumulativeIssued := rfl
  issuance := rfl
  paidMarks := by decide +kernel
  servedMarks := .refl _
  paid := rfl
  claimPayouts := rfl
  state := ⟨rfl, rfl, .refl _, .refl _, .refl _, .refl _⟩

theorem compute_eq_of_rearranged_listedOnce :
    compute blake3 listedOnce = compute blake3 listedTwice :=
  compute_eq_of_rearranged blake3 rearranged_listedOnce

end Zephcraft.Reward
