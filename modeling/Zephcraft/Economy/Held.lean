import Zephcraft.Economy.Queue

/-!
# Economy/Held — what an account may still draw

The bytes left in an account's grants. A purchase adds what was paid for, rounded down; a draw takes
what it returns; the seeding allowance adds its tier, at most once a window. Expiry only loses.
-/

namespace Zephcraft.Economy

def granted (q : List Grant) : ℕ := (q.map fun g => g.remaining.val).sum

@[simp] theorem granted_nil : granted [] = 0 := rfl

@[simp] theorem granted_cons (g : Grant) (q : List Grant) :
    granted (g :: q) = g.remaining.val + granted q := by
  simp [granted]

@[simp] theorem granted_append (q r : List Grant) : granted (q ++ r) = granted q + granted r := by
  simp [granted]

namespace SubscriptionLedger

/-- **The drawing loop loses nothing**: what it used is what the queue is short of. -/
theorem granted_drain {q q' : List Grant} {want used used' : U64}
    (h : drain q want used = .ok (q', used')) :
    used'.val + granted q' = used.val + granted q := by
  induction q generalizing want used with
  | nil =>
    obtain ⟨rfl, rfl⟩ : [] = q' ∧ used = used' := by simpa [drain, pure, Except.pure] using h
    rfl
  | cons front q ih =>
    unfold drain at h
    split at h
    · obtain ⟨rfl, rfl⟩ : front :: q = q' ∧ used = used' := by simpa [pure, Except.pure] using h
      rfl
    · obtain ⟨sum, hsum, h⟩ := Except.bind_eq_ok.mp h
      have hsum := Word.addOrPanic_eq_ok.mp hsum
      have ht : (min front.remaining want).val ≤ front.remaining.val :=
        min_le_left front.remaining want
      have hr : (front.remaining.satSub (min front.remaining want)).val
          = front.remaining.val - (min front.remaining want).val := Word.val_satSub _ _
      split at h
      · rename_i hz
        have hn : (front.remaining.satSub (min front.remaining want)).val = 0 := by
          rw [hz]
          rfl
        have := ih h
        rw [granted_cons]
        omega
      · obtain ⟨rfl, rfl⟩ : _ = q' ∧ sum = used' := by simpa [pure, Except.pure] using h
        rw [granted_cons, granted_cons]
        dsimp only
        omega

variable (l : SubscriptionLedger) (c c' : B32) (epoch : U64)

theorem granted_unexpired_le (q : List Grant) : granted (unexpired epoch q) ≤ granted q :=
  ((List.dropWhile_sublist _).map _).sum_le_sum fun _ _ => Nat.zero_le _

/-- The bytes left to a consumer, expired grants included. -/
def held (l : SubscriptionLedger) (c : B32) : ℕ := granted (l.queue c)

theorem held_pushGrant (g : Grant) :
    (l.pushGrant c g).held c' = l.held c' + if c = c' then g.remaining.val else 0 := by
  rw [held, queue_pushGrant]
  by_cases h : c = c'
  · subst h
    simp [held]
  · simp [h, held]

theorem held_expire_le : (l.expire c epoch).held c' ≤ l.held c' := by
  rw [held, queue_expire]
  split
  · rename_i h
    subst h
    exact granted_unexpired_le epoch _
  · exact le_rfl

theorem held_seed :
    (l.seed c epoch).held c'
      = l.held c' + if c = c' ∧ l.Eligible c epoch then l.seedingPaidTier.val else 0 := by
  unfold seed
  dsimp only
  split
  · rename_i h
    have he : l.Eligible c epoch := h
    refine (held_pushGrant l c c' _).trans ?_
    simp [he]
  · rename_i h
    have he : ¬ l.Eligible c epoch := h
    simp [he]

theorem held_purchase_le (tokens price epoch window : U64) :
    (l.purchase c tokens price epoch window).held c'
      ≤ l.held c' + if c = c' then tokens.val * price.val / oneToken.val else 0 := by
  unfold purchase
  dsimp only
  split
  · exact Nat.le_add_right _ _
  · rw [held_pushGrant]
    refine Nat.add_le_add_left ?_ _
    split
    · refine (Nat.mod_le _ _).trans (Nat.div_le_div_right ?_)
      exact min_le_left _ _
    · exact le_rfl

/-- **A draw takes what it returns**, after the allowance was added where it is due. -/
theorem held_allocate_le {l m : SubscriptionLedger} {c : B32} {bytes epoch used : U64}
    (h : l.allocate c bytes epoch = .ok (m, used)) (c' : B32) :
    m.held c' + (if c = c' then used.val else 0)
      ≤ l.held c' + if c = c' ∧ l.Eligible c epoch then l.seedingPaidTier.val else 0 := by
  rw [allocate_eq] at h
  dsimp only at h
  cases hd : drain (((l.expire c epoch).seed c epoch).queue c) bytes 0 with
  | error e => simp [hd] at h
  | ok r =>
    obtain ⟨rfl, rfl⟩ : ((l.expire c epoch).seed c epoch).setQueue c r.1 = m ∧ r.2 = used := by
      simpa [hd] using h
    have hdr : r.2.val + granted r.1
        = (0 : U64).val + granted (((l.expire c epoch).seed c epoch).queue c) := granted_drain hd
    have hs := held_seed (l.expire c epoch) c c' epoch
    have hex := held_expire_le l c c' epoch
    have he : (l.expire c epoch).Eligible c epoch ↔ l.Eligible c epoch := by
      simp [Eligible]
    simp only [he, seedingPaidTier_expire] at hs
    rw [held, queue_setQueue]
    by_cases hc : c = c'
    · subst hc
      rw [if_pos rfl, if_pos rfl]
      rw [held] at hs
      simp only [Fin.val_zero, Nat.zero_add] at hdr
      omega
    · rw [if_neg hc, if_neg hc, ← held, hs]
      omega

end SubscriptionLedger

end Zephcraft.Economy
